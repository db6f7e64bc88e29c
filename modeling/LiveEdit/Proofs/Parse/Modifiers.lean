import LiveEdit.Proofs.Grammar.Modifiers
import LiveEdit.Proofs.Lexeme.Words
import LiveEdit.Proofs.Parse.Missing
import LiveEdit.Proofs.Parse.Placing
import LiveEdit.Proofs.Parse.Planting

/-! A text with other modifiers of a node has the same tree but for them. -/

namespace LiveEdit
open List

structure Rank where
  keyword : Lexeme
  behind : List Lexeme

namespace Rank
open LiveEdit.Tree

structure Proper (x : Rank) : Prop where
  keyword : x.keyword.kind.isModifierKeyword = true
  behind : ∀ l ∈ x.behind, l.kind.isTrivia = true

def lexemes (L : List Rank) : List Lexeme := L.flatMap fun x => x.keyword :: x.behind

def kinds (L : List Rank) : List Kind := L.map (·.keyword.kind)

def tree (x : Rank) : Tree := .node .modifier [ofLeaf x.keyword.leaf]

def trees (L : List Rank) : List Tree :=
  L.flatMap fun x => x.tree :: (x.behind.map Lexeme.leaf).map ofLeaf

variable {L L' : List Rank} {x : Rank} {ps : List Outline} {us R : List Lexeme} {ms ks : List Kind}

lemma lexemes_append (L L' : List Rank) : lexemes (L ++ L') = lexemes L ++ lexemes L' :=
  flatMap_append

lemma trees_append (L L' : List Rank) : trees (L ++ L') = trees L ++ trees L' := flatMap_append

lemma lexemes_cons (x : Rank) (L : List Rank) :
    lexemes (x :: L) = x.keyword :: (x.behind ++ lexemes L) := rfl

lemma trees_cons (x : Rank) (L : List Rank) :
    trees (x :: L) = x.tree :: ((x.behind.map Lexeme.leaf).map ofLeaf ++ trees L) := rfl

lemma not_trivia (h : x.Proper) : x.keyword.kind.isTrivia = false := by
  have hk := h.keyword
  generalize x.keyword.kind = k at hk
  cases k <;> first | rfl | cases hk

lemma trivia_behind (h : x.Proper) : ∀ l ∈ x.behind.map Lexeme.leaf, l.1.isTrivia = true := by
  intro l hl
  obtain ⟨m, hm, rfl⟩ := mem_map.1 hl
  exact h.behind m hm

lemma modifier_kinds (h : ∀ x ∈ L, x.Proper) : ∀ j ∈ kinds L, j.isModifierKeyword = true := by
  intro j hj
  obtain ⟨x, hx, rfl⟩ := mem_map.1 hj
  exact (h x hx).keyword

lemma significant_lexemes (h : ∀ x ∈ L, x.Proper) :
    significant ((lexemes L).map Lexeme.leaf) = kinds L := by
  induction L with
  | nil => rfl
  | cons x L ih =>
    have hx := h x mem_cons_self
    have hkey : x.keyword.leaf.1.isTrivia = false := not_trivia hx
    rw [lexemes_cons, map_cons, significant_cons_of hkey, map_append, significant_append,
      significant_eq_nil.2 (trivia_behind hx), ih fun y hy => h y (mem_cons_of_mem x hy)]
    rfl

lemma sizeAll_trees (L : List Rank) : sizeAll (trees L) = (Lexeme.spell (lexemes L)).size := by
  induction L with
  | nil => rfl
  | cons x L ih =>
    rw [trees_cons, lexemes_cons, sizeAll, sizeAll_append, sizeAll_leaves, Lexeme.spell_leaves, ih]
    simp [tree, Tree.size, sizeAll, ofLeaf, Lexeme.leaf, Lexeme.spell, Text.size_append]

lemma fillAll_behind {Q V : List (Kind × Text)}
    (hQ : ∀ l ∈ Q, l.1.isTrivia = true) (hne : ps ≠ []) : Braid.fillAll ps (Q ++ V) =
      ⟨Q.map ofLeaf ++ (Braid.fillAll ps V).trees, (Braid.fillAll ps V).rest⟩ := by
  induction Q with
  | nil => rfl
  | cons l Q ih =>
    rw [cons_append, Braid.fillAll_trivia (hQ l mem_cons_self) hne,
      ih fun m hm => hQ m (mem_cons_of_mem l hm)]
    rfl

lemma fillAll_modified (h : ∀ x ∈ L, x.Proper) (hne : ps ≠ []) (V : List (Kind × Text)) :
    Braid.fillAll (Grammar.modified (kinds L) ++ ps) ((lexemes L).map Lexeme.leaf ++ V) =
      ⟨trees L ++ (Braid.fillAll ps V).trees, (Braid.fillAll ps V).rest⟩ := by
  induction L with
  | nil => rfl
  | cons x L ih =>
    have hx := h x mem_cons_self
    have hkey : x.keyword.leaf.1.isTrivia = false := not_trivia hx
    have hfirst :
        ∀ ls, Braid.fill (.branch .modifier [.leaf x.keyword.kind]) (x.keyword.leaf :: ls) =
        ⟨[x.tree], ls⟩ := by
      intro ls
      simp only [Braid.fill, Braid.fillAll, Braid.trivia_cons hkey, Braid.andThen]
      rfl
    have hmore : Grammar.modified (kinds L) ++ ps ≠ [] := append_ne_nil_of_right_ne_nil _ hne
    rw [show Grammar.modified (kinds (x :: L)) ++ ps = .branch .modifier [.leaf x.keyword.kind] ::
      (Grammar.modified (kinds L) ++ ps) from rfl, lexemes_cons, map_cons, map_append, cons_append,
      append_assoc, Braid.fillAll, hfirst, Braid.andThen]
    dsimp only
    rw [fillAll_behind (trivia_behind hx) hmore, ih fun y hy => h y (mem_cons_of_mem x hy),
      trees_cons]
    simp only [append_assoc, cons_append, nil_append]

lemma exists_ranks (hopens : Opens (us.map Lexeme.leaf))
    (h : significant (us.map Lexeme.leaf) = ms ++ ks) (hms : ∀ j ∈ ms, j.isModifierKeyword = true) :
    ∃ L R, us = lexemes L ++ R ∧ (∀ x ∈ L, x.Proper) ∧ kinds L = ms ∧ Opens (R.map Lexeme.leaf) ∧
    significant (R.map Lexeme.leaf) = ks := by
  induction ms generalizing us with
  | nil => exact ⟨[], us, rfl, by simp, rfl, hopens, h⟩
  | cons m ms ih =>
    cases us with
    | nil => cases h
    | cons l us =>
      have hl : l.leaf.1.isTrivia = false := hopens l.leaf rfl
      rw [map_cons, significant_cons_of hl] at h
      obtain ⟨hm, hrest⟩ := cons.inj h
      have hsplit : us.takeWhile (·.kind.isTrivia) ++ us.dropWhile (·.kind.isTrivia) = us :=
        takeWhile_append_dropWhile
      have hbehind : ∀ u ∈ us.takeWhile (·.kind.isTrivia), u.kind.isTrivia = true := fun u hu =>
        mem_takeWhile_imp (p := fun u : Lexeme => u.kind.isTrivia) hu
      have hmore : Opens ((us.dropWhile (·.kind.isTrivia)).map Lexeme.leaf) := by
        intro u hu
        rw [head?_map] at hu
        obtain ⟨v, hv, rfl⟩ := Option.map_eq_some_iff.1 hu
        have hhead := head?_dropWhile_not (fun u : Lexeme => u.kind.isTrivia) us
        rw [hv] at hhead
        exact (show v.kind.isTrivia = false by simpa using hhead)
      have hproper : (⟨l, us.takeWhile (·.kind.isTrivia)⟩ : Rank).Proper :=
        ⟨(congrArg Kind.isModifierKeyword hm).trans (hms m mem_cons_self), hbehind⟩
      have hkinds : significant ((us.dropWhile (·.kind.isTrivia)).map Lexeme.leaf) = ms ++ ks := by
        rw [← hsplit, map_append, significant_append, significant_eq_nil.2 (trivia_behind hproper)]
          at hrest
        exact hrest
      obtain ⟨L, R, hus, hL, rfl, hR, hks⟩ :=
        ih hmore hkinds fun j hj => hms j (mem_cons_of_mem m hj)
      refine ⟨⟨l, us.takeWhile (·.kind.isTrivia)⟩ :: L, R, ?_, ?_, ?_, hR, hks⟩
      · rw [lexemes_cons, cons_append, append_assoc, ← hus, hsplit]
      · intro x hx
        rcases mem_cons.1 hx with rfl | hx
        · exact hproper
        · exact hL x hx
      · exact congrArg (· :: kinds L) hm

end Rank

namespace Braid
open LiveEdit.Tree

lemma of_mem_fillAll {os : List Outline} {ls : List (Kind × Text)} {t : Tree}
    (h : t ∈ (fillAll os ls).trees) (ht : t.isNode = true) :
    ∃ parts, .branch t.kind parts ∈ os := by
  have htrivia : ∀ ls : List (Kind × Text), t ∉ (trivia ls).trees := by
    intro ls hmem
    obtain ⟨l, -, rfl⟩ := mem_map.1 hmem
    cases ht
  have hnext : ∀ ls : List (Kind × Text), t ∉ (next ls).trees := by
    intro ls hmem
    cases ls with
    | nil => cases hmem
    | cons l ls =>
      obtain rfl := mem_singleton.1 hmem
      cases ht
  induction os generalizing ls with
  | nil => cases h
  | cons o os ih =>
    rw [fillAll] at h
    rcases mem_append.1 h with h | h
    · cases o with
      | leaf k =>
        rw [fill] at h
        rcases mem_append.1 h with h | h
        · exact absurd h (htrivia _)
        · exact absurd h (hnext _)
      | fault c =>
        rw [fill] at h
        rcases mem_append.1 h with h | h
        · exact absurd h (htrivia _)
        · cases h
      | branch k parts =>
        rw [fill] at h
        rcases mem_append.1 h with h | h
        · exact absurd h (htrivia _)
        · obtain rfl := mem_singleton.1 h
          exact ⟨parts, mem_cons_self⟩
    · obtain ⟨parts, hmem⟩ := ih h
      exact ⟨parts, mem_cons_of_mem o hmem⟩

end Braid

namespace Parse
open LiveEdit.Tree Rank
open Outline (Place leavesAll)

variable {ps : List Outline} {k : Kind}

/-- A node at an address of the tree of a text, by its modifiers and the rest of it, and the lexemes
before it, of the modifiers, and from the rest on. -/
structure Modified (t : Text) (a : Address) (k : Kind) (U : List Lexeme) (L : List Rank)
    (R : List Lexeme)
    (Y : List Tree) : Prop where
  site : (ofText t).site.at? a = some ⟨(Lexeme.spell U).size, .node k (trees L ++ Y)⟩
  lexed : Lexeme.ofText t = U ++ (lexemes L ++ R)
  proper : ∀ x ∈ L, x.Proper
  word : ∃ l ∈ R.head?, l.kind ∈ Lexeme.words
  first : ∃ y ∈ Y.head?, y.kind.isTrivia = false ∧ y.kind ≠ .modifier ∧ 0 < y.size
  bare : ∀ y ∈ Y, y.isNode = true → y.kind ≠ .modifier
  turn : ∀ L' t', (∀ x ∈ L', x.Proper) → Lexeme.ofText t' = U ++ (lexemes L' ++ R) →
    (k.isClassMember = true → L ≠ [] → L' = [] → ∀ d ∈ (ofText t).diagnostics,
      d.position.offset = (Lexeme.spell U).size → d.isForWord = false) →
    Replaced (.node k (trees L ++ Y)) (.node k (trees L' ++ Y)) a (Lexeme.spell U).size
    (ofText t).tree
      (ofText t').tree

lemma exists_word {R : List Lexeme} {ks : List Kind} (hps : Grammar.Heads k ps)
    (hR : Opens (R.map Lexeme.leaf)) (h : significant (R.map Lexeme.leaf) = leavesAll ps ++ ks) :
    ∃ l R', R = l :: R' ∧ l.kind.isTrivia = false ∧ l.kind ∈ Lexeme.words := by
  cases R with
  | nil => exact absurd (append_eq_nil_iff.1 h.symm).1 (Rule.leaves_heads hps)
  | cons l R =>
    have hl : l.leaf.1.isTrivia = false := hR l.leaf rfl
    have hmargin : Rule.peek (leavesAll ps) ∈ Grammar.margins :=
      Grammar.mem_margins (forall_mem_nil _) hps
    obtain ⟨j, js, hjs⟩ := exists_cons_of_ne_nil (Rule.leaves_heads hps)
    rw [map_cons, significant_cons_of hl, hjs] at h
    obtain ⟨hkind, -⟩ := cons.inj h
    rw [hjs, show Rule.peek (j :: js) = j from rfl, ← hkind] at hmargin
    have hwords : ∀ i ∈ Grammar.margins, i ∈ Lexeme.words := by decide
    exact ⟨l, R, rfl, hl, hwords _ hmargin⟩

lemma exists_first {l : Lexeme} (hps : Grammar.Heads k ps) (hl : l.kind.isTrivia = false)
    (hword : l.kind ∈ Lexeme.words) (hne : l.text ≠ []) (V : List (Kind × Text)) :
    ∃ y ∈ (Braid.fillAll ps (l.leaf :: V)).trees.head?, y.kind.isTrivia = false ∧
    y.kind ≠ .modifier ∧ 0 < y.size := by
  have hleaf : l.leaf.1.isTrivia = false := hl
  have hpos : 0 < l.text.size := Nat.pos_of_ne_zero fun hzero => hne (Text.eq_nil_of_size hzero)
  have hfirst := hps.first
  split at hfirst
  · obtain ⟨qs, rfl⟩ := hfirst
    refine ⟨.node .name [ofLeaf l.leaf], ?_, rfl, Kind.noConfusion, hpos⟩
    simp only [Grammar.named, Braid.fillAll, Braid.fill, Braid.trivia_cons hleaf, Braid.andThen]
    rfl
  · obtain ⟨j, qs, rfl, -⟩ := hfirst
    refine ⟨ofLeaf l.leaf, ?_, hl, ?_, hpos⟩
    · simp only [Braid.fillAll, Braid.fill, Braid.trivia_cons hleaf, Braid.andThen]
      rfl
    · intro heq
      have hkind : l.kind = .modifier := heq
      rw [hkind] at hword
      exact absurd hword (by decide)

lemma exists_modified {t : Text} {a : Address} {s : Site}
    (hat : (ofText t).site.at? a = some s) (hk : s.kind.isModified = true) : ∃ U L R Y,
      s = ⟨(Lexeme.spell U).size, .node s.kind (trees L ++ Y)⟩ ∧ Modified t a s.kind U L R Y := by
  cases a with
  | nil =>
    obtain rfl := Option.some.inj hat
    rw [show (ofText t).site.kind = .sourceFile from rfl] at hk
    cases hk
  | cons i a =>
    obtain ⟨P, k, parts, U, V, hput, hlex, hU, hV, rfl, haddress⟩ := exists_place hat
    have hputs := hput
    rw [outlines_lex] at hputs
    obtain ⟨ms, ps, rfl, hms, hps, hturn⟩ :=
      Outline.ofKinds_turned (Lexed.endOfFile_not_mem_significant t) hputs hk
    have hne : ps ≠ [] := by
      rintro rfl
      exact Rule.leaves_heads hps rfl
    rw [lex_eq] at hlex
    obtain ⟨uU, uV, htext, rfl, rfl⟩ := map_eq_append_iff.1 hlex
    have hsig : significant (uV.map Lexeme.leaf) = ms ++ (leavesAll ps ++ leavesAll P.after) := by
      have hall := leavesAll_outlines t
      rw [hput, Place.leavesAll_put, Rule.leaves_modified, lex_eq, htext, map_append,
        significant_append, hU] at hall
      rw [← append_cancel_left hall, append_assoc]
    obtain ⟨L, R, rfl, hL, rfl, hR, hks⟩ := exists_ranks hV hsig hms
    obtain ⟨l, R', rfl, hl, hword⟩ := exists_word hps hR hks
    have hlne : l.text ≠ [] := (Lexeme.scans_ofText t).text_ne_nil l (by simp [htext])
    -- stated for any ranks: it is used for those of the old text and for those of the new one
    have hfill : ∀ L' : List Rank, (∀ x ∈ L', x.Proper) →
        Braid.fillAll (Grammar.modified (kinds L') ++ ps)
        ((Rank.lexemes L' ++ l :: R').map Lexeme.leaf) =
          ⟨trees L' ++ (Braid.fillAll ps ((l :: R').map Lexeme.leaf)).trees,
            (Braid.fillAll ps ((l :: R').map Lexeme.leaf)).rest⟩ := by
      intro L' hL'
      rw [map_append]
      exact fillAll_modified hL' hne _
    rw [hfill L hL, Lexeme.spell_leaves] at hat ⊢
    refine ⟨uU, L, l :: R', _, rfl, hat, htext, hL, ⟨l, rfl, hword⟩,
      exists_first hps hl hword hlne _, ?_, ?_⟩
    · intro y hy hnode hmod
      obtain ⟨qs, hqs⟩ := Braid.of_mem_fillAll hy hnode
      exact hps.bare qs (hmod ▸ hqs)
    · intro L' t' hL' htext' hsoft
      have hgap : Grammar.Gap k.isClassMember (Outline.lacksWordAll P.before)
          (Rule.peek (kinds L ++ leavesAll ps)) (Rule.peek (kinds L' ++ leavesAll ps)) := by
        -- only the name of a class member that loses all its modifiers could be read as a word
        -- missing before it
        refine Grammar.gap_heads hps (modifier_kinds hL) (modifier_kinds hL')
          fun hmember hsome hnone => ?_
        obtain ⟨x, L, rfl⟩ := exists_cons_of_ne_nil fun hnil : L = [] => hsome (by rw [hnil]; rfl)
        apply Bool.eq_false_iff.2
        intro hlacks
        obtain ⟨d, hd, hoffset, hforWord⟩ := exists_missing hputs htext
          (not_trivia (hL x mem_cons_self)) (by rw [← hU, significant, map_map]; rfl) hlacks
        have hnot := hsoft hmember (cons_ne_nil x L) (map_eq_nil_iff.1 hnone) d hd hoffset
        rw [hforWord] at hnot
        cases hnot
      have hlex' : lex t' = uU.map Lexeme.leaf ++ (Rank.lexemes L' ++ l :: R').map Lexeme.leaf := by
        rw [lex_eq, htext', map_append]
      have hput' : outlines (lex t') = P.put (.branch k (Grammar.modified (kinds L') ++ ps)) := by
        rw [← hturn (kinds L') (modifier_kinds hL') hgap, Place.leavesAll_put,
          Rule.leaves_modified, hlex']
        refine congrArg Outline.ofKinds ?_
        change significant _ = _
        rw [significant_append, hU, map_append, significant_append, significant_lexemes hL', hks,
          append_assoc]
      have hopens' : Opens ((Rank.lexemes L' ++ l :: R').map Lexeme.leaf) := by
        cases L' with
        | nil => exact hR
        | cons x L' =>
          intro m hm
          obtain rfl := Option.some.inj hm
          exact not_trivia (hL' x mem_cons_self)
      have hlex : lex t = uU.map Lexeme.leaf ++ (Rank.lexemes L ++ l :: R').map Lexeme.leaf := by
        rw [lex_eq, htext, map_append]
      have hreplaced :=
        replaced_put hput hput' hlex hlex' hU hV hopens' (by rw [hfill L hL, hfill L' hL'])
      rwa [hfill L hL, hfill L' hL', Lexeme.spell_leaves, haddress] at hreplaced

end Parse
end LiveEdit
