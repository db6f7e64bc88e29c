import LiveEdit.Proofs.Parse.Cuts
import LiveEdit.Proofs.Parse.Placing

namespace LiveEdit
open List

namespace Tree

def isMark (k : Kind) (t : Tree) : Bool := !t.isNode && t.kind == k

def isGap (t : Tree) : Bool := !t.isNode && t.kind.isTrivia

def Suits : Outline → List Tree → Prop
  | .leaf k, X => ∃ x, X = [.token k x]
  | .fault _, X => X = []
  | .branch k _, X => ∃ us, X = [.node k us]

inductive Grown : List Outline → List Tree → Prop where
  | nil : Grown [] []
  | cons {o : Outline} {os : List Outline} {Q X ts : List Tree} (gaps : ∀ q ∈ Q, q.isGap = true)
      (suits : Suits o X) (more : Grown os ts) : Grown (o :: os) (Q ++ (X ++ ts))

namespace Grown

variable {o : Outline} {os ps : List Outline} {ts : List Tree} {t : Tree} {k : Kind}

lemma split (h : Grown (os ++ ps) ts) : ∃ A B, ts = A ++ B ∧ Grown os A ∧ Grown ps B := by
  induction os generalizing ts with
  | nil => exact ⟨[], ts, rfl, .nil, h⟩
  | cons o os ih =>
    cases h with
    | @cons _ _ Q X _ gaps suits more =>
      obtain ⟨A, B, rfl, hA, hB⟩ := ih more
      exact ⟨Q ++ (X ++ A), B, by simp only [append_assoc], .cons gaps suits hA, hB⟩

lemma mem (h : Grown os ts) (ht : t ∈ ts) : t.isGap = true ∨ ∃ o ∈ os, Suits o [t] := by
  induction h with
  | nil => cases ht
  | @cons o os Q X ts gaps suits more ih =>
    rcases mem_append.1 ht with ht | ht
    · exact .inl (gaps t ht)
    rcases mem_append.1 ht with ht | ht
    · refine .inr ⟨o, mem_cons_self, ?_⟩
      cases o with
      | leaf k =>
        obtain ⟨x, rfl⟩ := suits
        obtain rfl := mem_singleton.1 ht
        exact ⟨x, rfl⟩
      | fault c =>
        obtain rfl := suits
        cases ht
      | branch k parts =>
        obtain ⟨us, rfl⟩ := suits
        obtain rfl := mem_singleton.1 ht
        exact ⟨us, rfl⟩
    · exact (ih ht).imp_right fun ⟨o, ho, hsuits⟩ => ⟨o, mem_cons_of_mem _ ho, hsuits⟩

lemma opening (h : Grown (o :: os) ts) (hopen : ∀ t ∈ ts.head?, t.isGap = false) :
    (∃ X us, ts = X ++ us ∧ Suits o X ∧ Grown os us) := by
  cases h with
  | @cons _ _ Q X us gaps suits more =>
    cases Q with
    | nil => exact ⟨X, us, rfl, suits, more⟩
    | cons q Q =>
      have hgap := gaps q mem_cons_self
      rw [hopen q rfl] at hgap
      cases hgap

end Grown
end Tree

namespace Tree

def isBrace (t : Tree) : Bool := t.isMark .leftCurly || t.isMark .rightCurly

def isListed (t : Tree) : Bool := t.isNode && (t.kind.isStatement || t.kind == .error)

def Fenced (inside : Tree → Bool) (ts : List Tree) : Prop :=
  ∃ left body close, ts = left :: (body ++ close) ∧ left.isMark .leftCurly = true ∧
  (∀ t ∈ body, inside t = true) ∧
    (close = [] ∨ ∃ right, close = [right] ∧ right.isMark .rightCurly = true)

variable {t : Tree} {o : Outline} {body parts : List Outline} {ts : List Tree} {S : Kind → Bool}

lemma Suits.of_branch (h : Suits o [t]) (ho : o.isBranch = true) :
    ∃ k ps us, o = .branch k ps ∧ t = .node k us := by
  cases o with
  | leaf | fault => cases ho
  | branch k ps =>
    obtain ⟨us, hus⟩ := h
    exact ⟨k, ps, us, rfl, (cons.inj hus).1⟩

lemma Suits.not_brace (h : Suits o [t]) (ho : o.isBrace = false) : t.isBrace = false := by
  cases o with
  | leaf k =>
    obtain ⟨x, hx⟩ := h
    obtain ⟨rfl, -⟩ := cons.inj hx
    cases k <;> first | rfl | cases ho
  | fault => cases h
  | branch k parts =>
    obtain ⟨us, hus⟩ := h
    obtain ⟨rfl, -⟩ := cons.inj hus
    rfl

lemma isNode_of_gap (h : t.isGap = true) : ¬t.isNode = true := by
  cases t with
  | token => exact Bool.false_ne_true
  | node => cases h

lemma not_brace_of_gap (h : t.isGap = true) : t.isBrace = false := by
  cases t with
  | token k x => cases k <;> first | rfl | cases h
  | node => cases h

lemma Grown.closing {close : Outline} (h : Grown (body ++ [close]) ts)
    (hclose : close.isClosing = true) :
    ∃ us vs, ts = us ++ vs ∧ (∀ u ∈ us, u.isGap = true ∨ ∃ o ∈ body, Suits o [u]) ∧
    (vs = [] ∧ close.isLeaf = false ∨ ∃ right, vs = [right] ∧ right.isMark .rightCurly = true) := by
  obtain ⟨A, B, rfl, hA, hB⟩ := h.split
  cases hB with
  | @cons _ _ Q X _ gaps suits more =>
    cases more
    have hinside : ∀ u ∈ A ++ Q, u.isGap = true ∨ ∃ o ∈ body, Suits o [u] := fun u hu =>
      (mem_append.1 hu).elim hA.mem fun hu => .inl (gaps u hu)
    refine ⟨A ++ Q, X, by simp, hinside, ?_⟩
    cases close with
    | leaf k =>
      obtain ⟨x, rfl⟩ := suits
      exact .inr ⟨_, rfl, hclose⟩
    | fault c =>
      obtain rfl := suits
      exact .inl ⟨rfl, rfl⟩
    | branch => cases hclose

lemma Grown.heading (h : Grown parts ts)
    (hparts : ∀ o ∈ parts, o.isHeading = true) {c : Tree} (hc : c ∈ ts) :
    c.isBrace = false ∧ (c.isNode = true → c.kind = .modifier ∨ c.kind = .name) := by
  rcases h.mem hc with hgap | ⟨o, ho, hsuits⟩
  · exact ⟨not_brace_of_gap hgap, fun hnode => absurd hnode (isNode_of_gap hgap)⟩
  · have hheading := hparts o ho
    cases o with
    | leaf k =>
      obtain ⟨x, hx⟩ := hsuits
      obtain ⟨rfl, -⟩ := cons.inj hx
      refine ⟨?_, fun hnode => by cases hnode⟩
      cases k <;> first | rfl | cases hheading
    | fault => cases hsuits
    | branch k ps =>
      obtain ⟨us, hus⟩ := hsuits
      obtain ⟨rfl, -⟩ := cons.inj hus
      exact ⟨rfl, fun _ => by simpa [Outline.isHeading, Tree.kind] using hheading⟩

end Tree

namespace Site
open LiveEdit.Tree

variable {t : Text} {s : Site} {parts : List Outline} {after : List Kind}

structure Regular (t : Text) (s : Site) : Prop where
  kind : s.kind ≠ .placeholder
  file : s.kind = .sourceFile → ∀ c ∈ s.tree.children, c.isGap = true ∨ c.isListed = true
  block : s.kind = .block → Fenced (fun c => c.isGap || c.isListed) s.tree.children
  closed : s.kind = .block → (∃ right ∈ s.tree.children.getLast?, right.isMark .rightCurly = true) ∨
    (Lexed.ofText t).between s.span.stop t.size = []
  braces : s.kind = .classDeclaration ∨ s.kind = .enumDeclaration →
    ∃ head list, s.tree.children = head ++ list ∧
    (∀ c ∈ head, c.isBrace = false ∧ (c.isNode = true → c.kind = .modifier ∨ c.kind = .name)) ∧
    (list = [] ∨ Fenced (fun c => !c.isBrace) list)
  modifier : s.kind = .modifier → ∃ k x, s.tree.children = [.token k x] ∧ k.isModifierKeyword = true
  name : s.kind = .name → ∃ x, s.tree.children = [.token .identifier x]

lemma regular_of_file (hk : s.kind = .sourceFile)
    (h : ∀ c ∈ s.tree.children, c.isGap = true ∨ c.isListed = true) : s.Regular t := by
  have hother {k : Kind} (hne : Kind.sourceFile ≠ k) : s.kind ≠ k := hk ▸ hne
  exact ⟨hother (by decide), fun _ => h, fun hblock => absurd hblock (hother (by decide)),
    fun hblock => absurd hblock (hother (by decide)),
    fun hbraces => hbraces.elim (fun hclass => absurd hclass (hother (by decide))) fun henum =>
    absurd henum (hother (by decide)), fun hmodifier => absurd hmodifier (hother (by decide)),
    fun hname => absurd hname (hother (by decide))⟩

structure Grows (t : Text) (s : Site) (parts : List Outline) (after : List Kind) : Prop where
  isNode : s.tree.isNode = true
  formed : Outline.Formed s.kind parts after
  nested : (∃ j : Kind, j.holds s.kind = true) ∧ ∀ o ∈ parts, o.Nested s.kind.holds
  grown : Grown parts s.tree.children
  opens : ∀ c ∈ s.tree.children.head?, c.isGap = false
  size : Outline.leavesAll parts ≠ [] → 0 < s.tree.size
  ends : Rule.peek after = .endOfFile → (Lexed.ofText t).between s.span.stop t.size = []

namespace Grows

lemma leaf {k : Kind} (h : Grows t s [.leaf k] after) : ∃ x, s.tree.children = [.token k x] := by
  obtain ⟨X, us, hchildren, ⟨x, rfl⟩, hrest⟩ := h.grown.opening h.opens
  cases hrest
  exact ⟨x, hchildren⟩

lemma listed (h : Grows t s parts after) (hk : s.kind = .block) {o : Outline} (ho : o ∈ parts)
    (hbranch : o.isBranch = true) {c : Tree} (hc : Suits o [c]) : c.isListed = true := by
  obtain ⟨k, ps, us, rfl, rfl⟩ := hc.of_branch hbranch
  have hnested := h.nested.2 _ ho
  rw [hk] at hnested
  cases hnested with
  | branch kind _ => exact kind

lemma block (h : Grows t s parts after) (hk : s.kind = .block) :
    Fenced (fun c => c.isGap || c.isListed) s.tree.children ∧
    ((∃ right ∈ s.tree.children.getLast?, right.isMark .rightCurly = true) ∨
      (Lexed.ofText t).between s.span.stop t.size = []) := by
  have hshape := h.formed.shape
  rw [hk] at hshape
  obtain ⟨body, close, rfl, hbody, hclose⟩ := hshape
  have hclosing : close.isClosing = true := hclose.elim (fun hleaf => by rw [hleaf]; rfl) And.left
  obtain ⟨X, us, hchildren, ⟨x, rfl⟩, hrest⟩ := h.grown.opening h.opens
  obtain ⟨bs, cs, rfl, hinside, hcs⟩ := hrest.closing hclosing
  refine ⟨⟨_, bs, cs, hchildren, rfl, fun b hb => ?_, hcs.imp_left And.left⟩, ?_⟩
  · rcases hinside b hb with hgap | ⟨o, ho, hsuits⟩
    · exact Bool.or_eq_true_iff.2 (.inl hgap)
    · exact Bool.or_eq_true_iff.2
        (.inr (h.listed hk (mem_cons_of_mem _ (mem_append_left _ ho)) (hbody o ho) hsuits))
  · rcases hcs with ⟨rfl, hleaf⟩ | ⟨right, rfl, hright⟩
    · rcases hclose with rfl | ⟨-, hend⟩
      · cases hleaf
      · exact .inr (h.ends hend)
    · refine .inl ⟨right, ?_, hright⟩
      rw [hchildren, ← append_assoc]
      exact getLast?_concat

lemma braces (h : Grows t s parts after) (hbraced : Outline.Braced parts) :
    ∃ head list, s.tree.children = head ++ list ∧
    (∀ c ∈ head, c.isBrace = false ∧ (c.isNode = true → c.kind = .modifier ∨ c.kind = .name)) ∧
    (list = [] ∨ Fenced (fun c => !c.isBrace) list) := by
  cases hbraced with
  | bare heading => exact ⟨s.tree.children, [], (append_nil _).symm,
    fun c hc => h.grown.heading heading hc, .inl rfl⟩
  | @list head body close heading inside closing =>
    obtain ⟨A, B, hchildren, hA, hB⟩ := h.grown.split
    cases hB with
    | @cons _ _ Q _ us gaps suits more =>
      obtain ⟨x, rfl⟩ := suits
      obtain ⟨bs, cs, rfl, hinside, hcs⟩ := more.closing closing
      refine ⟨A ++ Q, .token .leftCurly x :: (bs ++ cs), by rw [hchildren, append_assoc]; rfl,
        fun c hc => ?_, .inr ⟨_, bs, cs, rfl, rfl, fun b hb => ?_, hcs.imp_left And.left⟩⟩
      · rcases mem_append.1 hc with hc | hc
        · exact hA.heading heading hc
        · exact ⟨not_brace_of_gap (gaps c hc),
            fun hnode => absurd hnode (isNode_of_gap (gaps c hc))⟩
      · rw [Bool.not_eq_true']
        rcases hinside b hb with hgap | ⟨o, ho, hsuits⟩
        · exact not_brace_of_gap hgap
        · exact hsuits.not_brace (inside o ho)

lemma regular (h : Grows t s parts after) : s.Regular t where
  kind := h.formed.kind
  file hk := by
    obtain ⟨j, hj⟩ := h.nested.1
    rw [hk] at hj
    cases j <;> cases hj
  block hk := (h.block hk).1
  closed hk := (h.block hk).2
  braces hk := by
    have hshape := h.formed.shape
    rcases hk with hk | hk
    · rw [hk] at hshape
      exact h.braces hshape
    · rw [hk] at hshape
      exact h.braces hshape
  modifier hk := by
    have hshape := h.formed.shape
    rw [hk] at hshape
    obtain ⟨k, hkeyword, rfl⟩ := hshape
    obtain ⟨x, hx⟩ := h.leaf
    exact ⟨k, x, hx, hkeyword⟩
  name hk := by
    have hshape := h.formed.shape
    rw [hk] at hshape
    obtain rfl : parts = [.leaf .identifier] := hshape
    exact h.leaf

lemma hollow (h : Grows t s parts after) (hsize : s.tree.size = 0) :
    s.kind = .variableDeclaration ∧ s.tree.children = [] := by
  rcases h.formed.weight with hleaves | ⟨hk, c, rfl⟩
  · exact absurd hsize (h.size hleaves).ne'
  · obtain ⟨X, us, hchildren, rfl, hrest⟩ := h.grown.opening h.opens
    cases hrest
    exact ⟨hk, hchildren⟩

end Grows
end Site

namespace Braid
open LiveEdit.Tree

lemma gaps_of_trivia {Q : List (Kind × Text)} (hQ : ∀ l ∈ Q, l.1.isTrivia = true) :
    ∀ q ∈ Q.map ofLeaf, q.isGap = true := by
  intro q hq
  obtain ⟨l, hl, rfl⟩ := mem_map.1 hq
  exact hQ l hl

lemma grown_fillAll {os : List Outline} {ls : List (Kind × Text)} {ks : List Kind}
    (h : significant ls = Outline.leavesAll os ++ ks) : Grown os (fillAll os ls).trees := by
  induction os generalizing ls with
  | nil => exact .nil
  | cons o os ih =>
    obtain ⟨Q, V, rfl, hQ, hV, hsig, -⟩ := exists_trivia ls
    rw [Outline.leavesAll, append_assoc, ← hsig] at h
    have hgaps := gaps_of_trivia hQ
    cases o with
    | leaf k =>
      cases V with
      | nil => cases h
      | cons l V =>
        rw [significant_cons_of (hV l rfl)] at h
        obtain ⟨rfl, hrest⟩ := cons.inj h
        have hfill : (fillAll (.leaf l.1 :: os) (Q ++ l :: V)).trees =
            Q.map ofLeaf ++ ([ofLeaf l] ++ (fillAll os V).trees) := by
          rw [fillAll, fill, trivia_append hQ, trivia_opens hV]
          simp [Braid.andThen, next]
        rw [hfill]
        exact .cons hgaps ⟨l.2, rfl⟩ (ih hrest)
    | fault c =>
      have hfill : (fillAll (.fault c :: os) (Q ++ V)).trees =
          Q.map ofLeaf ++ ([] ++ (fillAll os V).trees) := by
        rw [fillAll, fill, trivia_append hQ, trivia_opens hV]
        simp [Braid.andThen]
      rw [hfill]
      exact .cons hgaps rfl (ih h)
    | branch k parts =>
      obtain ⟨ts, V', rfl, hrest, -, hfills⟩ := exists_fillAll parts V _ h
      have hinner := hfills [] fun l hl => by cases hl
      simp only [append_nil] at hinner
      rw [fillAll, fill_branch k hQ hV, hinner, Braid.andThen]
      dsimp only
      rw [append_assoc]
      exact .cons hgaps ⟨ts, rfl⟩ (ih hrest)

end Braid

namespace Outline

lemma nested_of_put {P : Place} {i k : Kind} {parts : List Outline}
    (h : ∀ o ∈ P.put (.branch k parts), o.Nested i.holds) :
    (∃ j : Kind, j.holds k = true) ∧ ∀ o ∈ parts, o.Nested k.holds := by
  induction P generalizing i with
  | here before after =>
    cases h (.branch k parts) (by simp [Place.put]) with
    | branch hk hparts => exact ⟨⟨i, hk⟩, hparts⟩
  | inside before j inner after ih =>
    cases h (.branch j (inner.put (.branch k parts))) (by simp [Place.put]) with
    | branch _ hparts => exact ih hparts

end Outline

namespace Parse
open LiveEdit.Tree

variable {t : Text} {a : Address} {i : Nat} {s : Site} {U V W : List (Kind × Text)}

lemma lex_ne_nil (t : Text) : ∀ l ∈ lex t, l.2 ≠ [] := by
  intro l hl
  obtain ⟨k, hk, rfl⟩ := mem_map.1 hl
  exact Lexed.text_ne_nil t k hk

lemma between_eq_nil (hlex : lex t = U ++ V) (hV : significant V = []) :
    (Lexed.ofText t).between (spell U).size t.size = [] := by
  rw [lex_eq] at hlex
  obtain ⟨us, ms, hlexemes, rfl, rfl⟩ := map_eq_append_iff.1 hlex
  have hall : Lexeme.ofText t = us ++ (ms ++ []) := by rw [hlexemes, append_nil]
  have htext : Lexeme.spell (us ++ ms) = t := by
    have hspell := (Lexeme.scans_ofText t).text
    rwa [append_nil, hlexemes, eq_comm] at hspell
  rw [Lexeme.spell_leaves, Lexed.between_eq hall rfl (congrArg Text.size htext), Lexeme.tokens,
    map_eq_nil_iff, filter_eq_nil_iff]
  intro l hl
  have htrivia : l.kind.isTrivia = true := significant_eq_nil.1 hV l.leaf (mem_map_of_mem hl)
  rw [htrivia]
  exact Bool.false_ne_true

lemma not_gap_of_opens {ts : List Tree} (h : Opens (leavesAll ts ++ W)) :
    ∀ u ∈ ts.head?, u.isGap = false := by
  intro u hu
  cases ts with
  | nil => cases hu
  | cons v ts =>
    obtain rfl := Option.some.inj hu
    cases v with
    | token k x => exact h (k, x) rfl
    | node => rfl

lemma exists_grows (h : (ofText t).site.at? (i :: a) = some s) :
    ∃ parts after, s.Grows t parts after := by
  obtain ⟨P, k, parts, U, V, hput, hlex, hU, hV, rfl, -⟩ := exists_place h
  have hleaves : significant V = Outline.leavesAll parts ++ Outline.leavesAll P.after := by
    have hall := leavesAll_outlines t
    rw [hput, Outline.Place.leavesAll_put, hlex, significant_append, hU] at hall
    exact (append_cancel_left hall).symm
  have hnever : Kind.endOfFile ∉ Outline.leavesAll P.after := by
    intro hmem
    refine Lexed.endOfFile_not_mem_significant t ?_
    have hall : Kind.endOfFile ∈ significant (lex t) := by
      rw [hlex, significant_append, hleaves]
      exact mem_append_right _ (mem_append_right _ hmem)
    rwa [significant, lex, map_map] at hall
  obtain ⟨ts, W, hVW, hW, -, hfill⟩ := Braid.exists_fillAll parts V _ hleaves
  have htrees := hfill [] fun l hl => by cases hl
  simp only [append_nil] at htrees
  have hVne : ∀ l ∈ V, l.2 ≠ [] := fun l hl => lex_ne_nil t l (hlex ▸ mem_append_right U hl)
  have hgrown := Braid.grown_fillAll hleaves
  rw [htrees] at hgrown ⊢
  have hopens : Opens (leavesAll ts ++ W) := by rwa [hVW]
  refine ⟨parts, Outline.leavesAll P.after, rfl, ?_, ?_, hgrown, not_gap_of_opens hopens,
    fun hne => ?_, fun hend => ?_⟩
  · rw [outlines_lex] at hput
    exact Outline.formed_ofKinds (Lexed.endOfFile_not_mem_significant t) hput
  · rw [outlines_lex] at hput
    exact Outline.nested_of_put (hput ▸ Outline.nested_ofKinds _)
  · -- a leaf that is no trivia has a text
    have hsig : significant (leavesAll ts) ≠ [] := by
      rw [← hVW, significant_append, hW] at hleaves
      rwa [append_cancel_right hleaves]
    obtain ⟨l, hl⟩ := exists_mem_of_ne_nil (leavesAll ts) fun hnil => hsig (by rw [hnil]; rfl)
    show 0 < sizeAll ts
    rw [sizeAll_eq_spell]
    exact spell_pos hl (hVne l (hVW ▸ mem_append_left W hl))
  · have hnil : Outline.leavesAll P.after = [] := by
      cases hafter : Outline.leavesAll P.after with
      | nil => rfl
      | cons j js =>
        rw [hafter] at hend hnever
        obtain rfl : j = .endOfFile := hend
        exact absurd mem_cons_self hnever
    have hstop :
        (⟨(spell U).size, .node k ts⟩ : Site).span.stop = (spell (U ++ leavesAll ts)).size := by
      rw [Site.span_stop, spell_append, Text.size_append, ← sizeAll_eq_spell]
      rfl
    rw [hstop]
    exact between_eq_nil (by rw [hlex, ← hVW, append_assoc]) (hW.trans hnil)

lemma regular_root (t : Text) : (ofText t).site.Regular t := by
  have hfile : ∀ c ∈ Braid.whole (outlines (lex t)) (lex t), c.isGap = true ∨
      c.isListed = true := by
    intro c hc
    have hleaves : significant (lex t) = Outline.leavesAll (outlines (lex t)) ++ [] := by
      rw [append_nil, leavesAll_outlines]
    obtain ⟨ts, W, -, hW, -, hfill⟩ := Braid.exists_fillAll _ _ _ hleaves
    have htrees := hfill [] fun l hl => by cases hl
    have hgrown := Braid.grown_fillAll hleaves
    simp only [append_nil] at htrees
    rw [Braid.whole, Braid.andThen] at hc
    rcases mem_append.1 hc with hc | hc
    · refine (hgrown.mem hc).imp_right fun hpart => ?_
      obtain ⟨o, ho, hsuits⟩ := hpart
      rw [outlines_lex] at ho
      obtain ⟨k, ps, us, rfl, rfl⟩ := hsuits.of_branch (Outline.isBranch_ofKinds _ o ho)
      cases Outline.nested_ofKinds _ _ ho with
      | branch kind _ => exact kind
    · rw [htrees] at hc
      obtain ⟨l, hl, rfl⟩ := mem_map.1 hc
      exact .inl (significant_eq_nil.1 hW l hl)
  rw [Parse.site, tree_ofText]
  exact Site.regular_of_file rfl hfile

end Parse
end LiveEdit
