import LiveEdit.Proofs.Grammar.Lists
import LiveEdit.Proofs.Parse.Planting

/-! Lists in a tree. Other trees may be put into a list, if it still fits and their tokens keep
apart. -/

namespace LiveEdit
open List Option

namespace Grammar

variable {k j o c : Kind}

lemma Brackets.not_trivia (h : Brackets k o c) : o.isTrivia = false ∧ c.isTrivia = false := by
  cases h with
  | declarations keyword =>
    simp only [Phrase.isVariableKeyword, Bool.or_eq_true, decide_eq_true_eq] at keyword
    rcases keyword with (rfl | rfl) | rfl <;> exact ⟨rfl, rfl⟩
  | _ => exact ⟨rfl, rfl⟩

lemma port_of_lists (h : k.lists j = true) : k = .sourceFile ∨ ∃ r, Port k r := by
  unfold Kind.lists at h
  split at h
  · exact .inl rfl
  · exact .inr ⟨_, .block⟩
  · exact .inr ⟨_, .classes⟩
  · exact .inr ⟨_, .enums⟩
  · exact .inr ⟨_, .parameters⟩
  · exact .inr ⟨_, .arguments⟩
  · exact .inr ⟨_, .declarations⟩
  · cases h

end Grammar

lemma Outline.Within.nested {o : Outline} {os : List Outline} {S : Kind → Bool} (h : Within o os)
    (hs : ∀ p ∈ os, p.Nested S) : ∃ T, o.Nested T := by
  induction h generalizing S with
  | here mem => exact ⟨S, hs o mem⟩
  | inside mem _ ih =>
    cases hs _ mem with
    | branch _ parts => exact ih parts

namespace Tree
open Grammar

variable {t : Tree} {ts F H M G : List Tree} {a : Address} {k : Kind}

def IsTrivia (t : Tree) : Prop := ∃ k x, t = .token k x ∧ k.isTrivia = true

lemma isTrivia_of_outlineAll (h : outlineAll ts = []) : ∀ t ∈ ts, t.IsTrivia := by
  intro t ht
  by_contra hno
  obtain ⟨o, ho⟩ : ∃ o, t.outline = [o] := exists_outline fun k x heq =>
    Bool.eq_false_iff.2 fun hk => hno ⟨k, x, heq, hk⟩
  have hmem : o ∈ outlineAll ts := mem_outlineAll.2 ⟨t, ht, ho ▸ mem_singleton_self o⟩
  rw [h] at hmem
  exact not_mem_nil hmem

lemma exists_split_outline {os ps : List Outline} (h : outlineAll ts = os ++ .leaf k :: ps) :
    ∃ us x vs, ts = us ++ .token k x :: vs ∧ outlineAll us = os ∧ outlineAll vs = ps := by
  induction ts generalizing os with
  | nil => exact absurd h.symm (append_ne_nil_of_right_ne_nil _ (cons_ne_nil _ _))
  | cons t ts ih =>
    rw [outlineAll] at h
    by_cases htrivia : t.IsTrivia
    · obtain ⟨l, x, rfl, hl⟩ := htrivia
      rw [outline, if_pos hl, nil_append] at h
      obtain ⟨us, y, vs, rfl, rfl, rfl⟩ := ih h
      exact ⟨.token l x :: us, y, vs, rfl, by rw [outlineAll, outline, if_pos hl, nil_append], rfl⟩
    · obtain ⟨p, hp⟩ : ∃ p, t.outline = [p] := exists_outline fun l x heq =>
        Bool.eq_false_iff.2 fun hl => htrivia ⟨l, x, heq, hl⟩
      rw [hp, singleton_append] at h
      cases os with
      | nil =>
        obtain ⟨rfl, rfl⟩ := cons.inj h
        obtain ⟨x, rfl⟩ := eq_token_of_outline hp
        exact ⟨[], x, ts, rfl, rfl, rfl⟩
      | cons q os =>
        obtain ⟨rfl, hrest⟩ := cons.inj h
        obtain ⟨us, y, vs, rfl, rfl, rfl⟩ := ih hrest
        exact ⟨t :: us, y, vs, rfl, by rw [outlineAll, hp, singleton_append], rfl⟩

inductive Bed : Address → Kind → List Tree → List Tree → List Tree → Prop where
  | file {M : List Tree} (fits : Fits .sourceFile (outlineAll M)) : Bed [] .sourceFile [] M []
  | list {i : Nat} {a : Address} {k o c : Kind} {r : Rule} {H M : List Tree} (x y : Text)
    (port : Port k r)
      (contains : Contains r k o c (outlineAll H) (outlineAll M)) :
      Bed (i :: a) k (H ++ [.token o x]) M [.token c y]

lemma Bed.fits (h : Bed a k F M G) : Fits k (outlineAll M) := by
  cases h with
  | file fits => exact fits
  | list x y port contains => exact contains.fits

lemma Bed.replace {M' : List Tree} (h : Bed a k F M G) (hfits : Fits k (outlineAll M')) :
    Bed a k F M' G := by
  cases h with
  | file => exact .file hfits
  | list x y port contains =>
    exact .list x y port ⟨contains.brackets, contains.heading, hfits, contains.gives⟩

lemma Bed.mem (h : Bed a k F M G) :
    ∀ t ∈ M, t.IsTrivia ∨ (k.hasCommas = true ∧ ∃ x, t = .token .comma x) ∨ ∃ j ps, t = .node j ps ∧
    k.lists j = true := by
  intro t ht
  by_cases htrivia : t.IsTrivia
  · exact .inl htrivia
  · obtain ⟨p, hp⟩ : ∃ p, t.outline = [p] := exists_outline fun l x heq =>
      Bool.eq_false_iff.2 fun hl => htrivia ⟨l, x, heq, hl⟩
    have hmem : p ∈ outlineAll M := mem_outlineAll.2 ⟨t, ht, hp ▸ mem_singleton_self p⟩
    rcases h.fits.mem (faults_outlineAll M) p hmem with ⟨rfl, hcommas⟩ | ⟨j, ps, rfl, hj⟩
    · exact .inr (.inl ⟨hcommas, eq_token_of_outline hp⟩)
    · cases t with
      | token l x =>
        have hleaf := hp
        simp only [outline] at hleaf
        split at hleaf <;> cases hleaf
      | node l us =>
        obtain ⟨rfl, -⟩ := Outline.branch.inj (cons.inj hp).1
        exact .inr (.inr ⟨l, us, rfl, hj⟩)

lemma Bed.item (h : Bed a k F M G) (hk : k = .sourceFile ∨ k = .block) : ∀ t ∈ M, Tree.Item t := by
  intro t ht
  rcases h.mem t ht with ⟨j, x, rfl, hj⟩ | ⟨hcommas, -⟩ | ⟨j, ps, rfl, hj⟩
  · exact .trivia x hj
  · rcases hk with rfl | rfl <;> cases hcommas
  · rcases hk with rfl | rfl <;> exact .statement ps hj

lemma Bed.frame (h : Bed a k F M G) (hk : k = .sourceFile ∨ k = .block)
    (hfirm : a = [] ∨ Firm (.node k (F ++ (M ++ G)))) : Frame a k F G := by
  cases h with
  | file => exact .file
  | @list i a k o c r H M x y port contains =>
    have hfirm := hfirm.resolve_left (cons_ne_nil _ _)
    obtain rfl : k = .block := hk.resolve_left fun hroot => by cases hroot ▸ port
    cases contains.brackets
    cases port
    have hg := contains.gives _ [] (faults_outlineAll M) contains.fits
    obtain ⟨ss, heq, -⟩ :=
      (gives_block (by simp [Outline.faultsAll, Outline.faults, faults_outlineAll])).1 hg
    have hnil : outlineAll H = [] := by
      by_contra hne
      obtain ⟨p, ps, hps⟩ := exists_cons_of_ne_nil hne
      rw [hps] at heq
      obtain rfl := (cons.inj heq).1
      cases contains.heading (.leaf .leftCurly) (hps ▸ mem_cons_self) with
      | word kind => exact kind rfl
    -- Trivia before the brace would be outside of the node.
    obtain rfl : H = [] := by
      cases H with
      | nil => rfl
      | cons t H =>
        obtain ⟨l, z, rfl, hl⟩ := isTrivia_of_outlineAll hnil t mem_cons_self
        cases hfirm with
        | node starts _ _ =>
          obtain ⟨m, hm, hheavy⟩ := starts
          obtain rfl := some.inj hm
          exact absurd hl (Bool.eq_false_iff.1 hheavy.1)
    exact .block x y

lemma Bed.trivia_front {P S : List Tree} (h : Bed a k F (P ++ S) G) (hP : count P = 0) :
    ∀ u ∈ P, u.IsTrivia := by
  apply isTrivia_of_outlineAll
  by_contra hne
  obtain ⟨o, os, hos⟩ := exists_cons_of_ne_nil hne
  have hhead : (outlineAll (P ++ S)).head? = some o := by
    rw [outlineAll_append, hos]
    rfl
  obtain ⟨u, hu, ho⟩ := mem_outlineAll.1 (hos ▸ mem_cons_self : o ∈ outlineAll P)
  have hnode := countP_eq_zero.1 hP u hu
  rcases h.mem u (mem_append_left S hu) with ⟨j, x, rfl, hj⟩ | ⟨-, x, rfl⟩ | ⟨j, ps, rfl, -⟩
  · rw [outline, if_pos hj] at ho
    exact not_mem_nil ho
  · exact h.fits.head (faults_outlineAll _) o hhead (mem_singleton.1 ho)
  · exact hnode rfl

def Heads : Tree → Prop
  | .token k _ => k ≠ .leftCurly
  | .node k _ => k = .modifier ∨ k = .name

lemma Bed.braces (h : Bed a k F M G) (hk : k = .enumDeclaration ∨ k = .classDeclaration) :
    ∃ H x y, F = H ++ [.token .leftCurly x] ∧ G = [.token .rightCurly y] ∧ ∀ u ∈ H, u.Heads := by
  cases h with
  | file => rcases hk with hk | hk <;> cases hk
  | @list i a k o c r H M x y port contains =>
    obtain ⟨rfl, rfl⟩ : o = .leftCurly ∧ c = .rightCurly := by
      have hbrackets := contains.brackets
      rcases hk with rfl | rfl <;> cases hbrackets <;> exact ⟨rfl, rfl⟩
    refine ⟨H, x, y, rfl, rfl, fun u hu => ?_⟩
    cases u with
    | token l z =>
      rintro rfl
      have hmem : .leaf .leftCurly ∈ outlineAll H := mem_outlineAll.2 ⟨_, hu, mem_singleton_self _⟩
      cases contains.heading _ hmem with
      | word kind => exact kind rfl
    | node j ps =>
      have hmem : .branch j (outlineAll ps) ∈ outlineAll H :=
        mem_outlineAll.2 ⟨_, hu, mem_singleton_self _⟩
      cases contains.heading _ hmem with
      | node kind => exact kind

lemma exists_edges (hfirm : Firm t) (hnode : t.isNode = true) : ∃ l m, t.leaves.head? = some l ∧
    t.leaves.getLast? = some m ∧ (Outline.leavesAll t.outline).head? = some l.1 ∧
      (Outline.leavesAll t.outline).getLast? = some m.1 := by
  cases hfirm with
  | token => cases hnode
  | node starts ends _ =>
    obtain ⟨l, hl, hleft⟩ := starts
    obtain ⟨m, hm, hright⟩ := ends
    refine ⟨l, m, hl, hm, ?_, ?_⟩
    · obtain ⟨ls, hls⟩ := List.head?_eq_some_iff.1 hl
      rw [leaves_outline, leaves, hls, significant_cons_of hleft.1]
      rfl
    · obtain ⟨ls, hls⟩ := getLast?_eq_some_iff.1 hm
      rw [leaves_outline, leaves, hls, significant_append, significant_cons_of hright.1]
      exact getLast?_concat

lemma mem_outline_of_node (ht : t ∈ M) (hnode : t.isNode = true) :
    ∃ o ∈ outlineAll M, t.outline = [o] ∧ o ≠ .leaf .comma := by
  cases t with
  | token => cases hnode
  | node j ps =>
    exact ⟨_, mem_outlineAll.2 ⟨_, ht, mem_singleton_self _⟩, rfl, Outline.noConfusion⟩

lemma Bed.ends (h : Bed a k F M G)
    (hk : k ≠ .sourceFile ∧ k ≠ .block) (ht : t ∈ M) (hnode : t.isNode = true) (hfirm : Firm t) :
    ∃ l, t.leaves.getLast? = some l ∧ l.1.ends = true := by
  obtain ⟨o, hmem, ho, hne⟩ := mem_outline_of_node ht hnode
  obtain ⟨-, l, -, hl, -, hlast⟩ := exists_edges hfirm hnode
  rw [ho] at hlast
  exact ⟨l, hl, h.fits.ends (faults_outlineAll M) hk hmem hne _ hlast⟩

lemma Bed.begins (h : Bed a k F M G) (hk : k = .classDeclaration ∨ k = .variableStatement)
    (ht : t ∈ M) (hnode : t.isNode = true) (hfirm : Firm t) :
    ∃ l, t.leaves.head? = some l ∧ l.1.begins = true := by
  obtain ⟨o, hmem, ho, hne⟩ := mem_outline_of_node ht hnode
  obtain ⟨l, -, hl, -, hhead, -⟩ := exists_edges hfirm hnode
  obtain ⟨j, hj, hbegins⟩ := h.fits.begins (faults_outlineAll M) hk hmem hne
  rw [← ho] at hj
  obtain rfl : l.1 = j := mem_unique hhead hj
  exact ⟨l, hl, hbegins⟩

lemma outline_around {o c : Kind} (h : Brackets k o c) (H M : List Tree) (x y : Text) :
    (Tree.node k (H ++ [.token o x] ++ (M ++ [.token c y]))).outline =
      [around k o c (outlineAll H) (outlineAll M)] := by
  have hbracket : ∀ {l : Kind} (z : Text), l.isTrivia = false →
      (Tree.token l z).outline = [.leaf l] := fun z hl => by
    rw [outline, if_neg (Bool.eq_false_iff.1 hl)]
  simp only [outline, outlineAll_append, outlineAll, append_nil, append_assoc, around]
  rw [← outline, ← outline, hbracket x h.not_trivia.1, hbracket y h.not_trivia.2]
  rfl

end Tree

namespace Parse
open LiveEdit.Tree Grammar

variable {t : Text} {a : Address} {n : Nat} {k : Kind} {ts A X B Y F P M S G : List Tree}
  {uA uX uB : List Lexeme} {tree : Tree} {l : Lexeme}

lemma exists_bed_of_contains {i : Nat} {o c : Kind} {r : Rule} {H os : List Outline}
    (hfirm : Firm (.node k ts)) (hport : Port k r)
    (heq : .branch k (outlineAll ts) = around k o c H os) (hcontains : Contains r k o c H os) :
    ∃ F M G, ts = F ++ (M ++ G) ∧ Bed (i :: a) k F M G := by
  obtain ⟨H, x, vs, rfl, rfl, hvs⟩ := exists_split_outline (Outline.branch.inj heq).2
  obtain ⟨M, y, zs, rfl, rfl, hzs⟩ := exists_split_outline hvs
  -- Trivia behind the last token would be outside of the node.
  obtain rfl : zs = [] := by
    rcases eq_nil_or_concat zs with rfl | ⟨zs, z, rfl⟩
    · rfl
    · obtain ⟨l, w, rfl, hl⟩ := isTrivia_of_outlineAll hzs z (by simp)
      cases hfirm with
      | node _ ends _ =>
        obtain ⟨m, hm, hheavy⟩ := ends
        have hlast :
            (leavesAll (H ++ .token o x :: (M ++ .token c y :: zs.concat (.token l w)))).getLast? =
            some (l, w) := by
          have hend := leavesAll_concat (H ++ .token o x :: (M ++ .token c y :: zs)) l w
          simpa using hend
        obtain rfl : (l, w) = m := mem_unique hlast hm
        exact absurd hl (Bool.eq_false_iff.1 hheavy.1)
  exact ⟨H ++ [.token o x], M, [.token c y], by simp, .list x y hport hcontains⟩

section

variable (hclean : (ofText t).diagnostics = []) (hat : (ofText t).site.at? a = some ⟨n, .node k ts⟩)
include hclean hat

lemma exists_bed (hk : k = .sourceFile ∨ ∃ r, Port k r)
    (hclosed : k = .variableStatement → Outline.Closed (outlineAll ts)) :
    ∃ F M G, ts = F ++ (M ++ G) ∧ Bed a k F M G := by
  have hf := faultsAll_outlines hclean
  have hg := gives_ofText hf
  by_cases hnil : a = []
  · subst hnil
    have hroot : (ofText t).tree = .node k ts := congrArg Site.tree (some.inj hat)
    obtain rfl : k = .sourceFile := by
      rw [tree_ofText] at hroot
      exact (Tree.node.inj hroot).1.symm
    rw [hroot] at hg
    exact ⟨[], ts, [], (append_nil ts).symm, .file hg⟩
  · have hwithin := Site.within_of_at? hat hnil
    have hsolid := hwithin.solid fun o ho => by
      rw [outline_ofText hf, outlines_lex] at ho
      exact Outline.solid_ofKinds _ o ho
    obtain ⟨r, hport⟩ : ∃ r, Port k r := by
      cases hsolid with
      | branch _ _ kind => exact hk.resolve_left kind
    obtain ⟨rest, hgives⟩ := hwithin.gives_port hport hg
    obtain ⟨H, o, c, B, heq, hcontains⟩ :=
      exists_contains hport hgives (faults_outlineAll ts) hclosed
    have hfirm : Site.FirmBelow (ofText t).site := firm_ofText hf
    obtain ⟨i, a, rfl⟩ := exists_cons_of_ne_nil hnil
    exact exists_bed_of_contains (hfirm.at? hat hnil).1 hport heq hcontains

lemma firm_or_root : a = [] ∨ Firm (.node k ts) := by
  have hbelow : Site.FirmBelow (ofText t).site := firm_ofText (faultsAll_outlines hclean)
  by_cases hnil : a = []
  · exact .inl hnil
  · exact .inr (hbelow.at? hat hnil).1

lemma exists_framed_bed (hk : k = .sourceFile ∨ k = .block) :
    ∃ F M G, ts = F ++ (M ++ G) ∧ Frame a k F G ∧ Bed a k F M G := by
  have hport : k = .sourceFile ∨ ∃ r, Port k r := by
    rcases hk with rfl | rfl
    · exact .inl rfl
    · exact .inr ⟨_, .block⟩
  obtain ⟨F, M, G, rfl, hbed⟩ := exists_bed hclean hat hport fun hvariable => by
    rcases hk with rfl | rfl <;> cases hvariable
  exact ⟨F, M, G, rfl, hbed.frame hk (firm_or_root hclean hat), hbed⟩

lemma exists_frame (hk : k = .sourceFile ∨ k = .block) :
    ∃ F M G, ts = F ++ (M ++ G) ∧ Frame a k F G ∧ ∀ u ∈ M, Tree.Item u := by
  obtain ⟨F, M, G, hsplit, hframe, hbed⟩ := exists_framed_bed hclean hat hk
  exact ⟨F, M, G, hsplit, hframe, hbed.item hk⟩

lemma holds_of_at? {c : Tree} (hc : c ∈ ts) (hnode : c.isNode = true) : k.holds c.kind = true := by
  have hf := faultsAll_outlines hclean
  have hroot : ∀ o ∈ outlineAll (ofText t).tree.children, o.Nested (Kind.holds .sourceFile) := by
    rw [outline_ofText hf, outlines_lex]
    exact Outline.nested_ofKinds _
  cases c with
  | token j x => cases hnode
  | node j us =>
    have hmem : .branch j (outlineAll us) ∈ outlineAll ts :=
      mem_outlineAll.2 ⟨_, hc, mem_singleton_self _⟩
    have hnested : Outline.Nested k.holds (.branch j (outlineAll us)) := by
      by_cases hnil : a = []
      · subst hnil
        have htree : (ofText t).tree = .node k ts := congrArg Site.tree (some.inj hat)
        rw [htree] at hroot
        obtain rfl : k = .sourceFile := by
          rw [tree_ofText] at htree
          exact (Tree.node.inj htree).1.symm
        exact hroot _ hmem
      · obtain ⟨S, hS⟩ := (Site.within_of_at? hat hnil).nested hroot
        cases hS with
        | branch _ parts => exact parts _ hmem
    cases hnested with
    | branch kind _ => exact kind

end

lemma bed_of_frame (h : Frame a k F G) (hclean : (ofText t).diagnostics = [])
    (hat : (ofText t).site.at? a = some ⟨n, .node k (F ++ (M ++ G))⟩) : Bed a k F M G := by
  obtain ⟨F', M', G', heq, hframe, hbed⟩ := exists_framed_bed hclean hat h.kind
  cases h with
  | file =>
    cases hframe
    obtain rfl : M = M' := by simpa using heq
    exact hbed
  | block x y =>
    cases hframe with
    | block x' y' =>
      obtain ⟨hopen, hrest⟩ := cons.inj heq
      have hparts : M ++ [.token .rightCurly y] = M' ++ [.token .rightCurly y'] := hrest
      obtain ⟨rfl, hclose⟩ := append_inj' hparts rfl
      rwa [singleton_inj.2 hopen, hclose]

namespace Planted

lemma leaves_bed (hbed : Bed a k F M G) (P S : List Tree) :
    a = [] ∨ (leavesAll (F ++ P) ≠ [] ∧ leavesAll (S ++ G) ≠ []) := by
  cases hbed with
  | file => exact .inl rfl
  | list x y port contains =>
    have hbracket : ∀ (l : Kind) (z : Text), leavesAll [.token l z] ≠ [] :=
      fun l z => cons_ne_nil (l, z) []
    simp only [leavesAll_append]
    exact .inr ⟨append_ne_nil_of_left_ne_nil
      (append_ne_nil_of_right_ne_nil _ (hbracket _ x)) _,
      append_ne_nil_of_right_ne_nil _ (hbracket _ y)⟩

section

variable (h : Planted t a n k (F ++ P) X (S ++ G) Y uA uX uB tree)
include h

lemma gives_bed (hbed : Bed a k F (P ++ (X ++ S)) G) (hclean : (ofText t).diagnostics = [])
    (hfits : Fits k (outlineAll (P ++ (Y ++ S)))) :
    Rule.Gives file (outlineAll tree.children) [] := by
  have hg := gives_ofText (faultsAll_outlines hclean)
  have hr := h.replaced
  have hregroup : ∀ Z : List Tree, F ++ P ++ (Z ++ (S ++ G)) = F ++ ((P ++ (Z ++ S)) ++ G) :=
    fun Z => by simp only [append_assoc]
  rw [hregroup, hregroup] at hr
  generalize (ofText t).tree = old at hg hr
  cases hbed with
  | file =>
    cases hr
    rw [children, nil_append, append_nil]
    exact hfits
  | list x y port contains =>
    cases hr with
    | inside A' B' k' inner =>
      have halike : List.Forall₂ Outline.Alike _ _ := inner.outline (by
        rw [outline_around contains.brackets, outline_around contains.brackets]
        exact .cons (contains.alike port (faults_outlineAll _) hfits) .nil)
      simp only [children, outlineAll_append, outlineAll] at hg ⊢
      refine (stable_file _ _ [] _ (Nat.lt_succ_self _) hg ?_).gives [] rfl
      exact rel_append (Outline.alike_refl _) (rel_append halike (Outline.alike_refl _))

lemma parse_bed (hbed : Bed a k F (P ++ (X ++ S)) G)
    (hclean : (ofText t).diagnostics = []) (hfits : Fits k (outlineAll (P ++ (Y ++ S))))
    (hfirm : ∀ u ∈ Y, Firm u) (hseal : ∀ l ∈ uA.getLast?, l.Seals (textAll Y ++ Lexeme.spell uB))
    (hlexes : Lexes Y (Lexeme.spell uB)) :
    (ofText (plant uA Y uB)).tree = tree ∧ (ofText (plant uA Y uB)).diagnostics = [] := by
  refine h.reparse ?_ hclean (h.gives_bed hbed hclean hfits) hfirm hseal hlexes
  rcases leaves_bed hbed P S with hnil | ⟨hleft, hright⟩
  · exact .inl hnil
  · exact .inr (sameEdges_between hleft hright X Y)

lemma edges_bed (hbed : Bed a k F M G) : a = [] ∨ (0 < sizeAll (F ++ P) ∧ 0 < sizeAll (S ++ G)) :=
  (leaves_bed hbed P S).imp_right fun hne => ⟨h.size_pos.1 hne.1, h.size_pos.2 hne.2⟩

lemma parse (hframe : Frame a k F G) (hclean : (ofText t).diagnostics = [])
    (hX : outlineAll X = []) (hY : ∀ m ∈ outlineAll Y, Standing m)
    (hfirm : ∀ u ∈ Y, Firm u) (hlast : outlineAll P = [] ∨ Outline.Closed (outlineAll P))
    (hseal : ∀ l ∈ uA.getLast?, l.Seals (textAll Y ++ Lexeme.spell uB))
    (hlexes : Lexes Y (Lexeme.spell uB)) :
    (ofText (plant uA Y uB)).tree = tree ∧ (ofText (plant uA Y uB)).diagnostics = [] := by
  have hat := (Site.at?_replaced h.replaced rfl rfl 0).1
  have hregroup :
      F ++ P ++ (X ++ (S ++ G)) = F ++ ((P ++ (X ++ S)) ++ G) := by simp only [append_assoc]
  rw [hregroup] at hat
  have hbed := bed_of_frame hframe hclean hat
  refine h.parse_bed hbed hclean ?_ hfirm hseal hlexes
  have hfits := hbed.fits
  have hfaults := faults_outlineAll (P ++ S)
  simp only [outlineAll_append, hX, nil_append] at hfits hfaults ⊢
  exact hfits.insert_statements hframe.kind hY hfaults hlast

end

lemma fault_none (hclean : (ofText t).diagnostics = []) (h : Planted t a n k A X B Y uA uX uB tree)
    (hl : l ∈ uA ∨ l ∈ uX ∨ l ∈ uB) : l.fault = none := by
  refine (diagnostics_eq_nil.1 hclean).1 l ?_
  rw [h.lexemes, mem_append, mem_append]
  exact hl

lemma scan_last (hclean : (ofText t).diagnostics = []) (h : Planted t a n k A X B Y uA uX uB tree)
    (hl : uA.getLast? = some l) : ∃ c x, l.text = c :: x ∧ l.fault = none ∧
    Lexeme.scan c (x ++ (textAll X ++ Lexeme.spell uB)) = (l, textAll X ++ Lexeme.spell uB) := by
  obtain ⟨c, x, htext, hscan⟩ := h.scans.1.exists_scan hl
  exact ⟨c, x, htext, h.fault_none hclean (.inl (mem_of_getLast? hl)), hscan⟩

lemma seals_trivia (hclean : (ofText t).diagnostics = [])
    (h : Planted t a n k A X B Y uA uX uB tree) (hl : uA.getLast? = some l)
    (hk : l.kind.isTrivia = true) : l.Seals (textAll X ++ Lexeme.spell uB) := by
  obtain ⟨c, x, -, hfault, hscan⟩ := h.scan_last hclean hl
  exact Lexeme.seals_of_trivia hscan hk hfault

end Planted
end Parse
end LiveEdit
