import LiveEdit.Capability
import LiveEdit.Proofs.Parse.Plots

namespace LiveEdit
open List hiding count

namespace Tree
open Grammar

variable {t u : Tree} {ts F M G P S V : List Tree} {a : Address} {k j : Kind}

lemma IsTrivia.kind (h : t.IsTrivia) : t.kind.isTrivia = true := by
  obtain ⟨k, x, rfl, hk⟩ := h
  exact hk

lemma IsTrivia.isNode (h : t.IsTrivia) : t.isNode = false := by
  obtain ⟨k, x, rfl, -⟩ := h
  rfl

lemma filter_trivia (h : ∀ t ∈ ts, t.IsTrivia) : ts.filter Tree.isNode = [] :=
  filter_eq_nil_iff.2 fun t ht => Bool.eq_false_iff.1 (h t ht).isNode

lemma count_trivia (h : ∀ t ∈ ts, t.IsTrivia) : count ts = 0 := by
  rw [count, countP_eq_length_filter, filter_trivia h]
  rfl

lemma exists_first_item (ts : List Tree) : (∀ t ∈ ts, t.IsTrivia) ∨
    ∃ V u S, ts = V ++ u :: S ∧ (∀ t ∈ V, t.IsTrivia) ∧ ¬ u.IsTrivia := by
  induction ts with
  | nil => exact .inl fun t ht => absurd ht not_mem_nil
  | cons t ts ih =>
    by_cases htrivia : t.IsTrivia
    · rcases ih with hall | ⟨V, u, S, rfl, hV, hu⟩
      · exact .inl (forall_mem_cons.2 ⟨htrivia, hall⟩)
      · exact .inr ⟨t :: V, u, S, rfl, forall_mem_cons.2 ⟨htrivia, hV⟩, hu⟩
    · exact .inr ⟨[], t, ts, rfl, fun t ht => absurd ht not_mem_nil, htrivia⟩

lemma exists_last_item (ts : List Tree) : (∀ t ∈ ts, t.IsTrivia) ∨
    ∃ P u V, ts = P ++ u :: V ∧ (∀ t ∈ V, t.IsTrivia) ∧ ¬ u.IsTrivia := by
  rcases exists_first_item ts.reverse with hall | ⟨V, u, S, heq, hV, hu⟩
  · exact .inl fun t ht => hall t (mem_reverse.2 ht)
  · refine .inr ⟨S.reverse, u, V.reverse, ?_, fun t ht => hV t (mem_reverse.1 ht), hu⟩
    rw [← reverse_reverse ts, heq]
    simp

lemma not_trivia_of_lists (h : k.lists j = true) : j.isTrivia = false := by
  unfold Kind.lists at h
  split at h <;> revert h <;> cases j <;> decide

lemma Bed.not_trivia (h : Bed a k F M G) (ht : t ∈ M) (hno : ¬ t.IsTrivia) :
    t.kind.isTrivia = false := by
  rcases h.mem t ht with htrivia | ⟨-, x, rfl⟩ | ⟨j, ps, rfl, hj⟩
  · exact absurd htrivia hno
  · rfl
  · exact not_trivia_of_lists hj

lemma Bed.heads (h : Bed a k F M G) (ht : t ∈ F) (hnode : t.isNode = true) :
    t.kind = .modifier ∨ t.kind = .name := by
  cases h with
  | file => cases ht
  | @list i b k o c r H M x y port contains =>
    rcases mem_append.1 ht with ht | ht
    · cases t with
      | token j z => cases hnode
      | node j ps =>
        have hmem : .branch j (outlineAll ps) ∈ outlineAll H :=
          mem_outlineAll.2 ⟨_, ht, mem_singleton_self _⟩
        cases contains.heading _ hmem with
        | node kind => exact kind
    · rw [mem_singleton.1 ht] at hnode
      cases hnode

lemma ne_comma_of_brackets {o c : Kind} (h : Brackets k o c) : o ≠ .comma ∧ c ≠ .comma := by
  cases h with
  | declarations keyword =>
    refine ⟨?_, Kind.noConfusion⟩
    rintro rfl
    cases keyword
  | _ => exact ⟨Kind.noConfusion, Kind.noConfusion⟩

lemma Bed.tails (h : Bed a k F M G) (ht : t ∈ G) : t.isNode = false ∧ t.kind ≠ .comma := by
  cases h with
  | file => cases ht
  | list x y port contains =>
    rw [mem_singleton.1 ht]
    exact ⟨rfl, (ne_comma_of_brackets contains.brackets).2⟩

lemma ne_of_lists (h : k.lists j = true) : j ≠ .modifier ∧ j ≠ .name ∧ j ≠ .comma := by
  unfold Kind.lists at h
  refine ⟨?_, ?_, ?_⟩ <;> rintro rfl <;> split at h <;> revert h <;> decide

lemma Bed.lists_of_mem (h : Bed a k F M G) (ht : t ∈ F ++ (M ++ G)) (hnode : t.isNode = true)
    (hmodifier : t.kind ≠ .modifier) (hname : t.kind ≠ .name) : k.lists t.kind = true := by
  rcases mem_append.1 ht with ht | ht
  · exact absurd (h.heads ht hnode) (not_or.2 ⟨hmodifier, hname⟩)
  · rcases mem_append.1 ht with ht | ht
    · rcases h.mem t ht with ⟨j, x, rfl, -⟩ | ⟨-, x, rfl⟩ | ⟨j, ps, rfl, hj⟩
      · cases hnode
      · cases hnode
      · exact hj
    · exact absurd hnode (Bool.eq_false_iff.1 (h.tails ht).1)

lemma Bed.exists_item {A B : List Tree} (h : Bed a k F M G) (heq : F ++ (M ++ G) = A ++ t :: B)
    (hnode : t.isNode = true) (hkind : k.lists t.kind = true) :
    ∃ P S, M = P ++ t :: S ∧ A = F ++ P ∧ B = S ++ G := by
  have hF : t ∉ F := fun ht => (h.heads ht hnode).elim (ne_of_lists hkind).1 (ne_of_lists hkind).2.1
  have hG : t ∉ G := fun ht => Bool.false_ne_true ((h.tails ht).1.symm.trans hnode)
  obtain ⟨P, rfl, hrest⟩ : ∃ P, A = F ++ P ∧ M ++ G = P ++ t :: B := by
    rcases append_eq_append_iff.1 heq with ⟨P, hA, hrest⟩ | ⟨R, hF', hrest⟩
    · exact ⟨P, hA, hrest⟩
    · cases R with
      | nil => exact ⟨[], by simpa using hF'.symm, hrest.symm⟩
      | cons u R =>
        obtain ⟨rfl, -⟩ := cons.inj hrest
        exact absurd (by simp [hF']) hF
  rcases append_eq_append_iff.1 hrest with ⟨R, hP, hG'⟩ | ⟨R, hM, hrest⟩
  · exact absurd (by simp [hG']) hG
  · cases R with
    | nil => exact absurd (show t ∈ [] ++ G from hrest ▸ mem_cons_self) hG
    | cons u S =>
      obtain ⟨rfl, rfl⟩ := cons.inj hrest
      exact ⟨P, S, hM, rfl, rfl⟩

end Tree

namespace Site
open LiveEdit.Tree Grammar

variable {c u : Tree} {F M G P S V A B : List Tree} {a : Address} {k : Kind} {n m : Nat}
  {l : MemberList}

lemma splitRow_row (n : Nat) (A B : List Tree) (hc : c.isNode = true) :
    splitRow (count A) (row n (A ++ c :: B)) = (row n A, row (n + sizeAll A + c.size) B) := by
  induction A generalizing n with
  | nil => simp [row, splitRow, hc, count, sizeAll]
  | cons u A ih =>
    rw [cons_append, row, row, sizeAll, ← Nat.add_assoc]
    cases hu : u.isNode with
    | true =>
      rw [count, countP_cons_of_pos hu, splitRow, if_pos hu, ← count, ih]
      rfl
    | false =>
      rw [count, countP_cons_of_neg (by simp [hu]), ← count]
      have hstep : splitRow (count A) (⟨n, u⟩ :: row (n + u.size) (A ++ c :: B)) =
          (splitRow (count A) (row (n + u.size) (A ++ c :: B))).map (⟨n, u⟩ :: ·) id := by
        cases count A <;> simp [splitRow, hu]
      rw [hstep, ih]
      rfl

lemma next?_at (n : Nat) (k : Kind) (A B : List Tree) (hc : c.isNode = true) :
    (⟨n, .node k (A ++ c :: B)⟩ : Site).next? (count A) =
      (row (n + sizeAll A + c.size) B).find? (!·.kind.isTrivia) := by
  rw [next?, elements, children, splitRow_row n A B hc]

lemma previous?_at (n : Nat) (k : Kind) (A B : List Tree) (hc : c.isNode = true) :
    (⟨n, .node k (A ++ c :: B)⟩ : Site).previous? (count A) =
      (row n A).reverse.find? (!·.kind.isTrivia) := by
  rw [previous?, elements, children, splitRow_row n A B hc]

lemma find?_trivia (hV : ∀ t ∈ V, t.IsTrivia) (m : Nat) :
    (row m V).find? (!·.kind.isTrivia) = none := by
  apply List.find?_eq_none.2
  intro e he
  have hkind : e.kind.isTrivia = true := (hV _ (mem_children_of_row he)).kind
  simp [hkind]

lemma find?_row (hV : ∀ t ∈ V, t.IsTrivia) (hu : u.kind.isTrivia = false) (m : Nat)
    (S : List Tree) : (row m (V ++ u :: S)).find? (!·.kind.isTrivia) = some ⟨m + sizeAll V, u⟩ := by
  rw [row_append, find?_append, find?_trivia hV, Option.none_or, row, find?_cons_of_pos]
  simpa [kind] using hu

lemma findRev?_row (hV : ∀ t ∈ V, t.IsTrivia)
    (hu : u.kind.isTrivia = false) (m : Nat) (P : List Tree) :
    (row m (P ++ u :: V)).reverse.find? (!·.kind.isTrivia) = some ⟨m + sizeAll P, u⟩ := by
  have hnone : (row (m + sizeAll P + u.size) V).reverse.find? (!·.kind.isTrivia) = none := by
    rw [find?_eq_none]
    exact fun e he => List.find?_eq_none.1 (find?_trivia hV _) e (mem_reverse.1 he)
  rw [row_append, row, reverse_append, reverse_cons, find?_append, find?_append, hnone,
    Option.none_or, find?_cons_of_pos, Option.some_or]
  simpa [kind] using hu

lemma next?_bed (hbed : Bed a k F (P ++ c :: S) G) (hc : c.isNode = true) (n : Nat) :
    (∃ V x S', S = V ++ .token .comma x :: S' ∧ (∀ t ∈ V, t.IsTrivia) ∧
      (⟨n, .node k (F ++ ((P ++ c :: S) ++ G))⟩ : Site).next? (count (F ++ P)) =
      some ⟨n + sizeAll (F ++ P) + c.size + sizeAll V, .token .comma x⟩) ∨
    ((∀ ps, outlineAll S ≠ .leaf .comma :: ps) ∧
      ∀ z ∈ (⟨n, .node k (F ++ ((P ++ c :: S) ++ G))⟩ : Site).next? (count (F ++ P)),
      z.kind ≠ .comma) := by
  have hregroup : F ++ ((P ++ c :: S) ++ G) = (F ++ P) ++ c :: (S ++ G) := by simp
  rw [hregroup, next?_at n k (F ++ P) (S ++ G) hc]
  rcases exists_first_item S with htrivia | ⟨V, u, S, rfl, hV, hu⟩
  · refine .inr ⟨fun ps hps => ?_, fun z hz hcomma => ?_⟩
    · rw [outlineAll_eq_nil htrivia] at hps
      cases hps
    · obtain ⟨hmem, hkind⟩ : z ∈ row (n + sizeAll (F ++ P) + c.size) (S ++ G) ∧
          z.kind.isTrivia = false := ⟨mem_of_find?_eq_some hz, by simpa using find?_some hz⟩
      rcases mem_append.1 (mem_children_of_row hmem) with ht | ht
      · exact Bool.false_ne_true (hkind.symm.trans (htrivia z.tree ht).kind)
      · exact (hbed.tails ht).2 hcomma
  · have hmem : u ∈ P ++ c :: (V ++ u :: S) := by simp
    rw [append_assoc, cons_append, find?_row hV (hbed.not_trivia hmem hu)]
    rcases hbed.mem u hmem with htrivia | ⟨-, x, rfl⟩ | ⟨j, ps, rfl, hj⟩
    · exact absurd htrivia hu
    · exact .inl ⟨V, x, S, rfl, hV, rfl⟩
    · refine .inr ⟨fun qs hqs => ?_, fun z hz => ?_⟩
      · rw [outlineAll_append, outlineAll_eq_nil hV, nil_append, outlineAll, outline] at hqs
        cases (cons.inj hqs).1
      · obtain rfl := Option.some.inj hz
        exact (ne_of_lists hj).2.2

lemma previous?_bed (hbed : Bed a k F (P ++ c :: S) G) (hc : c.isNode = true) (n : Nat) :
    (∃ P' x V, P = P' ++ .token .comma x :: V ∧ (∀ t ∈ V, t.IsTrivia) ∧
      (⟨n, .node k (F ++ ((P ++ c :: S) ++ G))⟩ : Site).previous? (count (F ++ P)) = some
      ⟨n + sizeAll (F ++ P'), .token .comma x⟩) ∨ ((∀ ps, outlineAll P ≠ ps ++ [.leaf .comma]) ∧
      ∀ z ∈ (⟨n, .node k (F ++ ((P ++ c :: S) ++ G))⟩ : Site).previous? (count (F ++ P)),
      z.kind ≠ .comma) := by
  have hregroup : F ++ ((P ++ c :: S) ++ G) = (F ++ P) ++ c :: (S ++ G) := by simp
  rw [hregroup, previous?_at n k (F ++ P) (S ++ G) hc]
  rcases exists_last_item P with htrivia | ⟨P, u, V, rfl, hV, hu⟩
  · refine .inr ⟨fun ps hps => ?_, fun z hz => ?_⟩
    · rw [outlineAll_eq_nil htrivia] at hps
      exact append_ne_nil_of_right_ne_nil ps (cons_ne_nil _ _) hps.symm
    · -- The token before the list is found behind the trivia.
      cases hbed with
      | file =>
        have hmem : z ∈ row n P := mem_reverse.1 (mem_of_find?_eq_some hz)
        have hkind : z.kind.isTrivia = false := by simpa using find?_some hz
        exact absurd ((htrivia z.tree (mem_children_of_row hmem)).kind) (Bool.eq_false_iff.1 hkind)
      | @list i b k o c' r H M x y port contains =>
        have hbefore : H ++ [.token o x] ++ P = H ++ .token o x :: P := by simp
        rw [hbefore, findRev?_row (u := .token o x) htrivia contains.brackets.not_trivia.1] at hz
        obtain rfl := Option.some.inj hz
        exact (ne_comma_of_brackets contains.brackets).1
  · have hmem : u ∈ (P ++ u :: V) ++ c :: S := by simp
    have hbefore : F ++ (P ++ u :: V) = (F ++ P) ++ u :: V := by simp
    rw [hbefore, findRev?_row hV (hbed.not_trivia hmem hu)]
    rcases hbed.mem u hmem with htrivia | ⟨-, x, rfl⟩ | ⟨j, ps, rfl, hj⟩
    · exact absurd htrivia hu
    · exact .inl ⟨P, x, V, rfl, hV, rfl⟩
    · refine .inr ⟨fun qs hqs => ?_, fun z hz => ?_⟩
      · rw [outlineAll_append, outlineAll, outlineAll_eq_nil hV, append_nil, outline] at hqs
        cases (cons.inj (append_inj' hqs rfl).2).1
      · obtain rfl := Option.some.inj hz
        exact (ne_of_lists hj).2.2

lemma members_of_capabilities (h : k.capabilities.members = some l) :
    (k = .enumDeclaration ∨ k = .classDeclaration) ∧ l.accepts = k.lists ∧
      (l.separator = .comma ↔ k.hasCommas = true) := by
  unfold Kind.capabilities at h
  split at h <;> cases h
  · exact ⟨.inr rfl, rfl, by decide⟩
  · exact ⟨.inl rfl, rfl, by decide⟩

lemma members_bed (hbed : Bed a k F M G) (hcap : k.capabilities.members = some l) (n : Nat) :
    (⟨n, .node k (F ++ (M ++ G))⟩ : Site).members l =
      (((row (n + sizeAll F) M).filter (·.tree.isNode)).zipIdx (count F)).map Prod.swap := by
  obtain ⟨hk, haccepts, -⟩ := members_of_capabilities hcap
  obtain ⟨H, x, y, hF, rfl, hH⟩ := hbed.braces hk
  have hhead : ∀ c ∈ ((row n F).filter (·.tree.isNode)).zipIdx, ¬ l.accepts c.1.kind = true := by
    intro c hc
    obtain ⟨hrow, hnode⟩ := mem_filter.1 (fst_mem_of_mem_zipIdx hc)
    have hmem := mem_children_of_row hrow
    obtain ⟨⟨m, tree⟩, i⟩ := c
    cases tree with
    | token j z => cases hnode
    | node j ps =>
      have hheads : Tree.Heads (.node j ps) := hH _ (by simpa [hF] using hmem)
      rw [haccepts]
      change ¬ k.lists j = true
      rcases hk with rfl | rfl <;> rcases hheads with rfl | rfl <;> decide
  have hlist : ∀ c ∈ ((row (n + sizeAll F) M).filter (·.tree.isNode)).zipIdx (count F),
      l.accepts c.1.kind = true := by
    intro c hc
    obtain ⟨hrow, hnode⟩ := mem_filter.1 (fst_mem_of_mem_zipIdx hc)
    have hmem := mem_children_of_row hrow
    obtain ⟨⟨m, tree⟩, i⟩ := c
    rw [haccepts]
    rcases hbed.mem tree hmem with ⟨j, z, rfl, -⟩ | ⟨-, z, rfl⟩ | ⟨j, ps, rfl, hj⟩
    · cases hnode
    · cases hnode
    · exact hj
  have hlast : ∀ m, (row m [.token .rightCurly y]).filter (·.tree.isNode) = [] := fun m => rfl
  rw [members, nodes, elements, children, row_append, row_append, filter_append, filter_append,
    hlast, append_nil, zipIdx_append, filter_append, filter_eq_nil_iff.2 hhead, nil_append,
    Nat.zero_add, length_nodes, filter_eq_self.2 hlist]

def memberTexts (s : Site) (l : MemberList) : List Text := (s.members l).map (·.2.text)

lemma length_memberTexts (s : Site) (l : MemberList) :
    (s.memberTexts l).length = (s.members l).length :=
  length_map ..

section

variable (hbed : Bed a k F M G) (hcap : k.capabilities.members = some l)
include hbed hcap

lemma memberTexts_bed (n : Nat) :
    (⟨n, .node k (F ++ (M ++ G))⟩ : Site).memberTexts l = (M.filter isNode).map Tree.text := by
  rw [memberTexts, members_bed hbed hcap, map_map, ← texts_row (n + sizeAll F) M]
  have hfst : ((fun c : Nat × Site => c.2.text) ∘ Prod.swap) = Site.text ∘ Prod.fst := rfl
  rw [hfst, ← map_map, zipIdx_map_fst]

lemma length_members (n : Nat) :
    ((⟨n, .node k (F ++ (M ++ G))⟩ : Site).members l).length = count M := by
  rw [members_bed hbed hcap, length_map, length_zipIdx, length_nodes]

lemma exists_member {i : Nat} (hi : i < count M) : ∃ P c S, M = P ++ c :: S ∧
    count P = i ∧ c.isNode = true ∧ ∀ n, ((⟨n, .node k (F ++ (M ++ G))⟩ : Site).members l)[i]? =
      some (count (F ++ P), ⟨n + sizeAll F + sizeAll P, c⟩) := by
  have hlt : i < ((row 0 M).filter (·.tree.isNode)).length := by rwa [length_nodes]
  have hget := getElem?_eq_getElem hlt
  obtain ⟨P, S, hsplit, hcount, -⟩ := exists_split hget
  have hnode := (mem_filter.1 (mem_of_getElem? hget)).2
  generalize ((row 0 M).filter (·.tree.isNode))[i].tree = c at hsplit hnode
  subst hsplit
  refine ⟨P, c, S, rfl, hcount, hnode, fun n => ?_⟩
  rw [members_bed hbed hcap, getElem?_map, getElem?_zipIdx, ← hcount, node_at _ P S hnode]
  simp [count]

end

lemma braces?_bed (hbed : Bed a k F M G) (hk : k = .enumDeclaration ∨ k = .classDeclaration)
    (n : Nat) : ∃ left right, (⟨n, .node k (F ++ (M ++ G))⟩ : Site).braces? = some (left, right) ∧
    left.span.stop = n + sizeAll F ∧ right.span.start = n + sizeAll F + sizeAll M := by
  obtain ⟨H, x, y, rfl, rfl, hH⟩ := hbed.braces hk
  have htokens :
      (⟨n, .node k (H ++ [.token .leftCurly x] ++ (M ++ [.token .rightCurly y]))⟩ : Site).tokens =
      (row n H).filter (!·.tree.isNode) ++ ⟨n + sizeAll H, .token .leftCurly x⟩ ::
        ((row (n + sizeAll (H ++ [.token .leftCurly x])) M).filter (!·.tree.isNode) ++
          [⟨n + sizeAll (H ++ [.token .leftCurly x]) + sizeAll M, .token .rightCurly y⟩]) := by
    rw [tokens, elements, children, row_append, row_append, row_append, filter_append,
      filter_append, filter_append, append_assoc]
    rfl
  -- The tokens before the brace are no braces, and those of the members are trivia and commas.
  have hhead : ∀ e ∈ (row n H).filter (!·.tree.isNode), (e.kind != .leftCurly) = true := by
    intro e he
    obtain ⟨hrow, hnode⟩ := mem_filter.1 he
    have hheads := hH _ (mem_children_of_row hrow)
    obtain ⟨m, tree⟩ := e
    cases tree with
    | token j z => exact bne_iff_ne.2 hheads
    | node j ps => cases hnode
  have hinner : ((row (n + sizeAll (H ++ [.token .leftCurly x])) M).filter (!·.tree.isNode)).find?
      (·.kind == .rightCurly) = none := by
    apply List.find?_eq_none.2
    intro e he hright
    obtain ⟨hrow, hnode⟩ := mem_filter.1 he
    obtain ⟨m, tree⟩ := e
    rcases hbed.mem tree (mem_children_of_row hrow)
      with ⟨j, z, rfl, hj⟩ | ⟨-, z, rfl⟩ | ⟨j, ps, rfl, -⟩
    · obtain rfl : j = .rightCurly := eq_of_beq hright
      cases hj
    · cases hright
    · cases hnode
  refine ⟨⟨n + sizeAll H, .token .leftCurly x⟩,
    ⟨n + sizeAll (H ++ [.token .leftCurly x]) + sizeAll M, .token .rightCurly y⟩, ?_, ?_, rfl⟩
  · rw [braces?, htokens, dropWhile_append_of_pos hhead, dropWhile_cons_of_neg Bool.false_ne_true]
    dsimp only
    rw [find?_append, hinner]
    rfl
  · rw [span_stop, sizeAll_append, ← Nat.add_assoc]
    rfl

def endsWithComma (s : Site) : Bool :=
  (s.elements.filter (!·.kind.isTrivia)).dropLast.getLast?.any (·.kind == .comma)

lemma endsWithComma_bed (hbed : Bed a k F M G) (hk : k = .enumDeclaration ∨ k = .classDeclaration)
    (n : Nat) : (⟨n, .node k (F ++ (M ++ G))⟩ : Site).endsWithComma = true ↔
      (outlineAll M).getLast? = some (.leaf .comma) := by
  obtain ⟨H, x, y, hF, rfl, -⟩ := hbed.braces hk
  have hend :
      ((row n (F ++ (M ++ [.token .rightCurly y]))).filter (!·.kind.isTrivia)).dropLast.getLast? =
      (row n (F ++ M)).reverse.find? (!·.kind.isTrivia) := by
    have hbrace : ∀ m, (row m [.token .rightCurly y]).filter (!·.kind.isTrivia) =
        [⟨m, .token .rightCurly y⟩] := fun m => rfl
    rw [← append_assoc, row_append, filter_append, hbrace, dropLast_concat, getLast?_filter]
  rw [endsWithComma, elements, children, hend]
  rcases exists_last_item M with htrivia | ⟨P, u, V, rfl, hV, hu⟩
  · -- Only trivia is in the list, so the brace before it is the last.
    have hlast : (row n (F ++ M)).reverse.find? (!·.kind.isTrivia) =
        some ⟨n + sizeAll H, .token .leftCurly x⟩ := by
      rw [hF, append_assoc, singleton_append]
      exact findRev?_row htrivia rfl n H
    rw [hlast, outlineAll_eq_nil htrivia]
    exact ⟨fun h => (Bool.false_ne_true h).elim, fun h => by cases h⟩
  · have hmem : u ∈ P ++ u :: V := mem_append_right P mem_cons_self
    rw [← append_assoc, findRev?_row hV (hbed.not_trivia hmem hu), outlineAll_append, outlineAll,
      outlineAll_eq_nil hV, append_nil]
    rcases hbed.mem u hmem with htrivia | ⟨-, z, rfl⟩ | ⟨j, ps, rfl, hj⟩
    · exact absurd htrivia hu
    · exact ⟨fun _ => getLast?_concat, fun _ => rfl⟩
    · rw [outline, getLast?_concat]
      constructor
      · intro hcomma
        obtain rfl : j = .comma := eq_of_beq hcomma
        rcases hk with rfl | rfl <;> cases hj
      · exact fun heq => by cases Option.some.inj heq

end Site
end LiveEdit
