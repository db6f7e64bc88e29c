import LiveEdit.Proofs.Parse.Outlining

namespace LiveEdit
open List hiding count

namespace Tree

def count (ts : List Tree) : Nat := ts.countP isNode

inductive Replaced (o o' : Tree) : Address → Nat → Tree → Tree → Prop where
  | here : Replaced o o' [] 0 o o'
  | inside {a : Address} {h : Nat} {t t' : Tree} (A B : List Tree) (k : Kind)
      (inner : Replaced o o' a h t t') :
      Replaced o o' (count A :: a) (sizeAll A + h) (.node k (A ++ t :: B)) (.node k (A ++ t' :: B))

variable {o o' t t' : Tree} {a : Address} {h n i : Nat} {A B X Y ts : List Tree} {s c : Site}
  {k : Kind}

lemma Replaced.symm (hr : Replaced o o' a h t t') : Replaced o' o a h t' t := by
  induction hr with
  | here => exact .here
  | inside A B k _ ih => exact .inside A B k ih

lemma Replaced.isNode (hr : Replaced o o' a h t t') (ho : o.isNode = true)
    (ho' : o'.isNode = true) : t.isNode = true ∧ t'.isNode = true := by
  cases hr with
  | here => exact ⟨ho, ho'⟩
  | inside => exact ⟨rfl, rfl⟩

lemma Replaced.root (hr : Replaced o o' [] h t t') : t = o ∧ t' = o' ∧ h = 0 := by
  cases hr
  exact ⟨rfl, rfl, rfl⟩

lemma Replaced.split {b : Address} (hr : Replaced o o' (a ++ b) h t t') :
    ∃ l m u u', Replaced u u' a l t t' ∧ Replaced o o' b m u u' ∧ h = l + m := by
  induction a generalizing h t t' with
  | nil => exact ⟨0, h, t, t', .here, hr, (Nat.zero_add h).symm⟩
  | cons i a ih =>
    rw [cons_append] at hr
    cases hr with
    | inside A B k inner =>
      obtain ⟨l, m, u, u', hu, ho, rfl⟩ := ih inner
      exact ⟨sizeAll A + l, m, u, u', .inside A B k hu, ho, (Nat.add_assoc _ _ _).symm⟩

lemma Replaced.kind (hr : Replaced o o' a h t t') (hk : o'.kind = o.kind) : t'.kind = t.kind := by
  cases hr with
  | here => exact hk
  | inside => rfl

lemma Replaced.size (hr : Replaced o o' a h t t') :
    h + o.size ≤ t.size ∧ t'.size + o.size = t.size + o'.size := by
  induction hr with
  | here =>
    rw [Nat.zero_add]
    exact ⟨Nat.le_refl _, Nat.add_comm _ _⟩
  | inside A B k inner ih =>
    simp only [Tree.size, sizeAll_append, sizeAll]
    omega

lemma Replaced.leaves (hr : Replaced o o' a h t t') : ∃ L R, t.leaves = L ++ (o.leaves ++ R) ∧
    t'.leaves = L ++ (o'.leaves ++ R) ∧ (spell L).size = h := by
  induction hr with
  | here => exact ⟨[], [], (append_nil _).symm, (append_nil _).symm, rfl⟩
  | inside A B k inner ih =>
    obtain ⟨L, R, hold, hnew, hsize⟩ := ih
    refine ⟨leavesAll A ++ L, R ++ leavesAll B, ?_, ?_, ?_⟩
    · simp only [Tree.leaves, leavesAll_append, leavesAll, hold, append_assoc]
    · simp only [Tree.leaves, leavesAll_append, leavesAll, hnew, append_assoc]
    · rw [spell_append, Text.size_append, ← sizeAll_eq_spell, hsize]

structure SameEdges (o o' : Tree) : Prop where
  first : ∃ l, o.leaves.head? = some l ∧ o'.leaves.head? = some l
  last : ∃ l, o.leaves.getLast? = some l ∧ o'.leaves.getLast? = some l

lemma sameEdges_between (hA : leavesAll A ≠ []) (hB : leavesAll B ≠ []) (X Y : List Tree) :
    SameEdges (.node k (A ++ (X ++ B))) (.node k (A ++ (Y ++ B))) := by
  obtain ⟨l, ls, hl⟩ := exists_cons_of_ne_nil hA
  obtain ⟨m, hm⟩ := Option.isSome_iff_exists.1 (getLast?_isSome.2 hB)
  have hfirst : ∀ Z : List Tree, (Tree.node k (A ++ (Z ++ B))).leaves.head? = some l := fun Z => by
    rw [Tree.leaves, leavesAll_append, hl]
    rfl
  have hlast : ∀ Z : List Tree, (Tree.node k (A ++ (Z ++ B))).leaves.getLast? = some m :=
    fun Z => by
    rw [Tree.leaves, leavesAll_append, leavesAll_append, ← append_assoc, getLast?_append, hm]
    rfl
  exact ⟨⟨l, hfirst X, hfirst Y⟩, ⟨m, hlast X, hlast Y⟩⟩

lemma Replaced.sameEdges (hr : Replaced o o' a h t t') (he : SameEdges o o') : SameEdges t t' := by
  obtain ⟨L, R, hold, hnew, -⟩ := hr.leaves
  obtain ⟨l, hl, hl'⟩ := he.first
  obtain ⟨m, hm, hm'⟩ := he.last
  refine ⟨⟨L.head?.getD l, ?_, ?_⟩, ⟨R.getLast?.getD m, ?_, ?_⟩⟩
  · cases hL : L.head? <;> simp [hold, head?_append, hl, hL]
  · cases hL : L.head? <;> simp [hnew, head?_append, hl', hL]
  · cases hR : R.getLast? <;> simp [hold, getLast?_append, hm, hR]
  · cases hR : R.getLast? <;> simp [hnew, getLast?_append, hm', hR]

lemma SameEdges.firm {ts' : List Tree} (he : SameEdges (.node k ts) (.node k ts'))
    (hfirm : Firm (.node k ts)) (hparts : ∀ u ∈ ts', Firm u) : Firm (.node k ts') := by
  cases hfirm with
  | node starts ends _ =>
    refine .node ?_ ?_ hparts
    · obtain ⟨l, hl, hl'⟩ := he.first
      obtain ⟨m, hm, hheavy⟩ := starts
      obtain rfl : l = m := Option.mem_unique hl hm
      exact ⟨l, hl', hheavy⟩
    · obtain ⟨l, hl, hl'⟩ := he.last
      obtain ⟨m, hm, hheavy⟩ := ends
      obtain rfl : l = m := Option.mem_unique hl hm
      exact ⟨l, hl', hheavy⟩

lemma Replaced.firm (hr : Replaced o o' a h t t') (he : SameEdges o o') (ho : Firm o → Firm o')
    (ht : Firm t) : Firm t' := by
  induction hr with
  | here => exact ho ht
  | @inside a h u u' A B k inner ih =>
    refine ((Replaced.inside A B k inner).sameEdges he).firm ht fun v hv => ?_
    cases ht with
    | node _ _ parts =>
      rcases mem_append.1 hv with hv | hv
      · exact parts v (mem_append_left _ hv)
      · rcases mem_cons.1 hv with rfl | hv
        · exact ih (parts u (mem_append_right A mem_cons_self))
        · exact parts v (mem_append_right A (mem_cons_of_mem u hv))

lemma Replaced.outline (hr : Replaced o o' a h t t')
    (ho : List.Forall₂ Outline.Alike o.outline o'.outline) :
    List.Forall₂ Outline.Alike t.outline t'.outline := by
  induction hr with
  | here => exact ho
  | inside A B k inner ih =>
    simp only [Tree.outline, outlineAll_append, outlineAll]
    exact .cons (.parts (rel_append (Outline.alike_refl _)
      (rel_append ih (Outline.alike_refl _)))) .nil

end Tree

namespace Site
open LiveEdit.Tree

variable {o o' t t' : Tree} {a : Address} {h n i : Nat} {A B X Y ts : List Tree} {s c : Site}

lemma length_nodes (n : Nat) (ts : List Tree) :
    ((row n ts).filter (·.tree.isNode)).length = count ts := by
  induction ts generalizing n with
  | nil => rfl
  | cons t ts ih =>
    rw [count, countP_cons, ← count, ← ih (n + t.size), row, filter_cons]
    cases ht : t.isNode <;> simp

lemma nodes_beside (hc : ((row n (A ++ (X ++ B))).filter (·.tree.isNode))[i]? = some c)
    (Y : List Tree) : (i < count A ∧ c.span.stop ≤ n + sizeAll A ∧
      ((row n (A ++ (Y ++ B))).filter (·.tree.isNode))[i]? = some c) ∨
    (count A ≤ i ∧ ((row (n + sizeAll A) X).filter (·.tree.isNode))[i - count A]? = some c) ∨
    (count A + count X ≤ i ∧ ∃ c', ((row n (A ++ (Y ++ B))).filter (·.tree.isNode))[i - count X +
      count Y]? = some c' ∧ Shifted (sizeAll X) (sizeAll Y) (n + sizeAll A + sizeAll X) c c') := by
  simp only [row_append, filter_append] at hc ⊢
  rcases Nat.lt_or_ge i (count A) with hA | hA
  · have hlt : i < ((row n A).filter (·.tree.isNode)).length := by rwa [length_nodes]
    rw [getElem?_append_left hlt] at hc
    have hmem := (mem_filter.1 (mem_of_getElem? hc)).1
    exact .inl ⟨hA, (row_bounds hmem).2, by rwa [getElem?_append_left hlt]⟩
  · have hge : ((row n A).filter (·.tree.isNode)).length ≤ i := by rwa [length_nodes]
    rw [getElem?_append_right hge, length_nodes] at hc
    rcases Nat.lt_or_ge (i - count A) (count X) with hX | hX
    · rw [getElem?_append_left (by rwa [length_nodes])] at hc
      exact .inr (.inl ⟨hA, hc⟩)
    · rw [getElem?_append_right (by rwa [length_nodes]), length_nodes] at hc
      have hrow : List.Forall₂ (Shifted (sizeAll X) (sizeAll Y) (n + sizeAll A + sizeAll X))
          ((row (n + sizeAll A + sizeAll X) B).filter (·.tree.isNode))
          ((row (n + sizeAll A + sizeAll Y) B).filter (·.tree.isNode)) :=
        rel_nodes (fun s s' hs => by rw [hs.tree]) (shifted_row B (by omega) le_rfl)
      obtain ⟨hlength, hget⟩ := forall₂_iff_get.1 hrow
      obtain ⟨hi, rfl⟩ := List.getElem?_eq_some_iff.1 hc
      refine .inr (.inr ⟨by omega, _, ?_, hget _ hi (hlength ▸ hi)⟩)
      rw [getElem?_append_right (by rw [length_nodes]; omega), length_nodes,
        getElem?_append_right (by rw [length_nodes]; omega), length_nodes]
      have hindex : i - count X + count Y - count A - count Y = i - count A - count X := by omega
      rw [hindex]
      exact getElem?_eq_getElem (hlength ▸ hi)

lemma exists_split (hc : ((row n ts).filter (·.tree.isNode))[i]? = some c) :
    ∃ A B, ts = A ++ c.tree :: B ∧ count A = i ∧ c.start = n + sizeAll A := by
  induction ts generalizing n i with
  | nil => cases hc
  | cons t ts ih =>
    rw [row, filter_cons] at hc
    cases ht : t.isNode with
    | false =>
      simp only [ht, Bool.false_eq_true, if_false] at hc
      obtain ⟨A, B, rfl, hi, hstart⟩ := ih hc
      refine ⟨t :: A, B, rfl, ?_, ?_⟩
      · rw [count, countP_cons_of_neg (by simp [ht]), ← count, hi]
      · rw [hstart, sizeAll, Nat.add_assoc]
    | true =>
      simp only [ht, if_true] at hc
      cases i with
      | zero =>
        obtain rfl := Option.some.inj hc
        exact ⟨[], ts, rfl, rfl, rfl⟩
      | succ i =>
        obtain ⟨A, B, rfl, hi, hstart⟩ := ih hc
        refine ⟨t :: A, B, rfl, ?_, ?_⟩
        · rw [count, countP_cons_of_pos (by simp [ht]), ← count, hi]
        · rw [hstart, sizeAll, Nat.add_assoc]

lemma texts_row (n : Nat) (ts : List Tree) :
    ((row n ts).filter (·.tree.isNode)).map Site.text = (ts.filter isNode).map Tree.text := by
  rw [← trees_row n ts, map_map]
  rfl

lemma nodes_cons_at (n : Nat) (k : Kind) (A B : List Tree) (ht : t.isNode = true) :
    (⟨n, .node k (A ++ t :: B)⟩ : Site).nodes = (row n A).filter (·.tree.isNode) ++
      ⟨n + sizeAll A, t⟩ :: (row (n + sizeAll A + t.size) B).filter (·.tree.isNode) := by
  rw [nodes, elements, children, row_append, filter_append, row,
    filter_cons_of_pos (by simpa using ht)]

lemma node_at (n : Nat) (A B : List Tree) (ht : t.isNode = true) :
    ((row n (A ++ t :: B)).filter (·.tree.isNode))[count A]? = some ⟨n + sizeAll A, t⟩ := by
  rw [row_append, filter_append, getElem?_append_right (by rw [length_nodes]), length_nodes,
    Nat.sub_self, row, filter_cons_of_pos (by simpa using ht)]
  rfl

lemma exists_replaced (ha : s.at? a = some ⟨n, o⟩) (o' : Tree) :
    ∃ h t', Replaced o o' a h s.tree t' ∧ s.start + h = n := by
  induction a generalizing s with
  | nil =>
    obtain rfl := Option.some.inj ha
    exact ⟨0, o', .here, rfl⟩
  | cons i a ih =>
    obtain ⟨c, hc, hrest⟩ := Option.bind_eq_some_iff.1 ha
    obtain ⟨h, t', hr, hstart⟩ := ih hrest
    obtain ⟨m, tree⟩ := s
    cases tree with
    | token k x => cases hc
    | node k ts =>
      obtain ⟨A, B, hts, rfl, hplace⟩ := exists_split hc
      obtain rfl : ts = A ++ c.tree :: B := hts
      have hsum : m + (sizeAll A + h) = n := by
        rw [← Nat.add_assoc, ← hstart, hplace]
      exact ⟨_, _, .inside A B k hr, hsum⟩

lemma at?_replaced (hr : Replaced o o' a h t t')
    (ho : o.isNode = true) (ho' : o'.isNode = true) (n : Nat) :
    (⟨n, t⟩ : Site).at? a = some ⟨n + h, o⟩ ∧ (⟨n, t'⟩ : Site).at? a = some ⟨n + h, o'⟩ := by
  induction hr generalizing n with
  | here => exact ⟨rfl, rfl⟩
  | @inside a h t t' A B k inner ih =>
    obtain ⟨hnode, hnode'⟩ := inner.isNode ho ho'
    obtain ⟨hold, hnew⟩ := ih (n + sizeAll A)
    have hfirst : (⟨n, .node k (A ++ t :: B)⟩ : Site).nodes[count A]? = some ⟨n + sizeAll A, t⟩ :=
      node_at n A B hnode
    have hsecond : (⟨n, .node k (A ++ t' :: B)⟩ : Site).nodes[count A]? =
        some ⟨n + sizeAll A, t'⟩ := node_at n A B hnode'
    rw [Site.at?, Site.at?, hfirst, hsecond, Option.bind_some, Option.bind_some, hold, hnew,
      Nat.add_assoc]
    exact ⟨rfl, rfl⟩

end Site
end LiveEdit
