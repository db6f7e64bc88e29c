import LiveEdit.Proofs.OrderedIndex.Sorted
import LiveEdit.Proofs.Tree.Sites
import LiveEdit.Wrapper

/-! The ordinals along a trail of bound wrappers are an address that leads back to the wrapper. -/

namespace LiveEdit
open List Option

namespace Wrapper
open List Option

mutual

/-- To prove something of all wrappers, it may be assumed of those right below. -/
@[elab_as_elim, induction_eliminator]
lemma induction {P : Wrapper → Prop} (mk : ∀ i n s ws, (∀ w ∈ ws, P w) → P (.mk i n s ws)) :
    ∀ w, P w
  | .mk i n s ws => mk i n s ws (inductionAll mk ws)

lemma inductionAll {P : Wrapper → Prop}
    (mk : ∀ i n s ws, (∀ w ∈ ws, P w) → P (.mk i n s ws)) : ∀ ws : List Wrapper, ∀ w ∈ ws, P w
  | [], _, hw => nomatch hw
  | v :: ws, w, hw =>
    (mem_cons.1 hw).elim (fun heq => heq ▸ induction mk v) (inductionAll mk ws w)

end

variable {v w p u : Wrapper} {ws l : List Wrapper} {i : Nat}

lemma all_eq (w : Wrapper) : w.all = w :: allOf w.children := by
  cases w
  rw [all, children]

lemma allOf_eq (ws : List Wrapper) : allOf ws = ws.flatMap all := by
  induction ws with
  | nil => rfl
  | cons w ws ih => rw [allOf, ih, flatMap_cons]

lemma mem_allOf : v ∈ allOf ws ↔ ∃ w ∈ ws, v ∈ w.all := by
  rw [allOf_eq, mem_flatMap]

lemma mem_all : v ∈ w.all ↔ v = w ∨ ∃ c ∈ w.children, v ∈ c.all := by
  rw [all_eq, mem_cons, mem_allOf]

lemma self_mem_all (w : Wrapper) : w ∈ w.all := mem_all.2 (.inl rfl)

def indices (w : Wrapper) : List Nat := w.all.map index

def indicesOf (ws : List Wrapper) : List Nat := (allOf ws).map index

lemma indices_eq (w : Wrapper) : w.indices = w.index :: indicesOf w.children := by
  rw [indices, all_eq, map_cons, indicesOf]

lemma indices_mk (i n : Nat) (s : Site) (ws : List Wrapper) :
    (mk i n s ws).indices = i :: indicesOf ws := indices_eq _

lemma indicesOf_cons (w : Wrapper) (ws : List Wrapper) :
    indicesOf (w :: ws) = w.indices ++ indicesOf ws := map_append

lemma indicesOf_singleton (w : Wrapper) : indicesOf [w] = w.indices :=
  congrArg (map index) (append_nil _)

lemma mem_indices_of_mem (h : v ∈ w.all) : v.index ∈ w.indices := mem_map_of_mem h

lemma mem_indicesOf : i ∈ indicesOf ws ↔ ∃ w ∈ ws, i ∈ w.indices := by
  simp only [indicesOf, indices, List.mem_map, mem_allOf]
  constructor
  · rintro ⟨v, ⟨w, hw, hv⟩, rfl⟩
    exact ⟨w, hw, v, hv, rfl⟩
  · rintro ⟨w, hw, v, hv, rfl⟩
    exact ⟨v, ⟨w, hw, hv⟩, rfl⟩

inductive Trail : Wrapper → List Wrapper → Wrapper → Prop where
  | here (w : Wrapper) : Trail w [w] w
  | step {w c v : Wrapper} {l : List Wrapper} (hc : c ∈ w.children) (h : Trail c l v) :
      Trail w (w :: l) v

lemma Trail.mem (h : Trail w l v) : v ∈ w.all := by
  induction h with
  | here w => exact self_mem_all w
  | step hc _ ih => exact mem_all.2 (.inr ⟨_, hc, ih⟩)

lemma exists_trail (h : v ∈ w.all) : ∃ l, Trail w l v := by
  induction w with
  | mk i n s ws ih =>
    obtain rfl | ⟨c, hc, hv⟩ := mem_all.1 h
    · exact ⟨_, .here _⟩
    · obtain ⟨l, hl⟩ := ih c hc hv
      exact ⟨_, .step hc hl⟩

lemma Trail.getLast? (h : Trail w l v) : l.getLast? = some v := by
  induction h with
  | here w => rfl
  | step _ h ih => rw [getLast?_cons, ih, getD_some]

lemma Trail.snoc (h : Trail w l p) (hv : v ∈ p.children) : Trail w (l ++ [v]) v := by
  induction h with
  | here w => exact .step hv (.here v)
  | step hc _ ih => exact .step hc (ih hv)

lemma Trail.unsnoc (h : Trail w l v) :
    (l = [w] ∧ v = w) ∨ ∃ l' p, l = l' ++ [v] ∧ Trail w l' p ∧ v ∈ p.children := by
  induction h with
  | here w => exact .inl ⟨rfl, rfl⟩
  | @step w c v l hc h ih =>
    obtain ⟨rfl, rfl⟩ | ⟨l', p, rfl, hp, hv⟩ := ih
    · exact .inr ⟨[w], w, rfl, .here w, hc⟩
    · exact .inr ⟨w :: l', p, rfl, .step hc hp, hv⟩

lemma trailIn?_eq_some (h : trailIn? i ws = some l) : ∃ w ∈ ws, trail? i w = some l := by
  induction ws with
  | nil => exact nomatch h
  | cons w ws ih =>
    rw [trailIn?] at h
    cases hw : trail? i w with
    | some l' =>
      rw [hw, some_or] at h
      exact ⟨w, mem_cons_self, h ▸ hw⟩
    | none =>
      rw [hw, none_or] at h
      obtain ⟨v, hv, hl⟩ := ih h
      exact ⟨v, mem_cons_of_mem w hv, hl⟩

lemma trail_of_trail? (h : trail? i w = some l) : ∃ v, Trail w l v ∧ v.index = i := by
  induction w generalizing l with
  | mk j n s ws ih =>
    rw [trail?] at h
    split_ifs at h with hi
    · obtain rfl := some.inj h
      exact ⟨_, .here _, hi.symm⟩
    · obtain ⟨l', hl', rfl⟩ := map_eq_some_iff.1 h
      obtain ⟨c, hc, htrail⟩ := trailIn?_eq_some hl'
      obtain ⟨v, hv, hindex⟩ := ih c hc htrail
      exact ⟨v, .step hc hv, hindex⟩

lemma trail?_eq_none (h : i ∉ w.indices) : trail? i w = none := by
  rw [eq_none_iff_forall_ne_some]
  intro l hl
  obtain ⟨v, hv, rfl⟩ := trail_of_trail? hl
  exact h (mem_indices_of_mem hv.mem)

lemma nodup_of_mem (hd : (indicesOf ws).Nodup) (hw : w ∈ ws) : w.indices.Nodup := by
  induction ws with
  | nil => exact nomatch hw
  | cons v ws ih =>
    rw [indicesOf_cons] at hd
    obtain ⟨hfirst, hrest, -⟩ := nodup_append.1 hd
    obtain rfl | hw := mem_cons.1 hw
    · exact hfirst
    · exact ih hrest hw

lemma trailIn?_of_mem (hd : (indicesOf ws).Nodup) (hw : w ∈ ws) (h : trail? i w = some l) :
    trailIn? i ws = some l := by
  induction ws with
  | nil => exact nomatch hw
  | cons v ws ih =>
    rw [indicesOf_cons] at hd
    obtain ⟨-, hrest, hdisjoint⟩ := nodup_append.1 hd
    rw [trailIn?]
    obtain rfl | hw := mem_cons.1 hw
    · rw [h, some_or]
    · obtain ⟨u, hu, rfl⟩ := trail_of_trail? h
      have hmem : u.index ∈ indicesOf ws := mem_indicesOf.2 ⟨w, hw, mem_indices_of_mem hu.mem⟩
      have hnot : u.index ∉ v.indices := fun hin => hdisjoint _ hin _ hmem rfl
      rw [trail?_eq_none hnot, none_or]
      exact ih hrest hw

lemma Trail.trail? (hd : w.indices.Nodup) (h : Trail w l v) : w.trail? v.index = some l := by
  induction h with
  | here w =>
    cases w
    exact if_pos rfl
  | @step w c v l hc h ih =>
    rw [indices_eq, nodup_cons] at hd
    have hmem : v.index ∈ indicesOf w.children := mem_indicesOf.2 ⟨c, hc, mem_indices_of_mem h.mem⟩
    have hne : v.index ≠ w.index := fun heq => hd.1 (heq ▸ hmem)
    have hrest := trailIn?_of_mem hd.2 hc (ih (nodup_of_mem hd.2 hc))
    cases w with
    | mk j n s ws =>
      change v.index ≠ j at hne
      change trailIn? v.index ws = some l at hrest
      rw [Wrapper.trail?, if_neg hne, hrest, map_some]

lemma find?_eq_some_iff (hd : w.indices.Nodup) : w.find? i = some v ↔ v ∈ w.all ∧ v.index = i := by
  constructor
  · intro h
    obtain ⟨l, hl, hlast⟩ := bind_eq_some_iff.1 h
    obtain ⟨u, hu, rfl⟩ := trail_of_trail? hl
    obtain rfl := some.inj (hu.getLast?.symm.trans hlast)
    exact ⟨hu.mem, rfl⟩
  · rintro ⟨hv, rfl⟩
    obtain ⟨l, hl⟩ := exists_trail hv
    rw [find?, hl.trail? hd, bind_some]
    exact hl.getLast?

lemma find?_eq_none_iff (hd : w.indices.Nodup) : w.find? i = none ↔ i ∉ w.indices := by
  simp only [eq_none_iff_forall_ne_some, Ne, find?_eq_some_iff hd, indices, List.mem_map,
    not_exists]

lemma eq_of_index_eq (hd : w.indices.Nodup) (hu : u ∈ w.all) (hv : v ∈ w.all)
    (h : u.index = v.index) : u = v := by
  have hfind := (find?_eq_some_iff hd).2 ⟨hu, h⟩
  exact some.inj (hfind.symm.trans ((find?_eq_some_iff hd).2 ⟨hv, rfl⟩))

lemma mem_all_of_child (hp : p ∈ w.all) (hv : v ∈ p.children) : v ∈ w.all := by
  obtain ⟨l, hl⟩ := exists_trail hp
  exact (hl.snoc hv).mem

lemma mem_all_trans (hv : v ∈ w.all) (hu : u ∈ v.all) : u ∈ w.all := by
  obtain ⟨l, hl⟩ := exists_trail hu
  induction hl with
  | here v => exact hv
  | step hc h ih => exact ih (mem_all_of_child hv hc) h.mem

lemma parent?_of_child (hd : w.indices.Nodup) (hp : p ∈ w.all) (hv : v ∈ p.children) :
    w.parent? v.index = some p := by
  obtain ⟨l, hl⟩ := exists_trail hp
  rw [parent?, (hl.snoc hv).trail? hd, bind_some, dropLast_concat]
  exact hl.getLast?

lemma exists_of_parent? (h : w.parent? i = some p) : p ∈ w.all ∧ ∃ v ∈ p.children, v.index = i := by
  obtain ⟨l, hl, hlast⟩ := bind_eq_some_iff.1 h
  obtain ⟨v, hv, hindex⟩ := trail_of_trail? hl
  rcases hv.unsnoc with ⟨rfl, -⟩ | ⟨l', p', rfl, hp', hchild⟩
  · cases hlast
  · rw [dropLast_concat, hp'.getLast?] at hlast
    obtain rfl := some.inj hlast
    exact ⟨hp'.mem, v, hchild, hindex⟩

lemma parent?_self (hd : w.indices.Nodup) : w.parent? w.index = none := by
  rw [parent?, (Trail.here w).trail? hd, bind_some]
  rfl

lemma exists_parent (hv : v ∈ w.all) (hne : v ≠ w) : ∃ p ∈ w.all, v ∈ p.children := by
  obtain ⟨l, hl⟩ := exists_trail hv
  obtain ⟨-, rfl⟩ | ⟨l', p, -, hp, hchild⟩ := hl.unsnoc
  · exact absurd rfl hne
  · exact ⟨p, hp.mem, hchild⟩
end Wrapper

def Site.clip (s : Site) : Address → Address × Site
  | [] => ([], s)
  | n :: a =>
    match s.nodes[n]? with
    | some c => (n :: (c.clip a).1, (c.clip a).2)
    | none => ([], s)

lemma Site.clip_of_at? {s c : Site} {a : Address} (h : s.at? a = some c) : s.clip a = (a, c) := by
  induction a generalizing s with
  | nil =>
    obtain rfl := some.inj h
    rfl
  | cons n a ih =>
    obtain ⟨e, he, hrest⟩ := bind_eq_some_iff.1 h
    rw [clip, he]
    dsimp only
    rw [ih hrest]

namespace Wrapper

inductive Bound : Wrapper → Prop where
  | mk {i n : Nat} {s : Site} {ws : List Wrapper}
      (nodes : ∀ w ∈ ws, s.nodes[w.ordinal]? = some w.site)
      (ordered : ws.Pairwise fun v w => v.ordinal < w.ordinal)
      (child : ∀ w ∈ ws, Bound w) : Bound (.mk i n s ws)

variable {v w c : Wrapper} {ws l : List Wrapper} {i n fresh m : Nat} {a : Address}

lemma bound_leaf (i n : Nat) (s : Site) : (mk i n s []).Bound :=
  .mk (fun _ hw => absurd hw not_mem_nil) .nil fun _ hw => absurd hw not_mem_nil

lemma Bound.nodes (h : w.Bound) : ∀ c ∈ w.children, w.site.nodes[c.ordinal]? = some c.site := by
  cases h with
  | mk nodes _ _ => exact nodes

lemma Bound.ordered (h : w.Bound) : w.children.Pairwise fun v w => v.ordinal < w.ordinal := by
  cases h with
  | mk _ ordered _ => exact ordered

lemma Bound.child (h : w.Bound) : ∀ c ∈ w.children, c.Bound := by
  cases h with
  | mk _ _ child => exact child

lemma Bound.of_mem (h : w.Bound) (hv : v ∈ w.all) : v.Bound := by
  obtain ⟨l, hl⟩ := exists_trail hv
  induction hl with
  | here w => exact h
  | step hc htrail ih => exact ih (h.child _ hc) htrail.mem

lemma Trail.eq_cons (h : Trail w l v) : l = w :: l.drop 1 := by
  cases h <;> rfl

def ordinals (l : List Wrapper) : Address := (l.drop 1).map ordinal

lemma ordinals_step (h : Trail c l v) : ordinals (w :: l) = c.ordinal :: ordinals l := by
  rw [ordinals, drop_succ_cons, drop_zero, h.eq_cons]
  rfl

lemma Bound.at? (hb : w.Bound) (h : Trail w l v) : w.site.at? (ordinals l) = some v.site := by
  induction h with
  | here w => rfl
  | step hc h ih =>
    rw [ordinals_step h, Site.at?, hb.nodes _ hc, bind_some]
    exact ih (hb.child _ hc)

lemma Bound.lies {t : Text} (hb : w.Bound) (h : Site.Lies t w.site) (hv : v ∈ w.all) :
    Site.Lies t v.site := by
  obtain ⟨l, hl⟩ := exists_trail hv
  induction hl with
  | here w => exact h
  | step hc htrail ih =>
    exact ih (hb.child _ hc) (h.node (mem_of_getElem? (hb.nodes _ hc))) htrail.mem

lemma Bound.contains (hb : w.Bound) (hv : v ∈ w.all) : w.span.contains v.span = true := by
  obtain ⟨l, hl⟩ := exists_trail hv
  induction hl with
  | here w => exact Span.contains_self _
  | step hc htrail ih =>
    have hchild := Site.contains_of_mem_nodes (mem_of_getElem? (hb.nodes _ hc))
    exact Span.contains_trans hchild (ih (hb.child _ hc) htrail.mem)

lemma ordinals_snoc (h : Trail w l v) (c : Wrapper) :
    ordinals (l ++ [c]) = ordinals l ++ [c.ordinal] := by
  rw [h.eq_cons]
  simp [ordinals]

instance (w : Wrapper) : Std.TransCmp w.slots.order := inferInstanceAs (Std.TransCmp compare)

lemma sorted_slots (h : w.Bound) : w.slots.Sorted :=
  h.ordered.imp fun hlt => Nat.compare_eq_lt.2 hlt

lemma get?_slots (h : w.Bound) : w.slots.get? n = some c ↔ c ∈ w.children ∧ c.ordinal = n := by
  rw [OrderedIndex.get?_eq_some_iff (sorted_slots h)]
  exact and_congr_right fun _ => Nat.compare_eq_eq

lemma Bound.setChild (hb : w.Bound) (hc : c.Bound)
    (hnode : w.site.nodes[c.ordinal]? = some c.site) : (w.setChild c).Bound := by
  have hmem : ∀ u, u ∈ (w.slots.set c).items → u = c ∨ u ∈ w.children := by
    intro u hu
    exact ((OrderedIndex.mem_set (sorted_slots hb)).1 hu).imp_right And.left
  have hsorted : (w.slots.set c).items.Pairwise fun u v => compare u.ordinal v.ordinal = .lt :=
    (sorted_slots hb).set c
  refine .mk (fun u hu => ?_) (hsorted.imp Nat.compare_eq_lt.1) fun u hu => ?_
  · obtain rfl | hu := hmem u hu
    · exact hnode
    · exact hb.nodes u hu
  · obtain rfl | hu := hmem u hu
    · exact hc
    · exact hb.child u hu

lemma setChild_of_mem (hb : w.Bound) (hc : c ∈ w.children) : w.setChild c = w := by
  have hset : w.slots.set c = w.slots := OrderedIndex.set_of_mem (sorted_slots hb) hc
  cases w
  unfold setChild
  rw [hset]
  rfl

lemma reach_trail (hb : w.Bound) (h : Trail w l v) :
    reach fresh (ordinals l) w = ⟨w, v.index, fresh⟩ := by
  induction h with
  | here w => rfl
  | step hc h ih =>
    have hget := (get?_slots hb).2 ⟨hc, rfl⟩
    rw [ordinals_step h, reach, hget]
    dsimp only
    rw [ih (hb.child _ hc)]
    dsimp only
    rw [setChild_of_mem hb hc]

lemma indicesOf_append (us ws : List Wrapper) :
    indicesOf (us ++ ws) = indicesOf us ++ indicesOf ws := by
  simp only [indicesOf, allOf_eq, flatMap_append, map_append]

lemma indices_setChild (w c : Wrapper) : ((w.setChild c).indices ++
      indicesOf (w.slots.get? c.ordinal).toList).Perm (c.indices ++ w.indices) := by
  have hitems : w.slots.before c.ordinal ++ ((w.slots.get? c.ordinal).toList ++
      w.slots.after c.ordinal) = w.children := OrderedIndex.before_append_after w.slots c.ordinal
  have hset : (w.setChild c).children = w.slots.before c.ordinal ++ c :: w.slots.after c.ordinal :=
    rfl
  have hindex : (w.setChild c).index = w.index := rfl
  rw [indices_eq, indices_eq w, hset, ← hitems, hindex]
  simp only [indicesOf_append, indicesOf_cons, perm_iff_count, count_append, count_cons]
  intro j
  omega

structure Extends (fresh : Nat) (w : Wrapper) (r : Reached) : Prop where
  bound : r.wrapper.Bound
  index : r.wrapper.index = w.index
  ordinal : r.wrapper.ordinal = w.ordinal
  site : r.wrapper.site = w.site
  le : fresh ≤ r.fresh
  indices : r.wrapper.indices.Perm (w.indices ++ range' fresh (r.fresh - fresh))

lemma range'_split (hm : fresh ≤ m) (hn : m ≤ n) :
    range' fresh (m - fresh) ++ range' m (n - m) = range' fresh (n - fresh) := by
  have hsplit : range' fresh (m - fresh) ++ range' (fresh + (m - fresh)) (n - m) =
      range' fresh (m - fresh + (n - m)) := range'_append_1
  have hsum : m - fresh + (n - m) = n - fresh := by omega
  rwa [Nat.add_sub_cancel' hm, hsum] at hsplit

lemma extends_setChild {u : Wrapper} {r : Reached} (hb : w.Bound)
    (hr : Extends m u r) (hnode : w.site.nodes[u.ordinal]? = some u.site) (hle : fresh ≤ m)
    (hold : indicesOf (w.slots.get? u.ordinal).toList ++ range' fresh (m - fresh) = u.indices) :
    Extends fresh w { r with wrapper := w.setChild r.wrapper } := by
  rw [← hr.ordinal, ← hr.site] at hnode
  refine ⟨hb.setChild hr.bound hnode, rfl, rfl, rfl, hle.trans hr.le, ?_⟩
  have hset := indices_setChild w r.wrapper
  have hnew := hr.indices
  rw [hr.ordinal] at hset
  rw [← hold, append_assoc, range'_split hle hr.le] at hnew
  simp only [perm_iff_count, count_append] at hset hnew ⊢
  intro j
  have hset := hset j
  have hnew := hnew j
  omega

lemma extends_self (hb : w.Bound) (i : Nat) : Extends fresh w ⟨w, i, fresh⟩ :=
  ⟨hb, rfl, rfl, rfl, le_rfl, by simp⟩

lemma extends_reach (hb : w.Bound) : Extends fresh w (reach fresh a w) := by
  fun_induction reach fresh a w with
  | case1 fresh w => exact extends_self hb _
  | case2 fresh n a w c hget r ih =>
    obtain ⟨hc, rfl⟩ := (get?_slots hb).1 hget
    refine extends_setChild hb (ih (hb.child c hc)) (hb.nodes c hc) le_rfl ?_
    simp [hget, indicesOf, indices, allOf]
  | case3 fresh n a w hget s hnode r ih =>
    have hget' : w.slots.get? (mk fresh n s []).ordinal = none := hget
    refine extends_setChild hb (ih (bound_leaf fresh n s)) hnode (Nat.le_succ _) ?_
    rw [hget', Nat.add_sub_cancel_left]
    rfl
  | case4 fresh n a w _ _ => exact extends_self hb _

lemma mem_setChild (hb : w.Bound) (c : Wrapper) : c ∈ (w.setChild c).children := by
  exact (OrderedIndex.mem_set (sorted_slots hb)).2 (.inl rfl)

lemma trail_reach (hb : w.Bound) (fresh : Nat) (a : Address) :
    ∃ l v, Trail (reach fresh a w).wrapper l v ∧ v.index = (reach fresh a w).index ∧
      (ordinals l, v.site) = w.site.clip a := by
  fun_induction reach fresh a w with
  | case1 fresh w => exact ⟨_, w, .here w, rfl, rfl⟩
  | case2 fresh n a w c hget r ih =>
    obtain ⟨hc, rfl⟩ := (get?_slots hb).1 hget
    obtain ⟨l, v, hl, hindex, hclip⟩ := ih (hb.child c hc)
    refine ⟨_, v, .step (mem_setChild hb _) hl, hindex, ?_⟩
    rw [ordinals_step hl, (extends_reach (hb.child c hc)).ordinal, Site.clip, hb.nodes c hc]
    exact congrArg (fun p => (c.ordinal :: p.1, p.2)) hclip
  | case3 fresh n a w hget s hnode r ih =>
    have hleaf := bound_leaf fresh n s
    obtain ⟨l, v, hl, hindex, hclip⟩ := ih hleaf
    refine ⟨_, v, .step (mem_setChild hb _) hl, hindex, ?_⟩
    rw [ordinals_step hl, (extends_reach hleaf).ordinal, Site.clip, hnode]
    exact congrArg (fun p => (n :: p.1, p.2)) hclip
  | case4 fresh n a w _ hnode => exact ⟨_, w, .here w, rfl, by rw [Site.clip, hnode]; rfl⟩

end Wrapper
end LiveEdit
