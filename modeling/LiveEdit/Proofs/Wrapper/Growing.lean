import LiveEdit.Proofs.Tree.Replacement
import LiveEdit.Proofs.Wrapper.Survival

/-! If a node takes in more children and all else is the same, no wrapper is lost, and if it gives
up one, just the wrapper of that one with all below it. -/

namespace LiveEdit

namespace Carrier
open Option
open List hiding count
open Wrapper Site LiveEdit.Tree

variable {x : Carrier} {w v c : Wrapper} {new old c' : Site} {nodes : List Site}
  {A B X Y : List Tree}
  {t t' : Tree} {a : Address} {k : Kind} {n h p m m' q l l' ordinal oldCount j : Nat}

structure Alters (x : Carrier) (p m m' : Nat) : Prop where
  front : p ≤ x.edit.position
  back : x.edit.position + x.edit.removed ≤ p + m
  size : x.edit.inserted.size + m = x.edit.removed + m'
  some : x.edit.isEmpty = false

lemma Alters.widen (hx : x.Alters p m m') (hfront : q ≤ p) (hback : p + m ≤ q + l)
    (hsize : l' + m = l + m') : x.Alters q l l' := by
  obtain ⟨front, back, size, some⟩ := hx
  exact ⟨by omega, by omega, by omega, some⟩

lemma within_before (hx : x.Alters p m m') (hplace : w.span.stop ≤ p)
    (hpos : w.span.start < w.span.stop) (hnew : nodes[w.ordinal]? = some w.site) :
    x.within oldCount nodes w = x.carryUnchanged false w.ordinal w.site w := by
  have hfront : w.span.stop ≤ x.edited.start := hplace.trans hx.front
  have hcover : x.edited.contains w.span = false := by
    apply Bool.eq_false_iff.2
    intro hin
    have hstart := (Span.contains_iff.1 hin).1
    omega
  have hside : x.outside w.span = .some .before := if_pos hfront
  have hsettle := settle_of_outside hcover hside hnew (not_grown_before hx.some hfront)
  have hverdict : x.verdict oldCount nodes w = .unchanged false w.ordinal w.site := by
    rw [verdict, hsettle, judge, hnew]
  rw [within, hverdict]

lemma not_grown_later {i : Nat} {c : Site} (hx : x.Alters p m m')
    (hshifted : Shifted m m' (p + m) old c') (hpos : old.span.start < old.span.stop)
    (hin : old.span.contains x.edited = true) (hi : new.nodes[i]? = some c)
    (hj : new.nodes[j]? = some c') (hij : i ≤ j) : x.grownInto old c = false := by
  apply Bool.eq_false_iff.2
  intro hgrown
  obtain ⟨hstart, hstop⟩ := start_stop_of_grownInto hgrown
  have hfront : old.start ≤ x.edit.position := (Span.contains_iff.1 hin).1
  have hplace := hshifted.place
  have hmoved := hshifted.start
  have hafter := hx.back
  have hsize := hx.size
  have hinserted := inserted_pos hx.some (by omega)
  rw [Edit.delta] at hstop
  rcases Nat.lt_or_eq_of_le hij with hlt | rfl
  · have horder := stop_le_start_of_lt hi hj hlt
    change old.start < old.span.stop at hpos
    omega
  · obtain rfl : c = c' := mem_unique hi hj
    omega

lemma within_after (hx : x.Alters p m m')
    (hpos : w.span.start < w.span.stop) (hshifted : Shifted m m' (p + m) w.site c')
    (hj : new.nodes[j]? = some c') (hlater : w.ordinal ≤ j ∨ 0 < x.edit.removed)
    (hcount : new.nodes.length + w.ordinal = oldCount + j) :
    x.within oldCount new.nodes w = x.carryUnchanged true j c' w := by
  have hback : x.edited.stop ≤ w.span.start := hx.back.trans hshifted.place
  have hedit := x.edited.le
  have hcover : x.edited.contains w.span = false := by
    apply Bool.eq_false_iff.2
    intro hin
    have hstop := (Span.contains_iff.1 hin).2
    omega
  have hside : x.outside w.span = .some .after := by
    rw [outside, if_neg, if_pos hback]
    omega
  have hsettle : x.settle new.nodes w = .some .after := by
    rcases hlater with hle | hremoved
    · obtain ⟨hlt, -⟩ := List.getElem?_eq_some_iff.1 hj
      have hnew := getElem?_eq_getElem (hle.trans_lt hlt)
      exact settle_of_outside hcover hside hnew fun hin =>
        not_grown_later hx hshifted hpos hin hnew hj hle
    · refine settle_of_apart hcover hside (Bool.eq_false_iff.2 fun hin => ?_)
      have hfront : w.span.start ≤ x.edit.position := (Span.contains_iff.1 hin).1
      have hstop : x.edit.position + x.edit.removed ≤ w.span.start := hback
      omega
  have hverdict : x.verdict oldCount new.nodes w = .unchanged true j c' := by
    rw [verdict, hsettle, judge, if_pos (by omega), hcount, Nat.add_sub_cancel_left, hj]
  rw [within, hverdict]

lemma within_astride (hx : x.Alters p m m') (hfront : w.span.start < p)
    (hback : p + m < w.span.stop) (hnew : nodes[w.ordinal]? = some new) :
    x.within oldCount nodes w = x.carryPath w.ordinal new w := by
  have hstart : w.span.start < x.edited.start := hfront.trans_le hx.front
  have hstop : x.edited.stop < w.span.stop := hx.back.trans_lt hback
  have hedit := x.edited.le
  have hcover : x.edited.contains w.span = false := by
    apply Bool.eq_false_iff.2
    intro hin
    have hfirst := (Span.contains_iff.1 hin).1
    omega
  have hside : x.outside w.span = none := by
    rw [outside, if_neg (by omega), if_neg (by omega)]
  have hin : w.span.contains x.edited = true := Span.contains_iff.2 ⟨by omega, by omega⟩
  have hverdict : x.verdict oldCount nodes w = .path w.ordinal new := by
    rw [verdict, settle_of_astride hcover hside hin, judge, hnew]
  rw [within, hverdict]

lemma grownInto_of_sizes (hx : x.Alters p m m') (hkind : new.kind = old.kind)
    (hstart : new.start = old.start) (hsize : new.tree.size + m = old.tree.size + m') :
    x.grownInto old new = true := by
  have hgrows := hx.size
  simp only [grownInto_eq, hkind, hstart, beq_self_eq_true, Bool.true_and, beq_iff_eq, shift,
    Edit.delta, span_stop]
  omega

lemma kept_of_grown (hgrown : x.grownInto w.site new = true) (ordinal : Nat) :
    (x.carryPath ordinal new w).kept = [.mk w.index ordinal new
      (Carried.collect (x.within w.site.nodes.length new.nodes) w.children).kept] := by
  rw [carryPath_eq, if_pos hgrown]
  rfl

def Finds (x : Carrier) (ordinal : Nat) (new : Site) (w v : Wrapper) (b : Address) : Prop :=
  ∃ w' l' v', (x.carryPath ordinal new w).kept = [w'] ∧ w'.ordinal = ordinal ∧ Trail w' l' v' ∧
    v'.index = v.index ∧ ordinals l' = b

lemma finds_self (hgrown : x.grownInto w.site new = true) (ordinal : Nat) :
    x.Finds ordinal new w w [] :=
  ⟨_, _, _, kept_of_grown hgrown ordinal, rfl, .here _, rfl, rfl⟩

lemma finds_below {c' v' : Wrapper} {l' : List Wrapper} (hgrown : x.grownInto w.site new = true)
    (hc : c ∈ w.children) (hc' : (x.within w.site.nodes.length new.nodes c).kept = [c'])
    (htrail : Trail c' l' v') (hindex : v'.index = v.index) (ordinal : Nat) :
    x.Finds ordinal new w v (c'.ordinal :: ordinals l') := by
  refine ⟨_, _, v', kept_of_grown hgrown ordinal, rfl, .step ?_ htrail, hindex,
    ordinals_step htrail⟩
  change c' ∈ (Carried.collect _ w.children).kept
  rw [Carried.kept_collect]
  exact mem_flatMap.2 ⟨c, hc, hc' ▸ mem_singleton_self c'⟩

lemma Finds.step {next : Site} {b : Address} (h : x.Finds c.ordinal next c v b)
    (hgrown : x.grownInto w.site new = true) (hc : c ∈ w.children)
    (hwithin : x.within w.site.nodes.length new.nodes c = x.carryPath c.ordinal next c)
    (ordinal : Nat) : x.Finds ordinal new w v (c.ordinal :: b) := by
  obtain ⟨c', l', v', hc', hplace, htrail, hindex, rfl⟩ := h
  rw [← hwithin] at hc'
  rw [← hplace]
  exact finds_below hgrown hc hc' htrail hindex ordinal

lemma lost_carryPath_of_grown (hgrown : x.grownInto w.site new = true)
    (hchild : ∀ c ∈ w.children, (x.within w.site.nodes.length new.nodes c).lost = []) :
    (x.carryPath ordinal new w).lost = [] := by
  rw [carryPath_eq, if_pos hgrown]
  change (Carried.collect (x.within w.site.nodes.length new.nodes) w.children).lost = []
  rw [Carried.lost_collect, flatMap_eq_nil_iff]
  exact hchild

section

variable {c : Wrapper} (hx : x.Alters (n + sizeAll A) (sizeAll X) (sizeAll Y)) (hb : w.Bound)
  (hw : w.site = ⟨n, .node k (A ++ (X ++ B))⟩) (hfirm : w.site.FirmBelow)
  (hcount : count X ≤ count Y ∨ 0 < x.edit.removed) (hc : c ∈ w.children)
  (hout : c.ordinal < count A ∨ count A + count X ≤ c.ordinal)
include hx hb hw hfirm hcount hc hout

/-- A child before the place where children `X` give way to `Y` is kept as it is, and one after it
is kept with its place counted from the back. -/
lemma within_beside : (c.ordinal < count A ∧ x.within w.site.nodes.length
      (⟨n, .node k (A ++ (Y ++ B))⟩ : Site).nodes c = x.carryUnchanged false c.ordinal c.site c) ∨
    (count A + count X ≤ c.ordinal ∧ ∃ c', Shifted (sizeAll X) (sizeAll Y) (n + sizeAll A + sizeAll
      X) c.site c' ∧ x.within w.site.nodes.length (⟨n, .node k (A ++ (Y ++ B))⟩ : Site).nodes c =
      x.carryUnchanged true (c.ordinal - count X + count Y) c' c) := by
  have hnode := hb.nodes c hc
  -- A node of no size could be taken for one on the other side of the edit.
  have hpos : c.span.start < c.span.stop :=
    span_pos_of_firm (hfirm.node (mem_of_getElem? hnode))
      (mem_filter.1 (mem_of_getElem? hnode)).2
  rw [hw] at hnode ⊢
  rcases nodes_beside hnode Y with ⟨hlt, hstop, hnew⟩ | ⟨hle, hin⟩ | ⟨hle, c', hnew, hshifted⟩
  · exact .inl ⟨hlt, within_before hx hstop hpos hnew⟩
  · have hlt := (List.getElem?_eq_some_iff.1 hin).1
    rw [length_nodes] at hlt
    omega
  · refine .inr
      ⟨hle, c', hshifted, within_after hx hpos hshifted hnew (hcount.imp_left fun _ => by omega) ?_⟩
    have hlength : ∀ ts : List Tree, (⟨n, .node k ts⟩ : Site).nodes.length = count ts :=
      fun ts => length_nodes n ts
    simp only [hlength, count, countP_append] at hle ⊢
    omega

lemma lost_beside :
    (x.within w.site.nodes.length (⟨n, .node k (A ++ (Y ++ B))⟩ : Site).nodes c).lost = [] := by
  rcases within_beside hx hb hw hfirm hcount hc hout with ⟨-, hwithin⟩ | ⟨-, c', hshifted, hwithin⟩
  · rw [hwithin]
    exact lost_carryUnchanged_before (hb.child c hc)
  · rw [hwithin]
    exact lost_carryUnchanged_after hx.size (hb.child c hc) hshifted

end

lemma grownInto_between (hx : x.Alters (n + sizeAll A) (sizeAll X) (sizeAll Y))
    (hw : w.site = ⟨n, .node k (A ++ (X ++ B))⟩) :
    x.grownInto w.site ⟨n, .node k (A ++ (Y ++ B))⟩ = true := by
  rw [hw]
  refine grownInto_of_sizes hx rfl rfl ?_
  simp only [Tree.size, sizeAll_append]
  omega

lemma lost_between (hx : x.Alters (n + sizeAll A) (sizeAll X) (sizeAll Y))
    (hb : w.Bound) (hw : w.site = ⟨n, .node k (A ++ (X ++ B))⟩)
    (hfirm : w.site.FirmBelow) (hcount : count X ≤ count Y)
    (hmid : ∀ c ∈ w.children, count A ≤ c.ordinal → c.ordinal < count A + count X →
      (x.within w.site.nodes.length (⟨n, .node k (A ++ (Y ++ B))⟩ : Site).nodes c).lost = []) :
    (x.carryPath ordinal ⟨n, .node k (A ++ (Y ++ B))⟩ w).lost = [] := by
  refine lost_carryPath_of_grown (grownInto_between hx hw) fun c hc => ?_
  by_cases hin : count A ≤ c.ordinal ∧ c.ordinal < count A + count X
  · exact hmid c hc hin.1 hin.2
  · exact lost_beside hx hb hw hfirm (.inl hcount) hc (by omega)

section Replaced

variable {u u' : Tree} {A' B' : List Tree} {k' : Kind} {c : Wrapper} {l : List Wrapper} {i : Nat}

lemma within_replaced
    (inner : Replaced (.node k (A ++ (X ++ B))) (.node k (A ++ (Y ++ B))) a h u u')
    (hx : x.Alters (n + (sizeAll A' + h) + sizeAll A) (sizeAll X) (sizeAll Y)) (hA : 0 < sizeAll A)
    (hB : 0 < sizeAll B) (hb : w.Bound) (hw : w.site = ⟨n, .node k' (A' ++ u :: B')⟩)
    (hc : c ∈ w.children) (hordinal : c.ordinal = count A') : c.site = ⟨n + sizeAll A', u⟩ ∧
    ∀ oldCount, x.within oldCount (⟨n, .node k' (A' ++ u' :: B')⟩ : Site).nodes c =
      x.carryPath c.ordinal ⟨n + sizeAll A', u'⟩ c := by
  obtain ⟨hsize, -⟩ := inner.size
  obtain ⟨hnode, hnode'⟩ := inner.isNode rfl rfl
  simp only [Tree.size, sizeAll_append] at hsize
  have hsite : c.site = ⟨n + sizeAll A', u⟩ := by
    have hbound := hb.nodes c hc
    rw [hw, hordinal] at hbound
    exact some.inj (hbound.symm.trans (node_at n A' B' hnode))
  refine ⟨hsite, fun oldCount => within_astride hx ?_ ?_ ?_⟩
  · rw [Wrapper.span, hsite]
    change n + sizeAll A' < n + (sizeAll A' + h) + sizeAll A
    omega
  · rw [Wrapper.span, hsite]
    change _ < n + sizeAll A' + u.size
    omega
  · rw [hordinal]
    exact node_at n A' B' hnode'

lemma Alters.widen_child (hx : x.Alters (n + (sizeAll A' + h) + sizeAll A) (sizeAll X) (sizeAll Y))
    (inner : Replaced (.node k (A ++ (X ++ B))) (.node k (A ++ (Y ++ B))) a h u u') :
    x.Alters (n + sizeAll A') (sizeAll [u]) (sizeAll [u']) := by
  obtain ⟨hsize, hgrows⟩ := inner.size
  simp only [Tree.size, sizeAll_append] at hsize hgrows
  simp only [sizeAll]
  exact hx.widen (by omega) (by omega) (by omega)

lemma grownInto_replaced (hr : Replaced (.node k (A ++ (X ++ B))) (.node k (A ++ (Y ++ B)))
      a h t t') (hx : x.Alters p (sizeAll X) (sizeAll Y)) (hw : w.site = ⟨n, t⟩) :
    x.grownInto w.site ⟨n, t'⟩ = true := by
  have hgrows := hr.size.2
  simp only [Tree.size, sizeAll_append] at hgrows
  rw [hw]
  refine grownInto_of_sizes hx (hr.kind rfl) rfl ?_
  change t'.size + _ = t.size + _
  omega

lemma exists_child {b : Address} (htrail : Trail w l v) (hl : ordinals l = i :: b) :
    ∃ c l', c ∈ w.children ∧ c.ordinal = i ∧ Trail c l' v ∧ ordinals l' = b := by
  cases htrail with
  | here => cases hl
  | @step w c v l hc htrail =>
    rw [ordinals_step htrail] at hl
    obtain ⟨hordinal, hrest⟩ := cons.inj hl
    exact ⟨c, l, hc, hordinal, htrail, hrest⟩

lemma eq_of_trail (htrail : Trail w l v) (hl : ordinals l = []) : w = v := by
  cases htrail with
  | here => rfl
  | step hc htrail =>
    rw [ordinals_step htrail] at hl
    cases hl

variable (hr : Replaced (.node k (A ++ (X ++ B))) (.node k (A ++ (Y ++ B))) a h t t')
  (hx : x.Alters (n + h + sizeAll A) (sizeAll X) (sizeAll Y))
  (hedge : a = [] ∨ (0 < sizeAll A ∧ 0 < sizeAll B)) (hb : w.Bound) (hw : w.site = ⟨n, t⟩)
include hr hx hedge hb hw

lemma lost_replaced (hX : count X = 0) (hfirm : w.site.FirmBelow) :
    (x.carryPath ordinal ⟨n, t'⟩ w).lost = [] := by
  -- Down the way to the place: above it, the one child that reaches around the place is followed,
  -- and at
  -- it no child is in the gap.
  induction hr generalizing n w ordinal with
  | here =>
    refine lost_between hx hb hw hfirm (by omega) ?_
    intro c hc hle hlt
    omega
  | @inside a h u u' A' B' k' inner ih =>
    obtain ⟨hA, hB⟩ := hedge.resolve_left (cons_ne_nil _ _)
    obtain ⟨hnode, hnode'⟩ := inner.isNode rfl rfl
    have hwide := hx.widen_child inner
    have hone : ∀ v : Tree, v.isNode = true → count [v] = 1 := fun v hv => by simp [count, hv]
    refine lost_between (X := [u]) (Y := [u']) hwide hb hw hfirm
      (by rw [hone u hnode, hone u' hnode']) ?_
    intro c hc hle hlt
    rw [hone u hnode] at hlt
    obtain ⟨hsite, hwithin⟩ := within_replaced inner hx hA hB hb hw hc (by omega)
    have hchild : c.site.FirmBelow := Site.firmBelow (hfirm.node (mem_of_getElem? (hb.nodes c hc)))
    rw [singleton_append, hwithin]
    rw [← Nat.add_assoc n] at hx
    exact ih hx (.inr ⟨hA, hB⟩) (hb.child c hc) hsite hchild

lemma exists_kept (htrail : Trail w l v) (hl : ordinals l <+: a) :
    x.Finds ordinal ⟨n, t'⟩ w v (ordinals l) := by
  induction htrail generalizing n a h t t' ordinal with
  | here w => exact finds_self (grownInto_replaced hr hx hw) ordinal
  | @step w c v l hc htrail ih =>
    have hgrown := grownInto_replaced hr hx hw
    rw [ordinals_step htrail] at hl ⊢
    cases hr with
    | here => exact absurd (prefix_nil.1 hl) (cons_ne_nil _ _)
    | @inside a h u u' A' B' k' inner =>
      obtain ⟨hordinal, hrest⟩ := cons_prefix_cons.1 hl
      obtain ⟨hA, hB⟩ := hedge.resolve_left (cons_ne_nil _ _)
      obtain ⟨hsite, hwithin⟩ := within_replaced inner hx hA hB hb hw hc hordinal
      rw [← Nat.add_assoc n] at hx
      exact (ih inner hx (.inr ⟨hA, hB⟩) (hb.child c hc) hsite hrest).step hgrown hc
        (hwithin _) ordinal

lemma exists_kept_beside (hX : count X = 0) (hfirm : w.site.FirmBelow)
    (htrail : Trail w l v) (hl : ordinals l = a ++ [i]) :
    x.Finds ordinal ⟨n, t'⟩ w v (a ++ [if i < count A then i else i + count Y]) := by
  -- The way down to the place is that of the wrappers above it; only the last step may be to
  -- another child.
  induction hr generalizing n w l ordinal with
  | here =>
    have hgrown := grownInto_replaced .here hx hw
    rw [Nat.add_zero] at hx
    obtain ⟨c, l', hc, rfl, hrest, hl'⟩ := exists_child htrail hl
    obtain rfl := eq_of_trail hrest hl'
    obtain ⟨c', hc', hindex, hordinal⟩ : ∃ c', (x.within w.site.nodes.length
        (⟨n, .node k (A ++ (Y ++ B))⟩ : Site).nodes c).kept = [c'] ∧ c'.index = c.index ∧
          c'.ordinal = if c.ordinal < count A then c.ordinal else c.ordinal + count Y := by
      rcases within_beside hx hb hw hfirm (.inl (by omega)) hc (by omega) with
        ⟨hlt, hwithin⟩ | ⟨hle, new, hshifted, hwithin⟩
      · rw [hwithin, if_pos hlt]
        exact exists_kept_carryUnchanged (sameAs_self c.site) _
      · rw [hwithin, if_neg (by omega), hX, Nat.sub_zero]
        exact exists_kept_carryUnchanged (sameAs_of_shifted hx.size hshifted) _
    have hfinds := finds_below hgrown hc hc' (.here c') hindex ordinal
    rwa [hordinal] at hfinds
  | @inside a h u u' A' B' k' inner ih =>
    obtain ⟨hA, hB⟩ := hedge.resolve_left (cons_ne_nil _ _)
    have hgrown := grownInto_replaced (.inside A' B' k' inner) hx hw
    obtain ⟨c, l', hc, hordinal, hrest, hl'⟩ := exists_child htrail hl
    obtain ⟨hsite, hwithin⟩ := within_replaced inner hx hA hB hb hw hc hordinal
    have hchild : c.site.FirmBelow := Site.firmBelow (hfirm.node (mem_of_getElem? (hb.nodes c hc)))
    rw [← Nat.add_assoc n] at hx
    have hfinds := (ih hx (.inr ⟨hA, hB⟩) (hb.child c hc) hsite hchild hrest hl').step hgrown hc
      (hwithin _) ordinal
    rwa [hordinal] at hfinds

end Replaced
end Carrier

namespace Carrier
open Wrapper Site LiveEdit.Tree List Option

variable {x : Carrier} {w v : Wrapper} {new : Site} {nodes : List Site} {o o' t t' : Tree}
  {a : Address}
  {n h ordinal oldCount : Nat}

lemma within_focused (hcover : x.edited.contains w.span = false)
    (hin : w.span.contains x.edited = true) (hfocus : w.index ∈ x.focus)
    (hnew : nodes[w.ordinal]? = some new) (hgrown : x.grownInto w.site new = true) :
    x.within oldCount nodes w = x.carryPath w.ordinal new w := by
  have hplace : x.place w.index w.span = some .path := by
    rw [place, hcover, if_neg Bool.false_ne_true, hin, contains_iff_mem.2 hfocus, Bool.and_self,
      if_pos rfl]
  have hsettle : x.settle nodes w = some .path := by
    rw [settle_eq, hplace]
    cases x.outside w.span with
    | none => rfl
    | some side =>
      dsimp only
      rw [hnew]
      exact if_pos hgrown
  have hverdict : x.verdict oldCount nodes w = .path w.ordinal new := by
    rw [verdict, hsettle, judge, hnew]
  rw [within, hverdict]

structure Touches (x : Carrier) (p : Nat) (o o' : Tree) : Prop where
  alters : x.Alters p o.size o'.size
  partly : x.edit.removed < o.size
  kind : o'.kind = o.kind
  old : o.isNode = true
  new : o'.isNode = true

lemma Touches.grownInto (hx : x.Touches (n + h) o o') (hr : Replaced o o' a h t t') :
    x.grownInto ⟨n, t⟩ ⟨n, t'⟩ = true :=
  grownInto_of_sizes hx.alters (hr.kind hx.kind) rfl hr.size.2

lemma Touches.contains (hx : x.Touches (n + h) o o') (hr : Replaced o o' a h t t') :
    x.edited.contains (⟨n, t⟩ : Site).span = false ∧
    (⟨n, t⟩ : Site).span.contains x.edited = true := by
  obtain ⟨⟨front, back, -, -⟩, partly, -, -, -⟩ := hx
  have hsize := hr.size.1
  constructor
  · apply Bool.eq_false_iff.2
    intro hcover
    obtain ⟨hstart, hstop⟩ := Span.contains_iff.1 hcover
    have hfirst : x.edit.position ≤ n := hstart
    have hlast : n + t.size ≤ x.edit.position + x.edit.removed := hstop
    omega
  · refine Span.contains_iff.2 ⟨?_, ?_⟩
    · change n ≤ x.edit.position
      omega
    · change x.edit.position + x.edit.removed ≤ n + t.size
      omega

lemma exists_kept_focused {l : List Wrapper} (hr : Replaced o o' a h t t')
    (hx : x.Touches (n + h) o o') (hb : w.Bound) (hw : w.site = ⟨n, t⟩)
    (htrail : Trail w l v) (hl : ordinals l <+: a) (hfocus : ∀ u ∈ l, u.index ∈ x.focus) :
    x.Finds ordinal ⟨n, t'⟩ w v (ordinals l) := by
  induction htrail generalizing n a h t t' ordinal with
  | here w => exact finds_self (hw ▸ hx.grownInto hr) ordinal
  | @step w c v l hc htrail ih =>
    have hgrown : x.grownInto w.site ⟨n, t'⟩ = true := hw ▸ hx.grownInto hr
    rw [ordinals_step htrail] at hl ⊢
    cases hr with
    | here => exact absurd (prefix_nil.1 hl) (cons_ne_nil _ _)
    | @inside a h u u' A B k inner =>
      obtain ⟨hordinal, hrest⟩ := cons_prefix_cons.1 hl
      obtain ⟨hnode, hnode'⟩ := inner.isNode hx.old hx.new
      have hsite : c.site = ⟨n + sizeAll A, u⟩ := by
        have hbound := hb.nodes c hc
        rw [hw, hordinal] at hbound
        exact some.inj (hbound.symm.trans (node_at n A B hnode))
      have hinner : x.Touches (n + sizeAll A + h) o o' := by
        rw [Nat.add_assoc]
        exact hx
      have hwithin : ∀ oldCount, x.within oldCount (⟨n, .node k (A ++ u' :: B)⟩ : Site).nodes c =
          x.carryPath c.ordinal ⟨n + sizeAll A, u'⟩ c := by
        intro oldCount
        obtain ⟨hcover, hin⟩ := hinner.contains inner
        rw [← hsite] at hcover hin
        refine within_focused hcover hin (hfocus c ?_) ?_ (hsite ▸ hinner.grownInto inner)
        · rw [htrail.eq_cons]
          exact mem_cons_of_mem w mem_cons_self
        · rw [hordinal]
          exact node_at n A B hnode'
      refine Finds.step ?_ hgrown hc (hwithin _) ordinal
      exact ih inner hinner (hb.child c hc) hsite hrest fun u hu => hfocus u (mem_cons_of_mem w hu)
end Carrier

namespace Carrier
open Wrapper Site LiveEdit.Tree

variable {x : Carrier} {w v c u : Wrapper} {new : Site} {A B X Y : List Tree} {t t' : Tree}
  {a : Address}
  {k : Kind} {n h ordinal : Nat} {l : List Wrapper}

lemma eq_of_ordinal (hb : w.Bound) (hc : c ∈ w.children) (hv : v ∈ w.children)
    (hordinal : c.ordinal = v.ordinal) : c = v :=
  Option.some.inj (((get?_slots hb).2 ⟨hc, hordinal⟩).symm.trans ((get?_slots hb).2 ⟨hv, rfl⟩))

lemma mem_lost_of_child (hgrown : x.grownInto w.site new = true)
    (hb : w.Bound) (hv : v ∈ w.children) (hother : ∀ c ∈ w.children, c.ordinal ≠ v.ordinal →
      (x.within w.site.nodes.length new.nodes c).lost = []) :
    u ∈ (x.carryPath ordinal new w).lost ↔ u ∈ (x.within w.site.nodes.length new.nodes v).lost := by
  rw [carryPath_eq, if_pos hgrown]
  change u ∈ (Carried.collect (x.within w.site.nodes.length new.nodes) w.children).lost ↔ _
  rw [Carried.lost_collect, List.mem_flatMap]
  constructor
  · rintro ⟨c, hc, hu⟩
    by_cases hordinal : c.ordinal = v.ordinal
    · rwa [← eq_of_ordinal hb hc hv hordinal]
    · rw [hother c hc hordinal] at hu
      exact absurd hu List.not_mem_nil
  · exact fun hu => ⟨v, hv, hu⟩

lemma lost_within_covered {oldCount : Nat} {nodes : List Site}
    (h : x.edited.contains w.span = true) : (x.within oldCount nodes w).lost = w.all := by
  rw [within, verdict_of_covered h]
  rfl

lemma mem_lost_replaced (hr : Replaced (.node k (A ++ (X ++ B))) (.node k (A ++ (Y ++ B))) a h t t')
    (hx : x.Alters (n + h + sizeAll A) (sizeAll X) (sizeAll Y)) (hX : count X = 1)
    (hremoved : 0 < x.edit.removed) (hcover : x.edited.contains v.span = true)
    (hedge : a = [] ∨ (0 < sizeAll A ∧ 0 < sizeAll B)) (hb : w.Bound) (hw : w.site = ⟨n, t⟩)
    (hfirm : w.site.FirmBelow) (htrail : Trail w l v) (hl : ordinals l = a ++ [count A]) :
    u ∈ (x.carryPath ordinal ⟨n, t'⟩ w).lost ↔ u ∈ v.all := by
  -- Down the way to the place, as for a node that takes in more.
  induction hr generalizing n w l ordinal with
  | here =>
    obtain ⟨c, l', hc, hordinal, hrest, hl'⟩ := exists_child htrail hl
    obtain rfl := eq_of_trail hrest hl'
    rw [← lost_within_covered hcover]
    refine mem_lost_of_child (grownInto_between hx hw) hb hc fun c' hc' hne => ?_
    exact lost_beside hx hb hw hfirm (.inr hremoved) hc' (by omega)
  | @inside a h u' u'' A' B' k' inner ih =>
    obtain ⟨hA, hB⟩ := hedge.resolve_left (List.cons_ne_nil _ _)
    obtain ⟨hnode, -⟩ := inner.isNode rfl rfl
    have hwide := hx.widen_child inner
    have hone : count [u'] = 1 := by simp [count, hnode]
    obtain ⟨c, l', hc, hordinal, hrest, hl'⟩ := exists_child htrail hl
    obtain ⟨hsite, hwithin⟩ := within_replaced inner hx hA hB hb hw hc hordinal
    have hchild : c.site.FirmBelow :=
      Site.firmBelow (hfirm.node (List.mem_of_getElem? (hb.nodes c hc)))
    have hgrown : x.grownInto w.site ⟨n, .node k' (A' ++ u'' :: B')⟩ = true :=
      grownInto_between (X := [u']) (Y := [u'']) hwide hw
    rw [mem_lost_of_child hgrown hb hc fun c' hc' hne => lost_beside (X := [u']) (Y := [u''])
      hwide hb hw hfirm (.inr hremoved) hc' (by omega), hwithin]
    rw [← Nat.add_assoc n] at hx
    exact ih hx (.inr ⟨hA, hB⟩) (hb.child c hc) hsite hchild hrest hl'
end Carrier
end LiveEdit
