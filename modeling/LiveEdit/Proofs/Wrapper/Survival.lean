import LiveEdit.Proofs.Parse.Firmness
import LiveEdit.Proofs.Wrapper.Carrying

namespace LiveEdit.Carrier
open Wrapper Site LiveEdit.Tree List

variable {x : Carrier} {w v : Wrapper} {new old : Site} {nodes : List Site}
  {X X' : List (Kind × Text)}
  {ordinal q m m' : Nat} {shifted : Bool} {side : Placement}

lemma lost_carryUnchanged (hsame : ∀ s s', Shifted m m' q s s' → x.sameAs shifted s s' = true)
    (hb : w.Bound) (h : Shifted m m' q w.site new) :
    (x.carryUnchanged shifted ordinal new w).lost = [] := by
  induction w generalizing ordinal new with
  | mk i n s ws ih =>
    rw [carryUnchanged_eq, if_pos (hsame _ _ h)]
    change (Carried.collect (x.beside shifted new.nodes) ws).lost = []
    rw [Carried.lost_collect, flatMap_eq_nil_iff]
    intro c hc
    obtain ⟨c', hc', hshifted⟩ := node_of_rel h.nodes (hb.nodes c hc)
    rw [beside, hc']
    exact ih c hc (hb.child c hc) hshifted

structure Applies (x : Carrier) (X X' : List (Kind × Text)) : Prop where
  removed : x.edit.removed = (spell X).size
  inserted : x.edit.inserted.size = (spell X').size
  some : x.edit.isEmpty = false

lemma Applies.edited (h : x.Applies X X') : x.edited = .sized x.edit.position (spell X).size := by
  rw [Carrier.edited, Edit.oldSpan, h.removed]

lemma sameAs_self (s : Site) : x.sameAs false s s = true := by
  simp [sameAs_eq]

lemma sameAs_of_shifted {s s' : Site} (hsize : x.edit.inserted.size + m = x.edit.removed + m')
    (h : Shifted m m' q s s') : x.sameAs true s s' = true := by
  have hstart := h.start
  simp only [sameAs_eq, Site.kind, h.tree, beq_self_eq_true, Bool.true_and, if_true,
    Bool.and_eq_true, beq_iff_eq, shift, Edit.delta, span_stop]
  omega

lemma lost_carryUnchanged_before (hb : w.Bound) :
    (x.carryUnchanged false ordinal w.site w).lost = [] := by
  apply lost_carryUnchanged (m := 0) (q := 0) _ hb ⟨rfl, rfl, Nat.zero_le _⟩
  rintro ⟨n, t⟩ ⟨n', t'⟩ h
  obtain rfl : n' = n := h.start
  obtain rfl : t' = t := h.tree
  exact sameAs_self _

lemma lost_carryUnchanged_after (hsize : x.edit.inserted.size + m = x.edit.removed + m')
    (hb : w.Bound) (h : Shifted m m' q w.site new) :
    (x.carryUnchanged true ordinal new w).lost = [] :=
  lost_carryUnchanged (fun _ _ => sameAs_of_shifted hsize) hb h

lemma exists_kept_carryUnchanged (h : x.sameAs shifted w.site new = true) (ordinal : Nat) :
    ∃ w', (x.carryUnchanged shifted ordinal new w).kept = [w'] ∧ w'.index = w.index ∧
    w'.ordinal = ordinal := by
  rw [carryUnchanged_eq, if_pos h]
  exact ⟨_, rfl, rfl, rfl⟩

lemma verdict_of_covered {oldCount : Nat} (h : x.edited.contains w.span = true) :
    x.verdict oldCount nodes w = .lost := by
  have hsettle : x.settle nodes w = none := by rw [settle_eq, place, if_pos h]
  rw [verdict, hsettle, judge]

lemma settle_of_outside (hcover : x.edited.contains w.span = false)
    (hside : x.outside w.span = some side) (hnew : nodes[w.ordinal]? = some new)
    (hgrown : w.span.contains x.edited = true → x.grownInto w.site new = false) :
    x.settle nodes w = some side := by
  have hplace : x.place w.index w.span =
      if w.span.contains x.edited && x.focus.contains w.index then some .path else some side := by
    rw [place, hcover, if_neg Bool.false_ne_true, hside]
  rw [settle_eq, hplace, hside]
  by_cases hfocus : (w.span.contains x.edited && x.focus.contains w.index) = true
  · rw [if_pos hfocus]
    dsimp only
    rw [hnew]
    dsimp only
    rw [hgrown (Bool.and_eq_true_iff.1 hfocus).1, if_neg Bool.false_ne_true]
  · rw [if_neg hfocus]
    cases side <;> simp [hnew]

lemma settle_of_apart (hcover : x.edited.contains w.span = false)
    (hside : x.outside w.span = some side) (hapart : w.span.contains x.edited = false) :
    x.settle nodes w = some side := by
  have hplace : x.place w.index w.span = some side := by
    rw [place, hcover, if_neg Bool.false_ne_true, hapart, Bool.false_and,
      if_neg Bool.false_ne_true, hside]
  have hpath : side ≠ .path := by
    rintro rfl
    unfold outside at hside
    split_ifs at hside <;> cases hside
  rw [settle_eq, hplace]
  cases side with
  | path => exact absurd rfl hpath
  | before | after => rfl

lemma settle_of_astride (hcover : x.edited.contains w.span = false)
    (hside : x.outside w.span = none) (hin : w.span.contains x.edited = true) :
    x.settle nodes w = some .path := by
  have hplace : x.place w.index w.span = some .path := by
    rw [place, hcover, if_neg Bool.false_ne_true, hside, hin]
    simp
  rw [settle_eq, hplace, hside]

lemma inserted_pos (hsome : x.edit.isEmpty = false) (hremoved : x.edit.removed = 0) :
    0 < x.edit.inserted.size := by
  apply Nat.pos_of_ne_zero
  intro hzero
  have hempty : x.edit.isEmpty = true := by
    rw [Edit.isEmpty, hremoved, Text.eq_nil_of_size hzero]
    rfl
  exact absurd hempty (Bool.eq_false_iff.1 hsome)

lemma start_stop_of_grownInto (h : x.grownInto old new = true) :
    new.start = old.start ∧ (new.span.stop : Int) = old.span.stop + x.edit.delta := by
  simp only [grownInto_eq, Bool.and_eq_true, beq_iff_eq] at h
  exact ⟨h.1.2, h.2⟩

lemma not_grown_before (hsome : x.edit.isEmpty = false) (hside : old.span.stop ≤ x.edited.start)
    (hin : old.span.contains x.edited = true) : x.grownInto old old = false := by
  apply Bool.eq_false_iff.2
  intro hgrown
  have hstop := (start_stop_of_grownInto hgrown).2
  have hback : x.edit.position + x.edit.removed ≤ old.span.stop := (Span.contains_iff.1 hin).2
  have hfront : old.span.stop ≤ x.edit.position := hside
  have hpos := inserted_pos hsome (by omega)
  rw [Edit.delta] at hstop
  omega

lemma not_grown_after (hx : x.Applies X X')
    (hshifted : Shifted (spell X).size (spell X').size q old new)
    (hside : x.edited.stop ≤ old.span.start) (hin : old.span.contains x.edited = true) :
    x.grownInto old new = false := by
  apply Bool.eq_false_iff.2
  intro hgrown
  have hstart := (start_stop_of_grownInto hgrown).1
  have hfront : old.start ≤ x.edit.position := (Span.contains_iff.1 hin).1
  have hback : x.edit.position + x.edit.removed ≤ old.start := hside
  have hpos := inserted_pos hx.some (by omega)
  have hremoved := hx.removed
  have hinserted := hx.inserted
  have hmoved := hshifted.start
  omega

lemma grownInto_of_around (hx : x.Applies X X')
    (h : Around X X' x.edit.position old new) : x.grownInto old new = true := by
  have hkind := (Twin.around h).kind
  obtain ⟨-, hstart, hstop⟩ := h.span
  have hremoved := hx.removed
  have hinserted := hx.inserted
  simp only [grownInto_eq, hkind, hstart, beq_self_eq_true, Bool.true_and, beq_iff_eq, shift,
    Edit.delta]
  omega

/-- Around the edit only those children are lost that the edit covers, and below them what is lost
on the way further down. -/
lemma covered_of_lost_within (hx : x.Applies X X')
    (hex : Exchange X X') (hb : w.Bound) (htwin : Twin X X' x.edit.position w.site new)
    (hnew : nodes[w.ordinal]? = some new) (hold : Firm w.site.tree)
    (hfirm : Firm new.tree) (hpath : Around X X' x.edit.position w.site new →
      ∀ v ∈ (x.carryPath w.ordinal new w).lost, x.edited.contains v.span = true) :
    ∀ v ∈ (x.within nodes.length nodes w).lost, x.edited.contains v.span = true := by
  intro v hv
  by_cases hcover : x.edited.contains w.span = true
  · rw [within, verdict_of_covered hcover] at hv
    exact Span.contains_trans hcover (hb.contains hv)
  rw [Bool.not_eq_true] at hcover
  cases htwin with
  | before place eq =>
    have hside : x.outside w.span = some .before := if_pos place
    have hsettle := settle_of_outside hcover hside hnew fun hin =>
      eq.symm ▸ not_grown_before hx.some place hin
    have hverdict : x.verdict nodes.length nodes w = .unchanged false w.ordinal new := by
      rw [verdict, hsettle, judge, hnew]
    rw [within, hverdict] at hv
    dsimp only at hv
    rw [eq, lost_carryUnchanged_before hb] at hv
    exact absurd hv not_mem_nil
  | after shifted =>
    have hplace : x.edited.stop ≤ w.span.start := by
      rw [hx.edited]
      exact shifted.place
    have hside : x.outside w.span = some .after := by
      rw [outside, if_neg, if_pos hplace]
      intro hbefore
      -- what is both before the edit and after it has no bytes, and the edit covers it
      have hempty := w.span.le
      have hedit := x.edited.le
      exact absurd (Span.contains_iff.2 ⟨by omega, by omega⟩) (Bool.eq_false_iff.1 hcover)
    have hsettle := settle_of_outside hcover hside hnew (not_grown_after hx shifted hplace)
    have hverdict : x.verdict nodes.length nodes w = .unchanged true w.ordinal new := by
      rw [verdict, hsettle, judge, if_pos (Nat.le_add_right _ _), Nat.add_sub_cancel_left, hnew]
    rw [within, hverdict] at hv
    dsimp only at hv
    have hsize : x.edit.inserted.size + (spell X).size = x.edit.removed + (spell X').size := by
      rw [hx.removed, hx.inserted, Nat.add_comm]
    rw [lost_carryUnchanged_after hsize hb shifted] at hv
    exact absurd hv not_mem_nil
  | around around =>
    obtain ⟨hfront, hback⟩ := around.astride hex hold hfirm
    have hin : w.span.contains x.edited = true := by
      rw [hx.edited]
      exact around.span.1
    have hside : x.outside w.span = none := by
      rw [outside, if_neg, if_neg]
      · rw [hx.edited]
        exact Nat.not_le.2 hfront
      · exact Nat.not_le.2 hback
    have hverdict : x.verdict nodes.length nodes w = .path w.ordinal new := by
      rw [verdict, settle_of_astride hcover hside hin, judge, hnew]
    rw [within, hverdict] at hv
    exact hpath around v hv

lemma covered_of_lost (hx : x.Applies X X') (hex : Exchange X X') (hb : w.Bound)
    (h : Around X X' x.edit.position w.site new) (hold : w.site.FirmBelow) (hnew : new.FirmBelow) :
    ∀ v ∈ (x.carryPath ordinal new w).lost, x.edited.contains v.span = true := by
  induction w generalizing ordinal new with
  | mk i n s ws ih =>
    have htwins := (Twin.around h).nodes
    have hcount : s.nodes.length = new.nodes.length := htwins.length_eq
    intro v hv
    rw [carryPath_eq, if_pos (grownInto_of_around hx h)] at hv
    change v ∈ (Carried.collect (x.within s.nodes.length new.nodes) ws).lost at hv
    rw [Carried.lost_collect, hcount] at hv
    obtain ⟨c, hc, hlost⟩ := mem_flatMap.1 hv
    have hnode : s.nodes[c.ordinal]? = some c.site := hb.nodes c hc
    obtain ⟨c', hc', htwin⟩ := node_of_rel htwins hnode
    have hfirm : Firm c.site.tree := hold.node (mem_of_getElem? hnode)
    have hfirm' : Firm c'.tree := hnew.node (mem_of_getElem? hc')
    refine covered_of_lost_within hx hex (hb.child c hc) htwin hc' hfirm hfirm' ?_ v hlost
    intro haround
    exact ih c hc (hb.child c hc) haround (firmBelow hfirm) (firmBelow hfirm')

end LiveEdit.Carrier
