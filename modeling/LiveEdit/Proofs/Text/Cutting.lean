import LiveEdit.Edit
import Mathlib.Tactic.Common

/-! Front parts of a text are told apart by their sizes, so a span has one text at most. -/

namespace LiveEdit
open List Option

namespace Span

variable {s t : Span}

lemma contains_iff : s.contains t = true ↔ s.start ≤ t.start ∧ t.stop ≤ s.stop := by
  rw [contains, Bool.and_eq_true, decide_eq_true_eq, decide_eq_true_eq]

lemma contains_self (s : Span) : s.contains s = true :=
  contains_iff.2 ⟨Nat.le_refl _, Nat.le_refl _⟩

lemma contains_trans {u : Span} (hs : s.contains t = true) (ht : t.contains u = true) :
    s.contains u = true := by
  obtain ⟨hstart, hstop⟩ := contains_iff.1 hs
  obtain ⟨hstart', hstop'⟩ := contains_iff.1 ht
  exact contains_iff.2 ⟨Nat.le_trans hstart hstart', Nat.le_trans hstop' hstop⟩

lemma eq_of_ends (hstart : s.start = t.start) (hstop : s.stop = t.stop) : s = t := by
  cases s
  cases t
  simp_all

end Span

namespace Text

variable {a b c d t : Text} {n : Nat}

@[simp] lemma size_append (a b : Text) : size (a ++ b) = size a + size b := by
  induction a with
  | nil => exact (Nat.zero_add _).symm
  | cons c a ih => simp only [cons_append, size, ih, Nat.add_assoc]

lemma eq_nil_of_size (h : t.size = 0) : t = [] := by
  cases t with
  | nil => rfl
  | cons c t =>
    have hpos := c.utf8Size_pos
    simp only [size] at h
    omega

lemma exists_of_append_eq (h : a ++ b = c ++ d) (hle : a.size ≤ c.size) :
    ∃ m, c = a ++ m ∧ b = m ++ d := by
  obtain h | ⟨m, rfl, rfl⟩ := append_eq_append_iff.1 h
  · exact h
  · rw [size_append] at hle
    obtain rfl : m = [] := eq_nil_of_size (by omega)
    exact ⟨[], by simp, rfl⟩

lemma cut?_append (a b : Text) : cut? a.size (a ++ b) = some (a, b) := by
  induction a with
  | nil => simp [size, cut?]
  | cons c a ih =>
    have hpos := c.utf8Size_pos
    obtain ⟨n, hn⟩ : ∃ n, size (c :: a) = n + 1 :=
      Nat.exists_eq_add_one.2 (Nat.lt_of_lt_of_le hpos (Nat.le_add_right ..))
    have hle : c.utf8Size ≤ n + 1 := by rw [← hn, size]; omega
    have hrest : n + 1 - c.utf8Size = size a := by rw [← hn, size]; omega
    rw [hn, cons_append, cut?, if_pos hle, hrest, ih]
    rfl

lemma append_eq_of_cut? (h : cut? n t = some (a, b)) : a ++ b = t ∧ a.size = n := by
  fun_induction cut? n t generalizing a b with
  | case1 t =>
    obtain ⟨rfl, rfl⟩ := Prod.mk.inj (some.inj h)
    exact ⟨rfl, rfl⟩
  | case2 => exact nomatch h
  | case3 n c t hle ih =>
    obtain ⟨⟨a', b'⟩, hcut, heq⟩ := map_eq_some_iff.1 h
    obtain ⟨rfl, rfl⟩ := Prod.mk.inj heq
    obtain ⟨rfl, hsize⟩ := ih hcut
    refine ⟨rfl, ?_⟩
    simp only [size]
    omega
  | case4 => exact nomatch h

lemma slice?_eq_some_iff {s : Span} : t.slice? s = some c ↔
    ∃ a b, a ++ (c ++ b) = t ∧ a.size = s.start ∧ s.start + c.size = s.stop := by
  have hle := s.le
  simp only [slice?, bind_eq_bind, bind_eq_some_iff, Span.size]
  constructor
  · rintro ⟨⟨a, rest⟩, hfront, ⟨c', b⟩, hback, heq⟩
    obtain ⟨rfl, hstart⟩ := append_eq_of_cut? hfront
    obtain ⟨rfl, hsize⟩ := append_eq_of_cut? hback
    obtain rfl : c' = c := some.inj heq
    exact ⟨a, b, rfl, hstart, by omega⟩
  · rintro ⟨a, b, rfl, hstart, hstop⟩
    have hsize : s.stop - s.start = c.size := by omega
    exact ⟨(a, c ++ b), hstart ▸ cut?_append a _, (c, b), hsize ▸ cut?_append c b, rfl⟩

end Text

namespace Edit
open Text

variable {e : Edit} {t u x : Text} {s s' : Span}

lemma result?_append (a r b : Text) (hp : a.size = e.position) (hr : r.size = e.removed) :
    e.result? (a ++ (r ++ b)) = some (a ++ (e.inserted ++ b)) := by
  simp [result?, ← hp, ← hr, cut?_append]

lemma exists_of_result? (h : e.result? t = some u) : ∃ a r b,
    a ++ (r ++ b) = t ∧ a ++ (e.inserted ++ b) = u ∧ a.size = e.position ∧ r.size = e.removed := by
  simp only [result?, bind_eq_bind, bind_eq_some_iff] at h
  obtain ⟨⟨a, rest⟩, hfront, ⟨r, b⟩, hback, hu⟩ := h
  obtain ⟨rfl, hp⟩ := append_eq_of_cut? hfront
  obtain ⟨rfl, hr⟩ := append_eq_of_cut? hback
  refine ⟨a, r, b, rfl, ?_, hp, hr⟩
  simpa using hu

lemma slice?_before (h : e.result? t = some u) (hs : t.slice? s = some x)
    (hle : s.stop ≤ e.oldSpan.start) : u.slice? s = some x := by
  obtain ⟨a, r, b, rfl, rfl, hp, -⟩ := exists_of_result? h
  obtain ⟨a', b', heq, hstart, hstop⟩ := slice?_eq_some_iff.1 hs
  have hfront : (a' ++ x).size ≤ a.size := by
    rw [size_append, hstart, hstop, hp]
    exact hle
  rw [← append_assoc] at heq
  obtain ⟨m, rfl, -⟩ := exists_of_append_eq heq hfront
  exact slice?_eq_some_iff.2 ⟨a', m ++ (e.inserted ++ b), by simp, hstart, hstop⟩

lemma slice?_after (h : e.result? t = some u) (hs : t.slice? s = some x)
    (hle : e.oldSpan.stop ≤ s.start) (hstart' : (s'.start : Int) = s.start + e.delta)
    (hstop' : (s'.stop : Int) = s.stop + e.delta) : u.slice? s' = some x := by
  obtain ⟨a, r, b, rfl, rfl, hp, hr⟩ := exists_of_result? h
  obtain ⟨a', b', heq, hstart, hstop⟩ := slice?_eq_some_iff.1 hs
  have hfront : (a ++ r).size ≤ a'.size := by
    rw [size_append, hp, hr, hstart]
    exact hle
  rw [← append_assoc a r] at heq
  obtain ⟨m, rfl, rfl⟩ := exists_of_append_eq heq.symm hfront
  simp only [size_append, delta] at *
  exact slice?_eq_some_iff.2
    ⟨a ++ (e.inserted ++ m), b', by simp, by simp only [size_append]; omega, by omega⟩

def within (e : Edit) (s : Span) : Edit := { e with position := e.position - s.start }

lemma slice?_around (h : e.result? t = some u) (hs : t.slice? s = some x)
    (hstart : s.start ≤ e.oldSpan.start) (hstop : e.oldSpan.stop ≤ s.stop)
    (hstart' : s'.start = s.start) (hstop' : (s'.stop : Int) = s.stop + e.delta) :
    ∃ y, (e.within s).result? x = some y ∧ u.slice? s' = some y := by
  obtain ⟨a, r, b, rfl, rfl, hp, hr⟩ := exists_of_result? h
  obtain ⟨a', b', heq, ha', hx⟩ := slice?_eq_some_iff.1 hs
  simp only [oldSpan, Span.sized] at hstart hstop
  obtain ⟨m, rfl, hrest⟩ := exists_of_append_eq heq (by omega)
  rw [size_append] at hp
  rw [← append_assoc m r] at hrest
  obtain ⟨m', rfl, rfl⟩ := exists_of_append_eq hrest.symm (by rw [size_append]; omega)
  have hm : m.size = (e.within s).position := by
    simp only [within]
    omega
  refine ⟨m ++ (e.inserted ++ m'), ?_, slice?_eq_some_iff.2 ⟨a', b', ?_, ?_, ?_⟩⟩
  · rw [append_assoc m r]
    exact result?_append m r m' hm hr
  · simp
  · rw [ha', hstart']
  · simp only [size_append, delta] at *
    omega

end Edit

namespace Text

variable {a t u : Text} {n : Nat} {s : Span}

lemma isBoundary_iff : t.isBoundary n = true ↔ ∃ a b, a ++ b = t ∧ a.size = n := by
  rw [isBoundary, isSome_iff_exists]
  constructor
  · rintro ⟨⟨a, b⟩, hcut⟩
    exact ⟨a, b, append_eq_of_cut? hcut⟩
  · rintro ⟨a, b, rfl, rfl⟩
    exact ⟨(a, b), cut?_append a b⟩

lemma exists_slice? (hstart : t.isBoundary s.start = true) (hstop : t.isBoundary s.stop = true) :
    ∃ c, t.slice? s = some c := by
  obtain ⟨a, b, htext, ha⟩ := isBoundary_iff.1 hstart
  obtain ⟨a', b', htext', ha'⟩ := isBoundary_iff.1 hstop
  have hle : a.size ≤ a'.size := by
    rw [ha, ha']
    exact s.le
  obtain ⟨c, rfl, rfl⟩ := exists_of_append_eq (htext.trans htext'.symm) hle
  refine ⟨c, slice?_eq_some_iff.2 ⟨a, b', htext, ha, ?_⟩⟩
  rw [← ha, ← ha', size_append]

lemma exists_startsLine? (h : t.isBoundary n = true) : ∃ b, t.startsLine? n = some b := by
  obtain ⟨p, hp⟩ := isSome_iff_exists.1 h
  exact ⟨_, by rw [startsLine?, hp]; rfl⟩

lemma exists_endsLine? (h : t.isBoundary n = true) : ∃ b, t.endsLine? n = some b := by
  obtain ⟨p, hp⟩ := isSome_iff_exists.1 h
  exact ⟨_, by rw [endsLine?, hp]; rfl⟩

lemma exists_indentationAt? (h : t.isBoundary n = true) : ∃ u, t.indentationAt? n = some u := by
  obtain ⟨p, hp⟩ := isSome_iff_exists.1 h
  exact ⟨_, by rw [indentationAt?, hp]; rfl⟩

end Text

namespace Edit
open Text

variable {e : Edit} {t u : Text}

lemma exists_result? (hstart : t.isBoundary e.position = true)
    (hstop : t.isBoundary (e.position + e.removed) = true) : ∃ u, e.result? t = some u := by
  obtain ⟨a, b, htext, ha⟩ := isBoundary_iff.1 hstart
  obtain ⟨a', b', htext', ha'⟩ := isBoundary_iff.1 hstop
  have hle : a.size ≤ a'.size := by
    rw [ha, ha']
    exact Nat.le_add_right _ _
  obtain ⟨r, rfl, rfl⟩ := exists_of_append_eq (htext.trans htext'.symm) hle
  rw [size_append] at ha'
  rw [← htext]
  exact ⟨_, result?_append a r b' ha (by omega)⟩

lemma size_result? (h : e.result? t = some u) : u.size + e.removed = t.size + e.inserted.size := by
  obtain ⟨a, r, b, rfl, rfl, -, hr⟩ := exists_of_result? h
  simp only [size_append]
  omega

lemma stop_le_size (h : e.result? t = some u) : e.oldSpan.stop ≤ t.size := by
  obtain ⟨a, r, b, rfl, -, hp, hr⟩ := exists_of_result? h
  simp only [oldSpan, Span.sized, size_append]
  omega

lemma result?_of_isEmpty (hempty : e.isEmpty = true) (h : e.result? t = some u) : u = t := by
  obtain ⟨a, r, b, rfl, rfl, -, hr⟩ := exists_of_result? h
  simp only [isEmpty, Bool.and_eq_true, decide_eq_true_eq, List.isEmpty_iff] at hempty
  obtain rfl : r = [] := eq_nil_of_size (hr.trans hempty.1)
  rw [hempty.2]

end Edit

namespace Manipulation
open Text

variable {t : Text} {position : Nat}

def Fits (m : Manipulation) (t : Text) : Prop :=
  ∃ e u, m.edit? t = some e ∧ e.result? t = some u

lemma fits_insertion {replaced : Nat} (text : Text)
    (hstart : t.isBoundary position = true) (hstop : t.isBoundary (position + replaced) = true) :
    (insertion position replaced text).Fits t := by
  obtain ⟨u, hu⟩ := Edit.exists_result? (e := ⟨position, replaced, text⟩) hstart hstop
  exact ⟨_, u, rfl, hu⟩

lemma fits_replace {s : Span} (text : Text) (hstart : t.isBoundary s.start = true)
    (hstop : t.isBoundary s.stop = true) : (replace s text).Fits t := by
  apply fits_insertion text hstart
  rw [Span.size, Nat.add_sub_cancel' s.le]
  exact hstop

lemma fits_unwrapping {u : Unwrapping} (hstart : t.isBoundary u.span.start = true)
    (hstop : t.isBoundary u.span.stop = true) (hbody : t.isBoundary u.body.start = true)
    (hbody' : t.isBoundary u.body.stop = true) : (unwrapping u).Fits t := by
  obtain ⟨body, hslice⟩ := exists_slice? hbody hbody'
  obtain ⟨e, v, he, hv⟩ := fits_replace (Unwrapping.contents u.settings body) hstart hstop
  refine ⟨e, v, ?_, hv⟩
  rw [← he]
  show u.edit? t = _
  rw [Unwrapping.edit?, hslice]
  rfl

end Manipulation
end LiveEdit
