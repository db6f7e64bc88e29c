import LiveEdit.Proofs.Text.Cutting
import Mathlib.Order.Bounds.Basic

/-! The ends of a snippet are the nearest boundaries, which are within three bytes of every offset.
-/

namespace LiveEdit
open List Option

namespace Text

variable {t u : Text} {k m n : Nat}

def stepDown? (t : Text) : Nat → Option Nat
  | 0 => if t.isBoundary 0 then some 0 else none
  | n + 1 => if t.isBoundary (n + 1) then some (n + 1) else stepDown? t n

def stepUp? (t : Text) : Nat → Nat → Option Nat
  | 0, n => if t.isBoundary n then some n else none
  | k + 1, n => if t.isBoundary n then some n else stepUp? t k (n + 1)

lemma isBoundary_zero (t : Text) : t.isBoundary 0 = true := isBoundary_iff.2 ⟨[], t, rfl, rfl⟩

lemma isBoundary_cons {c : Char} :
    isBoundary (c :: t) n = true ↔ n = 0 ∨ ∃ m, t.isBoundary m = true ∧ n = c.utf8Size + m := by
  simp only [isBoundary_iff]
  constructor
  · rintro ⟨a, b, hab, rfl⟩
    cases a with
    | nil => exact .inl rfl
    | cons d a =>
      obtain ⟨rfl, rfl⟩ := cons.inj hab
      exact .inr ⟨size a, ⟨a, b, rfl, rfl⟩, rfl⟩
  · rintro (rfl | ⟨m, ⟨a, b, rfl, rfl⟩, rfl⟩)
    · exact ⟨[], _, rfl, rfl⟩
    · exact ⟨c :: a, b, rfl, rfl⟩

lemma isBoundary_append : isBoundary (t ++ u) (t.size + n) = true ↔ u.isBoundary n = true := by
  induction t with
  | nil => rw [nil_append, size, Nat.zero_add]
  | cons c t ih =>
    have hpos := c.utf8Size_pos
    rw [cons_append, isBoundary_cons, size, ← ih]
    constructor
    · rintro (hzero | ⟨m, hm, heq⟩)
      · omega
      · obtain rfl : m = size t + n := by omega
        exact hm
    · exact fun h => .inr ⟨size t + n, h, Nat.add_assoc ..⟩

lemma le_size_of_isBoundary (h : t.isBoundary n = true) : n ≤ t.size := by
  obtain ⟨a, b, rfl, rfl⟩ := isBoundary_iff.1 h
  rw [size_append]
  exact Nat.le_add_right _ _

lemma isGreatest_atMost (n : Nat) (t : Text) :
    IsGreatest {k | t.isBoundary k = true ∧ k ≤ n} (atMost n t).size := by
  fun_induction atMost n t with
  | case1 n => exact ⟨⟨rfl, Nat.zero_le n⟩, fun k hk => le_size_of_isBoundary hk.1⟩
  | case2 n c t hle ih =>
    obtain ⟨⟨hcut, hsize⟩, hmax⟩ := ih
    refine ⟨⟨isBoundary_cons.2 (.inr ⟨_, hcut, rfl⟩), by rw [size]; omega⟩, fun k hk => ?_⟩
    obtain rfl | ⟨m, hm, rfl⟩ := isBoundary_cons.1 hk.1
    · exact Nat.zero_le _
    · have hrest := hmax ⟨hm, Nat.le_sub_of_add_le' hk.2⟩
      rw [size]
      omega
  | case3 n c t hgt =>
    refine ⟨⟨isBoundary_zero _, Nat.zero_le n⟩, fun k hk => ?_⟩
    obtain rfl | ⟨m, -, rfl⟩ := isBoundary_cons.1 hk.1
    · exact le_rfl
    · exact absurd ((Nat.le_add_right _ _).trans hk.2) hgt

lemma isLeast_atLeast (n : Nat) (t : Text) :
    IsLeast {k | t.isBoundary k = true ∧ min n t.size ≤ k} (atLeast n t).size := by
  fun_induction atLeast n t with
  | case1 n => exact ⟨⟨rfl, Nat.min_le_right _ _⟩, fun k _ => Nat.zero_le k⟩
  | case2 c t => exact ⟨⟨isBoundary_zero _, by simp [size]⟩, fun k _ => Nat.zero_le k⟩
  | case3 n c t hne ih =>
    have hpos := c.utf8Size_pos
    obtain ⟨⟨hcut, hsize⟩, hmin⟩ := ih
    refine ⟨⟨isBoundary_cons.2 (.inr ⟨_, hcut, rfl⟩), by rw [size, size]; omega⟩, fun k hk => ?_⟩
    have hle := hk.2
    rw [size] at hle
    obtain rfl | ⟨m, hm, rfl⟩ := isBoundary_cons.1 hk.1
    · omega
    · have hrest := hmin ⟨hm, by omega⟩
      rw [size]
      omega

lemma exists_boundary (h : n ≤ t.size) : ∃ k, t.isBoundary k = true ∧ n ≤ k ∧ k ≤ n + 3 := by
  induction t generalizing n with
  | nil => exact ⟨0, rfl, h, Nat.zero_le _⟩
  | cons c t ih =>
    have hfour := c.utf8Size_le_four
    rw [size] at h
    by_cases hzero : n = 0
    · exact ⟨0, isBoundary_zero _, hzero.le, Nat.zero_le _⟩
    · obtain ⟨k, hk, hlow, hhigh⟩ : ∃ k, isBoundary t k = true ∧ n - c.utf8Size ≤ k ∧
          k + c.utf8Size ≤ n + 3 := by
        by_cases hle : n ≤ c.utf8Size
        · exact ⟨0, isBoundary_zero t, by omega, by omega⟩
        · obtain ⟨k, hk, hlow, hhigh⟩ := ih (n := n - c.utf8Size) (by omega)
          exact ⟨k, hk, hlow, by omega⟩
      exact ⟨c.utf8Size + k, isBoundary_cons.2 (.inr ⟨k, hk, rfl⟩), by omega, by omega⟩

lemma stepDown?_eq (h : IsGreatest {k | t.isBoundary k = true ∧ k ≤ n} m) :
    t.stepDown? n = some m := by
  obtain ⟨⟨hcut, hle⟩, hmax⟩ := h
  induction n with
  | zero =>
    obtain rfl := Nat.le_zero.1 hle
    exact if_pos hcut
  | succ n ih =>
    rw [stepDown?]
    split
    · next hnext => rw [hle.antisymm (hmax ⟨hnext, le_rfl⟩)]
    · next hnext =>
      have hne : m ≠ n + 1 := fun heq => hnext (heq ▸ hcut)
      exact ih (fun k hk => hmax ⟨hk.1, Nat.le_succ_of_le hk.2⟩) (by omega)

lemma stepUp?_eq (h : IsLeast {k | t.isBoundary k = true ∧ n ≤ k} m) (hm : m ≤ n + k) :
    t.stepUp? k n = some m := by
  obtain ⟨⟨hcut, hle⟩, hmin⟩ := h
  induction k generalizing n with
  | zero =>
    obtain rfl : n = m := hle.antisymm hm
    exact if_pos hcut
  | succ k ih =>
    rw [stepUp?]
    split
    · next hnext => rw [hle.antisymm (hmin ⟨hnext, le_rfl⟩)]
    · next hnext =>
      have hne : m ≠ n := fun heq => hnext (heq ▸ hcut)
      exact ih (by omega) (fun l hl => hmin ⟨hl.1, Nat.le_of_succ_le hl.2⟩) (by omega)

lemma append_drop_atMost (n : Nat) (t : Text) : atMost n t ++ t.drop (atMost n t).length = t := by
  fun_induction atMost n t with
  | case1 | case3 => rfl
  | case2 n c t hle ih => rw [length_cons, drop_succ_cons, cons_append, ih]

lemma atMost_atMost (h : m ≤ n) : atMost m (atMost n t) = atMost m t := by
  induction t generalizing m n with
  | nil => rfl
  | cons c t ih =>
    rw [atMost, atMost]
    split
    · rw [atMost, ih (Nat.sub_le_sub_right h _)]
    · rw [if_neg (by omega)]
      rfl

lemma exists_append_atLeast (n : Nat) (t : Text) : ∃ b, atLeast n t ++ b = t := by
  fun_induction atLeast n t with
  | case1 n => exact ⟨[], rfl⟩
  | case2 c t => exact ⟨c :: t, rfl⟩
  | case3 n c t hne ih =>
    obtain ⟨b, hb⟩ := ih
    exact ⟨b, congrArg (c :: ·) hb⟩

end Text

namespace Snippet
open Text

def search? (t : Text) (offset : Nat) : Option Snippet := do
  let position ← t.stepDown? (min offset t.size)
  let low ← t.stepDown? (position - context)
  let high ← t.stepUp? 3 (min (position + context) t.size)
  let before ← (Span.between? low position).bind t.slice?
  let after ← (Span.between? position high).bind t.slice?
  return ⟨position, before, after⟩

/-- A snippet shows the text from one boundary to another. Its position is the last boundary that is
neither behind the offset nor behind the end. Little more than the context is shown on either side,
and less only where the text ends. -/
structure Shows (t : Text) (offset low high : Nat) (s : Snippet) : Prop where
  position : IsGreatest {k | t.isBoundary k = true ∧ k ≤ min offset t.size} s.position
  ends : t.isBoundary low = true ∧ t.isBoundary high = true
  order : low ≤ s.position ∧ s.position ≤ high
  piece : ∃ h : low ≤ high, t.slice? ⟨low, high, h⟩ = some (s.before ++ s.after)
  size : low + s.before.size = s.position
  short : s.position - low ≤ 33 ∧ high - s.position ≤ 33
  full : (low = 0 ∨ 30 ≤ s.position - low) ∧ (high = t.size ∨ 30 ≤ high - s.position)

variable (t : Text) (offset : Nat)

lemma isGreatest_position :
    IsGreatest {k | t.isBoundary k = true ∧ k ≤ min offset t.size} (around t offset).position := by
  obtain ⟨⟨hcut, hle⟩, hmax⟩ := isGreatest_atMost offset t
  exact ⟨⟨hcut, Nat.le_min.2 ⟨hle, le_size_of_isBoundary hcut⟩⟩, fun k hk =>
    hmax ⟨hk.1, hk.2.trans (Nat.min_le_left _ _)⟩⟩

lemma exists_around : ∃ a b, a ++ ((around t offset).before ++ ((around t offset).after ++ b)) = t ∧
    a.size + (around t offset).before.size = (around t offset).position ∧
    IsGreatest {k | t.isBoundary k = true ∧ k ≤ (around t offset).position - context} a.size ∧
    IsLeast {k | t.isBoundary k = true ∧ min ((around t offset).position + context) t.size ≤ k}
      ((around t offset).position + (around t offset).after.size) := by
  have htext := append_drop_atMost offset t
  obtain ⟨b, hafter⟩ := exists_append_atLeast context (t.drop (atMost offset t).length)
  have hbefore := append_drop_atMost ((around t offset).position - context) (atMost offset t)
  have hlow : (around t offset).position - context ≤ offset :=
    (Nat.sub_le _ _).trans (isGreatest_atMost offset t).1.2
  refine ⟨_, b, ?_, ?_, (atMost_atMost hlow ▸ isGreatest_atMost _ t :), ?_⟩
  · rw [← append_assoc]
    exact (congrArg₂ (· ++ ·) hbefore hafter).trans htext
  · rw [← size_append]
    exact congrArg size hbefore
  · obtain ⟨⟨hcut, hle⟩, hmin⟩ := isLeast_atLeast context (t.drop (atMost offset t).length)
    have hsize := congrArg size htext
    have hcuts : ∀ k, t.isBoundary ((atMost offset t).size + k) = true ↔
        isBoundary (t.drop (atMost offset t).length) k = true := by
      intro k
      have hcut :=
        isBoundary_append (t := atMost offset t) (u := t.drop (atMost offset t).length) (n := k)
      rwa [htext] at hcut
    rw [size_append] at hsize
    change IsLeast {k | _ ∧ min ((atMost offset t).size + context) _ ≤ k}
      ((atMost offset t).size + size (atLeast _ _))
    refine ⟨⟨(hcuts _).2 hcut, by omega⟩, fun k hk => ?_⟩
    obtain ⟨hk, hlow⟩ := hk
    obtain ⟨j, rfl⟩ : ∃ j, k = (atMost offset t).size + j := Nat.exists_eq_add_of_le (by omega)
    exact Nat.add_le_add_left (hmin ⟨(hcuts j).1 hk, by omega⟩) _

lemma shows_around : ∃ low high, (around t offset).Shows t offset low high ∧
    search? t offset = some (around t offset) := by
  obtain ⟨a, b, htext, hsize, hlow, hhigh⟩ := exists_around t offset
  have hposition := isGreatest_position t offset
  have hend := congrArg size htext
  simp only [size_append] at hend
  simp only [context] at hlow hhigh
  generalize hs : around t offset = s at *
  obtain ⟨hlowcut, hlowle⟩ := hlow.1
  obtain ⟨hhighcut, hhighle⟩ := hhigh.1
  -- a boundary near each end of the context is not passed
  have hfirst : s.position ≤ a.size + 33 := by
    by_cases hpos : s.position ≤ 33
    · omega
    · obtain ⟨k, hk, hk', hk''⟩ := exists_boundary (t := t) (n := s.position - 33) (by omega)
      have hmax := hlow.2 ⟨hk, by omega⟩
      omega
  obtain ⟨k, hk, hk', hk''⟩ :=
    exists_boundary (t := t) (n := min (s.position + 30) t.size) (Nat.min_le_right _ _)
  have hlast := hhigh.2 ⟨hk, hk'⟩
  have hup := stepUp?_eq (k := 3) hhigh (hlast.trans hk'')
  have hbefore : t.slice? ⟨a.size, s.position, by omega⟩ = some s.before :=
    slice?_eq_some_iff.2 ⟨a, _, htext, rfl, hsize⟩
  have hafter : t.slice? ⟨s.position, _, Nat.le_add_right _ s.after.size⟩ = some s.after :=
    slice?_eq_some_iff.2
    ⟨a ++ s.before, b, by rw [append_assoc, htext], by rw [size_append, hsize], rfl⟩
  have hpiece : t.slice? ⟨a.size,
      s.position + s.after.size, by omega⟩ = some (s.before ++ s.after) := slice?_eq_some_iff.2
      ⟨a, b, by rw [append_assoc, htext], rfl, by simp only [size_append]; omega⟩
  refine ⟨a.size, s.position + s.after.size,
    ⟨hposition, ⟨hlowcut, hhighcut⟩, by omega, ⟨_, hpiece⟩, hsize, by omega, by omega⟩, ?_⟩
  have hle : a.size ≤ s.position := by omega
  simp only [search?, context, stepDown?_eq hposition, stepDown?_eq hlow, hup, Span.between?, hle,
    hbefore, hafter, bind_eq_bind, bind_some, dif_pos, Nat.le_add_right]
  rfl

end Snippet

/-- How a change is shown in a message can be computed for every text and every place, also for one
behind the end or inside a character: the steps to the ends of the snippet come to an end, and the
snippet is a part of the text. -/
theorem Manipulation.describe_shows (m : Manipulation) (t : Text) :
    ∃ low high s, Snippet.search? t m.position = some s ∧ m.describe t =
      s!"at offset {s.position}: {s.marked.quoted}" ∧ s.Shows t m.position low high := by
  obtain ⟨low, high, hshows, hsearch⟩ := Snippet.shows_around t m.position
  exact ⟨low, high, _, hsearch, rfl, hshows⟩

end LiveEdit
