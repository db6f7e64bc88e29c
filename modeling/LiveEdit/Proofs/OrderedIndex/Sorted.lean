import Mathlib.Data.List.TakeWhile
import Mathlib.Tactic.Common
import LiveEdit.OrderedIndex

/-! A key divides sorted items into those before it, the one that has it, and those after it. -/

namespace LiveEdit.OrderedIndex
open List Option
open Std

variable {κ ν : Type} {x : OrderedIndex κ ν} {k : κ} {u v : ν}

def Sorted (x : OrderedIndex κ ν) : Prop :=
  x.items.Pairwise fun u v => x.order (x.key u) (x.key v) = .lt

lemma before_append_after (x : OrderedIndex κ ν) (k : κ) :
    x.before k ++ ((x.get? k).toList ++ x.after k) = x.items := by
  have hcut : x.before k ++ x.upFrom k = x.items := takeWhile_append_dropWhile
  rw [← hcut]
  unfold after containsKey get?
  cases x.upFrom k with
  | nil => simp
  | cons u us => cases hu : x.hasKey k u <;> simp [Option.filter, hu]

lemma mem_of_get? (h : x.get? k = some v) : v ∈ x.items := by
  rw [← before_append_after x k, h]
  simp

lemma order_of_get? (h : x.get? k = some v) : x.order (x.key v) k = .eq := by
  have hkey := (filter_eq_some_iff.1 h).2
  simpa [hasKey] using hkey

lemma order_of_mem_before (h : v ∈ x.before k) : x.order (x.key v) k = .lt := by
  have hp := mem_takeWhile_imp h
  simpa [precedes] using hp

lemma order_of_upFrom {us : List ν} (h : x.upFrom k = u :: us) : x.order (x.key u) k ≠ .lt := by
  have hnot := head?_dropWhile_not (x.precedes k) x.items
  change match (x.upFrom k).head? with | some u => _ | none => _ at hnot
  rw [h] at hnot
  simpa [precedes] using hnot

section
variable [TransCmp x.order]

lemma order_of_mem_after (hs : x.Sorted) (h : v ∈ x.after k) : x.order (x.key v) k = .gt := by
  have hup : (x.upFrom k).Pairwise fun u v => x.order (x.key u) (x.key v) = .lt :=
    List.Pairwise.sublist (dropWhile_sublist _) hs
  unfold after containsKey get? at h
  cases hus : x.upFrom k with
  | nil => simp [hus] at h
  | cons u us =>
    rw [hus] at h hup
    have hlater : ∀ w ∈ us, x.order (x.key u) (x.key w) = .lt := (pairwise_cons.1 hup).1
    cases hu : x.order (x.key u) k with
    | lt => exact absurd hu (order_of_upFrom hus)
    | eq =>
      have hmem : v ∈ us := by simpa [Option.filter, hasKey, hu] using h
      exact OrientedCmp.gt_of_lt (TransCmp.lt_of_eq_of_lt (OrientedCmp.eq_symm hu) (hlater v hmem))
    | gt =>
      have hmem : v = u ∨ v ∈ us := by simpa [Option.filter, hasKey, hu] using h
      obtain rfl | hmem := hmem
      · exact hu
      · exact TransCmp.gt_trans (OrientedCmp.gt_of_lt (hlater v hmem)) hu

lemma get?_eq_some_iff (hs : x.Sorted) :
    x.get? k = some v ↔ v ∈ x.items ∧ x.order (x.key v) k = .eq := by
  refine ⟨fun h => ⟨mem_of_get? h, order_of_get? h⟩, fun ⟨hmem, heq⟩ => ?_⟩
  rw [← before_append_after x k, mem_append, mem_append, mem_toList] at hmem
  obtain h | h | h := hmem
  · rw [order_of_mem_before h] at heq
    exact nomatch heq
  · exact h
  · rw [order_of_mem_after hs h] at heq
    exact nomatch heq

lemma mem_set (hs : x.Sorted) :
    u ∈ (x.set v).items ↔ u = v ∨ (u ∈ x.items ∧ x.order (x.key u) (x.key v) ≠ .eq) := by
  have hitems := before_append_after x (x.key v)
  have hset : (x.set v).items = x.before (x.key v) ++ v :: x.after (x.key v) := rfl
  have hmem : u ∈ x.items ↔
      u ∈ x.before (x.key v) ∨ x.get? (x.key v) = some u ∨ u ∈ x.after (x.key v) := by
    rw [← hitems, mem_append, mem_append, mem_toList]
  rw [hset, mem_append, mem_cons, hmem]
  constructor
  · rintro (h | rfl | h)
    · exact .inr ⟨.inl h, by simp [order_of_mem_before h]⟩
    · exact .inl rfl
    · exact .inr ⟨.inr (.inr h), by simp [order_of_mem_after hs h]⟩
  · rintro (rfl | ⟨h | h | h, hne⟩)
    · exact .inr (.inl rfl)
    · exact .inl h
    · exact absurd (order_of_get? h) hne
    · exact .inr (.inr h)

lemma Sorted.set (hs : x.Sorted) (v : ν) : (x.set v).Sorted := by
  have hafter : ∀ w ∈ x.after (x.key v), x.order (x.key v) (x.key w) = .lt :=
    fun w hw => OrientedCmp.lt_of_gt (order_of_mem_after hs hw)
  have hitems := hs
  unfold Sorted at hitems
  rw [← before_append_after x (x.key v), pairwise_append] at hitems
  obtain ⟨hbefore, hrest, -⟩ := hitems
  refine pairwise_append.2 ⟨hbefore, pairwise_cons.2 ⟨hafter, ?_⟩, fun u hu w hw => ?_⟩
  · exact (pairwise_append.1 hrest).2.1
  · have hlt := order_of_mem_before hu
    obtain rfl | hw := mem_cons.1 hw
    · exact hlt
    · have htrans : x.order (x.key u) (x.key w) = .lt := TransCmp.lt_trans hlt (hafter w hw)
      exact htrans

lemma set_of_mem (hs : x.Sorted) (h : v ∈ x.items) : x.set v = x := by
  have hget : x.get? (x.key v) = some v := (get?_eq_some_iff hs).2 ⟨h, ReflCmp.compare_self⟩
  have hitems := before_append_after x (x.key v)
  rw [hget] at hitems
  exact congrArg (OrderedIndex.mk x.key x.order) hitems

end

end LiveEdit.OrderedIndex
