import Mathlib.Data.Set.Card
import LiveEdit.Proofs.OrderedIndex.Sorted

/-! Ordered indexes as finite maps from classes of keys to items. -/

namespace LiveEdit.OrderedIndex
open List
open Std

variable {κ ν : Type} {x : OrderedIndex κ ν} {k : κ} {u v : ν}

lemma mem_eraseKey [TransCmp x.order] (hs : x.Sorted) :
    u ∈ (x.eraseKey k).items ↔ u ∈ x.items ∧ x.order (x.key u) k ≠ .eq := by
  have hmem : u ∈ x.items ↔ u ∈ x.before k ∨ x.get? k = some u ∨ u ∈ x.after k := by
    rw [← before_append_after x k, mem_append, mem_append, Option.mem_toList]
  have herase : (x.eraseKey k).items = x.before k ++ x.after k := rfl
  rw [herase, mem_append, hmem]
  constructor
  · rintro (h | h)
    · exact ⟨.inl h, by simp [order_of_mem_before h]⟩
    · exact ⟨.inr (.inr h), by simp [order_of_mem_after hs h]⟩
  · rintro ⟨h | h | h, hne⟩
    · exact .inl h
    · exact absurd (order_of_get? h) hne
    · exact .inr h

lemma Sorted.eraseKey (hs : x.Sorted) (k : κ) : (x.eraseKey k).Sorted := by
  have hsub : List.Sublist (x.before k ++ x.after k) x.items := by
    rw [← before_append_after x k]
    exact (List.Sublist.refl _).append (sublist_append_right _ _)
  exact List.Pairwise.sublist hsub hs

lemma eraseKey_of_get?_eq_none (h : x.get? k = none) : x.eraseKey k = x := by
  have hitems := before_append_after x k
  rw [h] at hitems
  exact congrArg (OrderedIndex.mk x.key x.order) hitems

def sameKey (order : κ → κ → Ordering) [TransCmp order] : Setoid κ where
  r a b := order a b = .eq
  iseqv := ⟨fun _ => ReflCmp.compare_self, OrientedCmp.eq_symm, TransCmp.eq_trans⟩

def KeyClass (order : κ → κ → Ordering) [TransCmp order] : Type := Quotient (sameKey order)

namespace KeyClass
variable {order : κ → κ → Ordering} [TransCmp order]

def mk (order : κ → κ → Ordering) [TransCmp order] (k : κ) : KeyClass order :=
  Quotient.mk (sameKey order) k

lemma mk_eq_mk {a b : κ} : mk order a = mk order b ↔ order a b = .eq :=
  ⟨Quotient.exact (s := sameKey order), Quotient.sound (s := sameKey order)⟩

instance : DecidableEq (KeyClass order) :=
  @Quotient.decidableEq κ (sameKey order) fun a b => inferInstanceAs (Decidable (order a b = .eq))

end KeyClass

abbrev ClassMap (ν : Type) (order : κ → κ → Ordering) [TransCmp order] : Type :=
  KeyClass order → Option ν

namespace ClassMap
variable {order : κ → κ → Ordering} [TransCmp order]

def perform (key : ν → κ) (m : ClassMap ν order) : Request κ ν → Option ν × ClassMap ν order
  | .set v => (m (.mk order (key v)), Function.update m (.mk order (key v)) (some v))
  | .eraseKey k => (m (.mk order k), Function.update m (.mk order k) none)
  | .eraseLike v => (m (.mk order (key v)), Function.update m (.mk order (key v)) none)
  | .clear => (none, fun _ => none)

def performAll (key : ν → κ) (m : ClassMap ν order) :
    List (Request κ ν) → List (Option ν) × ClassMap ν order
  | [] => ([], m)
  | r :: rs =>
    let (given, next) := m.perform key r
    let (later, last) := next.performAll key rs
    (given :: later, last)

end ClassMap

/-- A sorted index that finds under every key what a map has for the key's class. -/
structure Refines {order : κ → κ → Ordering} [TransCmp order] (key : ν → κ) (m : ClassMap ν order)
    (x : OrderedIndex κ ν) : Prop where
  key_eq : x.key = key
  order_eq : x.order = order
  sorted : x.Sorted
  get? : ∀ k, x.get? k = m (.mk order k)

section
variable {key : ν → κ} {order : κ → κ → Ordering} [TransCmp order] {m : ClassMap ν order}

lemma Refines.mem_and_eq_iff (h : Refines key m x) :
    v ∈ x.items ∧ order (key v) k = .eq ↔ m (.mk order k) = some v := by
  obtain ⟨rfl, rfl, hs, hget⟩ := h
  rw [← get?_eq_some_iff hs, hget]

lemma Refines.mem_iff (h : Refines key m x) : v ∈ x.items ↔ m (.mk order (key v)) = some v := by
  rw [← h.mem_and_eq_iff]
  exact (and_iff_left ReflCmp.compare_self).symm

lemma refines_of_mem_iff (hkey : x.key = key) (horder : x.order = order)
    (hs : x.Sorted) (h : ∀ v k, v ∈ x.items ∧ order (key v) k = .eq ↔ m (.mk order k) = some v) :
    Refines key m x := by
  subst hkey horder
  refine ⟨rfl, rfl, hs, fun k => ?_⟩
  apply Option.ext
  intro v
  rw [get?_eq_some_iff hs, h v k]

lemma refines_empty (key : ν → κ) (order : κ → κ → Ordering) [TransCmp order] :
    Refines key (fun _ => none : ClassMap ν order) (empty key order) :=
  ⟨rfl, rfl, List.Pairwise.nil, fun _ => rfl⟩

lemma Refines.set (h : Refines key m x) (v : ν) :
    Refines key (Function.update m (.mk order (key v)) (some v)) (x.set v) := by
  have hold : ∀ u k, _ := fun u k => h.mem_and_eq_iff (v := u) (k := k)
  obtain ⟨rfl, rfl, hs, -⟩ := h
  apply refines_of_mem_iff (show (x.set v).key = x.key from rfl)
    (show (x.set v).order = x.order from rfl) (hs.set v)
  intro u k
  rw [mem_set hs, Function.update_apply]
  by_cases hk : x.order k (x.key v) = .eq
  · -- in the class of the new item nothing else is left
    have hsame : x.order (x.key u) k = .eq → x.order (x.key u) (x.key v) = .eq :=
      fun hu => TransCmp.eq_trans hu hk
    simp only [KeyClass.mk_eq_mk, hk, if_true, Option.some.injEq]
    constructor
    · rintro ⟨rfl | ⟨-, hne⟩, hu⟩
      · rfl
      · exact absurd (hsame hu) hne
    · rintro rfl
      exact ⟨.inl rfl, OrientedCmp.eq_symm hk⟩
  · simp only [KeyClass.mk_eq_mk, hk, if_false]
    rw [← hold]
    constructor
    · rintro ⟨rfl | ⟨hmem, -⟩, hu⟩
      · exact absurd (OrientedCmp.eq_symm hu) hk
      · exact ⟨hmem, hu⟩
    · rintro ⟨hmem, hu⟩
      refine ⟨.inr ⟨hmem, fun heq => hk ?_⟩, hu⟩
      exact TransCmp.eq_trans (OrientedCmp.eq_symm hu) heq

lemma Refines.eraseKey (h : Refines key m x) (k : κ) :
    Refines key (Function.update m (.mk order k) none) (x.eraseKey k) := by
  have hold : ∀ u l, _ := fun u l => h.mem_and_eq_iff (v := u) (k := l)
  obtain ⟨rfl, rfl, hs, -⟩ := h
  apply refines_of_mem_iff (show (x.eraseKey k).key = x.key from rfl)
    (show (x.eraseKey k).order = x.order from rfl) (hs.eraseKey k)
  intro u l
  rw [mem_eraseKey hs, Function.update_apply]
  by_cases hl : x.order l k = .eq
  · simp only [KeyClass.mk_eq_mk, hl, if_true, reduceCtorEq, iff_false]
    rintro ⟨⟨-, hne⟩, hu⟩
    exact hne (TransCmp.eq_trans hu hl)
  · simp only [KeyClass.mk_eq_mk, hl, if_false]
    rw [← hold]
    constructor
    · rintro ⟨⟨hmem, -⟩, hu⟩
      exact ⟨hmem, hu⟩
    · rintro ⟨hmem, hu⟩
      exact ⟨⟨hmem, fun heq => hl (TransCmp.eq_trans (OrientedCmp.eq_symm hu) heq)⟩, hu⟩

lemma Refines.clear (h : Refines key m x) :
    Refines key (fun _ => none : ClassMap ν order) x.clear :=
  ⟨h.key_eq, h.order_eq, List.Pairwise.nil, fun _ => rfl⟩

lemma Refines.size_eq (h : Refines key m x) : x.size = Set.ncard {c | (m c).isSome} := by
  have hclasses : (x.items.map fun v => KeyClass.mk order (key v)).Nodup := by
    apply List.pairwise_map.2
    apply List.Pairwise.imp _ h.sorted
    intro u v hlt heq
    rw [h.key_eq, h.order_eq, KeyClass.mk_eq_mk.1 heq] at hlt
    exact absurd hlt (by decide)
  have hset : {c | (m c).isSome} =
      ((x.items.map fun v => KeyClass.mk order (key v)).toFinset : Set (KeyClass order)) := by
    ext c
    obtain ⟨k, rfl⟩ : ∃ k, KeyClass.mk order k = c := Quotient.exists_rep c
    simp only [Set.mem_ofPred_eq, coe_toFinset, mem_map, Option.isSome_iff_exists,
      KeyClass.mk_eq_mk]
    exact exists_congr fun v => h.mem_and_eq_iff.symm
  rw [hset, Set.ncard_coe_finset, toFinset_card_of_nodup hclasses, length_map]
  rfl

lemma Refines.perform (h : Refines key m x) (r : Request κ ν) :
    (x.perform r).1 = (m.perform key r).1 ∧ Refines key (m.perform key r).2 (x.perform r).2 := by
  have hget : ∀ v, x.get? (x.key v) = m (.mk order (key v)) := by
    intro v
    rw [h.get?, h.key_eq]
  have hlike : ∀ v, x.eraseLike v = x.eraseKey (key v) := by
    intro v
    rw [← h.key_eq]
    rfl
  rcases r with v | k | v | -
  · exact ⟨hget v, h.set v⟩
  · exact ⟨h.get? k, h.eraseKey k⟩
  · refine ⟨hget v, ?_⟩
    show Refines key _ (x.eraseLike v)
    rw [hlike]
    exact h.eraseKey (key v)
  · exact ⟨rfl, h.clear⟩

lemma Refines.performAll (h : Refines key m x) (rs : List (Request κ ν)) : (x.performAll rs).1 =
      (m.performAll key rs).1 ∧ Refines key (m.performAll key rs).2 (x.performAll rs).2 := by
  induction rs generalizing x m with
  | nil => exact ⟨rfl, h⟩
  | cons r rs ih =>
    obtain ⟨hgiven, hnext⟩ := h.perform r
    obtain ⟨hlater, hlast⟩ := ih hnext
    exact ⟨congrArg₂ List.cons hgiven hlater, hlast⟩

end

/-- Whatever requests are made of an empty index, its items stand in strict order, each request
gives back what it does on the map from classes of keys to items, and the index finds, holds and
counts what that map has. -/
theorem refines_of_requests (key : ν → κ) (order : κ → κ → Ordering) [TransCmp order]
    (rs : List (Request κ ν)) :
    let run := (empty key order).performAll rs
    let spec := ClassMap.performAll key (fun _ => none : ClassMap ν order) rs
    run.1 = spec.1 ∧
      run.2.items.Pairwise (fun u v => order (key u) (key v) = .lt) ∧
      (∀ v, v ∈ run.2.items ↔ spec.2 (.mk order (key v)) = some v) ∧
      (∀ k, run.2.get? k = spec.2 (.mk order k)) ∧
      (∀ k, run.2.containsKey k = (spec.2 (.mk order k)).isSome) ∧
      (∀ k, spec.2 (.mk order k) = none → run.2.eraseKey k = run.2) ∧
      (∀ v, spec.2 (.mk order (key v)) = none → run.2.eraseLike v = run.2) ∧
      run.2.size = Set.ncard {c | (spec.2 c).isSome} := by
  intro run spec
  obtain ⟨hgiven, h⟩ : run.1 = spec.1 ∧ Refines key spec.2 run.2 :=
    (refines_empty key order).performAll rs
  have hsorted := h.sorted
  unfold Sorted at hsorted
  rw [h.key_eq, h.order_eq] at hsorted
  have herase : ∀ k, spec.2 (.mk order k) = none → run.2.eraseKey k = run.2 :=
    fun k hnone => eraseKey_of_get?_eq_none ((h.get? k).trans hnone)
  refine ⟨hgiven, hsorted, fun v => h.mem_iff, h.get?, fun k => ?_, herase, fun v hnone => ?_,
    h.size_eq⟩
  · exact congrArg Option.isSome (h.get? k)
  · apply herase
    rw [h.key_eq]
    exact hnone

theorem refines_of_requests_digits :
    let order := compareOn (fun n : Nat => n % 10)
    let rs : List (Request Nat (Nat × Char)) :=
      [.set (12, 'a'), .set (5, 'b'), .set (32, 'c'), .eraseKey 7, .eraseLike (15, 'd')]
    let run := (empty Prod.fst order).performAll rs
    run.1 = [none, none, some (12, 'a'), none, some (5, 'b')] ∧ run.2.items = [(32, 'c')] ∧
      run.2.containsKey 102 = true ∧
      run.2.items.Pairwise (fun u v => order u.1 v.1 = .lt) := by
  intro order rs run
  have htrans : TransCmp order := inferInstance
  have h := refines_of_requests Prod.fst order rs
  exact ⟨by decide, by decide, by decide, h.2.1⟩

end LiveEdit.OrderedIndex
