import LiveEdit.Proofs.Wrapper.Reaching
import LiveEdit.Registry.Ledger

/-! A wrapper is held if its entry says what it is, and the wrappers below it are held. -/

namespace LiveEdit
open List Option

def Slot.of (w : Wrapper) : Slot := ⟨w.ordinal, w.index⟩

def slotsOf (ws : List Wrapper) : OrderedIndex Nat Slot := ⟨Slot.ordinal, compare, ws.map Slot.of⟩

def Entry.of (p : Option Nat) (c : Cursor) (w : Wrapper) : Entry :=
  ⟨w.kind, w.span, some c, p, w.ordinal, slotsOf w.children⟩

namespace Registry
open Wrapper

variable {r r' : Registry} {p : Option Nat} {c : Cursor} {u u' v w w' : Wrapper}
  {ws l : List Wrapper}
  {i j : Nat} {f : Entry → Entry}

lemma getElem?_update (r : Registry) (i j : Nat) (f : Entry → Entry) :
    (r.update i f).entries[j]? = if i = j then r.entries[j]?.map f else r.entries[j]? := by
  rw [update, getElem?_modify]
  split_ifs <;> simp

lemma child_apart (hd : w.indices.Nodup) (hv : v ∈ w.children) :
    v.indices.Nodup ∧ ∀ i ∈ v.indices, some w.index ≠ some i := by
  obtain ⟨hnot, hbelow⟩ := nodup_cons.1 (indices_eq w ▸ hd)
  refine ⟨nodup_of_mem hbelow hv, ?_⟩
  rintro i hi heq
  exact hnot (some.inj heq ▸ mem_indicesOf.2 ⟨v, hv, hi⟩)

lemma nodup_of_trail (hd : u.indices.Nodup) (hl : Trail u l w) : w.indices.Nodup := by
  induction hl with
  | here u => exact hd
  | step hc _ ih => exact ih (child_apart hd hc).1

lemma before_slotsOf (w : Wrapper) (n : Nat) :
    (slotsOf w.children).before n = (w.slots.before n).map Slot.of := takeWhile_map ..

lemma upFrom_slotsOf (w : Wrapper) (n : Nat) :
    (slotsOf w.children).upFrom n = (w.slots.upFrom n).map Slot.of := dropWhile_map ..

lemma get?_slotsOf (w : Wrapper) (n : Nat) :
    (slotsOf w.children).get? n = (w.slots.get? n).map Slot.of := by
  rw [OrderedIndex.get?, OrderedIndex.get?, upFrom_slotsOf, head?_map, Option.filter_map]
  rfl

lemma after_slotsOf (w : Wrapper) (n : Nat) :
    (slotsOf w.children).after n = (w.slots.after n).map Slot.of := by
  rw [OrderedIndex.after, OrderedIndex.after, OrderedIndex.containsKey, OrderedIndex.containsKey,
    get?_slotsOf, upFrom_slotsOf, isSome_map]
  split_ifs
  · rw [map_drop]
  · rfl

lemma set_slotsOf (w v : Wrapper) :
    (slotsOf w.children).set (.of v) = slotsOf (w.setChild v).children := by
  unfold OrderedIndex.set
  change OrderedIndex.mk Slot.ordinal compare ((slotsOf w.children).before v.ordinal ++
    Slot.of v :: (slotsOf w.children).after v.ordinal) = _
  rw [before_slotsOf, after_slotsOf, ← map_cons, ← map_append]
  rfl

lemma eraseLike_slotsOf (w v : Wrapper) : (slotsOf w.children).eraseLike (.of v) =
    slotsOf (w.slots.eraseKey v.ordinal).items := by
  unfold OrderedIndex.eraseLike OrderedIndex.eraseKey
  change OrderedIndex.mk Slot.ordinal compare ((slotsOf w.children).before v.ordinal ++
    (slotsOf w.children).after v.ordinal) = _
  rw [before_slotsOf, after_slotsOf, ← map_append]
  rfl

lemma set_last {us : List Wrapper} (h : ∀ u ∈ us, u.ordinal < w.ordinal) :
    (slotsOf us).set (.of w) = slotsOf (us ++ [w]) := by
  have hall : ∀ slot ∈ us.map Slot.of, (slotsOf us).precedes w.ordinal slot = true := by
    intro slot hslot
    obtain ⟨u, hu, rfl⟩ := mem_map.1 hslot
    exact beq_iff_eq.2 (Nat.compare_eq_lt.2 (h u hu))
  have hbefore : (slotsOf us).before w.ordinal = us.map Slot.of := takeWhile_eq_self_iff.2 hall
  have hup : (slotsOf us).upFrom w.ordinal = [] := dropWhile_eq_nil_iff.2 hall
  have hafter : (slotsOf us).after w.ordinal = [] := by
    rw [OrderedIndex.after, hup]
    split_ifs <;> rfl
  unfold OrderedIndex.set
  change OrderedIndex.mk Slot.ordinal compare ((slotsOf us).before w.ordinal ++
    Slot.of w :: (slotsOf us).after w.ordinal) = _
  rw [hbefore, hafter, slotsOf, map_append]
  rfl

lemma foldl_set (us : List Wrapper) (h : (us ++ ws).Pairwise fun v w => v.ordinal < w.ordinal) :
    (ws.map Slot.of).foldl OrderedIndex.set (slotsOf us) = slotsOf (us ++ ws) := by
  induction ws generalizing us with
  | nil => rw [append_nil]; rfl
  | cons w ws ih =>
    have hlast := set_last fun u hu => (pairwise_append.1 h).2.2 u hu w mem_cons_self
    rw [← singleton_append, ← append_assoc] at h ⊢
    rw [← ih _ h, ← hlast]
    rfl

inductive Held (r : Registry) : Option Nat → Cursor → Wrapper → Prop where
  | mk {p : Option Nat} {c : Cursor} {w : Wrapper} (site : c.site = w.site)
      (entry : r.entries[w.index]? = some (.of p c w)) (live : r.known w.index = none)
      (child : ∀ v ∈ w.children, Held r (some w.index) (.under c v.ordinal v.site) v) : Held r p c w

lemma Held.site (h : Held r p c w) : c.site = w.site := by
  cases h with
  | mk site => exact site

lemma Held.entry (h : Held r p c w) : r.entries[w.index]? = some (.of p c w) := by
  cases h with
  | mk _ entry => exact entry

lemma Held.live (h : Held r p c w) : r.known w.index = none := by
  cases h with
  | mk _ _ live => exact live

lemma Held.child (h : Held r p c w) (hv : v ∈ w.children) :
    Held r (some w.index) (.under c v.ordinal v.site) v := by
  cases h with
  | mk _ _ _ child => exact child v hv

lemma Held.congr (h : Held r p c w) (hr : ∀ i ∈ w.indices, r'.entries[i]? = r.entries[i]? ∧
    r'.known i = r.known i) : Held r' p c w := by
  induction h with
  | @mk p c w site entry live child ih =>
    obtain ⟨hentry, hknown⟩ := hr _ (mem_indices_of_mem (self_mem_all w))
    refine .mk site (hentry.trans entry) (hknown.trans live) fun v hv => ih v hv fun i hi => hr i ?_
    rw [indices_eq]
    exact mem_cons_of_mem _ (mem_indicesOf.2 ⟨v, hv, hi⟩)

lemma Held.trail (h : Held r p c w) (hb : w.Bound) (hl : Trail w l v) :
    ∃ q, Held r q (c.down (ordinals l)) v ∧
      (v = w ∧ q = p ∨ ∃ u ∈ w.all, v ∈ u.children ∧ q = some u.index) := by
  induction hl generalizing p c with
  | here w => exact ⟨p, h, .inl ⟨rfl, rfl⟩⟩
  | @step w e v l he hl ih =>
    obtain ⟨q, hq, habove⟩ := ih (h.child he) (hb.child e he)
    refine ⟨q, ?_, .inr ?_⟩
    · rw [ordinals_step hl, Cursor.down, Cursor.child?, h.site, hb.nodes e he]
      exact hq
    · rcases habove with ⟨rfl, hp⟩ | ⟨u, hu, hv, hq⟩
      · exact ⟨w, self_mem_all w, he, hp⟩
      · exact ⟨u, mem_all.2 (.inr ⟨e, he, hu⟩), hv, hq⟩

inductive Swap (w w' : Wrapper) : Wrapper → Wrapper → Prop where
  | here : Swap w w' w w'
  | step {i n : Nat} {s : Site} {us vs : List Wrapper} {c c' : Wrapper} (h : Swap w w' c c') :
      Swap w w' (.mk i n s (us ++ c :: vs)) (.mk i n s (us ++ c' :: vs))

lemma Swap.mem_indices (h : Swap w w' u u') : (i ∈ w'.indices → i ∈ u'.indices) ∧
    (i ∈ u.indices → i ∈ w.indices ∨ i ∈ u'.indices) := by
  induction h with
  | here => exact ⟨id, .inl⟩
  | step h ih =>
    simp only [indices_mk, indicesOf_append, indicesOf_cons, mem_cons, mem_append]
    tauto

lemma Swap.subset (h : Swap w w' u u') : w.indices ⊆ u.indices := by
  induction h with
  | here => exact List.Subset.refl _
  | step h ih =>
    intro i hi
    simp only [indices_mk, indicesOf_append, indicesOf_cons, mem_cons, mem_append]
    exact .inr (.inr (.inl (ih hi)))

lemma Swap.slot (h : Swap w w' u u') (hw : Slot.of w' = .of w) (hsite : w'.site = w.site) :
    Slot.of u' = .of u ∧ u'.site = u.site := by
  cases h with
  | here => exact ⟨hw, hsite⟩
  | step => exact ⟨rfl, rfl⟩

lemma Swap.held (h : Swap w w' u u') (hu : Held r p c u)
    (hd : u.indices.Nodup) (hw : Slot.of w' = .of w) (hsite : w'.site = w.site)
    (hnew : ∀ q e, Held r q e w → Held r' q e w') (hr : ∀ i ∈ u.indices, i ∉ w.indices →
      r'.entries[i]? = r.entries[i]? ∧ r'.known i = r.known i) : Held r' p c u' := by
  induction h generalizing p c with
  | here => exact hnew p c hu
  | @step i n s us vs e e' h ih =>
    obtain ⟨hslot, hsame⟩ := h.slot hw hsite
    have hinner : w.indices ⊆ e.indices := h.subset
    simp only [indices_mk, indicesOf_append, indicesOf_cons, mem_cons, mem_append, nodup_cons,
      nodup_append] at hd hr
    obtain ⟨hentry, hknown⟩ := hr i (.inl rfl) fun hi => hd.1 (.inr (.inl (hinner hi)))
    refine .mk hu.site ?_ (hknown.trans hu.live) fun v hv => ?_
    · refine (hentry.trans hu.entry).trans (congrArg some ?_)
      simp only [Entry.of, slotsOf, Wrapper.children, map_append, map_cons, hslot]
      rfl
    · rcases mem_append.1 hv with hv | hv
      · have hchild := hu.child (v := v) (mem_append_left _ hv)
        refine hchild.congr fun j hj => hr j (.inr (.inl ?_)) fun hin => ?_
        · exact mem_indicesOf.2 ⟨v, hv, hj⟩
        · exact hd.2.2.2 j (mem_indicesOf.2 ⟨v, hv, hj⟩) j (.inl (hinner hin)) rfl
      · rcases mem_cons.1 hv with rfl | hv
        · have hchild := hu.child (v := e) (mem_append_right _ mem_cons_self)
          have hkept := ih hchild hd.2.2.1.1 fun j hj => hr j (.inr (.inr (.inl hj)))
          rw [← hsame, show e.ordinal = v.ordinal from (congrArg Slot.ordinal hslot).symm] at hkept
          exact hkept
        · have hchild := hu.child (v := v) (mem_append_right _ (mem_cons_of_mem _ hv))
          refine hchild.congr fun j hj => hr j (.inr (.inr (.inr ?_))) fun hin => ?_
          · exact mem_indicesOf.2 ⟨v, hv, hj⟩
          · exact hd.2.2.1.2.2 j (hinner hin) j (mem_indicesOf.2 ⟨v, hv, hj⟩) rfl

/-- What only rebuilds the wrappers above `w` puts what it makes of `w` in its place. -/
lemma swap_of_trail {F : Wrapper → Wrapper} (hd : u.indices.Nodup) (hl : Trail u l w)
    (hi : i ∈ w.indices) (hF : ∀ j n s us e vs, e.indices.Nodup → w ∈ e.all → i ≠ j →
      i ∉ indicesOf us → i ∉ indicesOf vs →
      F (.mk j n s (us ++ e :: vs)) = .mk j n s (us ++ F e :: vs)) : Swap w (F w) u (F u) := by
  induction hl with
  | here u => exact .here
  | @step u e w l he hl ih =>
    have hin : i ∈ e.indices := by
      obtain ⟨v, hv, rfl⟩ := mem_map.1 hi
      exact mem_indices_of_mem (mem_all_trans hl.mem hv)
    rw [indices_eq, nodup_cons] at hd
    have hne : i ≠ u.index := fun heq => hd.1 (heq ▸ mem_indicesOf.2 ⟨e, he, hin⟩)
    have hnodup := nodup_of_mem hd.2 he
    obtain ⟨us, vs, hws, hus, hvs⟩ := split_children hd.2 he hin
    cases u with
    | mk j n s ws =>
      obtain rfl : ws = us ++ e :: vs := hws
      rw [hF j n s us e vs hnodup hl.mem hne hus hvs]
      exact .step (ih hnodup hi hF)

lemma swap_replace (hd : u.indices.Nodup) (hl : Trail u l w) (hw : w'.index = w.index) :
    Swap w w' u (u.replace w') := by
  have hmap : ∀ us, w.index ∉ indicesOf us → us.map (·.replace w') = us := by
    intro us hus
    refine (map_congr_left fun v hv => ?_).trans (map_id us)
    exact replace_of_not_mem (hw ▸ not_mem_child hus hv)
  have hswap := swap_of_trail (F := (·.replace w')) hd hl (mem_indices_of_mem (self_mem_all w)) ?_
  · rwa [replace_eq w, if_pos hw.symm] at hswap
  · intro j n s us e vs _ _ hne hus hvs
    rw [replace_eq, if_neg (hw ▸ hne.symm)]
    simp only [Wrapper.children, map_append, map_cons, hmap us hus, hmap vs hvs]
    rfl

lemma swap_clear (hd : u.indices.Nodup) (hl : Trail u l w) :
    Swap w (w.clear w.index) u (u.clear w.index) := by
  refine swap_of_trail hd hl (mem_indices_of_mem (self_mem_all w)) ?_
  intro j n s us e vs _ _ hne hus hvs
  rw [clear, if_neg hne, clearAll_append, clearAll, clearAll_of_not_mem hus,
    clearAll_of_not_mem hvs]

lemma swap_prune (hd : u.indices.Nodup) (hl : Trail u l w) (hv : v ∈ w.children) :
    Swap w (w.prune v.index) u (u.prune v.index) := by
  have hvw := mem_all_of_child (self_mem_all w) hv
  refine swap_of_trail hd hl (mem_indices_of_mem hvw) ?_
  intro j n s us e vs hnodup hmem _ hus hvs
  have hne : e.index ≠ v.index := by
    rw [indices_eq, nodup_cons] at hnodup
    refine fun heq => hnodup.1 (heq ▸ mem_indicesOf.2 ?_)
    rcases mem_all.1 hmem with rfl | ⟨c, hc, hw⟩
    · exact ⟨v, hv, mem_indices_of_mem (self_mem_all v)⟩
    · exact ⟨c, hc, mem_indices_of_mem (mem_all_of_child hw hv)⟩
  rw [prune, pruneAll_append, pruneAll, if_neg hne, pruneAll_of_not_mem hus,
    pruneAll_of_not_mem hvs]

end Registry
end LiveEdit
