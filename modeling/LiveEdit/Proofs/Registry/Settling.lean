import LiveEdit.Proofs.Registry.Held
import LiveEdit.Proofs.Wrapper.Carrying

/-! Wrappers are kept or lost, and nothing else is touched but the slots of their parent. -/

namespace LiveEdit
open List Option

def Entry.bare (e : Entry) : Entry := { e with slots := noSlots }

namespace Registry
open Wrapper

variable {r r' r₁ r₂ : Registry} {p : Option Nat} {cur : Wrapper → Cursor} {v w : Wrapper}
  {ws us : List Wrapper} {c c' : Carried} {version i j : Nat} {e : Entry} {f : Entry →
    Entry} {d : Cursor}

lemma getElem?_release (r : Registry) (version i j : Nat) (e : Entry) :
    (r.release version i e).entries[j]? =
      if i = j then r.entries[j]?.map Entry.blank else r.entries[j]? := by
  rw [← getElem?_update]
  unfold release
  cases e.node? <;> rfl

lemma nodes_release {v : Nat} (h : v ≠ version) : (r.release version i e).nodes v = r.nodes v := by
  unfold release
  cases e.node? with
  | none => rfl
  | some c => exact funext fun s => if_neg fun hv => h hv.1

def Keyed (r : Registry) (version : Nat) : Prop :=
  ∀ s i, r.nodes version s = some i ↔ r.site? i = some s

lemma site?_update (hf : ∀ e, (f e).node? = e.node?) : (r.update i f).site? j = r.site? j := by
  rw [site?, site?, getElem?_update]
  split_ifs
  · cases r.entries[j]? <;> simp [hf]
  · rfl

lemma Keyed.update (h : r.Keyed version) (hf : ∀ e, (f e).node? = e.node?) :
    (r.update i f).Keyed version := fun s j => by
  rw [site?_update hf]
  exact h s j

lemma Keyed.release (h : r.Keyed version) (he : r.entries[i]? = some e) :
    (r.release version i e).Keyed version := by
  have hsite : ∀ j, (r.release version i e).site? j = if i = j then none else r.site? j := by
    intro j
    rw [site?, getElem?_release]
    split_ifs
    · cases r.entries[j]? <;> rfl
    · rfl
  have hold : r.site? i = e.node?.map Cursor.site := by rw [site?, he, bind_some]
  intro s j
  rw [hsite]
  unfold Registry.release
  cases hnode : e.node? with
  | none =>
    rw [hnode, map_none] at hold
    split_ifs with hij
    · subst hij
      exact (h s i).trans (by simp [hold])
    · exact h s j
  | some c =>
    rw [hnode, map_some] at hold
    have hself := (h c.site i).2 hold
    change (if version = version ∧ s = c.site then none else r.nodes version s) = some j ↔ _
    by_cases hs : s = c.site
    · subst hs
      rw [if_pos ⟨rfl, rfl⟩]
      refine iff_of_false nofun fun hj => ?_
      split_ifs at hj with hij
      exact hij (some.inj (hself.symm.trans ((h _ j).2 hj)))
    · rw [if_neg fun hv => hs hv.2, h s j]
      split_ifs with hij
      · subst hij
        rw [hold]
        exact iff_of_false (fun heq => hs (some.inj heq).symm) nofun
      · rfl

lemma Keyed.forgetAll (h : r.Keyed version) (todo : List Nat) :
    (Registry.forgetAll version r todo).1.Keyed version := by
  fun_induction Registry.forgetAll version r todo with
  | case1 r => exact h
  | case2 r i todo he ih => exact ih h
  | case3 r i todo e he _ rest ih => exact ih (h.release he)

lemma detach_eq (r : Registry) (i : Nat) : r.detach i = r ∨
    ∃ e p, r.entries[i]? = some e ∧ e.parent? = some p ∧ r.detach i = r.update p fun above =>
      if above.slots.get? e.ordinal = some ⟨e.ordinal, i⟩ then
        { above with slots := above.slots.eraseLike ⟨e.ordinal, i⟩ } else above := by
  unfold detach
  split
  · exact .inl rfl
  next e he =>
    split
    · exact .inl rfl
    next p hp => exact .inr ⟨e, p, he, hp, rfl⟩

lemma Keyed.detach (h : r.Keyed version) (i : Nat) : (r.detach i).Keyed version := by
  rcases detach_eq r i with heq | ⟨e, p, -, -, heq⟩
  · rw [heq]
    exact h
  · rw [heq]
    exact h.update fun above => by split_ifs <;> rfl

lemma Keyed.forget (h : r.Keyed version) (i : Nat) : (r.forget version i).1.Keyed version := by
  unfold Registry.forget
  split_ifs
  · exact h
  · exact (h.detach i).forgetAll _

lemma allOf_cons (w : Wrapper) (ws : List Wrapper) :
    allOf (w :: ws) = w :: allOf (w.children ++ ws) := by
  rw [allOf, Wrapper.all_eq, allOf_eq, allOf_eq, allOf_eq, flatMap_append, cons_append]

def bindings (ws : List Wrapper) : List (Site × Nat) := (allOf ws).map fun w => (w.site, w.index)

lemma bindings_append (us ws : List Wrapper) :
    bindings (us ++ ws) = bindings us ++ bindings ws := by
  simp only [bindings, allOf_eq, flatMap_append, map_append]

lemma bindings_keep (c : Carried) (i n : Nat) (s : Site) :
    bindings (c.keep i n s).kept = (s, i) :: bindings c.kept := by
  rw [bindings, Carried.keep, allOf_cons, append_nil]
  rfl

structure Settles (version : Nat) (p : Option Nat) (cur : Wrapper → Cursor) (ws : List Wrapper)
    (c : Carried) (r r' : Registry) : Prop where
  numbers : (indicesOf ws).Perm (indicesOf c.kept ++ c.lost.map index)
  length : r'.entries.length = r.entries.length
  frame : ∀ i ∉ indicesOf ws, p ≠ some i → r'.entries[i]? = r.entries[i]?
  parent : ∀ i ∉ indicesOf ws, r'.entries[i]?.map Entry.bare = r.entries[i]?.map Entry.bare
  held : ∀ u ∈ c.kept, Held r' p (cur u) u
  blank : ∀ u ∈ c.lost, r'.site? u.index = none
  noted : ∀ u ∈ c.lost, r'.known u.index = some u.lastKnown
  others : ∀ i ∉ c.lost.map index, r'.known i = r.known i
  sound : ∀ s i, r'.nodes (version + 1) s = some i → r.nodes (version + 1) s = some i ∨
    (s, i) ∈ bindings c.kept
  total : ∀ s, r'.nodes (version + 1) s = none → r.nodes (version + 1) s = none ∧
    ∀ i, (s, i) ∉ bindings c.kept
  later : ∀ v, version + 1 < v → r'.nodes v = r.nodes v

lemma settles_nil (version : Nat) (p : Option Nat) (cur : Wrapper → Cursor) (r : Registry) :
    Settles version p cur [] {} r r :=
  ⟨.refl _, rfl, fun _ _ _ => rfl, fun _ _ => rfl, nofun, nofun, nofun, fun _ _ => rfl,
    fun _ _ => .inl, fun _ h => ⟨h, fun _ => not_mem_nil⟩, fun _ _ => rfl⟩

lemma Settles.not_lost (h : Settles version p cur ws c r r') (hi : i ∉ indicesOf ws) :
    i ∉ c.lost.map index :=
  fun hmem => hi (h.numbers.mem_iff.2 (mem_append_right _ hmem))

lemma Settles.unknown (h : Settles version p cur ws c r r') (hi : i ∉ indicesOf ws) :
    r'.known i = r.known i := h.others i (h.not_lost hi)

lemma Settles.site?_eq (h : Settles version p cur ws c r r') (hi : i ∉ indicesOf ws) :
    r'.site? i = r.site? i := by
  have hbare := congrArg (Option.bind · fun e : Entry => e.node?.map Cursor.site) (h.parent i hi)
  simp only [bind_map] at hbare
  exact hbare

lemma Settles.append (h₁ : Settles version p cur us c r r₁) (h₂ : Settles version p cur ws c' r₁ r₂)
    (hd : (indicesOf (us ++ ws)).Nodup) (hp : ∀ i ∈ indicesOf us, p ≠ some i) :
    Settles version p cur (us ++ ws) (c.append c') r r₂ := by
  rw [indicesOf_append] at hd
  have hapart : ∀ i ∈ indicesOf us, i ∉ indicesOf ws :=
    fun i hi hmem => (nodup_append.1 hd).2.2 i hi i hmem rfl
  have hkept : ∀ u ∈ c.kept, ∀ i ∈ u.indices, i ∈ indicesOf us := fun u hu i hi =>
    h₁.numbers.mem_iff.2 (mem_append_left _ (mem_indicesOf.2 ⟨u, hu, hi⟩))
  have hlost : ∀ u ∈ c.lost, u.index ∈ indicesOf us := fun u hu =>
    h₁.numbers.mem_iff.2 (mem_append_right _ (mem_map_of_mem hu))
  have hsplit : ∀ i, i ∉ indicesOf (us ++ ws) → i ∉ indicesOf us ∧ i ∉ indicesOf ws := by
    intro i hi
    rwa [indicesOf_append, mem_append, not_or] at hi
  have hall : bindings (c.append c').kept = bindings c.kept ++ bindings c'.kept :=
    bindings_append c.kept c'.kept
  refine ⟨?_, h₂.length.trans h₁.length, fun i hi hpi => ?_, fun i hi => ?_, fun u hu => ?_,
    fun u hu => ?_, fun u hu => ?_, fun i hi => ?_, fun s i hs => ?_, fun s hs => ?_,
    fun v hv => (h₂.later v hv).trans (h₁.later v hv)⟩
  · have hsum := h₁.numbers.append h₂.numbers
    simp only [Carried.append, indicesOf_append, map_append, perm_iff_count, count_append] at hsum ⊢
    intro i
    have hcount := hsum i
    omega
  · obtain ⟨hus, hws⟩ := hsplit i hi
    exact (h₂.frame i hws hpi).trans (h₁.frame i hus hpi)
  · obtain ⟨hus, hws⟩ := hsplit i hi
    exact (h₂.parent i hws).trans (h₁.parent i hus)
  · rcases mem_append.1 hu with hu | hu
    · refine (h₁.held u hu).congr fun i hi => ?_
      have hi := hkept u hu i hi
      exact ⟨h₂.frame i (hapart i hi) (hp i hi), h₂.unknown (hapart i hi)⟩
    · exact h₂.held u hu
  · rcases mem_append.1 hu with hu | hu
    · rw [h₂.site?_eq (hapart _ (hlost u hu))]
      exact h₁.blank u hu
    · exact h₂.blank u hu
  · rcases mem_append.1 hu with hu | hu
    · rw [h₂.unknown (hapart _ (hlost u hu))]
      exact h₁.noted u hu
    · exact h₂.noted u hu
  · rw [Carried.append, map_append, mem_append, not_or] at hi
    exact (h₂.others i hi.2).trans (h₁.others i hi.1)
  · rw [hall, mem_append]
    rcases h₂.sound s i hs with hs | hs
    · exact (h₁.sound s i hs).imp_right .inl
    · exact .inr (.inr hs)
  · obtain ⟨hs, hnot⟩ := h₂.total s hs
    obtain ⟨hs, hnot'⟩ := h₁.total s hs
    exact ⟨hs, fun i hi => (mem_append.1 (hall ▸ hi)).elim (hnot' i) (hnot i)⟩

lemma settles_release {q : Option Nat} (hw : Held r q d w)
    (hnot : w.index ∉ indicesOf (w.children ++ ws)) (h : Settles version none cur (w.children ++ ws)
      { lost := allOf (w.children ++ ws) } (r.release version w.index (.of q d w)) r') :
    Settles version none cur (w :: ws) { lost := allOf (w :: ws) } r r' := by
  have hout : ∀ i ∉ indicesOf (w :: ws), w.index ≠ i ∧ i ∉ indicesOf (w.children ++ ws) := by
    intro i hi
    rw [indicesOf, allOf_cons, map_cons, mem_cons, not_or] at hi
    exact ⟨Ne.symm hi.1, hi.2⟩
  have hframe : ∀ i ∉ indicesOf (w :: ws), r'.entries[i]? = r.entries[i]? := by
    intro i hi
    obtain ⟨hne, hi⟩ := hout i hi
    rw [h.frame i hi (by simp), getElem?_release, if_neg hne]
  have hblank : r'.site? w.index = none := by
    rw [site?, h.frame _ hnot (by simp), getElem?_release, if_pos rfl, hw.entry]
    rfl
  have hnoted : r'.known w.index = some w.lastKnown := by
    rw [h.unknown hnot]
    refine (if_pos rfl).trans ?_
    simp only [Entry.of, map_some, getD_some, hw.site]
    rfl
  have hnodes : ∀ v, version < v → (r.release version w.index (.of q d w)).nodes v = r.nodes v :=
    fun v hv => nodes_release hv.ne'
  refine ⟨.refl _, h.length.trans ?_, fun i hi _ => hframe i hi, fun i hi => by rw [hframe i hi],
    forall_mem_nil _, fun u hu => ?_, fun u hu => ?_, fun i hi => ?_, fun s i hs => ?_,
    fun s hs => ?_, fun v hv => (h.later v hv).trans (hnodes v (by omega))⟩
  · unfold release
    cases (Entry.of q d w).node? <;> exact length_modify ..
  · rw [allOf_cons] at hu
    rcases mem_cons.1 hu with rfl | hu
    · exact hblank
    · exact h.blank u hu
  · rw [allOf_cons] at hu
    rcases mem_cons.1 hu with rfl | hu
    · exact hnoted
    · exact h.noted u hu
  · obtain ⟨hne, hi⟩ := hout i hi
    exact (h.unknown hi).trans (if_neg hne.symm)
  · rw [← hnodes _ (Nat.lt_succ_self version)]
    exact h.sound s i hs
  · rw [← hnodes _ (Nat.lt_succ_self version)]
    exact h.total s hs

/-- Wrappers are released one after the other, each before those below it. -/
lemma exists_forgetAll (version : Nat) (cur : Wrapper → Cursor)
    (rest : List Nat) (hw : ∀ w ∈ ws, ∃ p c, Held r p c w) (hd : (indicesOf ws).Nodup) :
    ∃ r', Settles version none cur ws { lost := allOf ws } r r' ∧
    forgetAll version r (ws.map index ++ rest) =
      ((forgetAll version r' rest).1, (forgetAll version r' rest).2 + (allOf ws).length) := by
  induction hn : (allOf ws).length generalizing ws r with
  | zero =>
    cases ws with
    | nil => exact ⟨r, settles_nil version none cur r, rfl⟩
    | cons w ws =>
      rw [allOf_cons] at hn
      cases hn
  | succ n ih =>
    cases ws with
    | nil => cases hn
    | cons w ws =>
      obtain ⟨p, c, hheld⟩ := hw w mem_cons_self
      rw [indicesOf, allOf_cons, map_cons, nodup_cons] at hd
      rw [allOf_cons, length_cons, Nat.add_right_cancel_iff] at hn
      have hlater : ∀ v ∈ w.children ++ ws, ∃ p' c',
          Held (r.release version w.index (.of p c w)) p' c' v := by
        intro v hv
        obtain ⟨q, d, hq⟩ : ∃ q d, Held r q d v := (mem_append.1 hv).elim
          (fun hv => ⟨_, _, hheld.child hv⟩) fun hv => hw v (mem_cons_of_mem _ hv)
        refine ⟨q, d, hq.congr fun i hi => ?_⟩
        have hne : i ≠ w.index := fun heq => hd.1 (heq ▸ mem_indicesOf.2 ⟨v, hv, hi⟩)
        exact ⟨by rw [getElem?_release, if_neg hne.symm], if_neg hne⟩
      obtain ⟨r', hs, heq⟩ := ih hlater hd.2 hn
      refine ⟨r', settles_release hheld hd.1 hs, ?_⟩
      rw [map_append, append_assoc] at heq
      rw [map_cons, cons_append, forgetAll]
      split
      next hnone => cases hnone.symm.trans hheld.entry
      next e he =>
        obtain rfl := some.inj (he.symm.trans hheld.entry)
        have hbelow : (Entry.of p c w).below = w.children.map index := map_map ..
        dsimp only
        rw [hbelow, heq, Nat.add_assoc]

lemma getElem?_detach (he : r.entries[i]? = some e) (j : Nat) (hj : e.parent? ≠ some j) :
    (r.detach i).entries[j]? = r.entries[j]? := by
  rcases detach_eq r i with heq | ⟨e', p, he', hp, heq⟩
  · rw [heq]
  · obtain rfl := mem_unique he he'
    rw [heq, getElem?_update, if_neg]
    rintro rfl
    exact hj hp

lemma bare_detach (r : Registry) (i j : Nat) :
    (r.detach i).entries[j]?.map Entry.bare = r.entries[j]?.map Entry.bare := by
  rcases detach_eq r i with heq | ⟨e, p, -, -, heq⟩
  · rw [heq]
  · rw [heq, getElem?_update]
    split_ifs
    · rw [Option.map_map]
      congr 1
      funext above
      simp only [Function.comp_apply]
      split_ifs <;> rfl
    · rfl

lemma detach_rest (r : Registry) (i : Nat) : (r.detach i).entries.length = r.entries.length ∧
    (r.detach i).known = r.known ∧ (r.detach i).nodes = r.nodes := by
  rcases detach_eq r i with heq | ⟨e, p, -, -, heq⟩
  · rw [heq]
    exact ⟨rfl, rfl, rfl⟩
  · rw [heq]
    exact ⟨length_modify .., rfl, rfl⟩

lemma settles_forget (version : Nat) (cur : Wrapper → Cursor)
    (hw : Held r p d w) (hd : w.indices.Nodup) (hp : ∀ i ∈ w.indices, p ≠ some i) :
    Settles version p cur [w] (.lose w) r (r.forget version w.index).1 ∧
    (r.forget version w.index).2 = w.all.length ∧
    ∀ i ∉ w.indices, (r.forget version w.index).1.entries[i]? = (r.detach w.index).entries[i]? := by
  obtain ⟨hlength, hknown, hnodes⟩ := detach_rest r w.index
  have hone : allOf [w] = w.all := append_nil _
  have hheld : Held (r.detach w.index) p d w :=
    hw.congr fun i hi => ⟨getElem?_detach hw.entry i (hp i hi), by rw [hknown]⟩
  obtain ⟨r', hs, heq⟩ := exists_forgetAll version cur [] (r := r.detach w.index)
    (fun v (hv : v ∈ [w]) => ⟨p, d, by rwa [mem_singleton.1 hv]⟩)
    (by rwa [indicesOf, hone])
  have hforget : r.forget version w.index = (r', w.all.length) := by
    rw [forget, hw.live, isSome_none, if_neg Bool.false_ne_true]
    refine heq.trans ?_
    rw [forgetAll, hone, Nat.zero_add]
  rw [hone] at hs
  rw [hforget]
  refine ⟨⟨hs.numbers, hs.length.trans hlength, fun i hi hpi => ?_, fun i hi => ?_, nofun, hs.blank,
    hs.noted, fun i hi => ?_, fun s i h => ?_, fun s h => ?_, fun v hv => ?_⟩, rfl, fun i hi => ?_⟩
  · exact (hs.frame i hi (by simp)).trans (getElem?_detach hw.entry i hpi)
  · exact (hs.parent i hi).trans (bare_detach r w.index i)
  · rw [← hknown]
    exact hs.others i hi
  · rw [← hnodes]
    exact hs.sound s i h
  · rw [← hnodes]
    exact hs.total s h
  · rw [← hnodes]
    exact hs.later v hv
  · exact hs.frame i (by rwa [indicesOf, hone]) (by simp)

end Registry
end LiveEdit
