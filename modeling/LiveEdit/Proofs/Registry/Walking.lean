import LiveEdit.Proofs.Registry.Settling

namespace LiveEdit
open List Option

namespace Turn
open Registry Wrapper

variable {t t' t₁ t₂ : Turn} {p : Option Nat} {d new : Cursor} {cur : Wrapper → Cursor}
  {v w : Wrapper}
  {ws us : List Wrapper} {c c' : Carried} {version n : Nat} {x : Carrier} {shifted : Bool}
  {s : Site} {f : Slot → Turn → Turn × Option Slot} {F : Wrapper → Carried}

structure Turns (version : Nat) (p : Option Nat) (cur : Wrapper → Cursor) (ws : List Wrapper)
    (c : Carried) (t t' : Turn) : Prop where
  settles : Settles version p cur ws c t.toRegistry t'.toRegistry
  rebound : t'.rebound = t.rebound + (allOf c.kept).length
  forgotten : t'.forgotten = t.forgotten + c.lost.length
  mismatched : t'.mismatched = t.mismatched ++ c.mismatched.map fun s => (s.kind, s.span)

lemma Turns.append (h₁ : Turns version p cur us c t t₁) (h₂ : Turns version p cur ws c' t₁ t₂)
    (hd : (indicesOf (us ++ ws)).Nodup) (hp : ∀ i ∈ indicesOf us, p ≠ some i) :
    Turns version p cur (us ++ ws) (c.append c') t t₂ := by
  refine ⟨h₁.settles.append h₂.settles hd hp, ?_, ?_, ?_⟩
  · rw [h₂.rebound, h₁.rebound, Carried.append, allOf_eq, allOf_eq, allOf_eq, flatMap_append,
      length_append, Nat.add_assoc]
  · rw [h₂.forgotten, h₁.forgotten, Carried.append, length_append, Nat.add_assoc]
  · rw [h₂.mismatched, h₁.mismatched, Carried.append, map_append, append_assoc]

lemma Turns.congr {cur' : Wrapper → Cursor} (h : Turns version p cur ws c t t')
    (hcur : ∀ u ∈ c.kept, cur' u = cur u) : Turns version p cur' ws c t t' :=
  { h with settles := { h.settles with held := fun u hu => hcur u hu ▸ h.settles.held u hu } }

lemma turns_forget (version : Nat) (cur : Wrapper → Cursor) (hw : Held t.toRegistry p d w)
    (hd : w.indices.Nodup) (hp : ∀ i ∈ w.indices, p ≠ some i) :
    Turns version p cur [w] (.lose w) t (t.forget version w.index) := by
  obtain ⟨hs, hcount, -⟩ := settles_forget version cur hw hd hp
  exact ⟨hs, rfl, congrArg (t.forgotten + ·) hcount, (append_nil _).symm⟩

lemma turns_mismatch (version : Nat) (cur : Wrapper → Cursor) (hw : Held t.toRegistry p d w)
    (hd : w.indices.Nodup) (hp : ∀ i ∈ w.indices, p ≠ some i) :
    Turns version p cur [w] (.mismatch w) t (t.mismatch version w.index) := by
  obtain ⟨hs, hcount, -⟩ := settles_forget version cur hw hd hp
  rw [mismatch, hw.entry]
  exact ⟨{ hs with }, rfl, congrArg (t.forgotten + ·) hcount, rfl⟩

lemma turns_sweep {old : Wrapper → Cursor}
    (hf : ∀ w ∈ ws, ∀ t : Turn, Held t.toRegistry p (old w) w → Turns version p cur [w] (F w)
      t (f (.of w) t).1 ∧ (f (.of w) t).2.toList = (F w).kept.map Slot.of)
    (hw : ∀ w ∈ ws, Held t.toRegistry p (old w) w) (hd : (indicesOf ws).Nodup)
    (hp : ∀ i ∈ indicesOf ws, p ≠ some i) (kept : OrderedIndex Nat Slot) :
    Turns version p cur ws (.collect F ws) t (sweep f t kept (ws.map .of)).1 ∧
    (sweep f t kept (ws.map .of)).2 =
      ((Carried.collect F ws).kept.map Slot.of).foldl .set kept := by
  induction ws generalizing t kept with
  | nil => exact ⟨⟨settles_nil version p cur _, rfl, rfl, (append_nil _).symm⟩, rfl⟩
  | cons w ws ih =>
    obtain ⟨hone, hslot⟩ := hf w mem_cons_self t (hw w mem_cons_self)
    have hhere := indicesOf_singleton w
    have hall := hd
    rw [indicesOf_cons] at hd hp
    have hrest : ∀ v ∈ ws, Held (f (.of w) t).1.toRegistry p (old v) v := by
      intro v hv
      refine (hw v (mem_cons_of_mem w hv)).congr fun i hi => ?_
      have hi := mem_indicesOf.2 ⟨v, hv, hi⟩
      have hnot : i ∉ indicesOf [w] := hhere ▸ fun hmem => (nodup_append.1 hd).2.2 i hmem i hi rfl
      exact ⟨hone.settles.frame i hnot (hp i (mem_append_right _ hi)), hone.settles.unknown hnot⟩
    obtain ⟨hmore, hslots⟩ := ih (fun v hv => hf v (mem_cons_of_mem w hv)) hrest
      (nodup_append.1 hd).2.1 (fun i hi => hp i (mem_append_right _ hi))
      ((f (.of w) t).2.elim kept kept.set)
    refine ⟨hone.append hmore hall fun i hi => hp i (mem_append_left _ (hhere ▸ hi)), ?_⟩
    refine hslots.trans ?_
    rw [Carried.collect, Carried.append, map_append, foldl_append, ← hslot]
    cases (f (.of w) t).2 <;> rfl

lemma getElem?_setSlots (t : Turn) (i j : Nat) (kept : OrderedIndex Nat Slot) :
    (setSlots i (t, kept)).entries[j]? = if i = j then
      t.entries[j]?.map fun e => { e with slots := kept } else t.entries[j]? :=
  getElem?_update t.toRegistry i j _

lemma getElem?_rebind (t : Turn) (i j : Nat) : (t.rebind version i new).entries[j]? = if i = j then
      t.entries[j]?.map fun e => { e with span := new.site.span, node? := some new }
      else t.entries[j]? := getElem?_update t.toRegistry i j _

lemma entry_keep (hw : Held t.toRegistry p d w) (hkind : new.site.kind = w.kind)
    (h : t'.entries[w.index]?.map Entry.bare =
      (t.rebind version w.index new).entries[w.index]?.map Entry.bare) (kept : List Wrapper) :
    (setSlots w.index (t', slotsOf kept)).entries[w.index]? =
      some (.of p new (.mk w.index w.ordinal new.site kept)) := by
  rw [getElem?_rebind, if_pos rfl, hw.entry, map_some, map_some] at h
  obtain ⟨e, he, hbare⟩ := map_eq_some_iff.1 h
  rw [getElem?_setSlots, if_pos rfl, he, map_some]
  refine congrArg some ((congrArg (fun e => { e with slots := slotsOf kept }) hbare).trans ?_)
  change Entry.mk w.kind _ _ _ _ _ = Entry.mk new.site.kind _ _ _ _ _
  rw [hkind]
  rfl

lemma turns_keep (hw : Held t.toRegistry p d w)
    (hd : w.indices.Nodup) (hkind : new.site.kind = w.kind) (h : Turns version (some w.index)
      (fun u => .under new u.ordinal u.site) w.children c (t.rebind (version + 1) w.index new) t') :
    Turns version p (fun _ => new) [w] (c.keep w.index w.ordinal new.site) t
      (setSlots w.index (t', slotsOf c.kept)) := by
  have hhere := (indicesOf_singleton w).trans (indices_eq w)
  have hnot : w.index ∉ indicesOf w.children := (nodup_cons.1 (indices_eq w ▸ hd)).1
  have hs := h.settles
  have hframe : ∀ i ∉ indicesOf [w],
      (setSlots w.index (t', slotsOf c.kept)).entries[i]? = t.entries[i]? := by
    intro i hi
    rw [hhere, mem_cons, not_or] at hi
    rw [getElem?_setSlots, if_neg (Ne.symm hi.1),
      hs.frame i hi.2 fun heq => hi.1 (some.inj heq).symm, getElem?_rebind, if_neg (Ne.symm hi.1)]
  have hkept : ∀ i ∈ indicesOf c.kept, i ≠ w.index := fun i hi heq =>
    hnot (heq ▸ hs.numbers.mem_iff.2 (mem_append_left _ hi))
  have hnodes : ∀ v s, (t.rebind (version + 1) w.index new).nodes v s =
      if v = version + 1 ∧ s = new.site then some w.index else t.nodes v s := fun _ _ => rfl
  refine ⟨⟨?_, ?_, fun i hi _ => hframe i hi, fun i hi => by rw [hframe i hi], fun u hu => ?_,
    fun u hu => ?_, hs.noted, hs.others, fun s i hi => ?_, fun s hi => ?_, fun v hv => ?_⟩, ?_,
    h.forgotten, h.mismatched⟩
  · rw [hhere, Carried.indicesOf_keep]
    exact hs.numbers.cons _
  · exact (length_modify ..).trans (hs.length.trans (length_modify ..))
  · obtain rfl := mem_singleton.1 hu
    refine .mk rfl (entry_keep hw hkind (hs.parent w.index hnot) _) ?_ fun v hv => ?_
    · refine (hs.others _ fun hlost => ?_).trans hw.live
      exact hnot (hs.numbers.mem_iff.2 (mem_append_right _ hlost))
    · refine (hs.held v hv).congr fun i hi => ⟨?_, rfl⟩
      rw [getElem?_setSlots, if_neg (hkept i (mem_indicesOf.2 ⟨v, hv, hi⟩)).symm]
  · have hsame : (setSlots w.index (t', slotsOf c.kept)).site? u.index = t'.site? u.index :=
      site?_update fun _ => rfl
    exact hsame.trans (hs.blank u hu)
  · rw [bindings_keep]
    rcases hs.sound s i hi with hi | hi
    · rw [hnodes] at hi
      split_ifs at hi with heq
      · exact .inr (mem_cons.2 (.inl (Prod.ext heq.2 (some.inj hi).symm)))
      · exact .inl hi
    · exact .inr (mem_cons_of_mem _ hi)
  · obtain ⟨hnone, hnot⟩ := hs.total s hi
    rw [hnodes] at hnone
    split_ifs at hnone with heq
    rw [bindings_keep]
    refine ⟨hnone, fun i hi => (mem_cons.1 hi).elim (fun hpair => ?_) (hnot i)⟩
    exact heq ⟨rfl, congrArg Prod.fst hpair⟩
  · refine (hs.later v hv).trans (funext fun s => ?_)
    rw [hnodes, if_neg fun heq => by omega]
  · rw [Carried.keep, allOf_cons, append_nil, length_cons]
    refine h.rebound.trans ?_
    rw [rebind, Nat.add_assoc, Nat.add_comm 1]
    rfl

lemma turns_seat_keep (hd : w.indices.Nodup)
    (h : Turns version p (fun _ => new) [w] (c.keep w.index w.ordinal s) t t')
    (hcur : cur (.mk w.index n s c.kept) = new) :
    Turns version p cur [w] (c.keep w.index n s) t (seat w.index n (t', true)).1 := by
  have hhere := indicesOf_singleton w
  have hs := h.settles
  have hnumbers := hs.numbers
  rw [hhere, Carried.indicesOf_keep] at hnumbers
  have hnot : ∀ i ∈ indicesOf c.kept, w.index ≠ i := by
    rintro i hi rfl
    exact (nodup_cons.1 (hnumbers.nodup_iff.1 hd)).1 (mem_append_left _ hi)
  have hset : ∀ i, (seat w.index n (t', true)).1.entries[i]? = if w.index = i then
      t'.entries[i]?.map fun e => { e with ordinal := n } else t'.entries[i]? :=
    fun i => getElem?_update t'.toRegistry w.index i _
  have hframe :
      ∀ i ∉ indicesOf [w], (seat w.index n (t', true)).1.entries[i]? = t'.entries[i]? := by
    intro i hi
    rw [hset, if_neg]
    rintro rfl
    exact hi (hhere ▸ mem_indices_of_mem (self_mem_all w))
  refine ⟨⟨?_, (length_modify ..).trans hs.length, fun i hi hp => (hframe i hi).trans
    (hs.frame i hi hp), fun i hi => (congrArg _ (hframe i hi)).trans (hs.parent i hi),
    fun u hu => ?_, fun u hu => ?_, hs.noted, hs.others, ?_, ?_, hs.later⟩, ?_, h.forgotten,
    h.mismatched⟩
  · rwa [hhere, Carried.indicesOf_keep]
  · obtain rfl := mem_singleton.1 hu
    have hold := hs.held _ (mem_singleton_self _)
    rw [hcur]
    refine .mk hold.site ?_ hold.live fun v hv => (hold.child hv).congr fun i hi => ⟨?_, rfl⟩
    · refine (hset w.index).trans ?_
      rw [if_pos rfl]
      exact congrArg (Option.map _) hold.entry
    · rw [hset, if_neg (hnot i (mem_indicesOf.2 ⟨v, hv, hi⟩))]
  · have hsame : (seat w.index n (t', true)).1.site? u.index = t'.site? u.index :=
      site?_update fun _ => rfl
    exact hsame.trans (hs.blank u hu)
  · rw [bindings_keep, ← bindings_keep c w.index w.ordinal s]
    exact hs.sound
  · rw [bindings_keep, ← bindings_keep c w.index w.ordinal s]
    exact hs.total
  · exact h.rebound

/-- Whether a wrapper is kept does not depend on its place, and if so, only that changes with it. -/
def Keeps (w : Wrapper) (s : Site) (f : Nat → Carried) : Prop :=
  (∃ c : Carried, ∀ n, f n = c.keep w.index n s) ∨ ∃ c : Carried, c.kept = [] ∧ ∀ n, f n = c

lemma keeps_path (x : Carrier) (s : Site) (w : Wrapper) : Keeps w s (x.carryPath · s w) := by
  simp only [Keeps, Carrier.carryPath_eq]
  by_cases h : x.grownInto w.site s = true
  · exact .inl ⟨_, fun n => if_pos h⟩
  · exact .inr ⟨.lose w, rfl, fun n => if_neg h⟩

lemma keeps_unchanged (x : Carrier) (shifted : Bool) (s : Site) (w : Wrapper) :
    Keeps w s (x.carryUnchanged shifted · s w) := by
  simp only [Keeps, Carrier.carryUnchanged_eq]
  by_cases h : x.sameAs shifted w.site s = true
  · exact .inl ⟨_, fun n => if_pos h⟩
  · exact .inr ⟨.mismatch w, rfl, fun n => if_neg h⟩

lemma turns_seat {f : Nat → Carried} {seen : Turn × Bool} (hd : w.indices.Nodup) (hf : Keeps w s f)
    (h : Turns version p (fun _ => .under new n s) [w] (f w.ordinal) t seen.1)
    (hflag : seen.2 = !(f w.ordinal).kept.isEmpty) :
    Turns version p (fun u => .under new u.ordinal u.site) [w] (f n) t (seat w.index n seen).1 ∧
      (seat w.index n seen).2.toList = (f n).kept.map Slot.of := by
  obtain ⟨t', flag⟩ := seen
  rcases hf with ⟨c, hc⟩ | ⟨c, hnil, hc⟩
  · rw [hc] at h hflag ⊢
    obtain rfl : flag = true := hflag
    exact ⟨turns_seat_keep hd h rfl, rfl⟩
  · rw [hc, hnil] at hflag
    rw [hc] at h ⊢
    obtain rfl : flag = false := hflag
    rw [hnil]
    exact ⟨h.congr fun u hu => absurd (hnil ▸ hu) not_mem_nil, rfl⟩

/-- A wrapper is kept, and the loop over its slots does to each wrapper below what `F` says. -/
lemma turns_loop (hw : Held t.toRegistry p d w)
    (hd : w.indices.Nodup) (hkind : new.site.kind = w.kind)
    (hf : ∀ v ∈ w.children, ∀ t : Turn, Held t.toRegistry (some w.index) (.under d v.ordinal v.site)
      v → Turns version (some w.index) (fun u => .under new u.ordinal u.site)
      [v] (F v) t (f (.of v) t).1 ∧ (f (.of v) t).2.toList = (F v).kept.map Slot.of)
    (hordered : (Carried.collect F w.children).kept.Pairwise fun u v => u.ordinal < v.ordinal) :
    Turns version p (fun _ => new)
      [w] ((Carried.collect F w.children).keep w.index w.ordinal new.site) t (setSlots w.index
      (sweep f (t.rebind (version + 1) w.index new) noSlots (Entry.of p d w).slots.items)) := by
  obtain ⟨hnot, hbelow⟩ := nodup_cons.1 (indices_eq w ▸ hd)
  have hchild : ∀ v ∈ w.children, Held (t.rebind (version + 1) w.index new).toRegistry
      (some w.index) (.under d v.ordinal v.site) v := by
    intro v hv
    refine (hw.child hv).congr fun i hi => ⟨(getElem?_update ..).trans (if_neg ?_), rfl⟩
    rintro rfl
    exact hnot (mem_indicesOf.2 ⟨v, hv, hi⟩)
  obtain ⟨hturns, hslots⟩ := turns_sweep hf hchild hbelow
    (fun i hi heq => hnot ((some.inj heq) ▸ hi)) noSlots
  have hkeep := turns_keep hw hd hkind hturns
  have hsorted : ((Carried.collect F w.children).kept.map Slot.of).foldl .set noSlots =
      slotsOf (Carried.collect F w.children).kept := foldl_set [] hordered
  rw [← hsorted, ← hslots] at hkeep
  exact hkeep

lemma turns_unchanged (hb : w.Bound) (hfits : x.Fits w.span (Carrier.sideOf shifted))
    (hw : Held t.toRegistry p d w) (hd : w.indices.Nodup) (hp : ∀ i ∈ w.indices, p ≠ some i)
    (version : Nat) (new : Cursor) :
    Turns version p (fun _ => new) [w] (x.carryUnchanged shifted w.ordinal new.site w) t
      (visitUnchanged x version shifted w.index new t).1 ∧
    (visitUnchanged x version shifted w.index new t).2 =
      !(x.carryUnchanged shifted w.ordinal new.site w).kept.isEmpty := by
  induction w generalizing t p d new with
  | mk i n old ws ih =>
    have hcarries : x.Carries _ (x.carryUnchanged shifted n new.site _) :=
      Carrier.carries_unchanged hb hfits
    rw [visitUnchanged, hw.entry]
    rw [Carrier.carryUnchanged_eq] at hcarries ⊢
    dsimp only
    by_cases hsame : x.same shifted (Entry.of p d (.mk i n old ws)).kind
        (Entry.of p d (.mk i n old ws)).span new.site = true
    · have hsame' : x.sameAs shifted (Wrapper.mk i n old ws).site new.site = true := hsame
      rw [if_pos hsame'] at hcarries ⊢
      rw [if_pos hsame]
      have hkind : new.site.kind = old.kind := (Carrier.moves_of_sameAs hsame' hfits).1
      refine ⟨turns_loop hw hd hkind (fun v hv t' hv' => ?_)
        (hcarries.bound _ (mem_singleton_self _)).ordered, rfl⟩
      obtain ⟨hnodup, hpv⟩ := child_apart hd hv
      dsimp only [Slot.of]
      unfold Carrier.beside
      split
      next s hs =>
        have hside := Carrier.fits_of_mem_nodes (mem_of_getElem? (hb.nodes v hv)) hfits
        obtain ⟨hturns, hflag⟩ :=
          ih v hv (hb.child v hv) hside hv' hnodup hpv (.under new v.ordinal s)
        dsimp only [Cursor.site] at hturns hflag
        split
        next hnone => cases hnone.symm.trans hs
        next s' hs' =>
          obtain rfl := mem_unique hs' hs
          refine ⟨hturns.congr fun u hu => ?_, ?_⟩
          · obtain ⟨hordinal, hsite, -⟩ := Carrier.kept_carryUnchanged hu
            rw [hordinal, hsite]
          · rw [hflag, Carrier.carryUnchanged_eq]
            split_ifs <;> rfl
      next hnone =>
        split
        next => exact ⟨turns_mismatch version _ hv' hnodup hpv, rfl⟩
        next s hs => cases hnone.symm.trans hs
    · rw [if_neg hsame,
        if_neg (show ¬ x.sameAs shifted (Wrapper.mk i n old ws).site new.site = true from hsame)]
      exact ⟨turns_mismatch version _ hw hd hp, rfl⟩

lemma turns_path (hb : w.Bound) (hw : Held t.toRegistry p d w) (hd : w.indices.Nodup)
    (hp : ∀ i ∈ w.indices, p ≠ some i) (version : Nat) (new : Cursor) : Turns version p (fun _ =>
      new) [w] (x.carryPath w.ordinal new.site w) t (visitPath x version w.index new t).1 ∧
    (visitPath x version w.index new t).2 = !(x.carryPath w.ordinal new.site w).kept.isEmpty := by
  induction w generalizing t p d new with
  | mk i n old ws ih =>
    have hcarries : x.Carries _ (x.carryPath n new.site _) := Carrier.carries_path hb
    rw [visitPath, hw.entry]
    rw [Carrier.carryPath_eq] at hcarries ⊢
    dsimp only
    by_cases hgrown : x.grown (Entry.of p d (.mk i n old ws)).kind
        (Entry.of p d (.mk i n old ws)).span new.site = true
    · have hgrown' : x.grownInto (Wrapper.mk i n old ws).site new.site = true := hgrown
      rw [if_pos hgrown'] at hcarries ⊢
      rw [if_pos hgrown]
      have hkind : new.site.kind = old.kind := by
        simp only [Carrier.grownInto_eq, Bool.and_eq_true, beq_iff_eq] at hgrown'
        exact hgrown'.1.1
      refine ⟨turns_loop hw hd hkind (fun v hv t' hv' => ?_)
        (hcarries.bound _ (mem_singleton_self _)).ordered, rfl⟩
      obtain ⟨hnodup, hpv⟩ := child_apart hd hv
      have hcount : ((Entry.of p d (.mk i n old ws)).node?.map (·.site.nodes.length)).getD 0 =
          old.nodes.length := congrArg (·.nodes.length) hw.site
      rw [hcount]
      dsimp only [Slot.of]
      split
      next hnone => cases hnone.symm.trans hv'.entry
      next e he =>
        obtain rfl := some.inj (he.symm.trans hv'.entry)
        have hwithin : ∀ r, x.verdictOf old.nodes.length new.site.nodes v.index v.ordinal v.kind
            v.span = r → x.verdict old.nodes.length new.site.nodes v = r := fun _ h => h
        change Turns _ _ _ _ (x.within old.nodes.length new.site.nodes v) _ _ ∧
          _ = (x.within old.nodes.length new.site.nodes v).kept.map Slot.of
        split
        next h =>
          rw [Carrier.within, hwithin _ h]
          exact ⟨turns_forget version _ hv' hnodup hpv, rfl⟩
        next h =>
          rw [Carrier.within, hwithin _ h]
          exact ⟨turns_mismatch version _ hv' hnodup hpv, rfl⟩
        next m s h =>
          obtain ⟨hturns, hflag⟩ := ih v hv (hb.child v hv) hv' hnodup hpv (.under new m s)
          rw [Carrier.within, hwithin _ h]
          exact turns_seat hnodup (keeps_path x s v) hturns hflag
        next shifted m s h =>
          have hfits := (Carrier.verdict_unchanged (hwithin _ h)).2.1
          obtain ⟨hturns, hflag⟩ := turns_unchanged (hb.child v hv) hfits hv' hnodup hpv version
            (.under new m s)
          rw [Carrier.within, hwithin _ h]
          exact turns_seat hnodup (keeps_unchanged x shifted s v) hturns hflag
    · rw [if_neg hgrown,
        if_neg (show ¬ x.grownInto (Wrapper.mk i n old ws).site new.site = true from hgrown)]
      exact ⟨turns_forget version _ hw hd hp, rfl⟩

end Turn
end LiveEdit
