import LiveEdit.Proofs.Wrapper.Bound

/-! Whatever the new tree is, each wrapper is kept or lost, and what is kept lies where the edit
moves it. -/

namespace LiveEdit
open List

namespace Carried
open Wrapper

def collect (f : Wrapper → Carried) : List Wrapper → Carried
  | [] => {}
  | w :: ws => (f w).append (collect f ws)

lemma kept_collect (f : Wrapper → Carried) (ws : List Wrapper) :
    (collect f ws).kept = ws.flatMap fun w => (f w).kept := by
  induction ws with
  | nil => rfl
  | cons w ws ih => rw [collect, append, ih, flatMap_cons]

lemma lost_collect (f : Wrapper → Carried) (ws : List Wrapper) :
    (collect f ws).lost = ws.flatMap fun w => (f w).lost := by
  induction ws with
  | nil => rfl
  | cons w ws ih => rw [collect, append, ih, flatMap_cons]

lemma numbers_collect {f : Wrapper → Carried} {ws : List Wrapper}
    (h : ∀ w ∈ ws, w.indices.Perm (indicesOf (f w).kept ++ (f w).lost.map index)) :
    (indicesOf ws).Perm (indicesOf (collect f ws).kept ++ (collect f ws).lost.map index) := by
  induction ws with
  | nil => exact List.Perm.refl _
  | cons w ws ih =>
    have hfirst := h w mem_cons_self
    have hrest := ih fun v hv => h v (mem_cons_of_mem w hv)
    simp only [collect, append, indicesOf_append, indicesOf_cons, map_append,
      perm_iff_count, count_append] at hfirst hrest ⊢
    intro j
    have h1 := hfirst j
    have h2 := hrest j
    omega

lemma indicesOf_keep (c : Carried) (i n : Nat) (s : Site) :
    indicesOf (c.keep i n s).kept = i :: indicesOf c.kept := by
  rw [keep, indicesOf_cons, indices_mk]
  exact append_nil _

end Carried

namespace Carrier
open Wrapper

variable {x : Carrier} {w : Wrapper} {r : Carried} {shifted : Bool} {ordinal : Nat}
  {nodes : List Site} {old new : Site}
  {w' : Wrapper} {oldCount i : Nat} {p : Placement} {f : Wrapper → Carried} {s : Span}

lemma grownInto_eq (x : Carrier) (old new : Site) : x.grownInto old new =
    (new.kind == old.kind && new.start == old.start &&
      (new.span.stop : Int) == x.shift old.span.stop) := rfl

lemma sameAs_eq (x : Carrier) (shifted : Bool) (old new : Site) : x.sameAs shifted old new =
    (new.kind == old.kind && if shifted then
      (new.start : Int) == x.shift old.start && (new.span.stop : Int) == x.shift old.span.stop
      else new.start == old.start && new.span.stop == old.span.stop) := rfl

def collectBy {m : Type → Type} [Monad m] (f : Wrapper → m Carried) : List Wrapper → m Carried
  | [] => return {}
  | w :: ws => do return (← f w).append (← collectBy f ws)

lemma collectBy_id (f : Wrapper → Carried) (ws : List Wrapper) :
    collectBy (m := Id) f ws = .collect f ws := by
  induction ws with
  | nil => rfl
  | cons w ws ih =>
    rw [collectBy, ih]
    rfl

def besideBy {m : Type → Type} [Monad m] (c : Comparison m) (shifted : Bool) (nodes : List Site)
    (w : Wrapper) : m Carried :=
  match nodes[w.ordinal]? with
  | some new => walkUnchanged c shifted w.ordinal new w
  | none => pure (.mismatch w)

def withinBy {m : Type → Type} [Monad m] (x : Carrier) (c : Comparison m) (oldCount : Nat)
    (nodes : List Site) (w : Wrapper) : m Carried := do
  let p ← x.settleBy (c.grown w.kind w.span) nodes w.index w.ordinal w.span
  match judge oldCount nodes w.ordinal p with
  | .lost => pure (.lose w)
  | .mismatched => pure (.mismatch w)
  | .path ordinal new => x.walkPath c ordinal new w
  | .unchanged shifted ordinal new => walkUnchanged c shifted ordinal new w

lemma walkUnchangedAll_eq {m : Type → Type} [Monad m] (c : Comparison m) (shifted : Bool)
    (nodes : List Site) (ws : List Wrapper) :
    walkUnchangedAll c shifted nodes ws = collectBy (besideBy c shifted nodes) ws := by
  induction ws with
  | nil => rw [walkUnchangedAll, collectBy]
  | cons w ws ih =>
    rw [walkUnchangedAll, ih, collectBy]
    rfl

lemma walkPathAll_eq {m : Type → Type} [Monad m] [LawfulMonad m] (x : Carrier) (c : Comparison m)
    (oldCount : Nat) (nodes : List Site) (ws : List Wrapper) :
    x.walkPathAll c oldCount nodes ws = collectBy (x.withinBy c oldCount nodes) ws := by
  induction ws with
  | nil => rw [walkPathAll, collectBy]
  | cons w ws ih =>
    rw [walkPathAll, ih, collectBy, withinBy]
    exact (LawfulMonad.bind_assoc ..).symm

def settle (x : Carrier) (nodes : List Site) (w : Wrapper) : Option Placement :=
  x.settleBy (x.exact.grown w.kind w.span) nodes w.index w.ordinal w.span

lemma settle_eq (x : Carrier) (nodes : List Site) (w : Wrapper) : x.settle nodes w =
    match x.place w.index w.span, x.outside w.span with
    | some .path, some beside =>
      match nodes[w.ordinal]? with
      | some new => if x.grownInto w.site new then some .path else some beside
      | none => some beside
    | placement, _ => placement := rfl

def verdict (x : Carrier) (oldCount : Nat) (nodes : List Site) (w : Wrapper) : Verdict :=
  judge oldCount nodes w.ordinal (x.settle nodes w)

def beside (x : Carrier) (shifted : Bool) (nodes : List Site) (w : Wrapper) : Carried :=
  match nodes[w.ordinal]? with
  | some new => x.carryUnchanged shifted w.ordinal new w
  | none => .mismatch w

def within (x : Carrier) (oldCount : Nat) (nodes : List Site) (w : Wrapper) : Carried :=
  match x.verdict oldCount nodes w with
  | .lost => .lose w
  | .mismatched => .mismatch w
  | .path ordinal new => x.carryPath ordinal new w
  | .unchanged shifted ordinal new => x.carryUnchanged shifted ordinal new w

lemma carryUnchanged_eq (x : Carrier) (shifted : Bool) (ordinal : Nat) (new : Site) (w : Wrapper) :
    x.carryUnchanged shifted ordinal new w = if x.sameAs shifted w.site new then (Carried.collect
      (x.beside shifted new.nodes) w.children).keep w.index ordinal new else .mismatch w := by
  cases w
  rw [carryUnchanged, walkUnchanged, walkUnchangedAll_eq, ← collectBy_id]
  rfl

lemma carryPath_eq (x : Carrier) (ordinal : Nat) (new : Site) (w : Wrapper) :
    x.carryPath ordinal new w = if x.grownInto w.site new then (Carried.collect (x.within
      w.site.nodes.length new.nodes) w.children).keep w.index ordinal new else .lose w := by
  cases w
  rw [carryPath, walkPath, walkPathAll_eq, ← collectBy_id]
  rfl

def Fits (x : Carrier) (s : Span) : Placement → Prop
  | .before => s.stop ≤ x.edited.start
  | .after => x.edited.stop ≤ s.start
  | .path => s.start ≤ x.edited.start ∧ x.edited.stop ≤ s.stop ∧ x.edited.contains s = false

def Lands (x : Carrier) (old new : Span) : Placement → Prop
  | .before => new.start = old.start ∧ new.stop = old.stop
  | .after => (new.start : Int) = x.shift old.start ∧ (new.stop : Int) = x.shift old.stop
  | .path => new.start = old.start ∧ (new.stop : Int) = x.shift old.stop

def Moves (x : Carrier) (old new : Site) (p : Placement) : Prop :=
  new.kind = old.kind ∧ x.Fits old.span p ∧ x.Lands old.span new.span p

def Linked (x : Carrier) (w p' c' : Wrapper) : Prop :=
  ∃ p ∈ w.all, ∃ c ∈ p.children, p.index = p'.index ∧ c.index = c'.index ∧
    ∃ placement, x.Moves c.site c'.site placement

structure Carries (x : Carrier) (w : Wrapper) (r : Carried) : Prop where
  single : r.kept.length ≤ 1
  index : ∀ w' ∈ r.kept, w'.index = w.index
  bound : ∀ w' ∈ r.kept, w'.Bound
  numbers : w.indices.Perm (indicesOf r.kept ++ r.lost.map Wrapper.index)
  lost : ∀ v ∈ r.lost, v ∈ w.all
  links : ∀ p' ∈ allOf r.kept, ∀ c' ∈ p'.children, x.Linked w p' c'

lemma carries_lose (x : Carrier) (w : Wrapper) : x.Carries w (.lose w) :=
  ⟨Nat.zero_le _, nofun, nofun, List.Perm.refl _, fun _ hv => hv, nofun⟩

lemma carries_mismatch (x : Carrier) (w : Wrapper) : x.Carries w (.mismatch w) :=
  ⟨Nat.zero_le _, nofun, nofun, List.Perm.refl _, fun _ hv => hv, nofun⟩

lemma Linked.of_child {c p' c' : Wrapper} (h : x.Linked c p' c') (hc : c ∈ w.children) :
    x.Linked w p' c' := by
  obtain ⟨p, hp, hrest⟩ := h
  exact ⟨p, mem_all.2 (.inr ⟨c, hc, hp⟩), hrest⟩

lemma bound_collect {ws : List Wrapper} (hf : ∀ c ∈ ws, x.Carries c (f c))
    (hnodes : ∀ c ∈ ws, ∀ c' ∈ (f c).kept, new.nodes[c'.ordinal]? = some c'.site)
    (hord : ws.Pairwise fun a b => ∀ a' ∈ (f a).kept, ∀ b' ∈ (f b).kept, a'.ordinal < b'.ordinal) :
    (Wrapper.mk i ordinal new (Carried.collect f ws).kept).Bound := by
  rw [Carried.kept_collect]
  refine .mk (fun c' hc' => ?_) ?_ fun c' hc' => ?_
  · obtain ⟨c, hc, hkept⟩ := mem_flatMap.1 hc'
    exact hnodes c hc c' hkept
  · -- Each child is carried to one node at most, so only different children have to be compared.
    rw [pairwise_flatMap]
    refine ⟨fun c hc => ?_, hord⟩
    have hone := (hf c hc).single
    match (f c).kept, hone with
    | [], _ => exact .nil
    | [c'], _ => exact pairwise_singleton _ c'
  · obtain ⟨c, hc, hkept⟩ := mem_flatMap.1 hc'
    exact (hf c hc).bound c' hkept

lemma carries_keep (hf : ∀ c ∈ w.children, x.Carries c (f c))
    (htop : ∀ c ∈ w.children, ∀ c' ∈ (f c).kept, new.nodes[c'.ordinal]? = some c'.site ∧
      ∃ placement, x.Moves c.site c'.site placement) (hord : w.children.Pairwise fun a b =>
      ∀ a' ∈ (f a).kept, ∀ b' ∈ (f b).kept, a'.ordinal < b'.ordinal) :
    x.Carries w ((Carried.collect f w.children).keep w.index ordinal new) := by
  have hmem : ∀ c' ∈ (Carried.collect f w.children).kept, ∃ c ∈ w.children, c' ∈ (f c).kept := by
    intro c' hc'
    rw [Carried.kept_collect] at hc'
    exact mem_flatMap.1 hc'
  refine ⟨le_rfl, ?_, ?_, ?_, ?_, ?_⟩
  · intro w' hw'
    obtain rfl := mem_singleton.1 hw'
    rfl
  · intro w' hw'
    obtain rfl := mem_singleton.1 hw'
    exact bound_collect hf (fun c hc c' hc' => (htop c hc c' hc').1) hord
  · have hbelow := Carried.numbers_collect fun c hc => (hf c hc).numbers
    rw [indices_eq, Carried.indicesOf_keep]
    exact hbelow.cons _
  · intro v hv
    have hbelow : v ∈ (Carried.collect f w.children).lost := hv
    rw [Carried.lost_collect] at hbelow
    obtain ⟨c, hc, hlost⟩ := mem_flatMap.1 hbelow
    exact mem_all.2 (.inr ⟨c, hc, (hf c hc).lost v hlost⟩)
  · intro p' hp' c' hc'
    obtain ⟨w', hw', hp'⟩ := mem_allOf.1 hp'
    obtain rfl := mem_singleton.1 hw'
    obtain rfl | ⟨u', hu', hp'⟩ := mem_all.1 hp'
    · obtain ⟨c, hc, hkeep⟩ := hmem c' hc'
      refine ⟨w, self_mem_all w, c, hc, rfl, ((hf c hc).index c' hkeep).symm, ?_⟩
      exact (htop c hc c' hkeep).2
    · obtain ⟨u, hu, hkeep⟩ := hmem u' hu'
      have hlink := (hf u hu).links p' (mem_allOf.2 ⟨u', hkeep, hp'⟩) c' hc'
      exact hlink.of_child hu

def sideOf (shifted : Bool) : Placement := if shifted then .after else .before

lemma moves_of_sameAs (h : x.sameAs shifted old new = true)
    (hfits : x.Fits old.span (sideOf shifted)) : x.Moves old new (sideOf shifted) := by
  simp only [sameAs_eq, Bool.and_eq_true, beq_iff_eq] at h
  refine ⟨h.1, hfits, ?_⟩
  cases shifted <;> simpa [Lands, sideOf] using h.2

lemma fits_of_mem_nodes (hc : new ∈ old.nodes) (h : x.Fits old.span (sideOf shifted)) :
    x.Fits new.span (sideOf shifted) := by
  obtain ⟨⟨hstart, hstop⟩, -⟩ := Site.mem_nodes hc
  cases shifted with
  | false => exact hstop.trans h
  | true => exact h.trans hstart

lemma kept_carryUnchanged (h : w' ∈ (x.carryUnchanged shifted ordinal new w).kept) :
    w'.ordinal = ordinal ∧ w'.site = new ∧ x.sameAs shifted w.site new = true := by
  rw [carryUnchanged_eq] at h
  split_ifs at h with hsame
  · obtain rfl := mem_singleton.1 h
    exact ⟨rfl, rfl, hsame⟩
  · exact nomatch h

lemma kept_beside (h : w' ∈ (x.beside shifted nodes w).kept) : w'.ordinal = w.ordinal ∧
    nodes[w'.ordinal]? = some w'.site ∧ x.sameAs shifted w.site w'.site = true := by
  unfold beside at h
  split at h
  next new hnew =>
    obtain ⟨hord, rfl, hsame⟩ := kept_carryUnchanged h
    exact ⟨hord, hord ▸ hnew, hsame⟩
  next => exact nomatch h

lemma carries_unchanged (hb : w.Bound) (hfits : x.Fits w.span (sideOf shifted)) :
    x.Carries w (x.carryUnchanged shifted ordinal new w) := by
  induction w generalizing ordinal new with
  | mk i n s ws ih =>
    rw [carryUnchanged_eq]
    split_ifs
    · have hchild : ∀ c ∈ ws, x.Fits c.span (sideOf shifted) := by
        intro c hc
        exact fits_of_mem_nodes (mem_of_getElem? (hb.nodes c hc)) hfits
      refine carries_keep (fun c hc => ?_) (fun c hc c' hc' => ?_) ?_
      · unfold beside
        split
        · exact ih c hc (hb.child c hc) (hchild c hc)
        · exact carries_mismatch x c
      · obtain ⟨-, hnode, hsame⟩ := kept_beside hc'
        exact ⟨hnode, _, moves_of_sameAs hsame (hchild c hc)⟩
      · refine hb.ordered.imp fun hlt a' ha' b' hb' => ?_
        rw [(kept_beside ha').1, (kept_beside hb').1]
        exact hlt
    · exact carries_mismatch x _

lemma fits_of_outside (h : x.outside s = some p) : x.Fits s p := by
  unfold outside at h
  split_ifs at h with hbefore hafter
  · obtain rfl := Option.some.inj h
    exact hbefore
  · obtain rfl := Option.some.inj h
    exact hafter

lemma fits_of_place (h : x.place i s = some p) : x.edited.contains s = false ∧ x.Fits s p := by
  have hpath : s.contains x.edited = true → x.edited.contains s = false → x.Fits s .path := by
    intro hin hnot
    obtain ⟨hstart, hstop⟩ := Span.contains_iff.1 hin
    exact ⟨hstart, hstop, hnot⟩
  unfold place at h
  split at h
  · exact nomatch h
  next hcover =>
    have hnot := Bool.eq_false_iff.2 hcover
    refine ⟨hnot, ?_⟩
    split at h
    next hfocus =>
      obtain rfl := Option.some.inj h
      exact hpath (Bool.and_eq_true_iff.1 hfocus).1 hnot
    next =>
      split at h
      next p' hp' =>
        obtain rfl := Option.some.inj h
        exact fits_of_outside hp'
      next =>
        split_ifs at h with hin
        obtain rfl := Option.some.inj h
        exact hpath hin hnot

lemma fits_of_settle (h : x.settle nodes w = some p) :
    x.edited.contains w.span = false ∧ x.Fits w.span p := by
  rw [settle_eq] at h
  split at h
  next beside hplace houtside =>
    have hnot := (fits_of_place hplace).1
    split at h
    · split_ifs at h
      · obtain rfl := Option.some.inj h
        exact fits_of_place hplace
      · obtain rfl := Option.some.inj h
        exact ⟨hnot, fits_of_outside houtside⟩
    · obtain rfl := Option.some.inj h
      exact ⟨hnot, fits_of_outside houtside⟩
  next => exact fits_of_place h

/-- Where a child comes to stand among `newCount` child nodes, if it stood at `n` among `oldCount`.
-/
def Stands (oldCount newCount n n' : Nat) : Placement → Prop
  | .after => n' + oldCount = newCount + n
  | _ => n' = n

lemma verdict_path (h : x.verdict oldCount nodes w = .path ordinal new) :
    x.edited.contains w.span = false ∧ x.Fits w.span .path ∧ ordinal = w.ordinal ∧
    nodes[ordinal]? = some new := by
  unfold verdict judge at h
  split at h
  · exact nomatch h
  next hsettle =>
    obtain ⟨hnot, hfits⟩ := fits_of_settle hsettle
    split at h
    next new' hnew =>
      obtain ⟨rfl, rfl⟩ := Verdict.path.inj h
      exact ⟨hnot, hfits, rfl, hnew⟩
    next => exact nomatch h
  · split at h <;> exact nomatch h
  · split_ifs at h
    split at h <;> exact nomatch h

lemma verdict_unchanged (h : x.verdict oldCount nodes w = .unchanged shifted ordinal new) :
    x.edited.contains w.span = false ∧ x.Fits w.span (sideOf shifted) ∧
    Stands oldCount nodes.length w.ordinal ordinal (sideOf shifted) ∧
    nodes[ordinal]? = some new := by
  unfold verdict judge at h
  split at h
  · exact nomatch h
  · split at h <;> exact nomatch h
  next hsettle =>
    obtain ⟨hnot, hfits⟩ := fits_of_settle hsettle
    split at h
    next new' hnew =>
      obtain ⟨rfl, rfl, rfl⟩ := Verdict.unchanged.inj h
      exact ⟨hnot, hfits, rfl, hnew⟩
    next => exact nomatch h
  next hsettle =>
    obtain ⟨hnot, hfits⟩ := fits_of_settle hsettle
    split_ifs at h with hcount
    split at h
    next new' hnew =>
      obtain ⟨rfl, rfl, rfl⟩ := Verdict.unchanged.inj h
      exact ⟨hnot, hfits, Nat.sub_add_cancel hcount, hnew⟩
    next => exact nomatch h

lemma moves_of_grownInto (h : x.grownInto old new = true) (hfits : x.Fits old.span .path) :
    x.Moves old new .path := by
  simp only [grownInto_eq, Bool.and_eq_true, beq_iff_eq] at h
  exact ⟨h.1.1, hfits, h.1.2, h.2⟩

lemma kept_carryPath (h : w' ∈ (x.carryPath ordinal new w).kept) :
    w'.ordinal = ordinal ∧ w'.site = new ∧ x.grownInto w.site new = true := by
  rw [carryPath_eq] at h
  split_ifs at h with hgrown
  · obtain rfl := mem_singleton.1 h
    exact ⟨rfl, rfl, hgrown⟩
  · exact nomatch h

lemma kept_within (h : w' ∈ (x.within oldCount nodes w).kept) :
    x.edited.contains w.span = false ∧ nodes[w'.ordinal]? = some w'.site ∧
      ∃ p, x.Moves w.site w'.site p ∧ Stands oldCount nodes.length w.ordinal w'.ordinal p := by
  unfold within at h
  split at h
  · exact nomatch h
  · exact nomatch h
  next ordinal new hverdict =>
    obtain ⟨hnot, hfits, rfl, hnew⟩ := verdict_path hverdict
    obtain ⟨hord, rfl, hgrown⟩ := kept_carryPath h
    exact ⟨hnot, hord ▸ hnew, .path, moves_of_grownInto hgrown hfits, hord⟩
  next shifted ordinal new hverdict =>
    obtain ⟨hnot, hfits, hstands, hnew⟩ := verdict_unchanged hverdict
    obtain ⟨rfl, rfl, hsame⟩ := kept_carryUnchanged h
    exact ⟨hnot, hnew, _, moves_of_sameAs hsame hfits, hstands⟩

lemma start_le_shift (x : Carrier) : (x.edited.start : Int) ≤ x.edited.stop + x.edit.delta := by
  simp only [edited, Edit.oldSpan, Span.sized, Edit.delta]
  omega

/-- Siblings that are kept stay in order. If they came to stand the other way round, the edit would
cover the first of them. -/
lemma within_ordered {a b a' b' : Wrapper} (hlt : a.ordinal < b.ordinal)
    (hab : a.span.stop ≤ b.span.start) (ha : a' ∈ (x.within oldCount new.nodes a).kept)
    (hb : b' ∈ (x.within oldCount new.nodes b).kept) : a'.ordinal < b'.ordinal := by
  obtain ⟨hnot, hnodea, pa, ⟨-, hfita, hlanda⟩, hstanda⟩ := kept_within ha
  obtain ⟨-, hnodeb, pb, ⟨-, hfitb, hlandb⟩, hstandb⟩ := kept_within hb
  by_contra hge
  have hback : b'.span.start ≤ a'.span.start ∧ b'.span.stop ≤ a'.span.stop := by
    obtain heq | hgt := Nat.eq_or_lt_of_le (Nat.le_of_not_lt hge)
    · rw [heq, hnodea] at hnodeb
      rw [Wrapper.span, Wrapper.span, Option.some.inj hnodeb]
      exact ⟨le_rfl, le_rfl⟩
    · have hstop := Site.stop_le_start_of_lt hnodeb hnodea hgt
      exact ⟨b'.span.le.trans hstop, hstop.trans a'.span.le⟩
  have hshift := x.start_le_shift
  have hcover := Span.contains_iff.not.1 (Bool.eq_false_iff.1 hnot)
  have hedit := x.edited.le
  have hle := a.span.le
  have hle' := b.span.le
  change x.Fits a.span pa at hfita
  change x.Lands a.span a'.span pa at hlanda
  change x.Fits b.span pb at hfitb
  change x.Lands b.span b'.span pb at hlandb
  cases pa <;> cases pb <;>
    simp only [Fits, Lands, Stands, shift] at hfita hfitb hlanda hlandb hstanda hstandb <;> omega

lemma carries_path (hb : w.Bound) : x.Carries w (x.carryPath ordinal new w) := by
  induction w generalizing ordinal new with
  | mk i n s ws ih =>
    rw [carryPath_eq]
    split_ifs
    · refine carries_keep (fun c hc => ?_) (fun c hc c' hc' => ?_) ?_
      · unfold within
        split
        · exact carries_lose x c
        · exact carries_mismatch x c
        · exact ih c hc (hb.child c hc)
        next hverdict =>
          exact carries_unchanged (hb.child c hc) (verdict_unchanged hverdict).2.1
      · obtain ⟨-, hnode, p, hmoves, -⟩ := kept_within hc'
        exact ⟨hnode, p, hmoves⟩
      · refine hb.ordered.imp_of_mem fun ha hc hlt a' ha' b' hb' => ?_
        have hab := Site.stop_le_start_of_lt (hb.nodes _ ha) (hb.nodes _ hc) hlt
        exact within_ordered hlt hab ha' hb'
    · exact carries_lose x _

end Carrier
end LiveEdit
