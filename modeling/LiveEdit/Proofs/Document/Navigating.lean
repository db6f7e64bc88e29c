import LiveEdit.Proofs.Document.Materialization
import LiveEdit.Proofs.Tree.Preorder

/-! Each way of moving about answers with wrappers for nodes that the tree alone determines. -/

namespace LiveEdit
open List

inductive Navigation where
  | children (n : NodeId)
  | parent (n : NodeId)
  | firstChild (n : NodeId) (kind : Kind)
  | descendants (n : NodeId)
  | firstDescendant (n : NodeId) (kind : Kind)
  | descendantAt (offset : Nat)

namespace Document
open Wrapper

variable {d new : Document} {n m : NodeId} {w : Wrapper} {a : Address} {s : Site} {q : Navigation}
  {ids : List NodeId}
  {p : Address × Site} {ps : List (Address × Site)} {below : Site → List (Address × Site)}

def navigate (d : Document) : Navigation → Outcome (List NodeId)
  | .children n => d.children n
  | .parent n => ⟨(d.parent n).map Option.toList, d, []⟩
  | .firstChild n kind => (d.firstChild n kind).map Option.toList
  | .descendants n => d.descendants n
  | .firstDescendant n kind => (d.firstDescendant n kind).map Option.toList
  | .descendantAt offset => (d.descendantAt offset).map fun n => [n]

def browse (d : Document) : List Navigation → Document
  | [] => d
  | q :: qs => (d.navigate q).document.browse qs

def under (d : Document) (n : NodeId) (below : Site → List (Address × Site)) :
    List (Address × Site) :=
  (d.place? n).elim [] fun p => (below p.2).map fun q => (p.1 ++ q.1, q.2)

def found (d : Document) (a : Address) : List (Address × Site) := ((d.tree.at? a).map (a, ·)).toList

def targets (d : Document) : Navigation → List (Address × Site)
  | .children n => d.under n Site.family
  | .parent n => (d.place? n).elim [] fun p => if p.1 = [] then [] else d.found p.1.dropLast
  | .firstChild n kind => d.under n fun s => (s.family.find? (·.2.kind == kind)).toList
  | .descendants n => d.under n Site.descendants
  | .firstDescendant n kind => d.under n fun s => (s.descendants.find? (·.2.kind == kind)).toList
  | .descendantAt offset => (d.tree.covering? (.empty offset)).elim [] d.found

def Departs (d : Document) : Navigation → Prop
  | .children n | .parent n | .firstChild n _ | .descendants n | .firstDescendant n _ => ∃ w,
    d.node n = .ok w
  | .descendantAt offset => offset ≤ d.tree.span.stop

def Resolves (d : Document) (q : Navigation) (m : NodeId) (a : Address) : Prop :=
  ∃ (ids : List NodeId) (i : Nat) (s : Site), (d.navigate q).answer = .ok ids ∧ ids[i]? = some m ∧
    (d.targets q)[i]? = some (a, s)

lemma wraps_navigate (d : Document) (q : Navigation) : Wraps d (d.navigate q).document := by
  cases q with
  | children n => exact wraps_children d n
  | parent n => exact .refl
  | firstChild n kind => exact wraps_select n _
  | descendants n => exact wraps_select n _
  | firstDescendant n kind => exact wraps_select n _
  | descendantAt offset =>
    have hnav : (Operation.descendantAt offset).isNavigation = true := rfl
    exact wraps_perform hnav rfl

lemma wraps_browse (d : Document) (qs : List Navigation) : Wraps d (d.browse qs) := by
  induction qs generalizing d with
  | nil => exact .refl
  | cons q qs ih => exact (wraps_navigate d q).trans (ih _)

lemma place?_eq_some : d.place? n = some p ↔ ∃ w, d.node n = .ok w ∧ (d.address w, w.site) = p := by
  rw [Document.place?, Option.map_eq_some_iff]
  refine exists_congr fun w => and_congr_left fun _ => ?_
  cases d.node n with
  | error e => simp [Except.toOption]
  | ok v => simp [Except.toOption]

lemma place?_of_node (h : d.node n = .ok w) : d.place? n = some (d.address w, w.site) :=
  place?_eq_some.2 ⟨w, h, rfl⟩

lemma Sound.at?_place (h : d.Sound) (hplace : d.place? n = some (a, s)) :
    d.tree.at? a = some s := by
  obtain ⟨w, hw, heq⟩ := place?_eq_some.1 hplace
  obtain ⟨rfl, rfl⟩ := Prod.mk.inj heq
  exact (h.consistent.attached n w hw).node

lemma Sound.eq_of_place (h : d.Sound) {s' : Site} (hn : d.place? n = some (a, s))
    (hm : d.place? m = some (a, s')) : n = m := by
  obtain ⟨w, hw, heq⟩ := place?_eq_some.1 hn
  obtain ⟨v, hv, heq'⟩ := place?_eq_some.1 hm
  have haddress := (Prod.mk.inj heq).1.trans (Prod.mk.inj heq').1.symm
  exact ((h.consistent.attached m v hv).unique n w hw haddress).1

lemma Sound.lt_fresh_of_place (h : d.Sound) (hplace : d.place? n = some p) :
    n.document = d.tag ∧ n.index < d.fresh := by
  obtain ⟨w, hw, -⟩ := place?_eq_some.1 hplace
  obtain ⟨htag, hmem, hindex⟩ := h.node_eq_ok.1 hw
  exact ⟨htag, h.lt_fresh_iff.2 (.inl (hindex ▸ mem_indices_of_mem hmem))⟩

lemma Wraps.tree (hw : Wraps d new) (h : d.Graded) : new.tree = d.tree :=
  (hw.agrees h (Nat.zero_le _)).tree

lemma Wraps.graded (hw : Wraps d new) (h : d.Graded) : new.Graded :=
  (hw.agrees h (Nat.zero_le _)).graded'

lemma Wraps.place? (hw : Wraps d new) (h : d.Graded) (hplace : d.place? n = some p) :
    new.place? n = some p := by
  rw [← hplace]
  exact (hw.agrees h le_rfl).place? fun _ => (h.sound.lt_fresh_of_place hplace).2

lemma Wraps.places (hw : Wraps d new) (h : d.Graded)
    (hplaces : ids.map d.place? = ps.map some) : ids.map new.place? = ps.map some := by
  rw [← hplaces]
  refine map_congr_left fun n hn => ?_
  have hmem : d.place? n ∈ ps.map some := hplaces ▸ mem_map_of_mem hn
  obtain ⟨p, -, hp⟩ := List.mem_map.1 hmem
  rw [← hp]
  exact hw.place? h hp.symm

lemma Sound.eq_of_places (h : d.Sound) {ids' : List NodeId} (hids : ids.map d.place? = ps.map some)
    (hids' : ids'.map d.place? = ps.map some) : ids = ids' := by
  have hlength : ids.length = ids'.length := by
    have hlength := congrArg length (hids.trans hids'.symm)
    rwa [length_map, length_map] at hlength
  refine ext_getElem? fun i => ?_
  have hget := congrArg (·[i]?) hids
  have hget' := congrArg (·[i]?) hids'
  simp only [getElem?_map] at hget hget'
  cases hp : ps[i]? with
  | none =>
    rw [hp, Option.map_none, Option.map_eq_none_iff] at hget hget'
    rw [hget, hget']
  | some p =>
    rw [hp] at hget hget'
    obtain ⟨n, hn, hplace⟩ := Option.map_eq_some_iff.1 hget
    obtain ⟨m, hm, hplace'⟩ := Option.map_eq_some_iff.1 hget'
    rw [hn, hm, h.eq_of_place hplace hplace']

lemma under_of_node (hw : d.node n = .ok w) (below : Site → List (Address × Site)) :
    d.under n below = (below w.site).map fun q => (d.address w ++ q.1, q.2) := by
  rw [under, place?_of_node hw]
  rfl

lemma Graded.places_select (h : d.Graded) (hw : d.node n = .ok w) {f : Site → List (Address × Site)}
    (hf : ∀ p ∈ f w.site, w.site.at? p.1 = some p.2) {g : Site → List Address}
    (hg : g w.site = (f w.site).map Prod.fst) : ∃ ids, (d.select n g).answer = .ok ids ∧
      ids.map (d.select n g).document.place? = (d.under n f).map some := by
  have hclip : ∀ p ∈ f w.site, d.tree.clip (d.address w ++ p.1) = (d.address w ++ p.1, p.2) := by
    intro p hp
    apply Site.clip_of_at?
    rw [Site.at?_append, (h.sound.consistent.attached n w hw).node]
    exact hf p hp
  rw [under_of_node hw, select, hw]
  refine ⟨_, rfl, ?_⟩
  dsimp only
  rw [h.places_wrapAll, hg]
  refine congrArg (List.map some) ?_
  rw [map_map, map_map]
  exact map_congr_left hclip

lemma Graded.places_first (h : d.Graded)
    (hw : d.node n = .ok w) (kind : Kind) (hbelow : ∀ p ∈ below w.site, w.site.at? p.1 = some p.2) :
    ∃ ids, ((d.first n kind below).map Option.toList).answer = .ok ids ∧
    ids.map ((d.first n kind below).map Option.toList).document.place? =
      (d.under n fun s => ((below s).find? (·.2.kind == kind)).toList).map some := by
  have hfirst :
      ∀ p ∈ ((below w.site).find? (·.2.kind == kind)).toList, w.site.at? p.1 = some p.2 := by
    intro p hp
    exact hbelow p (mem_of_find?_eq_some (Option.mem_toList.1 hp))
  obtain ⟨ids, hids, hplaces⟩ :=
    h.places_select hw (f := fun s => ((below s).find? (·.2.kind == kind)).toList) hfirst
    (g := fun s => (((below s).find? (·.2.kind == kind)).map (·.1)).toList) (Option.toList_map ..)
  have hshort : ids.head?.toList = ids := by
    have hlength := congrArg length hplaces
    rw [length_map, length_map, under_of_node hw, length_map, Option.length_toList] at hlength
    rcases ids with - | ⟨m, - | ⟨m', ids⟩⟩
    · rfl
    · rfl
    · split at hlength <;> simp at hlength
  refine ⟨ids, ?_, hplaces⟩
  rw [first, Outcome.map]
  dsimp only
  rw [hids]
  exact congrArg Except.ok hshort

lemma Graded.places_parent (h : d.Graded) (hw : d.node n = .ok w) :
    ∃ ids, (d.navigate (.parent n)).answer = .ok ids ∧
    ids.map (d.navigate (.parent n)).document.place? = (d.targets (.parent n)).map some := by
  rw [targets, place?_of_node hw, navigate]
  dsimp only [Option.elim_some]
  rcases (h.sound.consistent.attached n w hw).parent
    with ⟨htop, hparent⟩ | ⟨m, p, hp, hparent, haddress⟩
  · exact ⟨[], by rw [hparent]; rfl, by rw [if_pos htop]; rfl⟩
  · refine ⟨[m], by rw [hparent]; rfl, ?_⟩
    have hnode := (h.sound.consistent.attached m p hp).node
    rw [haddress, if_neg (append_ne_nil_of_right_ne_nil _ (cons_ne_nil _ _)), dropLast_concat,
      found, hnode, map_singleton, place?_of_node hp]
    rfl

lemma Graded.places_navigate (h : d.Graded) (hq : d.Departs q) : ∃ ids, (d.navigate q).answer =
      .ok ids ∧ ids.map (d.navigate q).document.place? = (d.targets q).map some := by
  cases q with
  | children n =>
    obtain ⟨w, hw⟩ := hq
    rw [navigate, h.children_eq]
    exact h.places_select hw (fun p hp => Site.at?_family hp) (Site.fst_family w.site).symm
  | parent n =>
    obtain ⟨w, hw⟩ := hq
    exact h.places_parent hw
  | firstChild n kind =>
    obtain ⟨w, hw⟩ := hq
    exact h.places_first hw kind fun p hp => Site.at?_family hp
  | descendants n =>
    obtain ⟨w, hw⟩ := hq
    exact h.places_select hw (fun p hp => Site.at?_descendants hp)
      (Site.fst_descendants w.site).symm
  | firstDescendant n kind =>
    obtain ⟨w, hw⟩ := hq
    exact h.places_first hw kind fun p hp => Site.at?_descendants hp
  | descendantAt offset =>
    have hstart : d.tree.start = 0 := congrArg Site.start h.sound.tree
    have hin : d.tree.span.contains (.empty offset) = true :=
      Span.contains_iff.2 ⟨by rw [Site.span_start, hstart]; exact Nat.zero_le _, hq⟩
    have hcovering : d.tree.covering? (.empty offset) =
        some (d.tree.tree.covering (.empty offset) d.tree.start) := if_pos hin
    obtain ⟨u, hu⟩ := Site.at?_covering? hcovering
    rw [targets, navigate, descendantAt, hcovering]
    dsimp only [Option.elim_some]
    refine ⟨_, rfl, ?_⟩
    have hplace := h.sound.place?_wrap (d.tree.tree.covering (.empty offset) d.tree.start)
    rw [Site.clip_of_at? hu] at hplace
    rw [found, hu]
    exact congrArg (fun p => [p]) hplace

lemma node_of_select {pick : Site → List Address} (h : (d.select n pick).answer = .ok ids) :
    ∃ w, d.node n = .ok w := by
  cases hw : d.node n with
  | error e =>
    rw [select, hw] at h
    cases h
  | ok w => exact ⟨w, rfl⟩

lemma node_of_children (h : (d.children n).answer = .ok ids) : ∃ w, d.node n = .ok w := by
  cases hw : d.node n with
  | error e =>
    rw [children, hw] at h
    cases h
  | ok w => exact ⟨w, rfl⟩

lemma node_of_first {kind : Kind}
    (h : ((d.first n kind below).map Option.toList).answer = .ok ids) : ∃ w, d.node n = .ok w := by
  rw [first, Outcome.map] at h
  dsimp only at h
  cases hfound :
    (d.select n fun s => (((below s).find? (·.2.kind == kind)).map (·.1)).toList).answer with
  | error e =>
    rw [hfound] at h
    cases h
  | ok ids => exact node_of_select hfound

lemma departs_of_answer (h : (d.navigate q).answer = .ok ids) : d.Departs q := by
  cases q with
  | children n => exact node_of_children h
  | parent n =>
    cases hw : d.node n with
    | error e =>
      rw [navigate, parent, hw] at h
      cases h
    | ok w => exact ⟨w, hw⟩
  | firstChild n kind => exact node_of_first h
  | descendants n => exact node_of_select h
  | firstDescendant n kind => exact node_of_first h
  | descendantAt offset =>
    rw [navigate, descendantAt] at h
    cases hcovering : d.tree.covering? (.empty offset) with
    | none =>
      rw [hcovering] at h
      cases h
    | some a =>
      have hin := ((Option.ite_none_right_eq_some ..).1 hcovering).1
      exact (Span.contains_iff.1 hin).2

lemma Graded.places_of_answer (h : d.Graded) (hids : (d.navigate q).answer = .ok ids) :
    ids.map (d.navigate q).document.place? = (d.targets q).map some := by
  obtain ⟨ids', hids', hplaces⟩ := h.places_navigate (departs_of_answer hids)
  obtain rfl := Except.ok.inj (hids.symm.trans hids')
  exact hplaces

lemma Graded.place?_of_resolves (h : d.Graded) (hr : d.Resolves q m a) :
    ∃ s, (d.navigate q).document.place? m = some (a, s) := by
  obtain ⟨ids, i, s, hids, hm, hs⟩ := hr
  have hget := congrArg (·[i]?) (h.places_of_answer hids)
  simp only [getElem?_map, hm, hs, Option.map_some] at hget
  exact ⟨s, Option.some.inj hget⟩

structure Spares (d new : Document) (gone : NodeId → Prop) : Prop where
  text : new.text = d.text
  version : new.version = d.version
  tree : new.tree = d.tree
  diagnostics : new.diagnostics = d.diagnostics
  root : new.rootId = d.rootId
  forgotten : ∀ n, new.isForgotten n = true ↔ d.isForgotten n = true ∨ gone n
  lastKnown : ∀ n, ¬gone n → new.lastKnown? n = d.lastKnown? n
  kept : ∀ n w, d.node n = .ok w → ¬gone n → ∃ w', new.node n = .ok w' ∧ w'.kind = w.kind ∧
    w'.span = w.span ∧
    new.place? n = d.place? n ∧ new.parent n = d.parent n

lemma Wraps.rootId (hw : Wraps d new) (h : d.Graded) : new.rootId = d.rootId := by
  induction hw with
  | refl => rfl
  | tail hw hstep ih =>
    obtain ⟨a, rfl⟩ := (Wraps.graded hw h).sound.exists_wrap hstep
    rw [← ih]
    exact congrArg (NodeId.mk _) (extends_reach (Wraps.graded hw h).sound.bound).index

lemma Wraps.spares (hw : Wraps d new) (h : d.Graded) : d.Spares new fun _ => False := by
  have hagrees := hw.agrees h le_rfl
  refine ⟨hagrees.text, hagrees.version, hagrees.tree, hagrees.diagnostics, hw.rootId h,
    fun n => ?_, fun n _ => hw.lastKnown? n, fun n w hn _ => ?_⟩
  · rw [isForgotten, isForgotten, hw.lastKnown? n, or_false]
  · have hearlier : Earlier d.fresh d n :=
      fun _ => (h.sound.lt_fresh_of_place (place?_of_node hn)).2
    have hnode := hagrees.node hearlier
    rw [hn] at hnode
    obtain ⟨w', hw', hheld⟩ := hnode.exists_ok
    exact ⟨w', hw', hheld.kind, hheld.span, hagrees.place? hearlier, hagrees.parent hearlier⟩

end Document
end LiveEdit
