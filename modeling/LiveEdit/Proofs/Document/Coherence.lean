import LiveEdit.Proofs.Document.Navigating

namespace LiveEdit.Document
open List
open Wrapper

variable {d new new' mid : Document} {n m : NodeId} {ns ids ids' : List NodeId} {a : Address}
  {s : Site}

/-- Wrappers with all that is found below them when each is asked for its children, those for
theirs, and so on, and the document that this leads to. -/
inductive Expands : Document → List NodeId → List NodeId → Document → Prop where
  | nil (d : Document) : Expands d [] [] d
  | cons {d mid new : Document} {n : NodeId} {ns cs below rest : List NodeId}
      (hchildren : (d.children n).answer = .ok cs)
      (hbelow : Expands (d.children n).document cs below mid)
      (hrest : Expands mid ns rest new) : Expands d (n :: ns) (n :: (below ++ rest)) new

def Expansion (d : Document) (n : NodeId) (ids : List NodeId) (new : Document) : Prop :=
  ∃ cs, (d.children n).answer = .ok cs ∧ Expands (d.children n).document cs ids new

lemma Expands.unique (h : Expands d ns ids new) (h' : Expands d ns ids' new') :
    ids' = ids ∧ new' = new := by
  induction h generalizing ids' new' with
  | nil d =>
    cases h'
    exact ⟨rfl, rfl⟩
  | cons hchildren _ _ ihbelow ihrest =>
    cases h' with
    | cons hchildren' hbelow' hrest' =>
      obtain rfl := Except.ok.inj (hchildren.symm.trans hchildren')
      obtain ⟨rfl, rfl⟩ := ihbelow hbelow'
      obtain ⟨rfl, rfl⟩ := ihrest hrest'
      exact ⟨rfl, rfl⟩

lemma Expansion.unique (h : d.Expansion n ids new) (h' : d.Expansion n ids' new') :
    ids' = ids ∧ new' = new := by
  obtain ⟨cs, hcs, hexpands⟩ := h
  obtain ⟨cs', hcs', hexpands'⟩ := h'
  obtain rfl := Except.ok.inj (hcs.symm.trans hcs')
  exact hexpands.unique hexpands'

lemma Expansion.iff (h : d.Expansion n ids new) :
    d.Expansion n ids' new' ↔ ids' = ids ∧ new' = new := by
  refine ⟨h.unique, ?_⟩
  rintro ⟨rfl, rfl⟩
  exact h

def subtree (p : Address × Site) : List (Address × Site) :=
  p :: p.2.descendants.map fun q => (p.1 ++ q.1, q.2)

lemma under_of_place (h : d.place? n = some (a, s)) (below : Site → List (Address × Site)) :
    d.under n below = (below s).map fun q => (a ++ q.1, q.2) := by
  rw [under, h]
  rfl

lemma under_descendants (d : Document) (n : NodeId) :
    d.under n Site.descendants = (d.under n Site.family).flatMap subtree := by
  cases hplace : d.place? n with
  | none =>
    rw [under, under, hplace]
    rfl
  | some p =>
    rw [under_of_place hplace, under_of_place hplace, Site.descendants_eq, map_flatMap, flatMap_map]
    refine flatMap_congr fun q _ => ?_
    rw [map_cons, map_map, subtree]
    refine congrArg _ (map_congr_left fun r _ => ?_)
    exact congrArg (·, r.2) (append_assoc ..).symm

def Expandable (t : Tree) : Prop :=
  ∀ (d : Document) (n : NodeId) (a : Address) (s : Site), d.Graded → d.place? n = some (a, s) →
  s.tree = t →
    ∃ ids new, d.Expansion n ids new ∧ Wraps d new ∧
    ids.map new.place? = (d.under n Site.descendants).map some

lemma Graded.exists_expands (h : d.Graded) {ps : List (Address × Site)}
    (hps : ∀ p ∈ ps, Expandable p.2.tree) (hns : ns.map d.place? = ps.map some) : ∃ ids new,
      Expands d ns ids new ∧ Wraps d new ∧ ids.map new.place? = (ps.flatMap subtree).map some := by
  induction ps generalizing d ns with
  | nil =>
    obtain rfl := map_eq_nil_iff.1 hns
    exact ⟨[], d, .nil d, .refl, rfl⟩
  | cons p ps ih =>
    obtain ⟨n, ns, rfl, hn, hrest⟩ := map_eq_cons_iff.1 hns
    obtain ⟨below, mid, ⟨cs, hcs, hexpands⟩, hmid, hbelow⟩ :=
      hps p mem_cons_self d n p.1 p.2 h hn rfl
    have hgraded := Wraps.graded hmid h
    obtain ⟨rest, new, hmore, hnew, hplaces⟩ :=
      ih hgraded (fun q hq => hps q (mem_cons_of_mem _ hq)) (Wraps.places hmid h hrest)
    refine ⟨_, new, .cons hcs hexpands hmore, hmid.trans hnew, ?_⟩
    have hfirst : (n :: below).map new.place? = (subtree p).map some := by
      rw [map_cons, Wraps.place? (hmid.trans hnew) h hn, Wraps.places hnew hgraded hbelow,
        under_of_place hn]
      rfl
    rw [← cons_append, map_append, hfirst, hplaces, flatMap_cons, map_append]

lemma expandable (t : Tree) : Expandable t := by
  induction t using Tree.induction with
  | step t ih =>
    rintro d n a s h hplace rfl
    obtain ⟨cs, hcs, hplaces⟩ :=
      h.places_navigate (q := .children n) ((place?_eq_some.1 hplace).imp fun _ hw => hw.1)
    have hwraps := wraps_navigate d (.children n)
    have hbelow : ∀ p ∈ d.targets (.children n), Expandable p.2.tree := by
      rw [targets, under_of_place hplace]
      intro p hp
      obtain ⟨q, hq, rfl⟩ := mem_map.1 hp
      exact ih q.2.tree (Site.tree_mem_children (Site.mem_nodes_of_family hq))
    obtain ⟨ids, new, hexpands, hnew, hids⟩ := (Wraps.graded hwraps h).exists_expands hbelow hplaces
    refine ⟨ids, new, ⟨cs, hcs, hexpands⟩, hwraps.trans hnew, ?_⟩
    rw [hids, under_descendants]
    rfl

lemma Graded.exists_expansion (h : d.Graded) (hn : d.Departs (.descendants n)) :
    ∃ ids new, d.Expansion n ids new ∧ Wraps d new ∧
    ids.map new.place? = (d.targets (.descendants n)).map some := by
  obtain ⟨w, hw⟩ := hn
  exact expandable _ d n _ _ h (place?_of_node hw) rfl

lemma Wraps.departs (hw : Wraps d new) (h : d.Graded) (hn : d.Departs (.descendants n)) :
    new.Departs (.descendants n) := by
  obtain ⟨w, hn⟩ := hn
  exact (place?_eq_some.1 (Wraps.place? hw h (place?_of_node hn))).imp fun _ hv => hv.1

lemma Wraps.targets_descendants (hw : Wraps d new)
    (h : d.Graded) (hn : d.Departs (.descendants n)) :
    new.targets (.descendants n) = d.targets (.descendants n) := by
  obtain ⟨w, hn⟩ := hn
  have hplace := place?_of_node hn
  rw [targets, targets, under_of_place hplace, under_of_place (Wraps.place? hw h hplace)]

lemma Graded.expansion_descendants (h : d.Graded) (hids : (d.descendants n).answer = .ok ids) :
    ∃ new, (d.descendants n).document.Expansion n ids new := by
  have hn : d.Departs (.descendants n) := departs_of_answer (q := .descendants n) hids
  have hwraps := wraps_navigate d (.descendants n)
  have hgraded := Wraps.graded hwraps h
  obtain ⟨ids', new, hexpansion, hnew, hplaces⟩ :=
    hgraded.exists_expansion (Wraps.departs hwraps h hn)
  rw [Wraps.targets_descendants hwraps h hn] at hplaces
  have hstay := Wraps.places hnew hgraded (h.places_of_answer (q := .descendants n) hids)
  obtain rfl := (Wraps.graded hnew hgraded).sound.eq_of_places hplaces hstay
  exact ⟨new, hexpansion⟩

lemma Graded.descendants_expansion (h : d.Graded) (hexpansion : d.Expansion n ids new) :
    (new.descendants n).answer = .ok ids := by
  have hn : d.Departs (.descendants n) := by
    obtain ⟨cs, hcs, -⟩ := hexpansion
    exact departs_of_answer (q := .children n) hcs
  obtain ⟨ids', new', hexpansion', hwraps, hplaces⟩ := h.exists_expansion hn
  obtain ⟨rfl, rfl⟩ := hexpansion.unique hexpansion'
  have hgraded := Wraps.graded hwraps h
  obtain ⟨ids, hids, hfound⟩ := hgraded.places_navigate (Wraps.departs hwraps h hn)
  rw [Wraps.targets_descendants hwraps h hn] at hfound
  have hafter := wraps_navigate new' (.descendants n)
  obtain rfl :=
    (Wraps.graded hafter hgraded).sound.eq_of_places hfound (Wraps.places hafter hgraded hplaces)
  exact hids

lemma Sound.parent_of_place (h : d.Sound) {u : Site} {i : Nat} (hn : d.place? n = some (a, s))
    (hm : d.place? m = some (a ++ [i], u)) : d.parent m = .ok (some n) := by
  obtain ⟨w, hw, heq⟩ := place?_eq_some.1 hm
  have haddress := (Prod.mk.inj heq).1
  rcases (h.consistent.attached m w hw).parent with ⟨htop, -⟩ | ⟨m', p, hp, hparent, hsnoc⟩
  · rw [haddress] at htop
    exact absurd htop (append_ne_nil_of_right_ne_nil _ (cons_ne_nil _ _))
  · have habove : d.address p = a := (append_inj' (hsnoc.symm.trans haddress) rfl).1
    have hplace := place?_of_node hp
    rw [habove] at hplace
    rwa [h.eq_of_place hplace hn] at hparent

lemma Graded.parent_of_children (h : d.Graded) (hids : (d.children n).answer = .ok ids)
    (hm : m ∈ ids) (hnew : Wraps (d.children n).document new) : new.parent m = .ok (some n) := by
  obtain ⟨w, hw⟩ := departs_of_answer (q := .children n) hids
  have hwraps := wraps_navigate d (.children n)
  have hgraded := Wraps.graded hwraps h
  have hplaces := Wraps.places hnew hgraded (h.places_of_answer (q := .children n) hids)
  have hmem := mem_map_of_mem (f := new.place?) hm
  rw [hplaces, targets, under_of_place (place?_of_node hw)] at hmem
  obtain ⟨p, hp, hplace⟩ := mem_map.1 hmem
  obtain ⟨q, hq, rfl⟩ := mem_map.1 hp
  obtain ⟨r, -, rfl⟩ := mem_map.1 hq
  have habove := Wraps.place? (hwraps.trans hnew) h (place?_of_node hw)
  exact (Wraps.graded hnew hgraded).sound.parent_of_place habove hplace.symm

structure Coherent (d : Document) : Prop where
  answered : ∀ q, d.Departs q ↔ ∃ ids, (d.navigate q).answer = .ok ids
  places : ∀ q ids, (d.navigate q).answer = .ok ids →
    ids.map (d.navigate q).document.place? = (d.targets q).map some
  same : ∀ q m a qs q' m' a', d.Resolves q m a →
    ((d.navigate q).document.browse qs).Resolves q' m' a' →
    (m = m' ↔ a = a')
  preorder : ∀ n a s, d.place? n = some (a, s) →
    ((d.targets (.descendants n)).map Prod.fst).Pairwise (· < ·) ∧
      ∀ b u, (b, u) ∈ d.targets (.descendants n) ↔ (∃ c, c ≠ [] ∧ a ++ c = b) ∧
      d.tree.at? b = some u
  expansion : (∀ n ids, (d.descendants n).answer = .ok ids →
      ∃ new, ∀ ids' new', (d.descendants n).document.Expansion n ids' new' ↔ ids' = ids ∧
      new' = new) ∧
    ∀ n, (∃ w, d.node n = .ok w) →
    ∃ ids new, (∀ ids' new', d.Expansion n ids' new' ↔ ids' = ids ∧ new' = new) ∧
      (new.descendants n).answer = .ok ids
  parent : ∀ n ids, (d.children n).answer = .ok ids → ∀ m ∈ ids, ∀ qs,
    ((d.children n).document.browse qs).parent m = .ok (some n)
  pure : ∀ qs, d.Spares (d.browse qs) fun _ => False

lemma Graded.same (h : d.Graded)
    {q q' : Navigation} {qs : List Navigation} {m' : NodeId} {a' : Address} (hr : d.Resolves q m a)
    (hr' : ((d.navigate q).document.browse qs).Resolves q' m' a') : m = m' ↔ a = a' := by
  have hfirst := wraps_navigate d q
  have hbetween := wraps_browse (d.navigate q).document qs
  have hgraded := Wraps.graded (hfirst.trans hbetween) h
  have hlast := wraps_navigate ((d.navigate q).document.browse qs) q'
  obtain ⟨s, hplace⟩ := h.place?_of_resolves hr
  obtain ⟨s', hplace'⟩ := hgraded.place?_of_resolves hr'
  have hstay := Wraps.place? (hbetween.trans hlast) (Wraps.graded hfirst h) hplace
  constructor
  · rintro rfl
    exact congrArg Prod.fst (Option.mem_unique hstay hplace')
  · rintro rfl
    exact (Wraps.graded hlast hgraded).sound.eq_of_place hstay hplace'

lemma Graded.preorder (h : d.Graded) (hn : d.place? n = some (a, s)) :
    ((d.targets (.descendants n)).map Prod.fst).Pairwise (· < ·) ∧ ∀ b u,
      (b, u) ∈ d.targets (.descendants n) ↔ (∃ c, c ≠ [] ∧ a ++ c = b) ∧ d.tree.at? b = some u := by
  have hat : ∀ c, d.tree.at? (a ++ c) = s.at? c := by
    intro c
    rw [Site.at?_append, h.sound.at?_place hn]
    rfl
  rw [targets, under_of_place hn]
  constructor
  · rw [map_map, pairwise_map]
    have hordered := s.tree.pairwise_addresses
    rw [← Site.fst_descendants, pairwise_map] at hordered
    exact hordered.imp fun hlt => append_left_lt hlt
  · intro b u
    rw [mem_map]
    constructor
    · rintro ⟨q, hq, heq⟩
      obtain ⟨rfl, rfl⟩ := Prod.mk.inj heq
      have hmem : q.1 ∈ s.tree.addresses := Site.fst_descendants s ▸ mem_map_of_mem hq
      exact ⟨⟨q.1, (Site.mem_addresses.1 hmem).1, rfl⟩, (hat q.1).trans (Site.at?_descendants hq)⟩
    · rintro ⟨⟨c, hc, rfl⟩, hu⟩
      rw [hat] at hu
      refine ⟨(c, u), ?_, rfl⟩
      exact mem_filterMap.2 ⟨c, Site.mem_addresses.2 ⟨hc, u, hu⟩, by rw [hu]; rfl⟩

lemma Graded.coherent (h : d.Graded) : d.Coherent where
  answered q := by
    refine ⟨fun hq => ?_, fun ⟨ids, hids⟩ => departs_of_answer hids⟩
    obtain ⟨ids, hids, -⟩ := h.places_navigate hq
    exact ⟨ids, hids⟩
  places q ids hids := h.places_of_answer hids
  same q m a qs q' m' a' hr hr' := h.same hr hr'
  preorder n a s hn := h.preorder hn
  expansion := by
    constructor
    · intro n ids hids
      obtain ⟨new, hexpansion⟩ := h.expansion_descendants hids
      exact ⟨new, fun _ _ => hexpansion.iff⟩
    · intro n hn
      obtain ⟨ids, new, hexpansion, -⟩ := h.exists_expansion hn
      exact ⟨ids, new, fun _ _ => hexpansion.iff, h.descendants_expansion hexpansion⟩
  parent n ids hids m hm qs := h.parent_of_children hids hm (wraps_browse _ qs)
  pure qs := (wraps_browse d qs).spares h

/-- Navigation is coherent in every document that operations lead to, after any calls. -/
theorem coherent_of_run {tag : Nat} {file : String} {initial : Text} {settings : Settings}
    {reader : Reader} {ops : List Operation}
    (hrun : (create tag file initial settings reader).run ops = some d) (qs : List Navigation) :
    (d.browse qs).Coherent :=
  (Wraps.graded (wraps_browse d qs)
    ((graded_create tag file initial settings reader).moves (moves_run hrun))).coherent

theorem coherent_of_run_edit : ∃ d,
    (create 0 "a.ts" "a;b;".toList {} .usual).run
      [.descendants ⟨0, 0⟩, .insertAt ⟨0, 1⟩ 1 "c".toList, .forget ⟨0, 1⟩] = some d ∧
      d.isForgotten ⟨0, 1⟩ = true ∧ (d.browse [.descendantAt 0, .children ⟨0, 0⟩]).Coherent := by
  have hsome : ((create 0 "a.ts" "a;b;".toList {} .usual).run
      [.descendants ⟨0, 0⟩, .insertAt ⟨0, 1⟩ 1 "c".toList, .forget ⟨0, 1⟩]).map
      (·.isForgotten ⟨0, 1⟩) = some true := by
    decide +kernel
  obtain ⟨d, hrun, hforgotten⟩ := Option.map_eq_some_iff.1 hsome
  exact ⟨d, hrun, hforgotten, coherent_of_run hrun _⟩

end LiveEdit.Document
