import LiveEdit.Proofs.Tree.Sites
import Mathlib.Data.List.Basic

namespace LiveEdit
open List

lemma pairwise_zipIdx {α : Type} (l : List α) : l.zipIdx.Pairwise fun p q => p.2 < q.2 := by
  rw [← pairwise_map (f := Prod.snd), zipIdx_map_snd]
  exact pairwise_lt_range'

namespace Tree

variable {P : Tree → Prop}

mutual

/-- To prove something of all trees, it may be assumed of those right below. -/
@[elab_as_elim]
lemma induction (step : ∀ t, (∀ u ∈ t.children, P u) → P t) : ∀ t, P t
  | .token k t => step (.token k t) fun _ hu => absurd hu not_mem_nil
  | .node k ts => step (.node k ts) (inductionAll step ts)

lemma inductionAll (step : ∀ t, (∀ u ∈ t.children, P u) → P t) : ∀ ts : List Tree, ∀ t ∈ ts, P t
  | [], _, ht => absurd ht not_mem_nil
  | u :: ts, t,
    ht => (mem_cons.1 ht).elim (fun heq => heq ▸ induction step u) (inductionAll step ts t)

end

variable {a : Address} {n : Nat} {t : Tree} {ts : List Tree}

def nodes (t : Tree) : List Tree := t.children.filter isNode

lemma addressesAll_eq (n : Nat) (ts : List Tree) : addressesAll n ts =
    ((ts.filter isNode).zipIdx n).flatMap fun p => ([] :: p.1.addresses).map (p.2 :: ·) := by
  induction ts generalizing n with
  | nil => rfl
  | cons t ts ih =>
    rw [addressesAll]
    cases ht : t.isNode with
    | true => rw [if_pos rfl, filter_cons_of_pos ht, zipIdx_cons, flatMap_cons, ih]
    | false => rw [if_neg Bool.false_ne_true, filter_cons_of_neg (by simp [ht]), ih]

lemma addresses_eq (t : Tree) :
    t.addresses = t.nodes.zipIdx.flatMap fun p => ([] :: p.1.addresses).map (p.2 :: ·) := by
  cases t with
  | token k t => rfl
  | node k ts => rw [addresses, addressesAll_eq]; rfl

lemma mem_addresses_cons {i : Nat} : i :: a ∈ t.addresses ↔
    ∃ c, t.nodes[i]? = some c ∧ (a = [] ∨ a ∈ c.addresses) := by
  rw [addresses_eq, mem_flatMap]
  constructor
  · rintro ⟨⟨c, j⟩, hc, ha⟩
    obtain ⟨b, hb, heq⟩ := mem_map.1 ha
    obtain ⟨rfl, rfl⟩ := cons.inj heq
    exact ⟨c, mem_zipIdx_iff_getElem?.1 hc, mem_cons.1 hb⟩
  · rintro ⟨c, hc, ha⟩
    exact ⟨(c, i), mem_zipIdx_iff_getElem?.2 hc, mem_map_of_mem (mem_cons.2 ha)⟩

lemma nil_not_mem_addresses (t : Tree) : [] ∉ t.addresses := by
  rw [addresses_eq, mem_flatMap]
  rintro ⟨p, -, hp⟩
  obtain ⟨b, -, hb⟩ := mem_map.1 hp
  exact cons_ne_nil _ _ hb

lemma pairwise_addresses (t : Tree) : t.addresses.Pairwise (· < ·) := by
  induction t using Tree.induction with
  | step t ih =>
    rw [addresses_eq]
    refine pairwise_flatMap.2 ⟨fun p hp => ?_, (pairwise_zipIdx _).imp fun hlt a ha b hb => ?_⟩
    · have hchild : p.1 ∈ t.children :=
        (mem_filter.1 (mem_of_getElem? (mem_zipIdx_iff_getElem?.1 hp))).1
      refine pairwise_map.2 ?_
      refine (pairwise_cons.2 ⟨fun b hb => ?_, ih p.1 hchild⟩).imp fun hlt => List.Lex.cons hlt
      obtain ⟨i, b, rfl⟩ :=
        exists_cons_of_ne_nil fun hnil : b = [] => nil_not_mem_addresses p.1 (hnil ▸ hb)
      exact List.Lex.nil
    · obtain ⟨a, -, rfl⟩ := mem_map.1 ha
      obtain ⟨b, -, rfl⟩ := mem_map.1 hb
      exact List.Lex.rel hlt

end Tree

namespace Site

variable {s c u : Site} {a b : Address} {i : Nat} {r : Span} {p : Address × Site} {t : Tree}

lemma nodes_row_cons (ht : t.isNode = true) (n : Nat) (ts : List Tree) : (row n (t :: ts)).filter
      (·.tree.isNode) = ⟨n, t⟩ :: (row (n + t.size) ts).filter (·.tree.isNode) :=
  filter_cons_of_pos (p := fun s : Site => s.tree.isNode) ht

lemma nodes_row_token (ht : ¬t.isNode = true) (n : Nat) (ts : List Tree) :
    (row n (t :: ts)).filter (·.tree.isNode) = (row (n + t.size) ts).filter (·.tree.isNode) :=
  filter_cons_of_neg (p := fun s : Site => s.tree.isNode) ht

lemma trees_nodes (s : Site) : s.nodes.map Site.tree = s.tree.nodes := trees_row _ _

lemma tree_mem_children (h : c ∈ s.nodes) : c.tree ∈ s.tree.children := by
  have hmem : c.tree ∈ s.tree.nodes := trees_nodes s ▸ mem_map_of_mem h
  exact (mem_filter.1 hmem).1

lemma getElem?_trees (s : Site) (i : Nat) : s.tree.nodes[i]? = s.nodes[i]?.map Site.tree := by
  rw [← trees_nodes, getElem?_map]

lemma mem_addresses : a ∈ s.tree.addresses ↔ a ≠ [] ∧ ∃ u, s.at? a = some u := by
  induction a generalizing s with
  | nil => exact iff_of_false (Tree.nil_not_mem_addresses _) fun h => h.1 rfl
  | cons i a ih =>
    rw [Tree.mem_addresses_cons, getElem?_trees, at?]
    constructor
    · rintro ⟨t, ht, ha⟩
      obtain ⟨c, hc, rfl⟩ := Option.map_eq_some_iff.1 ht
      rw [hc, Option.bind_some]
      rcases ha with rfl | ha
      · exact ⟨cons_ne_nil _ _, c, rfl⟩
      · exact ⟨cons_ne_nil _ _, (ih.1 ha).2⟩
    · rintro ⟨-, u, hu⟩
      obtain ⟨c, hc, hu⟩ := Option.bind_eq_some_iff.1 hu
      refine ⟨c.tree, by rw [hc]; rfl, ?_⟩
      by_cases ha : a = []
      · exact .inl ha
      · exact .inr (ih.2 ⟨ha, u, hu⟩)

def family (s : Site) : List (Address × Site) := s.nodes.zipIdx.map fun p => ([p.2], p.1)

lemma at?_family (h : p ∈ s.family) : s.at? p.1 = some p.2 := by
  obtain ⟨⟨c, i⟩, hc, rfl⟩ := mem_map.1 h
  rw [at?, mem_zipIdx_iff_getElem?.1 hc]
  rfl

lemma mem_nodes_of_family (h : p ∈ s.family) : p.2 ∈ s.nodes := by
  obtain ⟨q, hq, rfl⟩ := mem_map.1 h
  exact mem_of_getElem? (mem_zipIdx_iff_getElem?.1 hq)

lemma fst_family (s : Site) : s.family.map Prod.fst = (range s.nodes.length).map ([·]) := by
  rw [family, map_map, range_eq_range', ← zipIdx_map_snd, map_map]
  rfl

lemma at?_descendants (h : p ∈ s.descendants) : s.at? p.1 = some p.2 := by
  obtain ⟨a, -, ha⟩ := mem_filterMap.1 h
  obtain ⟨u, hu, rfl⟩ := Option.map_eq_some_iff.1 ha
  exact hu

lemma fst_descendants (s : Site) : s.descendants.map Prod.fst = s.tree.addresses := by
  have hsome : ∀ a ∈ s.tree.addresses, ((s.at? a).map (a, ·)).map Prod.fst = some a := by
    intro a ha
    obtain ⟨-, u, hu⟩ := mem_addresses.1 ha
    rw [hu]
    rfl
  rw [descendants, map_filterMap, filterMap_congr hsome, filterMap_some]

lemma descendants_eq (s : Site) : s.descendants = s.family.flatMap fun p =>
      p :: p.2.descendants.map fun q => (p.1 ++ q.1, q.2) := by
  rw [descendants, Tree.addresses_eq, ← trees_nodes, zipIdx_map, flatMap_map, filterMap_flatMap,
    family, flatMap_map]
  refine flatMap_congr ?_
  rintro ⟨c, i⟩ hc
  have hbelow : ∀ b : Address, (s.at? (i :: b)).map (i :: b, ·) =
      ((c.at? b).map (b, ·)).map fun q => ([i] ++ q.1, q.2) := by
    intro b
    rw [at?, mem_zipIdx_iff_getElem?.1 hc, Option.map_map]
    rfl
  rw [filterMap_map, descendants, map_filterMap]
  exact filterMap_congr (l := [] :: c.tree.addresses) fun b _ => hbelow b

end Site

open Option

namespace Tree

lemma coveringAll_cases (r : Span) (start n : Nat) (ts : List Tree) :
    coveringAll r start n ts = [] ∨ ∃ i c, ((Site.row start ts).filter (·.tree.isNode))[i]? =
      some c ∧ coveringAll r start n ts = (n + i) :: c.tree.covering r c.start := by
  induction ts generalizing start n with
  | nil => exact .inl rfl
  | cons t ts ih =>
    rw [coveringAll.eq_def]
    dsimp only
    split_ifs with hpast ht hhere
    · refine (ih (start + t.size) (n + 1)).imp_right ?_
      rintro ⟨i, c, hc, heq⟩
      refine ⟨i + 1, c, ?_, by rw [heq, Nat.add_right_comm, Nat.add_assoc]⟩
      rwa [Site.nodes_row_cons ht, getElem?_cons_succ]
    · refine (ih (start + t.size) n).imp_right ?_
      rintro ⟨i, c, hc, heq⟩
      exact ⟨i, c, by rwa [Site.nodes_row_token ht], heq⟩
    · rw [Bool.and_eq_true] at hhere
      exact .inr ⟨0, ⟨start, t⟩, by rw [Site.nodes_row_cons hhere.1]; rfl, rfl⟩
    · exact .inl rfl

lemma exists_covering (r : Span) (t : Tree) (start : Nat) :
    ∃ u, (⟨start, t⟩ : Site).at? (t.covering r start) = some u := by
  induction t using Tree.induction generalizing start with
  | step t ih =>
    cases t with
    | token k t => exact ⟨_, rfl⟩
    | node k ts =>
      rw [covering]
      rcases coveringAll_cases r start 0 ts with hnil | ⟨i, c, hc, heq⟩
      · exact ⟨_, by rw [hnil]; rfl⟩
      · obtain ⟨u, hu⟩ :=
          ih c.tree (Site.tree_mem_children (s := ⟨start, _⟩) (mem_of_getElem? hc)) c.start
        refine ⟨u, ?_⟩
        rw [heq, Nat.zero_add, Site.at?]
        exact Option.bind_eq_some_iff.2 ⟨c, hc, hu⟩

end Tree

lemma Site.at?_covering? {s : Site} {r : Span} {a : Address} (h : s.covering? r = some a) :
    ∃ u, s.at? a = some u := by
  rw [covering?] at h
  obtain ⟨-, ha⟩ := (Option.ite_none_right_eq_some ..).1 h
  obtain rfl := Option.some.inj ha
  exact Tree.exists_covering r s.tree s.start

def Site.outermostFrom (p : Kind → Bool) (r : Span) (q : Site × Nat) : List Address :=
  if r.contains q.1.span && p q.1.kind then [[q.2]]
  else if r.overlaps q.1.span then (q.1.outermost p r).map (q.2 :: ·)
  else []

namespace Tree

lemma outermostAll_eq (p : Kind → Bool) (r : Span) (start n : Nat) (ts : List Tree) :
    outermostAll p r start n ts =
      (((Site.row start ts).filter (·.tree.isNode)).zipIdx n).flatMap (Site.outermostFrom p r) := by
  induction ts generalizing start n with
  | nil => rfl
  | cons t ts ih =>
    by_cases ht : t.isNode = true
    · rw [outermostAll, if_pos ht, Site.nodes_row_cons ht, zipIdx_cons, flatMap_cons, ← ih]
      rfl
    · rw [outermostAll, if_neg ht, Site.nodes_row_token ht, ← ih]
      rfl

end Tree

namespace Site

variable {s c u v : Site} {p : Kind → Bool} {r : Span} {a b : Address} {i : Nat}

structure Topmost (s : Site) (p : Kind → Bool) (r : Span) (a : Address) (u : Site) : Prop where
  found : s.at? a = some u
  wanted : p u.kind = true
  inside : r.contains u.span = true
  above : ∀ b v, b <+: a → b ≠ a → s.at? b = some v → ¬(p v.kind = true ∧ r.contains v.span = true)

lemma outermost_eq (p : Kind → Bool) (r : Span) (s : Site) :
    s.outermost p r = s.nodes.zipIdx.flatMap (outermostFrom p r) := by
  obtain ⟨start, t⟩ := s
  cases t with
  | token k t => rfl
  | node k ts =>
    rw [outermost, Tree.outermost, Tree.outermostAll_eq]
    rfl

lemma exists_of_mem_outermostFrom {q : Site × Nat} (h : a ∈ outermostFrom p r q) :
    ∃ b, a = q.2 :: b := by
  unfold outermostFrom at h
  split_ifs at h
  · exact ⟨[], mem_singleton.1 h⟩
  · obtain ⟨b, -, rfl⟩ := mem_map.1 h
    exact ⟨b, rfl⟩
  · cases h

lemma cons_mem_outermost : i :: a ∈ s.outermost p r ↔ ∃ c, s.nodes[i]? = some c ∧
    if r.contains c.span && p c.kind then a = [] else r.overlaps c.span = true ∧
    a ∈ c.outermost p r := by
  rw [outermost_eq, mem_flatMap]
  constructor
  · rintro ⟨⟨c, j⟩, hc, ha⟩
    have hget := mem_zipIdx_iff_getElem?.1 hc
    dsimp only [outermostFrom] at ha hget
    split_ifs at ha with hhere hoverlaps
    · obtain ⟨rfl, rfl⟩ := cons.inj (mem_singleton.1 ha)
      exact ⟨c, hget, by rw [if_pos hhere]⟩
    · obtain ⟨b, hb, heq⟩ := mem_map.1 ha
      obtain ⟨rfl, rfl⟩ := cons.inj heq
      exact ⟨c, hget, by rw [if_neg hhere]; exact ⟨hoverlaps, hb⟩⟩
    · cases ha
  · rintro ⟨c, hc, ha⟩
    refine ⟨(c, i), mem_zipIdx_iff_getElem?.2 hc, ?_⟩
    dsimp only [outermostFrom]
    split_ifs at ha with hhere
    · rw [if_pos hhere, ha]
      exact mem_singleton_self _
    · rw [if_neg hhere, if_pos ha.1]
      exact mem_map_of_mem ha.2

lemma nil_not_mem_outermost (p : Kind → Bool) (r : Span) (s : Site) : [] ∉ s.outermost p r := by
  rw [outermost_eq, mem_flatMap]
  rintro ⟨q, -, ha⟩
  obtain ⟨b, heq⟩ := exists_of_mem_outermostFrom ha
  cases heq

lemma at?_cons (hc : s.nodes[i]? = some c) (a : Address) : s.at? (i :: a) = c.at? a := by
  rw [at?, hc]
  rfl

def Substantial (s : Site) (p : Kind → Bool) : Prop :=
  ∀ b v, s.at? b = some v → p v.kind = true → 0 < v.tree.size

lemma overlaps_of_inside (hc : c.at? a = some u) (hpos : 0 < u.tree.size)
    (hin : r.contains u.span = true) : r.overlaps c.span = true := by
  have houter := Span.contains_iff.1 (contains_of_at? hc)
  have hinner := Span.contains_iff.1 hin
  have hwide : u.span.start < u.span.stop := Nat.lt_add_of_pos_right hpos
  rw [Span.overlaps, decide_eq_true_eq]
  omega

lemma topmost_self (hwanted : p s.kind = true) (hin : r.contains s.span = true) :
    s.Topmost p r a u ↔ a = [] ∧ u = s := by
  constructor
  · intro h
    by_cases ha : a = []
    · subst ha
      exact ⟨rfl, (some.inj h.found).symm⟩
    · exact absurd ⟨hwanted, hin⟩ (h.above [] s nil_prefix (Ne.symm ha) rfl)
  · rintro ⟨rfl, rfl⟩
    exact ⟨rfl, hwanted, hin, fun b v hb hne _ => absurd (prefix_nil.1 hb) hne⟩

lemma topmost_cons (hs : ¬(p s.kind = true ∧ r.contains s.span = true))
    (hc : s.nodes[i]? = some c) : s.Topmost p r (i :: a) u ↔ c.Topmost p r a u := by
  have hat := at?_cons hc
  constructor
  · intro h
    refine ⟨(hat a).symm.trans h.found, h.wanted, h.inside, fun b v hb hne hv => ?_⟩
    exact h.above (i :: b) v (prefix_cons_inj i |>.2 hb) (fun heq => hne (cons.inj heq).2)
      ((hat b).trans hv)
  · intro h
    refine ⟨(hat a).trans h.found, h.wanted, h.inside, fun b v hb hne hv => ?_⟩
    cases b with
    | nil =>
      obtain rfl := some.inj hv
      exact hs
    | cons j b =>
      obtain ⟨rfl, hbelow⟩ := cons_prefix_cons.1 hb
      exact h.above b v hbelow (fun heq => hne (congrArg _ heq)) ((hat b).symm.trans hv)

lemma Substantial.child (h : s.Substantial p) (hc : s.nodes[i]? = some c) : c.Substantial p :=
  fun b v hv => h (i :: b) v ((at?_cons hc b).trans hv)

lemma mem_outermost (hs : s.Substantial p) (hself : ¬(p s.kind = true ∧ r.contains s.span = true)) :
    a ∈ s.outermost p r ↔ ∃ u, s.Topmost p r a u := by
  induction a generalizing s with
  | nil =>
    refine iff_of_false (nil_not_mem_outermost p r s) ?_
    rintro ⟨u, hu⟩
    obtain rfl := some.inj hu.found
    exact hself ⟨hu.wanted, hu.inside⟩
  | cons i a ih =>
    have hmiss : ∀ {c : Site}, ¬(r.contains c.span && p c.kind) = true →
        ¬(p c.kind = true ∧ r.contains c.span = true) := by
      intro c hnot hboth
      exact hnot (Bool.and_eq_true_iff.2 hboth.symm)
    rw [cons_mem_outermost]
    constructor
    · rintro ⟨c, hc, ha⟩
      simp only [topmost_cons hself hc]
      split_ifs at ha with hhere
      · rw [Bool.and_eq_true] at hhere
        exact ⟨c, (topmost_self hhere.2 hhere.1).2 ⟨ha, rfl⟩⟩
      · exact (ih (hs.child hc) (hmiss hhere)).1 ha.2
    · rintro ⟨u, hu⟩
      obtain ⟨c, hc, -⟩ := bind_eq_some_iff.1 hu.found
      have hbelow := (topmost_cons hself hc).1 hu
      refine ⟨c, hc, ?_⟩
      split_ifs with hhere
      · rw [Bool.and_eq_true] at hhere
        exact ((topmost_self hhere.2 hhere.1).1 hbelow).1
      · have hpos := hs.child hc a u hbelow.found hbelow.wanted
        exact ⟨overlaps_of_inside hbelow.found hpos hbelow.inside,
          (ih (hs.child hc) (hmiss hhere)).2 ⟨u, hbelow⟩⟩

def Precedes (s : Site) (a b : Address) : Prop :=
  a < b ∧ ∀ u v, s.at? a = some u → s.at? b = some v → u.span.stop ≤ v.span.start

lemma precedes_of_lt {j : Nat} (h : i < j) (a b : Address) : s.Precedes (i :: a) (j :: b) := by
  refine ⟨List.Lex.rel h, fun u v hu hv => ?_⟩
  obtain ⟨c, hc, hu⟩ := bind_eq_some_iff.1 hu
  obtain ⟨e, he, hv⟩ := bind_eq_some_iff.1 hv
  have hbetween := stop_le_start_of_lt hc he h
  have hleft := (Span.contains_iff.1 (contains_of_at? hu)).2
  have hright := (Span.contains_iff.1 (contains_of_at? hv)).1
  exact Nat.le_trans hleft (Nat.le_trans hbetween hright)

lemma Precedes.cons (h : c.Precedes a b) (hc : s.nodes[i]? = some c) :
    s.Precedes (i :: a) (i :: b) := by
  refine ⟨List.Lex.cons h.1, fun u v hu hv => ?_⟩
  rw [at?_cons hc] at hu hv
  exact h.2 u v hu hv

lemma outermost_ordered (p : Kind → Bool) (r : Span) (t : Tree) (start : Nat) :
    ((⟨start, t⟩ : Site).outermost p r).Pairwise (⟨start, t⟩ : Site).Precedes := by
  induction t using Tree.induction generalizing start with
  | step t ih =>
    rw [outermost_eq]
    refine pairwise_flatMap.2 ⟨fun q hq => ?_, (pairwise_zipIdx _).imp fun hlt a ha b hb => ?_⟩
    · have hc := mem_zipIdx_iff_getElem?.1 hq
      unfold outermostFrom
      split_ifs
      · exact pairwise_singleton _ _
      · refine pairwise_map.2 ((ih q.1.tree ?_ q.1.start).imp fun h => Precedes.cons h hc)
        exact tree_mem_children (mem_of_getElem? hc)
      · exact .nil
    · obtain ⟨a, rfl⟩ := exists_of_mem_outermostFrom ha
      obtain ⟨b, rfl⟩ := exists_of_mem_outermostFrom hb
      exact precedes_of_lt hlt a b

end Site
end LiveEdit
