import LiveEdit.Proofs.Tree.Sites
import Mathlib.Data.List.Forall2

/-! Trees that differ in one place have the same nodes but for shifts and what is in that place. -/

namespace LiveEdit
open List Option

namespace Tree

def ofLeaf (l : Kind × Text) : Tree := .token l.1 l.2

def spell (ls : List (Kind × Text)) : Text := ls.flatMap Prod.snd

variable {X X' : List (Kind × Text)} {ts ts' : List Tree} {h : Nat}

@[simp] lemma sizeAll_append (ts us : List Tree) :
    sizeAll (ts ++ us) = sizeAll ts + sizeAll us := by
  induction ts with
  | nil => exact (Nat.zero_add _).symm
  | cons t ts ih => simp only [cons_append, sizeAll, ih, Nat.add_assoc]

@[simp] lemma spell_append (ls ms : List (Kind × Text)) : spell (ls ++ ms) = spell ls ++ spell ms :=
  flatMap_append

@[simp] lemma sizeAll_leaves (ls : List (Kind × Text)) :
    sizeAll (ls.map ofLeaf) = (spell ls).size := by
  induction ls with
  | nil => rfl
  | cons l ls ih =>
    simp only [map_cons, sizeAll, ih, ofLeaf, size, spell, flatMap_cons, Text.size_append]

/-- The trees `ts` and `ts'` differ in one place, `h` bytes from their start: `ts` has the leaves
`X` there, and `ts'` has `X'`. -/
inductive Spliced (X X' : List (Kind × Text)) : Nat → List Tree → List Tree → Prop where
  | here (A B : List Tree) :
      Spliced X X' (sizeAll A) (A ++ (X.map ofLeaf ++ B)) (A ++ (X'.map ofLeaf ++ B))
  | inside (A B : List Tree) (k : Kind) {h : Nat} {ts ts' : List Tree}
    (inner : Spliced X X' h ts ts') :
      Spliced X X' (sizeAll A + h) (A ++ .node k ts :: B) (A ++ .node k ts' :: B)

lemma Spliced.append_left (hs : Spliced X X' h ts ts') (us : List Tree) :
    Spliced X X' (sizeAll us + h) (us ++ ts) (us ++ ts') := by
  cases hs with
  | here A B =>
    have hhere : Spliced X X' _ _ _ := .here (us ++ A) B
    simpa only [sizeAll_append, append_assoc] using hhere
  | inside A B k inner =>
    have hinside := Spliced.inside (us ++ A) B k inner
    simpa only [sizeAll_append, append_assoc, Nat.add_assoc] using hinside

lemma Spliced.append_right (hs : Spliced X X' h ts ts') (us : List Tree) :
    Spliced X X' h (ts ++ us) (ts' ++ us) := by
  cases hs with
  | here A B =>
    have hhere : Spliced X X' _ _ _ := .here A (B ++ us)
    simpa only [append_assoc] using hhere
  | inside A B k inner =>
    have hinside := Spliced.inside A (B ++ us) k inner
    simpa only [append_assoc, cons_append] using hinside

lemma Spliced.sizeAll_eq (hs : Spliced X X' h ts ts') : h + (spell X).size ≤ sizeAll ts ∧
      sizeAll ts' + (spell X).size = sizeAll ts + (spell X').size := by
  induction hs with
  | here A B =>
    simp only [sizeAll_append, sizeAll_leaves]
    omega
  | inside A B k inner ih =>
    simp only [sizeAll_append, sizeAll, size]
    omega

end Tree

namespace Site
open LiveEdit.Tree

variable {X X' : List (Kind × Text)} {p n n' i m m' q : Nat} {old new c : Site} {ts : List Tree}
  {R : Site → Site → Prop}

lemma row_append (n : Nat) (ts us : List Tree) :
    row n (ts ++ us) = row n ts ++ row (n + sizeAll ts) us := by
  induction ts generalizing n with
  | nil => rfl
  | cons t ts ih => rw [cons_append, row, ih, row, sizeAll, cons_append, Nat.add_assoc]

lemma nodes_leaves (n : Nat) (ls : List (Kind × Text)) :
    (row n (ls.map ofLeaf)).filter (·.tree.isNode) = [] := by
  induction ls generalizing n with
  | nil => rfl
  | cons l ls ih => exact ih _

structure Shifted (m m' q : Nat) (old new : Site) : Prop where
  tree : new.tree = old.tree
  start : new.start + m = old.start + m'
  place : q ≤ old.start

inductive Around (X X' : List (Kind × Text)) (p : Nat) : Site → Site → Prop where
  | mk {n h : Nat} {k : Kind} {ts ts' : List Tree} (place : n + h = p)
      (spliced : Spliced X X' h ts ts') : Around X X' p ⟨n, .node k ts⟩ ⟨n, .node k ts'⟩

inductive Twin (X X' : List (Kind × Text)) (p : Nat) (old new : Site) : Prop where
  | before (place : old.span.stop ≤ p) (eq : new = old)
  | after (shifted : Shifted (spell X).size (spell X').size (p + (spell X).size) old new)
  | around (around : Around X X' p old new)

lemma Around.span (h : Around X X' p old new) : old.span.contains (.sized p (spell X).size) = true ∧
    new.start = old.start ∧ new.span.stop + (spell X).size = old.span.stop + (spell X').size := by
  cases h with
  | @mk n h k ts ts' place spliced =>
    obtain ⟨hle, hsize⟩ := spliced.sizeAll_eq
    have hstop : p + (spell X).size ≤ n + sizeAll ts := by omega
    have hgrown : n + sizeAll ts' + (spell X).size = n + sizeAll ts + (spell X').size := by omega
    exact ⟨Span.contains_iff.2 ⟨Nat.le.intro place, hstop⟩, rfl, hgrown⟩

lemma Around.isNode (h : Around X X' p old new) : new.tree.isNode = true := by
  cases h
  rfl

lemma Twin.kind (h : Twin X X' p old new) : new.kind = old.kind := by
  cases h with
  | before _ eq => rw [eq]
  | after shifted => rw [Site.kind, shifted.tree, Site.kind]
  | around around =>
    cases around
    rfl

lemma shifted_row (ts : List Tree) (start : n' + m = n + m') (place : q ≤ n) :
    List.Forall₂ (Shifted m m' q) (row n ts) (row n' ts) := by
  induction ts generalizing n n' with
  | nil => exact .nil
  | cons t ts ih => exact .cons ⟨rfl, start, place⟩ (ih (by omega) (by omega))

lemma rel_nodes {l l' : List Site}
    (hR : ∀ s s', R s s' → s.tree.isNode = s'.tree.isNode) (h : List.Forall₂ R l l') :
    List.Forall₂ R (l.filter (·.tree.isNode)) (l'.filter (·.tree.isNode)) := by
  refine rel_filter ?_ h
  intro s s' hs
  exact Bool.eq_iff_iff.1 (hR s s' hs)

lemma Shifted.nodes (h : Shifted m m' q old new) :
    List.Forall₂ (Shifted m m' q) old.nodes new.nodes := by
  apply rel_nodes
  · intro s s' hs
    rw [hs.tree]
  · rw [Site.elements, Site.elements, h.tree]
    exact shifted_row _ h.start h.place

lemma twins_before (h : n + sizeAll ts ≤ p) : List.Forall₂ (Twin X X' p)
    ((row n ts).filter (·.tree.isNode)) ((row n ts).filter (·.tree.isNode)) := by
  apply forall₂_same.2
  intro s hs
  exact .before (Nat.le_trans (row_bounds (mem_filter.1 hs).1).2 h) rfl

lemma twins_after (ts : List Tree) (start : n' + (spell X).size = n + (spell X').size)
    (place : p + (spell X).size ≤ n) : List.Forall₂ (Twin X X' p)
      ((row n ts).filter (·.tree.isNode)) ((row n' ts).filter (·.tree.isNode)) := by
  have hrow := shifted_row ts start place
  have hnodes := rel_nodes (fun s s' hs => by rw [hs.tree]) hrow
  exact hnodes.imp fun s s' hs => .after hs

lemma twins_spliced {h : Nat} {ts' : List Tree} (hs : Spliced X X' h ts ts') (place : n + h = p) :
    List.Forall₂ (Twin X X' p) ((row n ts).filter (·.tree.isNode))
      ((row n ts').filter (·.tree.isNode)) := by
  cases hs with
  | here A B =>
    simp only [row_append, filter_append, nodes_leaves, nil_append, sizeAll_leaves]
    exact rel_append (twins_before (by omega)) (twins_after B (by omega) (by omega))
  | @inside A B k h ts ts' inner =>
    obtain ⟨hle, hsize⟩ := inner.sizeAll_eq
    have haround : Twin X X' p ⟨n + sizeAll A, .node k ts⟩ ⟨n + sizeAll A, .node k ts'⟩ :=
      .around (.mk (by omega) inner)
    have hafter : List.Forall₂ (Twin X X' p)
        ((row (n + sizeAll A + sizeAll ts) B).filter (·.tree.isNode))
        ((row (n + sizeAll A + sizeAll ts') B).filter (·.tree.isNode)) :=
      twins_after B (by omega) (by omega)
    simp only [row_append, filter_append, row, Tree.size]
    exact rel_append (twins_before (by omega)) (.cons haround hafter)

lemma Twin.nodes (h : Twin X X' p old new) : List.Forall₂ (Twin X X' p) old.nodes new.nodes := by
  cases h with
  | before place eq =>
    rw [eq]
    apply forall₂_same.2
    intro c hc
    exact .before (Nat.le_trans (mem_nodes hc).1.2 place) rfl
  | after shifted => exact shifted.nodes.imp fun s s' hs => .after hs
  | around around =>
    cases around with
    | mk place spliced => exact twins_spliced spliced place

lemma node_of_rel (h : List.Forall₂ R old.nodes new.nodes)
    (hc : old.nodes[i]? = some c) : ∃ c', new.nodes[i]? = some c' ∧ R c c' := by
  obtain ⟨hlength, hget⟩ := forall₂_iff_get.1 h
  obtain ⟨hi, rfl⟩ := List.getElem?_eq_some_iff.1 hc
  exact ⟨_, getElem?_eq_getElem (hlength ▸ hi), hget i hi (hlength ▸ hi)⟩

lemma Twin.at? {a : Address} (h : Twin X X' p old new) (ha : old.at? a = some c) :
    ∃ c', new.at? a = some c' ∧ Twin X X' p c c' := by
  induction a generalizing old new with
  | nil =>
    obtain rfl := some.inj ha
    exact ⟨new, rfl, h⟩
  | cons i a ih =>
    rw [Site.at?] at ha
    obtain ⟨s, hs, hrest⟩ := bind_eq_some_iff.1 ha
    obtain ⟨s', hs', htwin⟩ := node_of_rel h.nodes hs
    obtain ⟨c', hc', hcc⟩ := ih htwin hrest
    refine ⟨c', ?_, hcc⟩
    rw [Site.at?, hs', bind_some, hc']

end Site
end LiveEdit
