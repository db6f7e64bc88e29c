import LiveEdit.Proofs.Document.Moves
import LiveEdit.Proofs.Wrapper.Carrying
import LiveEdit.Proofs.Wrapper.Reaching

/-! The invariant of documents: the wrappers are bound to the tree, and numbers are given out once.
-/

namespace LiveEdit.Document
open List
open Wrapper

structure Sound (d : Document) : Prop where
  bound : d.root.Bound
  tree : d.root.site = ⟨0, (d.reader d.version d.text).tree⟩
  diagnostics : d.diagnostics = (d.reader d.version d.text).diagnostics
  numbers : (d.root.indices ++ d.forgotten.map Prod.fst).Perm (range d.fresh)

variable {d new : Document} {n : NodeId} {w root : Wrapper} {i : Nat} {lost : List Wrapper}
  {text : Text}

lemma sound_create (tag : Nat) (file : String) (text : Text) (settings : Settings)
    (reader : Reader) : (create tag file text settings reader).Sound :=
  ⟨bound_leaf _ _ _, rfl, rfl, List.Perm.refl _⟩

lemma Sound.nodup (h : d.Sound) : d.root.indices.Nodup :=
  (nodup_append.1 (h.numbers.nodup_iff.2 nodup_range)).1

lemma Sound.not_forgotten (h : d.Sound) (hi : i ∈ d.root.indices) : i ∉ d.forgotten.map Prod.fst :=
  fun hf => (nodup_append.1 (h.numbers.nodup_iff.2 nodup_range)).2.2 i hi i hf rfl

lemma Sound.lt_fresh_iff (h : d.Sound) :
    i < d.fresh ↔ i ∈ d.root.indices ∨ i ∈ d.forgotten.map Prod.fst := by
  rw [← mem_range, ← h.numbers.mem_iff, mem_append]

lemma lookup_eq_none : d.forgotten.lookup i = none ↔ i ∉ d.forgotten.map Prod.fst := by
  rw [lookup_eq_none_iff]
  simp only [bne_iff_ne, mem_map, not_exists, not_and]
  exact forall₂_congr fun p _ => ne_comm

lemma isForgotten_iff :
    d.isForgotten n = true ↔ n.document = d.tag ∧ n.index ∈ d.forgotten.map Prod.fst := by
  rw [isForgotten, lastKnown?]
  split_ifs with htag
  · rw [Option.isSome_iff_ne_none, Ne, lookup_eq_none, not_not, and_iff_right htag]
  · exact iff_of_false nofun fun hn => htag hn.1

lemma nodeId_eq (h : n.document = d.tag) : d.nodeId n.index = n :=
  congrArg (NodeId.mk · n.index) h.symm

lemma Sound.node_eq_ok (h : d.Sound) :
    d.node n = .ok w ↔ n.document = d.tag ∧ w ∈ d.root.all ∧ w.index = n.index := by
  unfold node
  split_ifs with htag
  · cases hlook : d.forgotten.lookup n.index with
    | some known =>
      refine iff_of_false nofun ?_
      rintro ⟨-, hw, hindex⟩
      have hnot := lookup_eq_none.2 (h.not_forgotten (hindex ▸ mem_indices_of_mem hw))
      exact nomatch hnot.symm.trans hlook
    | none =>
      rw [← find?_eq_some_iff h.nodup]
      cases hfind : d.root.find? n.index with
      | none => simp
      | some v => simp [htag]
  · exact iff_of_false nofun fun hn => htag hn.1

lemma Sound.configure (h : d.Sound) (settings : Settings) : { d with settings }.Sound :=
  ⟨h.bound, h.tree, h.diagnostics, h.numbers⟩

lemma Sound.wrap (h : d.Sound) (a : Address) : (d.wrap a).1.Sound := by
  have hr : Extends d.fresh d.root (d.root.reach d.fresh a) := extends_reach h.bound
  refine ⟨hr.bound, hr.site.trans h.tree, h.diagnostics, ?_⟩
  change ((d.root.reach d.fresh a).wrapper.indices ++ d.forgotten.map Prod.fst).Perm
    (range (d.root.reach d.fresh a).fresh)
  have hrange : range d.fresh ++ range' d.fresh ((d.root.reach d.fresh a).fresh - d.fresh) =
      range (d.root.reach d.fresh a).fresh := by
    simpa [range_eq_range'] using range'_split (Nat.zero_le d.fresh) hr.le
  have hnew := hr.indices
  have hnumbers := h.numbers
  rw [← hrange]
  simp only [perm_iff_count, count_append] at hnew hnumbers ⊢
  intro j
  have hnew := hnew j
  have hnumbers := hnumbers j
  omega

/-- A child node below a wrapper is the node that it is, however its wrapper is asked for. -/
lemma Sound.adopt_eq (h : d.Sound) {l : List Wrapper} (hl : Trail d.root l w) (n : Nat) :
    d.adopt w.index n = d.wrap (ordinals l ++ [n]) := by
  rw [adopt, (find?_eq_some_iff h.nodup).2 ⟨hl.mem, rfl⟩, Document.wrap,
    reach_append_trail h.bound h.nodup hl]

lemma Sound.exists_wrap (h : d.Sound) (hm : Makes d new) : ∃ a, new = (d.wrap a).1 := by
  cases hm with
  | wrap a => exact ⟨a, rfl⟩
  | adopt i n =>
    cases hfind : d.root.find? i with
    | none => exact ⟨[], by rw [adopt, hfind]; rfl⟩
    | some w =>
      obtain ⟨hw, rfl⟩ := (find?_eq_some_iff h.nodup).1 hfind
      obtain ⟨l, hl⟩ := exists_trail hw
      exact ⟨_, congrArg Prod.fst (h.adopt_eq hl n)⟩

lemma forgotten_record (d : Document) (lost : List Wrapper) :
    (d.record lost).forgotten.map Prod.fst = lost.map index ++ d.forgotten.map Prod.fst := by
  simp only [record, map_append, map_map]
  rfl

lemma sound_record (hb : d.root.Bound) (htree : d.root.site = ⟨0, (d.reader d.version d.text).tree⟩)
    (hdiagnostics : d.diagnostics = (d.reader d.version d.text).diagnostics)
    (hnumbers : ((d.root.indices ++ lost.map index) ++ d.forgotten.map Prod.fst).Perm
      (range d.fresh)) : (d.record lost).Sound := by
  refine ⟨hb, htree, hdiagnostics, ?_⟩
  rw [forgotten_record, ← append_assoc]
  exact hnumbers

lemma Sound.record (h : d.Sound) (hb : root.Bound) (hsite : root.site = d.root.site)
    (hlost : d.root.indices.Perm (root.indices ++ lost.map index)) :
    ({ d with root }.record lost).Sound :=
  sound_record hb (hsite.trans h.tree) h.diagnostics
    ((hlost.symm.append_right _).trans h.numbers)

lemma Sound.forget (h : d.Sound) (n : NodeId) : (d.forget n).document.Sound := by
  unfold Document.forget
  split_ifs with hroot htag
  · exact h
  · exact h
  · refine h.record (h.bound.prune _) (site_prune _ _) ?_
    cases hfind : d.root.find? n.index with
    | none =>
      -- the wrapper was forgotten before, or never there
      rw [prune_of_not_mem ((find?_eq_none_iff h.nodup).1 hfind)]
      simp
    | some v =>
      obtain ⟨hv, hindex⟩ := (find?_eq_some_iff h.nodup).1 hfind
      obtain ⟨l, hl⟩ := exists_trail hv
      rw [← hindex]
      refine indices_prune h.nodup hl fun heq => hroot ?_
      rw [← nodeId_eq (not_not.1 htag), ← hindex, heq, rootId]

lemma Sound.forgetDescendants (h : d.Sound) (n : NodeId) :
    (d.forgetDescendants n).document.Sound := by
  unfold Document.forgetDescendants
  split
  · exact h
  next w hw =>
    obtain ⟨-, hmem, -⟩ := h.node_eq_ok.1 hw
    obtain ⟨l, hl⟩ := exists_trail hmem
    exact h.record (h.bound.clear _) (site_clear _ _) (indices_clear h.nodup hl)

def carried (d : Document) (focus : List Nat) (e : Edit) (text : Text) : Carried :=
  Carrier.carryPath ⟨e, focus⟩ 0 ⟨0, (d.reader (d.version + 1) text).tree⟩ d.root

def renew (d : Document) (text : Text) (root : Wrapper) (fresh : Nat) : Document :=
  { d with
    text, version := d.version + 1, root
    diagnostics := (d.reader (d.version + 1) text).diagnostics, fresh }

lemma Sound.carries (h : d.Sound) (focus : List Nat) (e : Edit) (text : Text) :
    Carrier.Carries ⟨e, focus⟩ d.root (d.carried focus e text) :=
  Carrier.carries_path h.bound

/-- The root is carried over, or there is a new one that nothing hangs on. -/
lemma Sound.advance_cases (h : d.Sound) (focus : List Nat) (m : Manipulation) (e : Edit)
    (text : Text) : (∃ root, (d.carried focus e text).kept = [root] ∧ (d.advance focus m e text).1 =
      (d.renew text root d.fresh).record (d.carried focus e text).lost) ∨
    ((d.carried focus e text).kept = [] ∧ (d.advance focus m e text).1 =
      (d.renew text (.mk d.fresh 0 ⟨0, (d.reader (d.version + 1) text).tree⟩ [])
      (d.fresh + 1)).record (d.carried focus e text).lost) := by
  have hsingle := (h.carries focus e text).single
  dsimp only [Document.advance, carried] at hsingle ⊢
  generalize Carrier.carryPath _ _ _ _ = r at hsingle ⊢
  obtain ⟨kept, lost, mismatched⟩ := r
  match kept, hsingle with
  | [], _ => exact .inr ⟨rfl, rfl⟩
  | [root], _ => exact .inl ⟨root, rfl, rfl⟩

lemma Sound.root_advance {focus : List Nat}
    {e : Edit} (h : d.Sound) (hkept : (d.carried focus e text).kept = [root]) (m : Manipulation) :
    (d.advance focus m e text).1.root = root := by
  rcases h.advance_cases focus m e text with ⟨root', hroot, hadvance⟩ | ⟨hnone, -⟩
  · rw [hkept] at hroot
    rw [hadvance, (cons.inj hroot).1]
    rfl
  · rw [hkept] at hnone
    cases hnone

lemma Sound.advance (h : d.Sound) (focus : List Nat) (m : Manipulation) (e : Edit) (text : Text) :
    (d.advance focus m e text).1.Sound := by
  have hcarries := h.carries focus e text
  have hlost := (hcarries.numbers.symm.append_right (d.forgotten.map Prod.fst)).trans h.numbers
  obtain ⟨root, hkept, hnew⟩ | ⟨hkept, hnew⟩ := h.advance_cases focus m e text
  · rw [hnew]
    have hroot : root ∈ (d.carried focus e text).kept := hkept ▸ mem_cons_self
    refine sound_record (hcarries.bound root hroot) (Carrier.kept_carryPath hroot).2.1 rfl ?_
    rwa [hkept, indicesOf_singleton] at hlost
  · -- all wrappers are lost, and the new root has the next number
    rw [hnew]
    refine sound_record (bound_leaf _ _ _) rfl rfl ?_
    rw [hkept, indicesOf, allOf, map_nil, nil_append] at hlost
    exact (hlost.cons d.fresh).trans (range_succ ▸ (perm_append_singleton _ _).symm)

lemma Sound.commit {focus : Nat} {m : Manipulation} {log : List Event} (h : d.Sound)
    (hc : d.commit focus m = some (new, log)) : new.Sound := by
  obtain ⟨e, -, ⟨-, rfl⟩ | ⟨-, text, -, rfl⟩⟩ := exists_of_commit hc
  · exact h
  · exact h.advance _ m e text

lemma Sound.move (h : d.Sound) (hm : Move d new) : new.Sound := by
  cases hm with
  | configure settings => exact h.configure settings
  | make hm =>
    obtain ⟨a, rfl⟩ := h.exists_wrap hm
    exact h.wrap a
  | forget n => exact h.forget n
  | forgetDescendants n => exact h.forgetDescendants n
  | commit hc => exact h.commit hc

lemma Sound.moves (h : d.Sound) (hm : Moves d new) : new.Sound := by
  induction hm with
  | refl => exact h
  | tail _ hm ih => exact ih.move hm

lemma sound_run {tag : Nat} {file : String} {settings : Settings} {reader : Reader}
    {ops : List Operation} (h : (create tag file text settings reader).run ops = some d) :
    d.Sound :=
  (sound_create tag file text settings reader).moves (moves_run h)

end LiveEdit.Document
