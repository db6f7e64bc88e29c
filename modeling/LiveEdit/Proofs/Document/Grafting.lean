import LiveEdit.Proofs.Document.Shape
import LiveEdit.Proofs.Parse.Plots
import LiveEdit.Proofs.Wrapper.Growing

/-! An edit that puts trees in the place of some children of a node, and what it does to wrappers.
-/

namespace LiveEdit.Document
open Wrapper Site LiveEdit.Tree Parse Option

variable {accept : Kind → Bool} {b : Address} {c : Site} {d : Document}

lemma exists_spotOver? (hat : d.tree.at? b = some c) (hkind : accept c.kind = true)
    (hpos : c.span.start < c.span.stop) : ∃ a c', spotOver? d.tree accept c.span = some a ∧
    d.tree.at? a = some c' ∧ accept c'.kind = true ∧ c'.span = c.span := by
  obtain ⟨b', hcover, hmem⟩ := mem_lineage_of_contains hat (Span.contains_self _) hpos
  obtain ⟨a, c', ha, hat', haccept, hspan⟩ := exists_outermostOver? hmem hkind
  refine ⟨a, c', ?_, hat', haccept, hspan⟩
  rw [spotOver?, hcover, map_some]
  change some ((d.outermostOver? b' c.span accept).getD b') = some a
  rw [ha]
  rfl

lemma Graded.exists_stand_in (hd : d.Graded) (hk : Keeps d.reader) (hat : d.tree.at? b = some c)
    (hkind : accept c.kind = true) (hpos : c.span.start < c.span.stop) :
    ∃ a v, d.standIn accept c.span = some (d.wrap a) ∧ (d.wrap a).1.node (d.wrap a).2 = .ok v ∧
    accept v.kind = true ∧ d.textOf? v = some (Site.text c) := by
  obtain ⟨a, c', hspot, hat', haccept, hspan⟩ := exists_spotOver? hat hkind hpos
  have hplace := hd.sound.place?_wrap a
  rw [clip_of_at? hat'] at hplace
  obtain ⟨v, hv, hsite⟩ := map_eq_some_iff.1 hplace
  have hsite : v.site = c' := congrArg Prod.snd hsite
  refine ⟨a, v, ?_, eq_ok_of_toOption hv, ?_, ?_⟩
  · rw [standIn_eq, hspot]
    rfl
  · rw [Wrapper.kind, hsite]
    exact haccept
  · rw [textOf?, Wrapper.span, hsite, hspan]
    exact ((hd.sound.lies hk (self_mem_all d.root)).at? hat).slice?

lemma Graded.exists_stand_ins {cs : List Site} (hd : d.Graded) (hk : Keeps d.reader)
    (hcs : ∀ c ∈ cs, (∃ b, d.tree.at? b = some c) ∧ accept c.kind = true ∧ c.span.start <
      c.span.stop) : ∃ new ids, d.standInAll accept (cs.map Site.span) = some (new, ids) ∧
    Wraps d new ∧ List.Forall₂ (fun i c => ∃ v, new.node i = .ok v ∧ accept v.kind = true ∧
      new.textOf? v = some (Site.text c)) ids cs := by
  induction cs generalizing d with
  | nil => exact ⟨d, [], rfl, .refl, .nil⟩
  | cons c cs ih =>
    obtain ⟨⟨b, hat⟩, hkind, hpos⟩ := hcs c List.mem_cons_self
    obtain ⟨a, v, hone, hv, haccept, htext⟩ := hd.exists_stand_in hk hat hkind hpos
    have hgraded : (d.wrap a).1.Graded := hd.move (.make (.wrap d a))
    have hagrees := hd.agrees_wrap (Nat.zero_le _) a
    have htree : (d.wrap a).1.tree = d.tree := hagrees.tree
    obtain ⟨new, ids, hstand, hwraps, hids⟩ := ih hgraded hk fun c hc => by
      rw [htree]
      exact hcs c (List.mem_cons_of_mem _ hc)
    obtain ⟨v', hv', hsite⟩ := hwraps.exists_node hgraded hv
    refine ⟨new, (d.wrap a).2 :: ids, ?_, (wraps_wrap d a).trans hwraps,
      .cons ⟨v', hv', ?_, ?_⟩ hids⟩
    · rw [List.map_cons, standInAll, hone]
      simp only [bind_eq_bind, bind_some, hstand]
      rfl
    · rw [Wrapper.kind, hsite]
      exact haccept
    · rw [textOf?, Wrapper.span, hsite, (hwraps.agrees hgraded le_rfl).text, hagrees.text]
      exact htext

lemma Loses.isForgotten_iff {new : Document} {lost : List Wrapper}
    {i : NodeId} {v : Wrapper} (h : Loses d new lost) (hd : d.Sound) (hi : d.node i = .ok v) :
    new.isForgotten i = true ↔ v ∈ lost := by
  obtain ⟨hdocument, -, hindex⟩ := hd.node_eq_ok.1 hi
  constructor
  · intro hforgotten
    obtain ⟨known, hknown⟩ := isSome_iff_exists.1 hforgotten
    obtain ⟨u, hu, hnode, -⟩ := h.exists_of_lastKnown? hd (isForgotten_of_node hi) hknown
    obtain rfl : v = u := Except.ok.inj (hi.symm.trans hnode)
    exact hu
  · intro hv
    have hfound : ((lost.map fun v => (v.index, v.lastKnown)).lookup i.index).isSome = true := by
      rw [List.lookup_isSome_iff]
      exact ⟨_, List.mem_map_of_mem hv, beq_iff_eq.2 hindex.symm⟩
    obtain ⟨known, hknown⟩ := isSome_iff_exists.1 hfound
    rw [isForgotten, Document.lastKnown?, if_pos (hdocument.trans h.tag.symm), h.lookup, hknown]
    rfl

/-- An edit of a document without faults that puts trees `Y` in the place of the children `X` of the
node at an address, after which the new text is read as the new tree. -/
structure Grafts (d : Document) (e : Edit) (a : Address) (n : Nat) (k : Kind) (A X B Y : List Tree)
    (uA uX uB : List Lexeme) (tree : Tree) : Prop where
  graded : d.Graded
  usual : d.reader = .usual
  clean : d.diagnostics = []
  planted : Planted d.text a n k A X B Y uA uX uB tree
  edges : a = [] ∨ (0 < sizeAll A ∧ 0 < sizeAll B)
  parse : (ofText (plant uA Y uB)).tree = tree ∧ (ofText (plant uA Y uB)).diagnostics = []
  alters : ∀ focus, Carrier.Alters ⟨e, focus⟩ (n + sizeAll A) (sizeAll X) (sizeAll Y)
  result : e.result? d.text = some (plant uA Y uB)

namespace Grafts

variable {d new : Document} {e : Edit} {a : Address} {n : Nat} {k : Kind} {A X B Y : List Tree}
  {uA uX uB : List Lexeme} {tree : Tree} {focus : List Nat} {m : Manipulation} {v w : Wrapper}
  {i : NodeId}

variable (h : Grafts d e a n k A X B Y uA uX uB tree)
include h

lemma sound : d.Sound := h.graded.sound

lemma tree_eq : d.tree = (ofText d.text).site :=
  h.sound.tree_usual h.usual

lemma clean_text : (ofText d.text).diagnostics = [] :=
  (h.sound.diagnostics_usual h.usual).symm.trans h.clean

lemma firm : d.tree.FirmBelow := by
  rw [h.tree_eq]
  exact firm_ofText (diagnostics_eq_nil.1 h.clean_text).2

lemma at? : d.tree.at? a = some ⟨n, .node k (A ++ (X ++ B))⟩ ∧
      (⟨0, tree⟩ : Site).at? a = some ⟨n, .node k (A ++ (Y ++ B))⟩ := by
  obtain ⟨hold, hnew⟩ := at?_replaced h.planted.replaced rfl rfl 0
  rw [Nat.zero_add] at hold hnew
  rw [h.tree_eq]
  exact ⟨hold, hnew⟩

lemma alters_root (focus : List Nat) :
    Carrier.Alters ⟨e, focus⟩ (0 + n + sizeAll A) (sizeAll X) (sizeAll Y) := by
  rw [Nat.zero_add]
  exact h.alters focus

lemma carried_eq (focus : List Nat) :
    d.carried focus e (plant uA Y uB) = Carrier.carryPath ⟨e, focus⟩ 0 ⟨0, tree⟩ d.root := by
  rw [carried, h.usual, ← h.parse.1]
  rfl

lemma exists_commit (hedit : m.edit? d.text = some e) (i : Nat) : ∃ focus new log,
    d.commit i m = some (new, log) ∧ new = (d.advance focus m e (plant uA Y uB)).1 :=
  ⟨_, _, _, commit_eq_advance hedit (h.alters []).some h.result i, rfl⟩

section

variable (hnew : new = (d.advance focus m e (plant uA Y uB)).1)
include hnew

lemma tree_advance : new.tree = ⟨0, tree⟩ := by
  rw [hnew, ← h.parse.1]
  exact (h.sound.advance focus m e _).tree_usual h.usual

lemma clean_advance : new.diagnostics = [] := by
  rw [hnew]
  exact ((h.sound.advance focus m e _).diagnostics_usual h.usual).trans h.parse.2

lemma keeps_advance : Keeps new.reader := by
  rw [hnew, show (d.advance focus m e (plant uA Y uB)).1.reader = .usual from h.usual]
  exact keeps_usual

lemma exists_node_of_kept {b : Address} (hi : d.node i = .ok v)
    (hkept : ∃ w' l' v', (Carrier.carryPath ⟨e, focus⟩ 0 ⟨0, tree⟩ d.root).kept = [w'] ∧
      w'.ordinal = 0 ∧ Trail w' l' v' ∧ v'.index = v.index ∧ ordinals l' = b) :
    ∃ v', new.node i = .ok v' ∧ new.address v' = b ∧ new.tree.at? b = some v'.site := by
  obtain ⟨w', l', v', hone, -, hl', hindex', rfl⟩ := hkept
  obtain ⟨hdocument, -, hindex⟩ := h.sound.node_eq_ok.1 hi
  have hsound : new.Sound := hnew ▸ h.sound.advance focus m e _
  have hcarried : (d.carried focus e (plant uA Y uB)).kept = [w'] := by
    rw [h.carried_eq, hone]
  -- The root is on the way as well, so it is carried over and not made anew.
  have hroot : new.root = w' := hnew ▸ h.sound.root_advance hcarried m
  have htag : new.tag = d.tag := hnew ▸ rfl
  rw [← hroot] at hl'
  exact ⟨v', hsound.node_eq_ok.2 ⟨hdocument.trans htag.symm, hl'.mem, hindex'.trans hindex⟩,
    hsound.address_eq hl', hsound.bound.at? hl'⟩

lemma exists_node (hi : d.node i = .ok v) (hway : d.address v <+: a) :
    ∃ v', new.node i = .ok v' ∧ new.tree.at? (d.address v) = some v'.site := by
  obtain ⟨l, hl⟩ := exists_trail (h.sound.node_eq_ok.1 hi).2.1
  rw [h.sound.address_eq hl] at hway ⊢
  obtain ⟨v', hv', -, hat⟩ := h.exists_node_of_kept hnew hi (Carrier.exists_kept h.planted.replaced
    (h.alters_root focus) h.edges h.sound.bound h.tree_eq hl hway)
  exact ⟨v', hv', hat⟩

lemma isForgotten_iff (hi : d.node i = .ok v) :
    new.isForgotten i = true ↔ v ∈ (d.carried focus e (plant uA Y uB)).lost := by
  have hloses := h.sound.loses_advance focus m e (plant uA Y uB)
  rw [← hnew] at hloses
  exact hloses.isForgotten_iff h.sound hi

end

lemma exists_child {j : Nat}
    (hX : count X = 0) (hnew : new = (d.advance focus m e (plant uA Y uB)).1)
    (hi : d.node i = .ok v) (haddress : d.address v = a ++ [j]) :
    ∃ v', new.node i = .ok v' ∧ ((j < count A ∧ new.address v' = a ++ [j] ∧ v'.site = v.site) ∨
      (count A ≤ j ∧ new.address v' = a ++ [j + count Y] ∧ v'.site.tree = v.site.tree ∧
      v'.site.start + sizeAll X = v.site.start + sizeAll Y)) := by
  obtain ⟨l, hl⟩ := exists_trail (h.sound.node_eq_ok.1 hi).2.1
  have hordinals := haddress
  rw [h.sound.address_eq hl] at hordinals
  obtain ⟨v', hv', hplace, hat'⟩ := h.exists_node_of_kept hnew hi (Carrier.exists_kept_beside
    h.planted.replaced (h.alters_root focus) h.edges h.sound.bound h.tree_eq hX h.firm hl hordinals)
  refine ⟨v', hv', ?_⟩
  have hat : d.tree.at? (a ++ [j]) = some v.site :=
    haddress ▸ (h.sound.attached (h.sound.node_eq_ok.1 hi).2.1).node
  have hold := (at?_concat h.at?.1 j).symm.trans hat
  rw [h.tree_advance hnew] at hat'
  have hgrown := (at?_concat h.at?.2 _).symm.trans hat'
  rcases nodes_beside hold Y with ⟨hlt, -, hsame⟩ | ⟨hle, hin⟩ | ⟨hle, c', hmoved, hshifted⟩
  · rw [if_pos hlt] at hplace hgrown
    exact .inl ⟨hlt, hplace, mem_unique hgrown hsame⟩
  · have hlt := (List.getElem?_eq_some_iff.1 hin).1
    rw [length_nodes] at hlt
    omega
  · rw [if_neg (by omega)] at hplace hgrown
    rw [hX, Nat.sub_zero] at hmoved
    obtain rfl : v'.site = c' := mem_unique hgrown hmoved
    exact .inr ⟨by omega, hplace, hshifted.tree, hshifted.start⟩

lemma not_forgotten (hX : count X = 0) (hnew : new = (d.advance focus m e (plant uA Y uB)).1)
    (hi : d.node i = .ok v) : new.isForgotten i = false := by
  have hlost : (Carrier.carryPath ⟨e, focus⟩ 0 ⟨0, tree⟩ d.root).lost = [] := Carrier.lost_replaced
    h.planted.replaced (h.alters_root focus) h.edges h.sound.bound h.tree_eq hX h.firm
  apply Bool.eq_false_iff.2
  intro hforgotten
  rw [h.isForgotten_iff hnew hi, h.carried_eq, hlost] at hforgotten
  exact List.not_mem_nil hforgotten

lemma isForgotten_iff_below (hX : count X = 1)
    (hremoved : 0 < e.removed) (hcover : e.oldSpan.contains w.span = true) (hw : w ∈ d.root.all)
    (haddress : d.address w = a ++ [count A]) (hnew : new = (d.advance focus m e (plant uA Y uB)).1)
    (hi : d.node i = .ok v) : new.isForgotten i = true ↔ v ∈ w.all := by
  obtain ⟨l, hl⟩ := exists_trail hw
  rw [h.sound.address_eq hl] at haddress
  rw [h.isForgotten_iff hnew hi, h.carried_eq]
  exact Carrier.mem_lost_replaced h.planted.replaced (h.alters_root focus)
    hX hremoved hcover h.edges h.sound.bound h.tree_eq h.firm hl haddress

end Grafts
end LiveEdit.Document
