import LiveEdit.Proofs.Document.Grafting
import LiveEdit.Proofs.Document.Safety
import LiveEdit.Proofs.Parse.Clearings

namespace LiveEdit
open List hiding count
open LiveEdit.Tree

def Site.parts (s : Site) : List (Kind × Text) := s.nodes.map fun c => (c.kind, c.text)

lemma Site.parts_node (n : Nat) (k : Kind) (ts : List Tree) :
    (⟨n, .node k ts⟩ : Site).parts = (ts.filter isNode).map fun t => (t.kind, t.text) := by
  rw [← trees_row n ts, map_map]
  rfl

namespace Document
open Failure Text Parse Wrapper

variable {d new : Document} {n : NodeId} {w v parent : Wrapper} {start stop : Nat} {k : Kind}
  {C : List Tree}
  {trim : Trim}

lemma exists_removalTrim (hstart : d.text.isBoundary start = true)
    (hstop : d.text.isBoundary stop = true) : ∃ trim, d.removalTrim start stop = .ok trim ∧
    trim.newlinesBefore = false ∧ ∀ x y z, d.text = x ++ (y ++ z) → x.size = start →
    x.size + y.size = stop → (∀ c ∈ (trim.front x).getLast?, c = '\n') ∨ trim.spacesBefore = false ∨
    ∀ c ∈ (trim.back z).head?, isNewline c = true := by
  obtain ⟨starts, hstarts⟩ := exists_startsLine? hstart
  obtain ⟨ends, hends⟩ := exists_endsLine? hstop
  cases starts with
  | true =>
    refine ⟨{ spacesBefore := true, spacesAfter := true, newlinesAfter := true }, ?_, rfl, ?_⟩
    · rw [removalTrim, hstarts]
      rfl
    · rintro x y z htext rfl -
      rw [startsLine?, htext, cut?_append] at hstarts
      refine .inl fun c hc => ?_
      have hall : (dropEnd isSpace x).getLast?.all (· == '\n') = true := Option.some.inj hstarts
      rw [show (dropEnd isSpace x).getLast? = some c from hc] at hall
      exact eq_of_beq hall
  | false =>
    refine ⟨{ spacesBefore := ends, spacesAfter := true }, ?_, rfl, ?_⟩
    · rw [removalTrim, hstarts, hends]
      rfl
    · rintro x y z htext rfl rfl
      cases ends with
      | false => exact .inr (.inl rfl)
      | true =>
        rw [← append_assoc] at htext
        rw [endsLine?, htext, ← size_append, cut?_append] at hends
        refine .inr (.inr fun c hc => ?_)
        have hall : (z.dropWhile isSpace).head?.all isNewline = true := Option.some.inj hends
        rw [show (z.dropWhile isSpace).head? = some c from hc] at hall
        exact hall

structure Cleared (d : Document) (n : NodeId) (w parent : Wrapper)
    {start : Nat} {k : Kind} {C : List Tree}
    {trim : Trim} (p : Clearing d.text (d.address parent) start k C trim) : Prop where
  graded : d.Graded
  usual : d.reader = .usual
  clean : d.diagnostics = []
  node : d.node n = .ok w
  above : d.root.parent? w.index = some parent
  list : parent.site = p.list
  heavy : ∃ m ∈ (leavesAll C).head?, m.1.isTrivia = false
  item : C.filter isNode = [w.site.tree]
  ordinal : count (p.opening ++ p.before) = w.ordinal
  trims : trim.newlinesBefore = false
  removal : d.removal parent w = .ok ⟨.sized p.place (sizeAll C), trim, []⟩
  parse : (ofText p.text).tree = p.tree ∧ (ofText p.text).diagnostics = []

namespace Cleared

variable {p : Clearing d.text (d.address parent) start k C trim} {focus : List Nat}
  {m : Manipulation}
  {e : Edit}

variable (h : Cleared d n w parent p)
include h

lemma clean_text : (ofText d.text).diagnostics = [] :=
  (h.graded.sound.diagnostics_usual h.usual).symm.trans h.clean

lemma child : parent ∈ d.root.all ∧ w ∈ parent.children := by
  obtain ⟨hparent, v, hv, hindex⟩ := exists_of_parent? h.above
  obtain rfl := eq_of_index_eq h.graded.sound.nodup (mem_all_of_child hparent hv)
    (h.graded.sound.node_eq_ok.1 h.node).2.1 hindex
  exact ⟨hparent, hv⟩

lemma exists_edit : ∃ e, (⟨.sized p.place (sizeAll C), trim, []⟩ : Removal).edit? d.text = some e ∧
    0 < e.removed ∧ (∀ focus, Carrier.Alters ⟨e, focus⟩ (start + sizeAll (p.opening ++ p.before))
      (sizeAll (pad p.left ++ (C ++ pad p.right))) (sizeAll (pad p.room))) ∧
    e.result? d.text = some p.text := by
  obtain ⟨e, hedit, hposition, hstop, hinserted, hresult⟩ := Removal.exists_edit? (r := ⟨.sized
    p.place (sizeAll C), trim, []⟩) (c := textAll C) (b := p.right ++ Lexeme.spell p.uB) p.place_eq
    (by rw [← sizeAll_eq_text, Span.sized, Span.size, Nat.add_sub_cancel_left])
  rw [← p.text_eq] at hedit hresult
  have hpos := p.size_pos h.heavy
  have hplace := p.planted.place
  obtain ⟨x, hx, -⟩ := trim.exists_front p.left
  obtain ⟨y, hy, -⟩ := trim.exists_back p.right
  have hleft := congrArg Text.size hx
  have hright := congrArg Text.size hy
  have hX :
      sizeAll (pad p.left ++ (C ++ pad p.right)) = p.left.size + (sizeAll C + p.right.size) := by
    rw [sizeAll_append, sizeAll_append, size_pad, size_pad]
  have hroom : sizeAll (pad p.room) = (trim.front p.left).size + (trim.back p.right).size := by
    rw [size_pad, Clearing.room, size_append]
  simp only [p.front_eq h.clean_text h.heavy h.trims, p.back_eq, size_append, ← sizeAll_eq_text]
    at hposition hstop hleft hright
  have hremoved : 0 < e.removed := by omega
  refine ⟨e, hedit, hremoved, fun focus => ⟨?_, ?_, ?_, ?_⟩, ?_⟩
  · change _ ≤ e.position
    omega
  · change e.position + e.removed ≤ _
    omega
  · change e.inserted.size + _ = e.removed + _
    rw [hinserted, hX, hroom]
    change 0 + _ = _
    omega
  · rw [Edit.isEmpty, Bool.and_eq_false_iff]
    exact .inl (beq_false_of_ne hremoved.ne')
  · rw [p.text_trimmed h.clean_text h.heavy h.trims]
    exact hresult

lemma grafts (halters : ∀ focus, Carrier.Alters ⟨e, focus⟩ (start + sizeAll (p.opening ++ p.before))
      (sizeAll (pad p.left ++ (C ++ pad p.right))) (sizeAll (pad p.room)))
    (hresult : e.result? d.text = some p.text) :
    Grafts d e (d.address parent) start k (p.opening ++ p.before) (pad p.left ++ (C ++ pad p.right))
      (p.after ++ p.closing) (pad p.room) p.uA p.uX p.uB p.tree :=
  ⟨h.graded, h.usual, h.clean, p.planted, p.planted.edges_bed p.bed, h.parse, halters, hresult⟩

lemma parts_shrunk : p.shrunk.parts = parent.site.parts.eraseIdx w.ordinal := by
  have hlength : (((p.opening ++ p.before).filter isNode).map fun t => (t.kind, t.text)).length =
      w.ordinal := by
    rw [length_map, ← countP_eq_length_filter]
    exact h.ordinal
  have hlist : (p.opening ++ p.before ++
      ((pad p.left ++ (C ++ pad p.right)) ++ (p.after ++ p.closing))).filter isNode =
      (p.opening ++ p.before).filter isNode ++ w.site.tree ::
      (p.after ++ p.closing).filter isNode := by
    simp [filter_pad, h.item]
  have hshrunk : (p.opening ++ p.before ++ (pad p.room ++ (p.after ++ p.closing))).filter isNode =
      (p.opening ++ p.before).filter isNode ++ (p.after ++ p.closing).filter isNode := by
    simp [filter_pad]
  rw [h.list, Clearing.list, Clearing.shrunk, Site.parts_node, Site.parts_node, hlist, hshrunk,
    map_append, map_append, map_cons, ← hlength,
    eraseIdx_append_of_length_le (Nat.le_refl _), Nat.sub_self, eraseIdx_cons_zero]

lemma exists_outcome :
    ∃ o parent', d.remove n = some o ∧ o.answer = .ok () ∧ o.document.diagnostics = [] ∧
    (∀ i v, d.node i = .ok v → (o.document.isForgotten i = true ↔ v ∈ w.all)) ∧ o.document.text =
      p.text ∧ o.document.node (d.nodeId parent.index) = .ok parent' ∧ parent'.site = p.shrunk := by
  obtain ⟨e, hedit, hremoved, halters, hresult⟩ := h.exists_edit
  have hgrafts := h.grafts halters hresult
  have hsound := h.graded.sound
  obtain ⟨hparent, hchild⟩ := h.child
  have hcovers : e.oldSpan.contains w.span = true :=
    Span.contains_trans (Removal.contains_of_edit? hedit).1
      (contains_of_removal (hsound.bound.of_mem hparent) hchild h.removal).1
  have hone : count (pad p.left ++ (C ++ pad p.right)) = 1 := by
    rw [count, countP_eq_length_filter, filter_append, filter_append, filter_pad,
      filter_pad, h.item]
    rfl
  have haddress : d.address w = d.address parent ++ [count (p.opening ++ p.before)] := by
    rw [h.ordinal]
    exact hsound.address_child hparent hchild
  obtain ⟨focus, new, log, hcommit, hnew⟩ := hgrafts.exists_commit
    (m := .removal ⟨.sized p.place (sizeAll C), trim, []⟩) hedit parent.index
  have hforgotten : ∀ i v, d.node i = .ok v → (new.isForgotten i = true ↔ v ∈ w.all) :=
    fun i v hi => hgrafts.isForgotten_iff_below hone hremoved hcovers
    (hsound.node_eq_ok.1 h.node).2.1 haddress hnew hi
  have hnode : d.node (d.nodeId parent.index) = .ok parent :=
    hsound.node_eq_ok.2 ⟨rfl, hparent, rfl⟩
  obtain ⟨parent', hparent', hat⟩ := hgrafts.exists_node hnew hnode (prefix_refl _)
  rw [hgrafts.tree_advance hnew, hgrafts.at?.2] at hat
  refine ⟨⟨.ok (), new, log⟩, parent', ?_, rfl, hgrafts.clean_advance hnew, hforgotten, ?_,
    hparent', (Option.some.inj hat).symm⟩
  · rw [remove, h.node]
    simp only [refusing, bind, Except.bind, h.above, h.removal, pure, Except.pure, attempt, hcommit,
      Option.bind, if_pos ((hforgotten n w h.node).2 (self_mem_all w))]
  · rw [hnew]
    rfl

omit h in
lemma exists_removed {p : Clearing d.text (d.address parent) start k [w.site.tree] trim}
    (h : Cleared d n w parent p) :
    ∃ a x y b, d.text = a ++ (x ++ (w.site.text ++ (y ++ b))) ∧ (a ++ x).size = w.span.start ∧
      p.text = a ++ b ∧ ∀ c ∈ x ++ y, isSpace c = true ∨ isNewline c = true := by
  obtain ⟨hparent, hchild⟩ := h.child
  have hcontains := (contains_of_removal (h.graded.sound.bound.of_mem hparent) hchild h.removal).1
  have hsize : w.span.stop = w.span.start + sizeAll [w.site.tree] := by
    rw [sizeAll, sizeAll, add_zero]
    rfl
  have hplace : p.place = w.span.start := by
    rw [Span.contains_iff] at hcontains
    simp only [Span.sized] at hcontains
    omega
  obtain ⟨x, hx, hfront⟩ := trim.exists_front (Lexeme.spell p.uA ++ p.left)
  obtain ⟨y, hy, hback⟩ := trim.exists_back (p.right ++ Lexeme.spell p.uB)
  refine ⟨_, x, y, _, ?_, ?_, p.text_trimmed h.clean_text h.heavy h.trims, fun c hc => ?_⟩
  · conv_lhs => rw [p.text_eq, hx, hy, textAll, textAll, append_nil, append_assoc]
    rfl
  · rw [← hx, p.place_eq, hplace]
  · exact (List.mem_append.1 hc).elim (hfront c) (hback c)

end Cleared
end Document
end LiveEdit
