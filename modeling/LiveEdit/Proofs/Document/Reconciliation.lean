import LiveEdit.Proofs.Document.Consistency

namespace LiveEdit
open List Option

/-- Where a node `old` lies after an edit, as `new`. If texts are `kept` by the readings, a node
beside the edit keeps its text, and one around it has its text edited. -/
inductive Edit.Rebinds (e : Edit) (kept isRoot : Prop) (old new : Site) : Prop where
  | before (place : old.span.stop ≤ e.oldSpan.start) (span : new.span = old.span)
      (text : kept → new.text = old.text)
  | after (place : e.oldSpan.stop ≤ old.span.start)
      (start : (new.span.start : Int) = old.span.start + e.delta)
      (stop : (new.span.stop : Int) = old.span.stop + e.delta)
      (text : kept → new.text = old.text)
  | around (place : old.span.contains e.oldSpan = true ∨ isRoot)
      (start : new.span.start = old.span.start)
      (stop : (new.span.stop : Int) = old.span.stop + e.delta)
      (text : kept → (e.within old.span).result? old.text = some new.text)

namespace Document
open Wrapper

variable {d new : Document} {n : NodeId} {w w' : Wrapper} {x : Carrier} {e : Edit} {text : Text}
  {focus : List Nat} {m : Manipulation}

/-- How a wrapper comes to be live after an edit: the root by growing, and another by being carried
from below a parent to below that same parent. -/
inductive Survives (x : Carrier) (d new : Document) : Wrapper → Wrapper → Prop where
  | root (index : new.root.index = d.root.index)
      (grown : x.grownInto d.root.site new.root.site = true) : Survives x d new d.root new.root
  | child {p p' c c' : Wrapper} {placement : Placement} (hp : p ∈ d.root.all)
      (hp' : p' ∈ new.root.all) (hc : c ∈ p.children) (hc' : c' ∈ p'.children)
      (parent : p'.index = p.index) (index : c'.index = c.index)
      (moves : x.Moves c.site c'.site placement) : Survives x d new c c'

lemma Sound.survives (h : d.Sound) (hnew : new = (d.advance focus m e text).1) (hw : w ∈ d.root.all)
    (hw' : w' ∈ new.root.all) (hindex : w'.index = w.index) : Survives ⟨e, focus⟩ d new w w' := by
  have hcarries := h.carries focus e text
  obtain ⟨root, hkept, hadvance⟩ | ⟨-, hadvance⟩ := h.advance_cases focus m e text
  · obtain rfl : root = new.root := by rw [hnew, hadvance]; rfl
    have hroot : new.root ∈ (d.carried focus e text).kept := hkept ▸ mem_cons_self
    have hsame := hcarries.index _ hroot
    by_cases htop : w' = new.root
    · subst htop
      obtain rfl := eq_of_index_eq h.nodup hw (self_mem_all _) (hindex.symm.trans hsame)
      have hgrown := Carrier.kept_carryPath hroot
      exact .root hsame (hgrown.2.1 ▸ hgrown.2.2)
    · obtain ⟨p', hp', hc'⟩ := exists_parent hw' htop
      have hlinked := hcarries.links p' (mem_allOf.2 ⟨_, hroot, hp'⟩) w' hc'
      obtain ⟨p, hp, c, hc, hparent, hchild, placement, hmoves⟩ := hlinked
      obtain rfl := eq_of_index_eq h.nodup (mem_all_of_child hp hc) hw (hchild.trans hindex)
      exact .child hp hp' hc hc' hparent.symm hindex hmoves
  · -- a new root has a number that no wrapper had
    have hfresh : w.index < d.fresh := h.lt_fresh_iff.2 (.inl (mem_indices_of_mem hw))
    have hmem : w' ∈ (d.advance focus m e text).1.root.all := hnew ▸ hw'
    rw [hadvance] at hmem
    obtain rfl := mem_singleton.1 hmem
    exact absurd hindex hfresh.ne'

lemma Survives.index (h : Survives x d new w w') : w'.index = w.index := by
  cases h with
  | root index _ => exact index
  | child _ _ _ _ _ index _ => exact index

lemma Survives.kind (h : Survives x d new w w') : w'.kind = w.kind := by
  cases h with
  | root _ grown =>
    simp only [Carrier.grownInto_eq, Bool.and_eq_true, beq_iff_eq] at grown
    exact grown.1.1
  | child _ _ _ _ _ _ moves => exact moves.1

lemma Survives.parent (h : Survives x d new w w') (hd : d.Sound) (hnew : new.Sound)
    (htag : new.tag = d.tag) : new.parent (d.nodeId w.index) = d.parent (d.nodeId w.index) := by
  cases h with
  | root index _ => exact hd.parent_of_root hnew htag index
  | child hp hp' hc hc' parent index _ =>
    exact hd.parent_of_link hnew htag hp hc hp' hc' parent index

lemma Survives.place (h : Survives x d new w w') : w.span.stop ≤ x.edited.start ∧ w'.span = w.span ∨
    x.edited.stop ≤ w.span.start ∧ (w'.span.start : Int) = w.span.start + x.edit.delta ∧
    (w'.span.stop : Int) = w.span.stop + x.edit.delta ∨
    (w.span.contains x.edited = true ∨ w = d.root) ∧ w'.span.start = w.span.start ∧
    (w'.span.stop : Int) = w.span.stop + x.edit.delta := by
  cases h with
  | root _ grown =>
    simp only [Carrier.grownInto_eq, Bool.and_eq_true, beq_iff_eq] at grown
    exact .inr (.inr ⟨.inr rfl, grown.1.2, grown.2⟩)
  | @child _ _ c c' placement _ _ _ _ _ _ moves =>
    obtain ⟨-, hfits, hlands⟩ := moves
    cases placement with
    | before => exact .inl ⟨hfits, Span.eq_of_ends hlands.1 hlands.2⟩
    | after => exact .inr (.inl ⟨hfits, hlands⟩)
    | path => exact .inr (.inr ⟨.inl (Span.contains_iff.2 ⟨hfits.1, hfits.2.1⟩), hlands⟩)

lemma Survives.not_removed (h : Survives x d new w w') (hroot : w ≠ d.root)
    (hpos : w.span.start < w.span.stop) : x.edited.contains w.span = false := by
  cases h with
  | root => exact absurd rfl hroot
  | @child _ _ c c' placement _ _ _ _ _ _ moves =>
    obtain ⟨-, hfits, -⟩ := moves
    rw [Bool.eq_false_iff, Ne, Span.contains_iff]
    rintro ⟨hstart, hstop⟩
    cases placement with
    | before => exact Nat.not_lt.2 (hfits.trans hstart) hpos
    | after => exact Nat.not_lt.2 (hstop.trans hfits) hpos
    | path => exact Bool.eq_false_iff.1 hfits.2.2 (Span.contains_iff.2 ⟨hstart, hstop⟩)

lemma Sound.root_contains (h : d.Sound) (hk : Keeps d.reader)
    (hresult : e.result? d.text = some text) : d.root.span.contains e.oldSpan = true := by
  obtain ⟨a, r, b, htext, -, hp, hr⟩ := Edit.exists_of_result? hresult
  have hsize := congrArg Text.size htext
  simp only [Text.size_append] at hsize
  rw [Span.contains_iff, Wrapper.span, h.tree, Site.span_stop, Tree.size_eq_text, hk]
  refine ⟨Nat.zero_le _, ?_⟩
  change e.position + e.removed ≤ 0 + d.text.size
  omega

lemma Survives.rebinds {kept : Prop} (h : Survives ⟨e, focus⟩ d new w w') (hd : d.Sound)
    (hnew : new.Sound) (hresult : e.result? d.text = some new.text)
    (hkept : kept → Keeps d.reader ∧ Keeps new.reader) (hw : w ∈ d.root.all)
    (hw' : w' ∈ new.root.all) : e.Rebinds kept (w = d.root) w.site w'.site := by
  have hold : kept → d.text.slice? w.span = some w.site.text :=
    fun hk => (hd.lies (hkept hk).1 hw).slice?
  have hnow : kept → new.text.slice? w'.span = some w'.site.text :=
    fun hk => (hnew.lies (hkept hk).2 hw').slice?
  obtain ⟨hplace, hspan⟩ | ⟨hplace, hstart, hstop⟩ | ⟨hplace, hstart, hstop⟩ := h.place
  · refine .before hplace hspan fun hk => ?_
    have hslice := Edit.slice?_before hresult (hold hk) hplace
    rw [← hspan, hnow hk] at hslice
    exact some.inj hslice
  · refine .after hplace hstart hstop fun hk => ?_
    have hslice := Edit.slice?_after hresult (hold hk) hplace hstart hstop
    rw [hnow hk] at hslice
    exact some.inj hslice
  · refine .around hplace hstart hstop fun hk => ?_
    have hin : w.span.contains e.oldSpan = true :=
      hplace.elim id fun hroot => hroot ▸ hd.root_contains (hkept hk).1 hresult
    obtain ⟨hfront, hback⟩ := Span.contains_iff.1 hin
    obtain ⟨y, hy, hslice⟩ := Edit.slice?_around hresult (hold hk) hfront hback hstart hstop
    exact hy.trans (hslice.symm.trans (hnow hk))

lemma Sound.fresh_le_advance (h : d.Sound) (focus : List Nat) (m : Manipulation) (e : Edit)
    (text : Text) : d.fresh ≤ (d.advance focus m e text).1.fresh := by
  obtain ⟨root, -, hadvance⟩ | ⟨-, hadvance⟩ := h.advance_cases focus m e text
  · rw [hadvance]
    exact le_rfl
  · rw [hadvance]
    exact Nat.le_succ _

/-- Each wrapper is forgotten by an edit or survives it. -/
lemma Sound.forgotten_or_survives (h : d.Sound) (hadvance : new = (d.advance focus m e text).1)
    (hw : w ∈ d.root.all) : w.index ∈ new.forgotten.map Prod.fst ∨
      ∃ w' ∈ new.root.all, Survives ⟨e, focus⟩ d new w w' := by
  have hnew : new.Sound := hadvance ▸ h.advance focus m e text
  have hissued : w.index < new.fresh :=
    Nat.lt_of_lt_of_le (h.lt_fresh_iff.2 (.inl (mem_indices_of_mem hw)))
      (hadvance ▸ h.fresh_le_advance focus m e text)
  obtain hlive | hforgotten := hnew.lt_fresh_iff.1 hissued
  · obtain ⟨w', hw', hindex⟩ := mem_map.1 hlive
    exact .inr ⟨w', hw', h.survives hadvance hw hw' hindex⟩
  · exact .inl hforgotten

end Document
end LiveEdit
