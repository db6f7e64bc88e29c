import LiveEdit.Proofs.Document.Moves
import LiveEdit.Proofs.Text.Trimming
import LiveEdit.Proofs.Wrapper.Bound

namespace LiveEdit
open Option

variable {r : Removal} {t : Text}

lemma Removal.contains_of_edit? {e : Edit} (h : r.edit? t = some e) :
    e.oldSpan.contains r.span = true ∧ e.inserted = r.replacement := by
  simp only [Removal.edit?, bind_eq_bind, bind_eq_some_iff] at h
  obtain ⟨⟨before, rest⟩, hfront, ⟨removed, after⟩, -, h⟩ := h
  have hstart : before.size = r.span.start := (Text.append_eq_of_cut? hfront).2
  obtain ⟨x, hx, -⟩ := r.trim.exists_front before
  have hsize := congrArg Text.size hx
  rw [Text.size_append] at hsize
  have hspan := r.span.le
  obtain rfl := some.inj h
  refine ⟨Span.contains_iff.2 ?_, rfl⟩
  simp only [Edit.oldSpan, Span.sized]
  omega

namespace Document
open Wrapper

variable {d : Document} {parent w : Wrapper} {r : Removal} {z : Site} {trim : Trim} {m : Nat}

lemma between?_eq_some {start stop : Nat} {s : Span} (h : Span.between? start stop = some s) :
    s.start = start ∧ s.stop = stop := by
  unfold Span.between? at h
  split_ifs at h
  obtain rfl := some.inj h
  exact ⟨rfl, rfl⟩

lemma within_eq_ok {α : Type} {o : Option α} {a : α} (h : Failure.within o = .ok a) :
    o = some a := by
  cases o with
  | none => cases h
  | some b => rw [Except.ok.inj h]

lemma contains_of_removal (hb : parent.Bound) (hc : w ∈ parent.children)
    (h : d.removal parent w = .ok r) : r.span.contains w.span = true ∧ r.replacement = [] := by
  have hnode := hb.nodes w hc
  have hle := w.span.le
  have hplain : ∀ {trim : Except Failure Trim},
      (do return ⟨w.span, ← trim, []⟩ : Except Failure Removal) = .ok r →
        r.span.contains w.span = true ∧ r.replacement = [] := by
    intro trim h
    obtain ⟨trim, -, h⟩ := bind_eq_ok h
    obtain rfl := Except.ok.inj h
    exact ⟨Span.contains_self _, rfl⟩
  unfold removal at h
  dsimp only at h
  split_ifs at h
  · split at h
    next comma hcomma =>
      -- the comma after the node
      have hnext := Site.stop_le_next? hnode (filter_eq_some_iff.1 hcomma).1
      obtain ⟨span, hspan, h⟩ := bind_eq_ok h
      obtain ⟨trim, -, h⟩ := bind_eq_ok h
      obtain ⟨hstart, hstop⟩ := between?_eq_some (within_eq_ok hspan)
      obtain rfl := Except.ok.inj h
      have hcomma := comma.span.le
      refine ⟨Span.contains_iff.2 ⟨Nat.le_of_eq hstart, ?_⟩, rfl⟩
      rw [hstop]
      exact hnext.trans hcomma
    next comma hnone hcomma =>
      -- the comma before it
      have hprevious := Site.previous?_stop_le hnode (filter_eq_some_iff.1 hcomma).1
      obtain ⟨starts, -, h⟩ := bind_eq_ok h
      obtain ⟨span, hspan, h⟩ := bind_eq_ok h
      obtain ⟨hstart, hstop⟩ := between?_eq_some (within_eq_ok hspan)
      obtain rfl := Except.ok.inj h
      have hcomma := comma.span.le
      refine ⟨Span.contains_iff.2 ⟨?_, Nat.le_of_eq hstop.symm⟩, rfl⟩
      rw [hstart]
      exact hcomma.trans hprevious
    next => exact hplain h
  · exact hplain h

lemma filter_comma_eq_none {o : Option Site} (h : ∀ z ∈ o, z.kind ≠ .comma) :
    o.filter (·.kind == .comma) = none :=
  filter_eq_none_iff.2 fun z hz heq => h z hz (eq_of_beq heq)

lemma removal_plain (htrim : d.removalTrim w.span.start w.span.stop = .ok trim)
    (hcomma : isListItem parent.kind w.kind = true → (∀ z ∈ parent.site.next? w.ordinal,
      z.kind ≠ .comma) ∧ ∀ z ∈ parent.site.previous? w.ordinal, z.kind ≠ .comma) :
    d.removal parent w = .ok ⟨w.span, trim, []⟩ := by
  unfold removal
  dsimp only
  rw [htrim]
  by_cases hitem : isListItem parent.kind w.kind = true
  · rw [if_pos hitem, filter_comma_eq_none (hcomma hitem).1, filter_comma_eq_none (hcomma hitem).2]
    rfl
  · rw [if_neg hitem]
    rfl

lemma between?_sized {a b : Nat} (h : b = a + m) : Span.between? a b = some (.sized a m) := by
  subst h
  exact dif_pos (Nat.le_add_right a m)

lemma removal_next (hitem : isListItem parent.kind w.kind = true)
    (hnext : parent.site.next? w.ordinal = some z)
    (hz : z.kind = .comma) (hstop : z.span.stop = w.span.start + m)
    (htrim : d.removalTrim w.span.start (w.span.start + m) = .ok trim) :
    d.removal parent w = .ok ⟨.sized w.span.start m, trim, []⟩ := by
  unfold removal
  dsimp only
  rw [if_pos hitem, hnext, filter_some, if_pos (beq_iff_eq.2 hz)]
  simp only [between?_sized hstop, Failure.within, bind, Except.bind]
  rw [show d.removalTrim (Span.sized w.span.start m).start (Span.sized w.span.start m).stop =
    .ok trim from htrim]
  rfl

lemma removal_previous (hitem : isListItem parent.kind w.kind = true)
    (hnext : ∀ z ∈ parent.site.next? w.ordinal, z.kind ≠ .comma)
    (hprevious : parent.site.previous? w.ordinal = some z) (hz : z.kind = .comma)
    (hstop : w.span.stop = z.span.start + m) (hboundary : d.text.isBoundary w.span.start = true) :
    d.removal parent w = .ok ⟨.sized z.span.start m, {}, []⟩ := by
  obtain ⟨starts, hstarts⟩ := Text.exists_startsLine? hboundary
  unfold removal
  dsimp only
  rw [if_pos hitem, filter_comma_eq_none hnext, hprevious, filter_some, if_pos (beq_iff_eq.2 hz)]
  simp only [between?_sized hstop, Failure.within, bind, Except.bind, hstarts]
  rfl

end Document
end LiveEdit
