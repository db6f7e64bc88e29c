import LiveEdit.Proofs.Document.Reconciliation
import LiveEdit.Proofs.Document.Removals
import LiveEdit.Proofs.Wrapper.Offsets

/-! No plan runs out of the text, so every operation is refused or carried out. -/

namespace LiveEdit
open Option
open List hiding span

namespace Site

variable {t : Text} {s : Site}

lemma Lies.start_isBoundary (h : Lies t s) : t.isBoundary s.span.start = true := by
  obtain ⟨a, b, htext, ha⟩ := h
  exact Text.isBoundary_iff.2 ⟨a, _, htext, ha⟩

lemma Lies.stop_isBoundary (h : Lies t s) : t.isBoundary s.span.stop = true := by
  obtain ⟨a, b, htext, ha⟩ := h
  refine Text.isBoundary_iff.2 ⟨a ++ s.text, b, ?_, ?_⟩
  · rw [append_assoc, htext]
  · rw [Text.size_append, ha, text, ← Tree.size_eq_text]
    rfl

end Site

namespace Document
open Failure Wrapper

inductive Settles {α : Type} (P : α → Prop) : Except Failure α → Prop where
  | refused (e : EditError) : Settles P (.error (.refused e))
  | ok {a : α} (h : P a) : Settles P (.ok a)

section
variable {α β : Type} {P : α → Prop} {Q : β → Prop} {x : Except Failure α}

lemma Settles.bind {f : α → Except Failure β} (h : Settles P x)
    (hf : ∀ a, P a → Settles Q (f a)) : Settles Q (x >>= f) := by
  cases h with
  | refused e => exact .refused e
  | ok h => exact hf _ h

lemma Settles.mono {P' : α → Prop} (h : Settles P x) (himp : ∀ a, P a → P' a) : Settles P' x := by
  cases h with
  | refused e => exact .refused e
  | ok h => exact .ok (himp _ h)

end

variable {d new : Document} {n : NodeId} {w parent : Wrapper} {s : Span} {m : Manipulation}
  {t u text : Text} {e : Edit} {l : MemberList} {start size stop offset : Nat}
  {braces : Site × Site} {list : Site}

lemma exists_commit (hm : m.Fits d.text) (focus : Nat) : ∃ e new log, m.edit? d.text = some e ∧
    e.result? d.text = some new.text ∧ d.commit focus m = some (new, log) := by
  obtain ⟨e, u, he, hu⟩ := hm
  cases hempty : e.isEmpty with
  | true =>
    obtain rfl := Edit.result?_of_isEmpty hempty hu
    refine ⟨e, d, [.skipped], he, hu, ?_⟩
    rw [commit, he]
    simp [hempty]
  | false => exact ⟨e, _, _, he, hu, commit_eq_advance he hempty hu focus⟩

section
variable (h : d.Sound) (hk : Keeps d.reader)
include h hk

lemma Sound.tree_span : d.tree.span = .sized 0 d.text.size := by
  have hsize : (d.reader d.version d.text).tree.size = d.text.size := by
    rw [Tree.size_eq_text, hk]
  rw [Document.tree, h.tree, Site.span, hsize]

lemma Sound.exists_covering? (hs : s.stop ≤ d.text.size) : ∃ a, d.tree.covering? s = some a := by
  have hin : d.tree.span.contains s = true := by
    rw [h.tree_span hk]
    refine Span.contains_iff.2 ⟨Nat.zero_le _, ?_⟩
    show s.stop ≤ 0 + d.text.size
    omega
  exact ⟨_, by rw [Site.covering?, if_pos hin]⟩

lemma Sound.stop_le_size (hw : w ∈ d.root.all) : w.span.stop ≤ d.text.size := by
  obtain ⟨a, b, htext, ha⟩ := h.lies hk hw
  have hsize := congrArg Text.size htext
  have hspan : w.span.stop = w.site.start + w.site.tree.size := rfl
  rw [Text.size_append, Text.size_append, Site.text, ← Tree.size_eq_text] at hsize
  omega

lemma Sound.node_lies (hw : d.node n = .ok w) : Site.Lies d.text w.site :=
  h.lies hk (h.node_eq_ok.1 hw).2.1

lemma Sound.stop_le_of_replace {u text : Text}
    (hw : d.node n = .ok w) (hin : w.span.contains s = true)
    (hresult : (⟨s.start, s.size, text⟩ : Edit).result? d.text = some u) :
    (Span.sized w.span.start (w.span.size - s.size + text.size)).stop ≤ u.size := by
  obtain ⟨hfront, hback⟩ := Span.contains_iff.1 hin
  have hwhole := h.stop_le_size hk (h.node_eq_ok.1 hw).2.1
  have hsize := Edit.size_result? hresult
  have hle := s.le
  simp only [Span.sized, Span.size] at hsize ⊢
  omega

lemma Sound.parent_lies (hw : d.node n = .ok w) (hp : d.root.parent? w.index = some parent) :
    Site.Lies d.text parent.site ∧ parent.site.nodes[w.ordinal]? = some w.site := by
  obtain ⟨hparent, v, hv, hindex⟩ := exists_of_parent? hp
  obtain rfl := eq_of_index_eq h.nodup (mem_all_of_child hparent hv) (h.node_eq_ok.1 hw).2.1 hindex
  exact ⟨h.lies hk hparent, (h.bound.of_mem hparent).nodes v hv⟩

end

lemma lies_of_find? {s : Site} {place : BlockPlace} (hs : Site.Lies t s)
    (hfind : place.find? s = some list) : Site.Lies t list := by
  cases place with
  | own =>
    obtain rfl := some.inj hfind
    exact hs
  | inner => exact hs.node (mem_of_find?_eq_some hfind)

lemma node_of_modifiable {feature : Feature} {accepts : ModifierRole → Bool}
    (hw : d.modifiable n feature accepts = .ok w) : d.node n = .ok w := by
  obtain ⟨v, hv, hw⟩ := bind_eq_ok hw
  split_ifs at hw
  rw [hv, Except.ok.inj hw]

structure Insertion.Holds (i : Insertion) (t : Text) (size : Nat) : Prop where
  fits : i.manipulation.Fits t
  room : ∀ e, i.manipulation.edit? t = some e → i.start + size ≤ e.position + e.inserted.size

lemma lies_member {s : Site} {c : Nat × Site} (hs : Site.Lies t s) (hc : c ∈ s.members l) :
    Site.Lies t c.2 := by
  obtain ⟨c', hc', rfl⟩ := mem_map.1 hc
  apply hs.node
  show c'.1 ∈ s.nodes
  rw [(mem_zipIdx' (mem_filter.1 hc').1).2]
  exact getElem_mem _

end Document
end LiveEdit
