import LiveEdit.Proofs.Document.Sound
import LiveEdit.Proofs.Parse.Building

namespace LiveEdit.Document
open Wrapper List Option

/-- The live wrapper `w` with the id `n` agrees with the tree. Its node is given by its address. -/
structure Attached (d : Document) (n : NodeId) (w : Wrapper) : Prop where
  node : d.tree.at? (d.address w) = some w.site
  /-- To ask for the node gives the wrapper and makes no new one. -/
  registered : d.wrap (d.address w) = (d, n)
  unique : ∀ m v, d.node m = .ok v → d.address v = d.address w → m = n ∧ v = w
  parent : (d.address w = [] ∧ d.parent n = .ok none) ∨
    ∃ m p, d.node m = .ok p ∧ d.parent n = .ok (some m) ∧
      d.address w = d.address p ++ [w.ordinal]
  slots : ∀ c ∈ w.children, w.slots.get? c.ordinal = some c ∧
    d.node (d.nodeId c.index) = .ok c ∧ w.site.nodes[c.ordinal]? = some c.site ∧
      d.address c = d.address w ++ [c.ordinal]

structure Consistent (d : Document) : Prop where
  accounted : ∀ i < d.fresh,
    d.isForgotten (d.nodeId i) = true ∨ ∃ w, d.node (d.nodeId i) = .ok w
  unbound : ∀ n, d.isForgotten n = true → ∀ w ∈ d.root.all, d.nodeId w.index ≠ n
  attached : ∀ n w, d.node n = .ok w → d.Attached n w
  root : d.node d.rootId = .ok d.root

variable {d new : Document} {n : NodeId} {v w : Wrapper} {l : List Wrapper}

lemma Sound.live (h : d.Sound) (hw : w ∈ d.root.all) : d.node (d.nodeId w.index) = .ok w :=
  h.node_eq_ok.2 ⟨rfl, hw, rfl⟩

lemma Sound.address_eq (h : d.Sound) (hl : Trail d.root l w) : d.address w = ordinals l := by
  rw [address, hl.trail? h.nodup]
  rfl

lemma Sound.address_child (h : d.Sound) (hv : v ∈ d.root.all) (hw : w ∈ v.children) :
    d.address w = d.address v ++ [w.ordinal] := by
  obtain ⟨l, hl⟩ := exists_trail hv
  rw [h.address_eq hl, h.address_eq (hl.snoc hw), ordinals_snoc hl]

lemma Sound.wrap_address (h : d.Sound) (hw : w ∈ d.root.all) :
    d.wrap (d.address w) = (d, d.nodeId w.index) := by
  obtain ⟨l, hl⟩ := exists_trail hw
  rw [Document.wrap, h.address_eq hl, reach_trail h.bound hl]

lemma Sound.eq_of_address (h : d.Sound) (hv : v ∈ d.root.all) (hw : w ∈ d.root.all)
    (heq : d.address v = d.address w) : v = w := by
  have hid := (h.wrap_address hv).symm.trans (heq ▸ h.wrap_address hw)
  exact eq_of_index_eq h.nodup hv hw (congrArg (·.2.index) hid)

lemma Sound.parent_eq (h : d.Sound) (hw : w ∈ d.root.all) : d.parent (d.nodeId w.index) =
      .ok ((d.root.parent? w.index).map fun p => d.nodeId p.index) := by
  rw [Document.parent, h.live hw]
  rfl

lemma Sound.parent_root (h : d.Sound) : d.parent d.rootId = .ok none := by
  rw [rootId, h.parent_eq (self_mem_all _), parent?_self h.nodup]
  rfl

lemma Sound.parent_child (h : d.Sound) (hv : v ∈ d.root.all) (hw : w ∈ v.children) :
    d.parent (d.nodeId w.index) = .ok (some (d.nodeId v.index)) := by
  rw [h.parent_eq (mem_all_of_child hv hw), parent?_of_child h.nodup hv hw]
  rfl

lemma Sound.parent_of_root (h : d.Sound) (hnew : new.Sound) (htag : new.tag = d.tag)
    (hroot : new.root.index = d.root.index) : new.parent d.rootId = d.parent d.rootId := by
  have hid : new.rootId = d.rootId := by rw [rootId, nodeId, htag, hroot, rootId, nodeId]
  rw [← hid, hnew.parent_root, hid, h.parent_root]

lemma Sound.parent_of_link {p c p' c' : Wrapper} (h : d.Sound) (hnew : new.Sound)
    (htag : new.tag = d.tag) (hp : p ∈ d.root.all) (hc : c ∈ p.children) (hp' : p' ∈ new.root.all)
    (hc' : c' ∈ p'.children) (hparent : p'.index = p.index) (hchild : c'.index = c.index) :
    new.parent (d.nodeId c.index) = d.parent (d.nodeId c.index) := by
  have hid : ∀ i, new.nodeId i = d.nodeId i := fun i => congrArg (NodeId.mk · i) htag
  have hlink := hnew.parent_child hp' hc'
  rw [hid, hid, hchild, hparent] at hlink
  exact hlink.trans (h.parent_child hp hc).symm

lemma Sound.attached (h : d.Sound) (hw : w ∈ d.root.all) :
    d.Attached (d.nodeId w.index) w where
  node := by
    obtain ⟨l, hl⟩ := exists_trail hw
    rw [h.address_eq hl]
    exact h.bound.at? hl
  registered := h.wrap_address hw
  unique m v hv haddress := by
    obtain ⟨htag, hmem, hindex⟩ := h.node_eq_ok.1 hv
    obtain rfl := h.eq_of_address hmem hw haddress
    exact ⟨hindex ▸ (nodeId_eq htag).symm, rfl⟩
  parent := by
    by_cases hroot : w = d.root
    · rw [hroot]
      exact .inl ⟨h.address_eq (.here d.root), h.parent_root⟩
    · obtain ⟨p, hp, hchild⟩ := exists_parent hw hroot
      exact .inr ⟨_, p, h.live hp, h.parent_child hp hchild, h.address_child hp hchild⟩
  slots c hc := by
    have hbound := h.bound.of_mem hw
    exact ⟨(get?_slots hbound).2 ⟨hc, rfl⟩, h.live (mem_all_of_child hw hc), hbound.nodes c hc,
      h.address_child hw hc⟩

lemma Sound.consistent (h : d.Sound) : d.Consistent where
  accounted i hi := by
    obtain hlive | hforgotten := h.lt_fresh_iff.1 hi
    · obtain ⟨w, hw, rfl⟩ := mem_map.1 hlive
      exact .inr ⟨w, h.live hw⟩
    · exact .inl (isForgotten_iff.2 ⟨rfl, hforgotten⟩)
  unbound n hn w hw heq := by
    subst heq
    exact h.not_forgotten (mem_indices_of_mem hw) (isForgotten_iff.1 hn).2
  attached n w hw := by
    obtain ⟨htag, hmem, hindex⟩ := h.node_eq_ok.1 hw
    rw [← nodeId_eq htag, ← hindex]
    exact h.attached hmem
  root := h.live (self_mem_all _)

def Keeps (reader : Reader) : Prop := ∀ n t, (reader n t).tree.text = t

lemma keeps_usual : Keeps .usual := fun _ => Parse.text_ofText

lemma Sound.tree_usual (h : d.Sound) (husual : d.reader = .usual) :
    d.tree = (Parse.ofText d.text).site := by
  rw [Document.tree, h.tree, husual]
  rfl

lemma Sound.diagnostics_usual (h : d.Sound) (husual : d.reader = .usual) :
    d.diagnostics = (Parse.ofText d.text).diagnostics := by
  rw [h.diagnostics, husual]
  rfl

lemma Sound.lies (h : d.Sound) (hk : Keeps d.reader) (hw : w ∈ d.root.all) :
    Site.Lies d.text w.site := by
  refine h.bound.lies ?_ hw
  have hroot := Site.lies_root (d.reader d.version d.text).tree
  rwa [hk, ← h.tree] at hroot

lemma Sound.textMismatches (h : d.Sound) (hk : Keeps d.reader) : d.textMismatches = [] := by
  rw [Document.textMismatches, map_eq_nil_iff, filter_eq_nil_iff]
  intro w hw
  rw [textOf?, Wrapper.span, (h.lies hk hw).slice?]
  simp

/-- Whatever is asked of a document, with whatever success, it stays consistent, and its tree and
diagnostics are what its text reads as. -/
theorem consistent_of_run {tag : Nat} {file : String} {text : Text} {settings : Settings}
    {reader : Reader} {ops : List Operation}
    (h : (create tag file text settings reader).run ops = some d) :
    d.Consistent ∧ d.tree = ⟨0, (reader d.version d.text).tree⟩ ∧
      d.diagnostics = (reader d.version d.text).diagnostics ∧
      (reader = .usual → d.textMismatches = []) := by
  have hsound := sound_run h
  have hreader : d.reader = reader := (moves_run h).fixed.2
  refine ⟨hsound.consistent, ?_, ?_, ?_⟩
  · rw [← hreader]
    exact hsound.tree
  · rw [← hreader]
    exact hsound.diagnostics
  · rintro rfl
    exact hsound.textMismatches (hreader ▸ keeps_usual)

theorem consistent_of_run_edit : ∃ d,
    (create 0 "a.ts" "a;".toList {} .usual).run
      [.descendants ⟨0, 0⟩, .insertAt ⟨0, 1⟩ 1 "b".toList, .forget ⟨0, 1⟩, .descendantAt 0] =
        some d ∧ d.text = "ab;".toList ∧ d.Consistent ∧ d.textMismatches = [] := by
  refine (map_eq_some_iff.1 ?_).imp fun d hd =>
    ⟨hd.1, hd.2, (consistent_of_run hd.1).1, (consistent_of_run hd.1).2.2.2 rfl⟩
  decide +kernel

end LiveEdit.Document
