import LiveEdit.Proofs.Document.Atomicity
import LiveEdit.Proofs.Document.Reconciliation
import LiveEdit.Proofs.Document.Removals
import LiveEdit.Proofs.Wrapper.Sifting

namespace LiveEdit.Document
open Wrapper Relation List Option

variable {d new : Document} {n m : NodeId} {w w' : Wrapper} {lost : List Wrapper}
  {known : LastKnown} {focus : List Nat} {e : Edit} {text : Text}

/-- Of the wrappers of `d`, those in `lost` are the ones that `new` has set down as forgotten. -/
structure Loses (d new : Document) (lost : List Wrapper) : Prop where
  tag : new.tag = d.tag
  fresh : d.fresh ≤ new.fresh
  live : ∀ v ∈ lost, v ∈ d.root.all
  forgotten : new.forgotten = lost.map (fun v => (v.index, v.lastKnown)) ++ d.forgotten

lemma Sound.loses_forget (h : d.Sound) (n : NodeId) : ∃ lost, Loses d (d.forget n).document lost ∧
      ∀ v ∈ lost, ∃ w ∈ d.root.all, w.index = n.index ∧ v ∈ w.all := by
  have hnone : ∀ {P : Wrapper → Prop}, ∀ v ∈ ([] : List Wrapper), P v :=
    fun _ hv => absurd hv not_mem_nil
  unfold Document.forget
  split_ifs with hroot htag
  · exact ⟨[], ⟨rfl, le_rfl, hnone, rfl⟩, hnone⟩
  · exact ⟨[], ⟨rfl, le_rfl, hnone, rfl⟩, hnone⟩
  · have hlost : ∀ v ∈ ((d.root.find? n.index).map Wrapper.all).getD [],
        ∃ w ∈ d.root.all, w.index = n.index ∧ v ∈ w.all := by
      intro v hv
      cases hfind : d.root.find? n.index with
      | none =>
        rw [hfind] at hv
        cases hv
      | some w =>
        rw [hfind] at hv
        obtain ⟨hw, hindex⟩ := (find?_eq_some_iff h.nodup).1 hfind
        exact ⟨w, hw, hindex, hv⟩
    refine ⟨_, ⟨rfl, le_rfl, fun v hv => ?_, rfl⟩, hlost⟩
    obtain ⟨w, hw, -, hv⟩ := hlost v hv
    exact mem_all_trans hw hv

lemma Sound.loses_forgetDescendants (h : d.Sound) (n : NodeId) :
    ∃ lost, Loses d (d.forgetDescendants n).document lost := by
  unfold Document.forgetDescendants
  split
  · exact ⟨[], rfl, le_rfl, fun _ hv => absurd hv not_mem_nil, rfl⟩
  next w hw =>
    refine ⟨_, rfl, le_rfl, fun v hv => ?_, rfl⟩
    obtain ⟨c, hc, hv⟩ := mem_allOf.1 hv
    exact mem_all_trans (h.node_eq_ok.1 hw).2.1 (mem_all.2 (.inr ⟨c, hc, hv⟩))

lemma Sound.loses_advance (h : d.Sound) (focus : List Nat) (m : Manipulation) (e : Edit)
    (text : Text) : Loses d (d.advance focus m e text).1 (d.carried focus e text).lost := by
  refine ⟨rfl, h.fresh_le_advance focus m e text, (h.carries focus e text).lost, ?_⟩
  rcases h.advance_cases focus m e text with ⟨root, -, hnew⟩ | ⟨-, hnew⟩
  · rw [hnew]
    rfl
  · rw [hnew]
    rfl

lemma Sound.loses (h : d.Sound) (hm : Move d new) : ∃ lost, Loses d new lost := by
  have hnone : ∀ v ∈ ([] : List Wrapper), v ∈ d.root.all := fun _ hv => absurd hv not_mem_nil
  cases hm with
  | configure settings => exact ⟨[], rfl, le_rfl, hnone, rfl⟩
  | make hm =>
    obtain ⟨a, rfl⟩ := h.exists_wrap hm
    exact ⟨[], rfl, (extends_reach h.bound).le, hnone, rfl⟩
  | forget n => exact (h.loses_forget n).imp fun _ hlost => hlost.1
  | forgetDescendants n => exact h.loses_forgetDescendants n
  | commit hc =>
    obtain ⟨e, -, ⟨-, rfl⟩ | ⟨-, text, -, rfl⟩⟩ := exists_of_commit hc
    · exact ⟨[], rfl, le_rfl, hnone, rfl⟩
    · exact ⟨_, h.loses_advance _ _ e text⟩

lemma lookup_lost {i : Nat} (h : (lost.map fun v => (v.index, v.lastKnown)).lookup i = some known) :
    ∃ v ∈ lost, v.index = i ∧ v.lastKnown = known := by
  obtain ⟨l₁, l₂, hsplit, -⟩ := lookup_eq_some_iff.1 h
  have hmem : (i, known) ∈ lost.map fun v => (v.index, v.lastKnown) := by
    rw [hsplit]
    exact mem_append_right _ mem_cons_self
  obtain ⟨v, hv, heq⟩ := mem_map.1 hmem
  obtain ⟨hindex, hknown⟩ := Prod.mk.inj heq
  exact ⟨v, hv, hindex, hknown⟩

lemma Loses.lookup (h : Loses d new lost) (i : Nat) : new.forgotten.lookup i =
    ((lost.map fun v => (v.index, v.lastKnown)).lookup i).or (d.forgotten.lookup i) := by
  rw [h.forgotten, lookup_append]

lemma Loses.lastKnown? (h : Loses d new lost) (hd : d.Sound)
    (hknown : d.lastKnown? n = some known) : new.lastKnown? n = some known := by
  unfold Document.lastKnown? at hknown ⊢
  rw [h.tag]
  split_ifs at hknown ⊢ with htag
  rw [h.lookup, hknown]
  cases hlost : (lost.map fun v => (v.index, v.lastKnown)).lookup n.index with
  | none => rfl
  | some other =>
    -- what is lost was live, and so it was not forgotten before
    obtain ⟨v, hv, hindex, -⟩ := lookup_lost hlost
    have hnot := hd.not_forgotten (mem_indices_of_mem (h.live v hv))
    rw [hindex, ← lookup_eq_none, hknown] at hnot
    cases hnot

lemma Loses.exists_of_lastKnown? (h : Loses d new lost) (hd : d.Sound)
    (hlive : d.isForgotten n = false) (hknown : new.lastKnown? n = some known) :
    ∃ w ∈ lost, d.node n = .ok w ∧ w.lastKnown = known := by
  unfold isForgotten Document.lastKnown? at hlive
  unfold Document.lastKnown? at hknown
  rw [h.tag] at hknown
  split_ifs at hknown hlive with htag
  rw [isSome_eq_false_iff, isNone_iff_eq_none] at hlive
  rw [h.lookup, hlive, or_none] at hknown
  obtain ⟨v, hv, hindex, heq⟩ := lookup_lost hknown
  exact ⟨v, hv, hd.node_eq_ok.2 ⟨htag, h.live v hv, hindex⟩, heq⟩

lemma Sound.lastKnown?_of_moves (h : d.Sound) (hm : Moves d new)
    (hknown : d.lastKnown? n = some known) : new.lastKnown? n = some known := by
  induction hm with
  | refl => exact hknown
  | tail hm hmove ih =>
    obtain ⟨lost, hlost⟩ := (h.moves hm).loses hmove
    exact hlost.lastKnown? (h.moves hm) ih

lemma node_of_lastKnown? (h : d.lastKnown? n = some known) :
    d.node n = .error (.nodeForgotten known) := by
  unfold lastKnown? at h
  split_ifs at h with htag
  rw [node, if_pos htag, h]

lemma Sound.parent_of_links (h : d.Sound) (hnew : new.Sound) (htag : new.tag = d.tag)
    (hroot : new.root.index = d.root.index) (hlinks : new.root.Links d.root)
    (hw' : w' ∈ new.root.all) (hindex : w'.index = w.index) :
    new.parent (d.nodeId w.index) = d.parent (d.nodeId w.index) := by
  by_cases htop : w' = new.root
  · have hid : d.nodeId w.index = d.rootId := by rw [← hindex, htop, hroot, rootId]
    rw [hid]
    exact h.parent_of_root hnew htag hroot
  · obtain ⟨p', hp', hc'⟩ := exists_parent hw' htop
    obtain ⟨p, hp, c, hc, hparent, hchild⟩ := hlinks p' hp' w' hc'
    rw [← hindex, ← hchild]
    exact h.parent_of_link hnew htag hp hc hp' hc' hparent.symm hchild.symm

lemma Sound.links_wrap (h : d.Sound) (a : Address) : d.root.Links (d.wrap a).1.root := by
  have hsift : sift (· < d.fresh) (d.wrap a).1.root = d.root := by
    have hreach : sift (· < d.fresh) (d.wrap a).1.root = sift (· < d.fresh) d.root :=
      sift_reach h.bound fun i hi => decide_eq_false (Nat.not_lt.2 hi)
    rw [hreach]
    exact sift_of_all fun i hi => decide_eq_true (h.lt_fresh_iff.2 (.inl hi))
  have hlinks := links_sift (· < d.fresh) (d.wrap a).1.root
  rwa [hsift] at hlinks

lemma Sound.parent_move (h : d.Sound) (hm : Move d new) (hw : w ∈ d.root.all)
    (hw' : w' ∈ new.root.all) (hindex : w'.index = w.index) :
    new.parent (d.nodeId w.index) = d.parent (d.nodeId w.index) := by
  have hnew := h.move hm
  have htag := hm.fixed.1
  cases hm with
  | configure settings => rfl
  | make hm =>
    obtain ⟨a, rfl⟩ := h.exists_wrap hm
    have hback := hnew.parent_of_links h htag.symm (extends_reach h.bound).index.symm
      (h.links_wrap a) hw hindex.symm
    rw [nodeId, htag, hindex] at hback
    exact hback.symm
  | forget n =>
    unfold Document.forget at hw' hnew htag ⊢
    split_ifs at hw' hnew htag ⊢
    · rfl
    · rfl
    · refine h.parent_of_links hnew htag ?_ ?_ hw' hindex
      · show (d.root.prune n.index).index = d.root.index
        rw [prune_eq, index]
      · show (d.root.prune n.index).Links d.root
        rw [prune_eq_sift]
        exact links_sift _ _
  | forgetDescendants n =>
    cases hn : d.node n with
    | error e =>
      rw [Document.forgetDescendants, hn]
      rfl
    | ok v =>
      rw [Document.forgetDescendants, hn] at hw' hnew htag ⊢
      exact h.parent_of_links hnew htag (index_clear _ _) (links_clear _ _) hw' hindex
  | commit hc =>
    obtain ⟨e, -, ⟨-, rfl⟩ | ⟨-, text, -, hadvance⟩⟩ := exists_of_commit hc
    · rfl
    · exact (h.survives hadvance hw hw' hindex).parent h hnew htag

abbrev Below (d : Document) : NodeId → NodeId → Prop :=
  TransGen fun n m => d.parent n = .ok (some m)

lemma Sound.live_of_parent (h : d.Sound) (hp : d.parent n = .ok (some m)) :
    (∃ w, d.node n = .ok w) ∧ ∃ p, d.node m = .ok p := by
  obtain ⟨w, hw, -⟩ := bind_eq_ok hp
  refine ⟨⟨w, hw⟩, ?_⟩
  rcases (h.consistent.attached n w hw).parent with ⟨-, hnone⟩ | ⟨m', p, hm', hparent, -⟩
  · cases hnone.symm.trans hp
  · obtain rfl := some.inj (Except.ok.inj (hparent.symm.trans hp))
    exact ⟨p, hm'⟩

lemma Sound.forgotten_or_live (h : d.Sound) (hm : Move d new) (hw : d.node n = .ok w) :
    new.isForgotten n = true ∨ ∃ w', new.node n = .ok w' := by
  obtain ⟨htag, hmem, hindex⟩ := h.node_eq_ok.1 hw
  obtain ⟨lost, hlost⟩ := h.loses hm
  have hissued : n.index < new.fresh :=
    (h.lt_fresh_iff.2 (.inl (hindex ▸ mem_indices_of_mem hmem))).trans_le hlost.fresh
  have haccounted := (h.move hm).consistent.accounted n.index hissued
  rwa [nodeId_eq (htag.trans hlost.tag.symm)] at haccounted

lemma Sound.parent_of_live (h : d.Sound) (hm : Move d new) (hw : d.node n = .ok w)
    (hw' : new.node n = .ok w') : new.parent n = d.parent n := by
  obtain ⟨htag, hmem, hindex⟩ := h.node_eq_ok.1 hw
  obtain ⟨-, hmem', hindex'⟩ := (h.move hm).node_eq_ok.1 hw'
  have hparent := h.parent_move hm hmem hmem' (hindex'.trans hindex.symm)
  rwa [hindex, nodeId_eq htag] at hparent

lemma isForgotten_of_node (h : d.node n = .ok w) : d.isForgotten n = false := by
  rw [isForgotten, lastKnown?_of_node h]
  rfl

lemma Sound.below_move (h : d.Sound) (hm : Move d new) (hb : d.Below n m) :
    new.isForgotten n = true ∨ new.Below n m := by
  have hstep : ∀ {a b : NodeId}, d.parent a = .ok (some b) →
      new.isForgotten a = true ∨ new.parent a = .ok (some b) := by
    intro a b hab
    obtain ⟨⟨w, hw⟩, -⟩ := h.live_of_parent hab
    rcases h.forgotten_or_live hm hw with hforgotten | ⟨w', hw'⟩
    · exact .inl hforgotten
    · exact .inr ((h.parent_of_live hm hw hw').trans hab)
  induction hb using TransGen.head_induction_on with
  | single hab => exact (hstep hab).imp_right .single
  | head hab _ ih =>
    rcases hstep hab with hforgotten | hparent
    · exact .inl hforgotten
    · -- the parent of a live wrapper is live
      obtain ⟨-, p, hp⟩ := (h.move hm).live_of_parent hparent
      have hlive := isForgotten_of_node hp
      rcases ih with hforgotten | hrest
      · cases hlive.symm.trans hforgotten
      · exact .inr (.head hparent hrest)

lemma Sound.below_moves (h : d.Sound) (hm : Moves d new) (hb : d.Below n m) :
    new.isForgotten n = true ∨ new.Below n m := by
  induction hm with
  | refl => exact .inr hb
  | tail hm hmove ih =>
    have hmid := h.moves hm
    rcases ih with hforgotten | hbelow
    · obtain ⟨known, hknown⟩ := isSome_iff_exists.1 hforgotten
      obtain ⟨lost, hlost⟩ := hmid.loses hmove
      exact .inl (isSome_iff_exists.2 ⟨known, hlost.lastKnown? hmid hknown⟩)
    · exact hmid.below_move hmove hbelow

lemma Sound.forgotten_of_below (h : d.Sound) (hm : Moves d new) (hb : d.Below n m)
    (hforgotten : new.isForgotten m = true) : new.isForgotten n = true := by
  rcases h.below_moves hm hb with hn | hbelow
  · exact hn
  · obtain ⟨k, -, hparent⟩ := TransGen.tail'_iff.1 hbelow
    obtain ⟨-, p, hp⟩ := (h.moves hm).live_of_parent hparent
    cases (isForgotten_of_node hp).symm.trans hforgotten

lemma Wraps.lastKnown? (h : Wraps d new) (n : NodeId) : new.lastKnown? n = d.lastKnown? n := by
  induction h with
  | refl => rfl
  | tail _ hstep ih =>
    obtain ⟨root, fresh, rfl⟩ := hstep.exists_eq
    exact ih

lemma Sound.links_advance (h : d.Sound) {m : Manipulation}
    (hnew : new = (d.advance focus m e text).1) : new.root.Links d.root := by
  intro p' hp' c' hc'
  rcases h.advance_cases focus m e text with ⟨root, hkept, hadvance⟩ | ⟨-, hadvance⟩
  · obtain rfl : root = new.root := by rw [hnew, hadvance]; rfl
    have hroot : new.root ∈ (d.carried focus e text).kept := hkept ▸ mem_cons_self
    have hlinked := (h.carries focus e text).links p' (mem_allOf.2 ⟨_, hroot, hp'⟩) c' hc'
    obtain ⟨p, hp, c, hc, hparent, hchild, -⟩ := hlinked
    exact ⟨p, hp, c, hc, hparent, hchild⟩
  · -- nothing is below a new root
    rw [hnew, hadvance] at hp'
    obtain rfl := mem_singleton.1 hp'
    cases hc'

lemma text_of_width {s : Site} (h : s.span.stop ≤ s.span.start) : s.text = [] := by
  rw [Site.span_stop, Site.span_start, Tree.size_eq_text] at h
  have hsize : s.tree.text.size = 0 := by omega
  exact Text.eq_nil_of_size hsize

lemma Sound.lastKnown_of_removed (h : d.Sound)
    {m : Manipulation} (hnew : new = (d.advance focus m e text).1) (hempty : e.isEmpty = false)
    (hinserted : e.inserted = [])
    (hw : w ∈ d.root.all) (hroot : w ≠ d.root) (hcover : e.oldSpan.contains w.span = true)
    (hw' : w' ∈ new.root.all) (hindex : w'.index = w.index) {v' : Wrapper} (hv' : v' ∈ w'.all) :
    ∃ v ∈ d.root.all, v.index = v'.index ∧ v.lastKnown = v'.lastKnown := by
  obtain ⟨v, hv, hsame⟩ := (h.links_advance hnew).mem h.nodup hw hw' hindex hv'
  have hmem : v ∈ d.root.all := mem_all_trans hw hv
  have hsurvives := h.survives hnew hmem (mem_all_trans hw' hv') hsame.symm
  have hwidth : w.span.stop ≤ w.span.start := by
    by_contra hpos
    have hnot := (h.survives hnew hw hw' hindex).not_removed hroot (Nat.lt_of_not_le hpos)
    cases hnot.symm.trans hcover
  have hold : v.span.stop ≤ v.span.start := by
    have hin := Span.contains_iff.1 ((h.bound.of_mem hw).contains hv)
    omega
  have hremoved : e.removed ≠ 0 := by
    intro hzero
    rw [Edit.isEmpty, hinserted, decide_eq_true hzero] at hempty
    cases hempty
  have hnow : v'.span.stop ≤ v'.span.start := by
    have hdelta : e.delta = -(e.removed : Int) := by
      rw [Edit.delta, hinserted, Text.size]
      omega
    have hle := v'.span.le
    rcases hsurvives.place with ⟨-, hspan⟩ | ⟨-, hstart, hstop⟩ | ⟨-, hstart, hstop⟩
    · rw [hspan]
      exact hold
    · rw [hdelta] at hstart hstop
      omega
    · -- a node without text cannot be around the edit
      rw [hdelta] at hstop
      omega
  refine ⟨v, hmem, hsame, ?_⟩
  have hkind : v'.site.kind = v.site.kind := hsurvives.kind
  rw [Wrapper.lastKnown, Wrapper.lastKnown, text_of_width hold, text_of_width hnow, hkind]

/-- The removal of a node forgets each wrapper as it was, though it may take two steps: an edit, and
then to forget what the edit kept of the node. -/
lemma Sound.lastKnown_of_remove (h : d.Sound) {parent : Wrapper} {r : Removal}
    {log : List Event} (hw : d.node m = .ok w) (hparent : d.root.parent? w.index = some parent)
    (hr : d.removal parent w = .ok r) (hc : d.commit parent.index (.removal r) = some (new, log))
    (hlive : d.isForgotten n = false) (hknown : (new.forget m).document.lastKnown? n = some known) :
    ∃ v, d.node n = .ok v ∧ v.lastKnown = known := by
  have hnew := h.commit hc
  have htag := (Move.commit hc).fixed.1
  obtain ⟨-, hmem, hindex⟩ := h.node_eq_ok.1 hw
  obtain ⟨lost', hlost', hbelow⟩ := hnew.loses_forget m
  cases hmid : new.lastKnown? n with
  | some known' =>
    obtain ⟨lost, hlost⟩ := h.loses (.commit hc)
    obtain rfl := some.inj ((hlost'.lastKnown? hnew hmid).symm.trans hknown)
    obtain ⟨v, -, hv⟩ := hlost.exists_of_lastKnown? h hlive hmid
    exact ⟨v, hv⟩
  | none =>
    have hlive' : new.isForgotten n = false := by
      rw [isForgotten, hmid]
      rfl
    obtain ⟨v', hv', hnode', rfl⟩ := hlost'.exists_of_lastKnown? hnew hlive' hknown
    obtain ⟨w', hw', hindex', hv'⟩ := hbelow v' hv'
    obtain ⟨e, hedit, ⟨-, rfl⟩ | ⟨hempty, text, -, hadvance⟩⟩ := exists_of_commit hc
    · -- the edit was passed over
      exact ⟨v', hnode', rfl⟩
    have hroot : w ≠ d.root := by
      rintro rfl
      cases (parent?_self h.nodup).symm.trans hparent
    obtain ⟨hp, c, hchild, hnumber⟩ := exists_of_parent? hparent
    obtain rfl : w = c := eq_of_index_eq h.nodup hmem (mem_all_of_child hp hchild) hnumber.symm
    obtain ⟨hspan, hnothing⟩ := contains_of_removal (h.bound.of_mem hp) hchild hr
    obtain ⟨hedited, hinserted⟩ := Removal.contains_of_edit? hedit
    have hcover : e.oldSpan.contains w.span = true := by
      have hinner := Span.contains_iff.1 hspan
      have houter := Span.contains_iff.1 hedited
      exact Span.contains_iff.2 ⟨houter.1.trans hinner.1, hinner.2.trans houter.2⟩
    obtain ⟨v, hv, hsame, hlast⟩ := h.lastKnown_of_removed hadvance hempty
      (hinserted.trans hnothing) hmem hroot hcover hw' (hindex'.trans hindex.symm) hv'
    obtain ⟨hdocument, -, hlast'⟩ := hnew.node_eq_ok.1 hnode'
    exact ⟨v, h.node_eq_ok.2 ⟨hdocument.trans htag, hv, hsame.trans hlast'⟩, hlast⟩

lemma Sound.lastKnown_of_course (h : d.Sound) {op : Operation} {r : Except EditError Answer}
    (hcourse : Course d op r new) (hlive : d.isForgotten n = false)
    (hknown : new.lastKnown? n = some known) : ∃ w, d.node n = .ok w ∧ w.lastKnown = known := by
  have hsame : d.lastKnown? n ≠ some known := by
    intro heq
    rw [isForgotten, heq] at hlive
    cases hlive
  have hmove : ∀ {between : Document}, Move d between → between.lastKnown? n = some known →
      ∃ w, d.node n = .ok w ∧ w.lastKnown = known := by
    intro between hm hknown
    obtain ⟨lost, hlost⟩ := h.loses hm
    obtain ⟨w, -, hw⟩ := hlost.exists_of_lastKnown? h hlive hknown
    exact ⟨w, hw⟩
  cases hcourse with
  | refused e => exact absurd hknown hsame
  | configured settings => exact absurd hknown hsame
  | looked a hwraps => exact absurd ((hwraps.lastKnown? n).symm.trans hknown) hsame
  | forgot _ _ => exact hmove (.forget d _) hknown
  | cleared _ => exact hmove (.forgetDescendants d _) hknown
  | edited a hc hwraps => exact hmove (.commit hc) ((hwraps.lastKnown? n).symm.trans hknown)
  | removed hw hparent hr hc _ => exact h.lastKnown_of_remove hw hparent hr hc hlive hknown
  | bereft _ _ hc _ => exact hmove (.commit hc) hknown

/-- A forgotten wrapper stays forgotten, and asking for it says what was last known of it. With a
wrapper, all those below it are forgotten. What is last known of a wrapper is the kind and the text
that it had before the operation that forgot it. -/
theorem forgotten_of_run {tag : Nat} {file : String} {initial : Text} {settings : Settings}
    {ops : List Operation} (hrun : (create tag file initial settings .usual).run ops = some d) :
    (∀ n known, d.lastKnown? n = some known → ∀ later new, d.run later = some new →
      new.lastKnown? n = some known ∧ new.node n = .error (.nodeForgotten known)) ∧
    (∀ n m, d.Below n m → ∀ later new, d.run later = some new →
      new.isForgotten m = true → new.isForgotten n = true) ∧
    ∀ op o n known, d.perform op = some o → d.isForgotten n = false →
      o.document.lastKnown? n = some known →
        ∃ w, d.node n = .ok w ∧ w.kind = known.kind ∧ d.textOf? w = some known.text := by
  have hd := sound_run hrun
  have hkeeps : Keeps d.reader := (moves_run hrun).fixed.2 ▸ keeps_usual
  refine ⟨?_, ?_, ?_⟩
  · intro n known hknown later new hlater
    have hlast := hd.lastKnown?_of_moves (moves_run hlater) hknown
    exact ⟨hlast, node_of_lastKnown? hlast⟩
  · intro n m hbelow later new hlater hforgotten
    exact hd.forgotten_of_below (moves_run hlater) hbelow hforgotten
  · intro op o n known hop hlive hknown
    obtain ⟨w, hw, rfl⟩ := hd.lastKnown_of_course (course_perform hop) hlive hknown
    have hmem := (hd.node_eq_ok.1 hw).2.1
    exact ⟨w, hw, rfl, (hd.lies hkeeps hmem).slice?⟩

theorem forgotten_of_run_removal : ∃ d o new known,
    (create 0 "a.ts" "a;b;".toList {} .usual).run [.descendants ⟨0, 0⟩] = some d ∧
      d.perform (.remove ⟨0, 1⟩) = some o ∧ o.document.run [.descendants ⟨0, 0⟩] = some new ∧
      o.document.lastKnown? ⟨0, 1⟩ = some known ∧
      (∃ w, d.node ⟨0, 1⟩ = .ok w ∧ w.kind = known.kind ∧ d.textOf? w = some known.text) ∧
      new.node ⟨0, 1⟩ = .error (.nodeForgotten known) ∧ o.document.isForgotten ⟨0, 3⟩ = true := by
  have hfound : ∃ d ∈ (create 0 "a.ts" "a;b;".toList {} .usual).run [.descendants ⟨0, 0⟩],
      ∃ o ∈ d.perform (.remove ⟨0, 1⟩), ∃ new ∈ o.document.run [.descendants ⟨0, 0⟩],
      ∃ known ∈ o.document.lastKnown? ⟨0, 1⟩, d.isForgotten ⟨0, 1⟩ = false ∧
      ∃ outer, d.parent ⟨0, 3⟩ = .ok outer ∧ outer = some ⟨0, 2⟩ ∧
      ∃ inner, d.parent ⟨0, 2⟩ = .ok inner ∧ inner = some ⟨0, 1⟩ := by
    decide +kernel
  obtain ⟨d, hrun, o, hop, new, hlater, known, hlast, hlive, _, houter, rfl, _, hinner, rfl⟩ :=
    hfound
  have hone : d.run [.remove ⟨0, 1⟩] = some o.document := by
    rw [run, hop]
    rfl
  have hboth : (create 0 "a.ts" "a;b;".toList {} .usual).run
      [.descendants ⟨0, 0⟩, .remove ⟨0, 1⟩] = some o.document := by
    obtain ⟨o', ho', hrest⟩ := bind_eq_some_iff.1 hrun
    obtain rfl := some.inj hrest
    exact bind_eq_some_iff.2 ⟨o', ho', hone⟩
  have hbelow : Below d ⟨0, 3⟩ ⟨0, 1⟩ := .head houter (.single hinner)
  have hforgotten : o.document.isForgotten ⟨0, 1⟩ = true := isSome_iff_exists.2 ⟨_, hlast⟩
  have h := forgotten_of_run hrun
  refine ⟨d, o, new, known, hrun, hop, hlater, hlast, h.2.2 _ o _ known hop hlive hlast, ?_, ?_⟩
  · exact ((forgotten_of_run hboth).1 _ known hlast _ new hlater).2
  · exact h.2.1 _ _ hbelow _ o.document hone hforgotten

end LiveEdit.Document
