import LiveEdit.Proofs.Document.Navigating

namespace LiveEdit
open List Option

namespace Wrapper

variable {v w u : Wrapper} {l : List Wrapper} {i : Nat}

structure Trims (v w : Wrapper) : Prop where
  bare : v.bare = w.bare
  trails : ∀ l u, Trail v l u → ∃ l' u', Trail w l' u' ∧ u'.bare = u.bare ∧
    l'.map Wrapper.bare = l.map Wrapper.bare

lemma trims_refl (w : Wrapper) : w.Trims w := ⟨rfl, fun l u h => ⟨l, u, h, rfl, rfl⟩⟩

lemma trims_of_children (hbare : v.bare = w.bare)
    (h : ∀ c ∈ v.children, ∃ c' ∈ w.children, c.Trims c') : v.Trims w := by
  refine ⟨hbare, fun l u hl => ?_⟩
  cases hl with
  | here => exact ⟨[w], w, .here w, hbare.symm, by rw [map_singleton, map_singleton, hbare]⟩
  | step hc hl =>
    obtain ⟨c', hc', htrims⟩ := h _ hc
    obtain ⟨l', u', hl', hu', hmap⟩ := htrims.trails _ _ hl
    exact ⟨w :: l', u', .step hc' hl', hu', by rw [map_cons, map_cons, hmap, hbare]⟩

lemma trims_prune (i : Nat) (w : Wrapper) : (w.prune i).Trims w := by
  induction w with
  | mk j n s ws ih =>
    rw [prune_eq]
    refine trims_of_children rfl fun c hc => ?_
    rw [children, pruneAll_eq] at hc
    obtain ⟨c', hc', rfl⟩ := mem_map.1 hc
    have hmem := (mem_filter.1 hc').1
    exact ⟨c', hmem, ih c' hmem⟩

lemma trims_clear (i : Nat) (w : Wrapper) : (w.clear i).Trims w := by
  induction w with
  | mk j n s ws ih =>
    rw [clear_eq]
    refine trims_of_children rfl fun c hc => ?_
    rw [children] at hc
    split_ifs at hc with hi
    · cases hc
    · rw [clearAll_eq] at hc
      obtain ⟨c', hc', rfl⟩ := mem_map.1 hc
      exact ⟨c', hc', ih c' hc'⟩

end Wrapper

namespace Document
open Wrapper Relation

variable {d new : Document} {n m : NodeId} {v w : Wrapper} {lost : List Wrapper} {a : Address}
  {s : Site} {p : Address × Site}

lemma Sound.child_of_parent (h : d.Sound) (hp : d.parent m = .ok (some n)) :
    ∃ p c, d.node n = .ok p ∧ d.node m = .ok c ∧ c ∈ p.children := by
  obtain ⟨w, hw, hparent⟩ := bind_eq_ok hp
  obtain ⟨htag, hmem, hindex⟩ := h.node_eq_ok.1 hw
  obtain ⟨p, hp, hid⟩ := map_eq_some_iff.1 (Except.ok.inj hparent)
  obtain ⟨hpmem, c, hc, hnumber⟩ := exists_of_parent? hp
  obtain rfl : c = w := eq_of_index_eq h.nodup (mem_all_of_child hpmem hc) hmem hnumber
  exact ⟨p, c, hid ▸ h.live hpmem, hw, hc⟩

lemma Sound.reflTransGen_of_mem (h : d.Sound) (hw : w ∈ d.root.all) (hv : v ∈ w.all) :
    ReflTransGen (fun n m => d.parent n = .ok (some m)) (d.nodeId v.index) (d.nodeId w.index) := by
  obtain ⟨l, hl⟩ := exists_trail hv
  induction hl with
  | here w => exact .refl
  | step hc hl ih => exact (ih (mem_all_of_child hw hc) hl.mem).tail (h.parent_child hw hc)

lemma Sound.below_iff (h : d.Sound) (hw : d.node n = .ok w) :
    d.Below m n ↔ ∃ v ∈ allOf w.children, d.node m = .ok v := by
  constructor
  · intro hbelow
    induction hbelow using TransGen.head_induction_on with
    | single hparent =>
      obtain ⟨p, c, hp, hc, hchild⟩ := h.child_of_parent hparent
      obtain rfl := Except.ok.inj (hw.symm.trans hp)
      exact ⟨c, mem_allOf.2 ⟨c, hchild, self_mem_all c⟩, hc⟩
    | head hparent _ ih =>
      obtain ⟨v, hv, hnode⟩ := ih
      obtain ⟨p, c, hp, hc, hchild⟩ := h.child_of_parent hparent
      obtain rfl := Except.ok.inj (hnode.symm.trans hp)
      obtain ⟨e, he, hin⟩ := mem_allOf.1 hv
      exact ⟨c, mem_allOf.2 ⟨e, he, mem_all_of_child hin hchild⟩, hc⟩
  · rintro ⟨v, hv, hnode⟩
    obtain ⟨e, he, hin⟩ := mem_allOf.1 hv
    obtain ⟨htag, hmem, hindex⟩ := h.node_eq_ok.1 hw
    obtain ⟨htag', -, hindex'⟩ := h.node_eq_ok.1 hnode
    have hchain := h.reflTransGen_of_mem (mem_all_of_child hmem he) hin
    have hlast := h.parent_child hmem he
    rw [hindex', nodeId_eq htag'] at hchain
    rw [hindex, nodeId_eq htag] at hlast
    exact TransGen.tail' hchain hlast

structure Sheds (d new : Document) (lost : List Wrapper) : Prop where
  eq : new = { d with root := new.root }.record lost
  trims : new.root.Trims d.root
  live : ∀ v ∈ lost, v ∈ d.root.all

lemma sheds_refl (d : Document) : Sheds d d [] :=
  ⟨rfl, trims_refl d.root, fun _ hv => absurd hv not_mem_nil⟩

lemma Sound.sheds_forget (h : d.Sound) (n : NodeId) : ∃ lost, Sheds d (d.forget n).document lost ∧
    ∀ w, d.node n = .ok w → n ≠ d.rootId → (d.forget n).answer = .ok () ∧ lost = w.all := by
  unfold Document.forget
  split_ifs with hroot htag
  · exact ⟨[], sheds_refl d, fun w _ hne => absurd hroot hne⟩
  · exact ⟨[], sheds_refl d, fun w hw _ => absurd (h.node_eq_ok.1 hw).1 htag⟩
  · refine ⟨_, ⟨rfl, trims_prune n.index d.root, fun v hv => ?_⟩, fun w hw _ => ⟨rfl, ?_⟩⟩
    · cases hfind : d.root.find? n.index with
      | none =>
        rw [hfind] at hv
        cases hv
      | some w =>
        rw [hfind] at hv
        exact mem_all_trans ((find?_eq_some_iff h.nodup).1 hfind).1 hv
    · rw [(find?_eq_some_iff h.nodup).2 (h.node_eq_ok.1 hw).2]
      rfl

lemma Sound.sheds_forgetDescendants (h : d.Sound) (n : NodeId) :
    ∃ lost, Sheds d (d.forgetDescendants n).document lost ∧ ∀ w, d.node n = .ok w →
    (d.forgetDescendants n).answer = .ok () ∧ lost = allOf w.children := by
  unfold Document.forgetDescendants
  split
  next e he => exact ⟨[], sheds_refl d, fun w hw => by cases he.symm.trans hw⟩
  next v hv =>
    refine ⟨_, ⟨rfl, trims_clear v.index d.root, fun u hu => ?_⟩, fun w hw => ⟨rfl, ?_⟩⟩
    · obtain ⟨c, hc, hu⟩ := mem_allOf.1 hu
      exact mem_all_trans (mem_all_of_child (h.node_eq_ok.1 hv).2.1 hc) hu
    · rw [Except.ok.inj (hv.symm.trans hw)]

lemma Sheds.place (hs : Sheds d new lost)
    (h : d.Sound) (hnew : new.Sound) {w' : Wrapper} (hw' : new.node n = .ok w') :
    ∃ w, d.node n = .ok w ∧ w'.site = w.site ∧ new.place? n = d.place? n := by
  have htag : new.tag = d.tag := by rw [hs.eq]; rfl
  obtain ⟨hdocument, hmem, hindex⟩ := hnew.node_eq_ok.1 hw'
  obtain ⟨l, hl⟩ := exists_trail hmem
  obtain ⟨l', w, hl', hbare, hmap⟩ := hs.trims.trails l w' hl
  have hnumber : w.bare.index = w'.bare.index := congrArg Wrapper.index hbare
  have hsite : w'.bare.site = w.bare.site := (congrArg Wrapper.site hbare).symm
  have hw : d.node n = .ok w := h.node_eq_ok.2 ⟨hdocument.trans htag, hl'.mem, hnumber.trans hindex⟩
  have haddress : new.address w' = d.address w := by
    have hordinals := congrArg (fun l => (l.drop 1).map Wrapper.ordinal) hmap
    simp only [← List.map_drop, List.map_map] at hordinals
    rw [hnew.address_eq hl, h.address_eq hl']
    exact hordinals.symm
  refine ⟨w, hw, hsite, ?_⟩
  rw [place?_of_node hw', place?_of_node hw, haddress]
  exact congrArg (fun s => some (d.address w, s)) hsite

lemma Sheds.loses (hs : Sheds d new lost) : Loses d new lost := by
  refine ⟨?_, ?_, hs.live, ?_⟩
  · rw [hs.eq]
    rfl
  · rw [hs.eq]
    exact le_rfl
  · rw [hs.eq]
    rfl

lemma Sheds.forgotten (hs : Sheds d new lost) (h : d.Sound) (n : NodeId) :
    new.isForgotten n = true ↔ d.isForgotten n = true ∨ ∃ v ∈ lost, d.node n = .ok v := by
  have hlost : n.document = d.tag ∧ n.index ∈ lost.map index ↔ ∃ v ∈ lost, d.node n = .ok v := by
    rw [List.mem_map]
    constructor
    · rintro ⟨htag, v, hv, hindex⟩
      exact ⟨v, hv, h.node_eq_ok.2 ⟨htag, hs.live v hv, hindex⟩⟩
    · rintro ⟨v, hv, hnode⟩
      exact ⟨(h.node_eq_ok.1 hnode).1, v, hv, (h.node_eq_ok.1 hnode).2.2⟩
  have hnumbers : new.forgotten.map Prod.fst = lost.map index ++ d.forgotten.map Prod.fst := by
    rw [hs.eq, forgotten_record]
  rw [← hlost, isForgotten_iff, isForgotten_iff, hs.loses.tag, hnumbers, mem_append, or_comm,
    and_or_left]

lemma Sheds.lastKnown (hs : Sheds d new lost) (h : d.Sound) (hn : ¬∃ v ∈ lost, d.node n = .ok v) :
    new.lastKnown? n = d.lastKnown? n := by
  cases hknown : d.lastKnown? n with
  | some known => exact hs.loses.lastKnown? h hknown
  | none =>
    have hlive : ¬new.isForgotten n = true := by
      rw [hs.forgotten h, isForgotten, hknown]
      rintro (hfalse | hlost)
      · cases hfalse
      · exact hn hlost
    rwa [isForgotten, isSome_iff_ne_none, not_not] at hlive

lemma Sheds.spares (hs : Sheds d new lost) (h : d.Sound) (hm : Move d new) :
    d.Spares new fun m => ∃ v ∈ lost, d.node m = .ok v := by
  have hbare := hs.trims.bare
  have hindex : new.root.bare.index = d.root.bare.index := congrArg Wrapper.index hbare
  have hsite : new.root.bare.site = d.root.bare.site := congrArg Wrapper.site hbare
  refine ⟨?_, ?_, hsite, ?_, ?_, hs.forgotten h, fun n hn => hs.lastKnown h hn, fun n w hw hn => ?_⟩
  · rw [hs.eq]
    rfl
  · rw [hs.eq]
    rfl
  · rw [hs.eq]
    rfl
  · rw [rootId, rootId, nodeId, nodeId, hs.loses.tag]
    exact congrArg (NodeId.mk d.tag) hindex
  · rcases h.forgotten_or_live hm hw with hforgotten | ⟨w', hw'⟩
    · rcases (hs.forgotten h n).1 hforgotten with hbefore | hlost
      · cases (isForgotten_of_node hw).symm.trans hbefore
      · exact absurd hlost hn
    · obtain ⟨v, hv, hsame, hplace⟩ := hs.place h (h.move hm) hw'
      obtain rfl := Except.ok.inj (hw.symm.trans hv)
      exact ⟨w', hw', congrArg Site.kind hsame, congrArg Site.span hsame, hplace,
        h.parent_of_live hm hw hw'⟩

lemma Move.version_le (hm : Move d new) : d.version ≤ new.version := by
  cases hm with
  | configure settings => exact le_rfl
  | make hm =>
    obtain ⟨root, fresh, rfl⟩ := hm.exists_eq
    exact le_rfl
  | forget n =>
    unfold Document.forget
    split_ifs <;> exact le_rfl
  | forgetDescendants n =>
    unfold Document.forgetDescendants
    split <;> exact le_rfl
  | commit hc =>
    obtain ⟨e, -, ⟨-, rfl⟩ | ⟨-, text, -, rfl⟩⟩ := exists_of_commit hc
    · exact le_rfl
    · exact Nat.le_succ _

lemma Moves.version_le (hm : Moves d new) : d.version ≤ new.version := by
  induction hm with
  | refl => exact le_rfl
  | tail _ hm ih => exact ih.trans hm.version_le

lemma Sound.fresh_le (h : d.Sound) (hm : Moves d new) : d.fresh ≤ new.fresh := by
  induction hm with
  | refl => exact le_rfl
  | tail hmoves hmove ih =>
    obtain ⟨lost, hlost⟩ := (h.moves hmoves).loses hmove
    exact ih.trans hlost.fresh

lemma Graded.place?_of_move (h : d.Graded) (hm : Move d new) (hversion : new.version = d.version)
    (hn : n.index < d.fresh) (hplace : new.place? n = some p) : d.place? n = some p := by
  have hsheds : ∀ {lost : List Wrapper}, Sheds d new lost → d.place? n = some p := by
    intro lost hs
    obtain ⟨w', hw', -⟩ := place?_eq_some.1 hplace
    obtain ⟨-, -, -, hsame⟩ := hs.place h.sound (h.sound.move hm) hw'
    rw [← hsame, hplace]
  cases hm with
  | configure settings => exact hplace
  | make hm =>
    obtain ⟨a, rfl⟩ := h.sound.exists_wrap hm
    rwa [(h.agrees_wrap le_rfl a).place? fun _ => hn] at hplace
  | forget m =>
    obtain ⟨lost, hs, -⟩ := h.sound.sheds_forget m
    exact hsheds hs
  | forgetDescendants m =>
    obtain ⟨lost, hs, -⟩ := h.sound.sheds_forgetDescendants m
    exact hsheds hs
  | commit hc =>
    obtain ⟨e, -, ⟨-, rfl⟩ | ⟨-, text, -, rfl⟩⟩ := exists_of_commit hc
    · exact hplace
    · exact absurd hversion (Nat.succ_ne_self _)

lemma Graded.place?_of_moves (h : d.Graded) (hm : Moves d new) (hversion : new.version = d.version)
    (hn : n.index < d.fresh) (hplace : new.place? n = some p) : d.place? n = some p := by
  induction hm with
  | refl => exact hplace
  | @tail mid new hmoves hmove ih =>
    have hbefore := Moves.version_le hmoves
    have hafter := hmove.version_le
    have hmid := h.moves hmoves
    have hfresh := h.sound.fresh_le hmoves
    exact ih (by omega) (hmid.place?_of_move hmove (by omega) (by omega) hplace)

/-- The wrappers in `gone` were live and are forgotten, and nothing else has changed. -/
structure Releases (d new : Document) (gone : NodeId → Prop) : Prop extends Spares d new gone where
  recorded : ∀ m, gone m → ∃ w, d.node m = .ok w ∧ new.lastKnown? m = some w.lastKnown
  /-- As long as there is no edit, whoever comes to a node that was let go gets a wrapper that was
  made since, and a new one if the node has none. -/
  again : ∀ m a s, gone m → d.place? m = some (a, s) →
    ∀ later between, new.run later = some between →
    between.version = d.version → ∀ q k, between.Resolves q k a →
      d.fresh ≤ k.index ∧ ((∀ k' s', between.place? k' ≠ some (a, s')) → between.fresh ≤ k.index)

lemma Sheds.not_again (hs : Sheds d new lost) (h : d.Graded) (hm : Move d new)
    {between : Document} (hlost : v ∈ lost) (hv : d.node m = .ok v) (ha : d.place? m = some (a, s))
    (hmoves : Moves new between) (hversion : between.version = new.version) {k : NodeId} {s' : Site}
    (hk : between.place? k = some (a, s')) : d.fresh ≤ k.index := by
  have hfresh : new.fresh = d.fresh := by
    rw [hs.eq]
    rfl
  by_contra hlt
  have hnow := (h.move hm).place?_of_moves hmoves hversion (by omega) hk
  obtain ⟨w', hw', -⟩ := place?_eq_some.1 hnow
  obtain ⟨-, -, -, hsame⟩ := hs.place h.sound (h.sound.move hm) hw'
  -- two wrappers for one node
  obtain rfl := h.sound.eq_of_place (hsame.symm.trans hnow) ha
  have hforgotten := (hs.forgotten h.sound k).2 (.inr ⟨v, hlost, hv⟩)
  cases (isForgotten_of_node hw').symm.trans hforgotten

lemma Sheds.releases (hs : Sheds d new lost) (h : d.Graded) (hm : Move d new) {gone : NodeId → Prop}
    (hgone : ∀ m, gone m ↔ ∃ v ∈ lost, d.node m = .ok v) : d.Releases new gone := by
  have hspares := hs.spares h.sound hm
  obtain rfl : gone = fun m => ∃ v ∈ lost, d.node m = .ok v := funext fun m => propext (hgone m)
  refine ⟨hspares, ?_, ?_⟩
  · rintro m ⟨v, hlost, hv⟩
    obtain ⟨known, hknown⟩ := isSome_iff_exists.1 ((hspares.forgotten m).2 (.inr ⟨v, hlost, hv⟩))
    obtain ⟨w, -, hw, rfl⟩ := hs.loses.exists_of_lastKnown? h.sound (isForgotten_of_node hv) hknown
    exact ⟨w, hw, hknown⟩
  · rintro m a s ⟨v, hlost, hv⟩ ha later between hlater hversion q k hr
    have hmoves := moves_run hlater
    have hgraded := (h.move hm).moves hmoves
    have hnav := wraps_navigate between q
    obtain ⟨s', hk⟩ := hgraded.place?_of_resolves hr
    have hagrees := hnav.agrees hgraded le_rfl
    constructor
    · refine hs.not_again h hm hlost hv ha (hmoves.trans (Wraps.moves hnav)) ?_ hk
      rw [hagrees.version, hversion, hspares.version]
    · intro hfree
      by_contra hlt
      rw [hagrees.place? fun _ => Nat.lt_of_not_le hlt] at hk
      exact hfree k s' hk

lemma Graded.releases_forget (h : d.Graded) (hn : d.node n = .ok w) (hroot : n ≠ d.rootId) :
    (d.forget n).answer = .ok () ∧ d.Releases (d.forget n).document fun m => m = n ∨
    d.Below m n := by
  obtain ⟨lost, hs, hlost⟩ := h.sound.sheds_forget n
  obtain ⟨hanswer, rfl⟩ := hlost w hn hroot
  refine ⟨hanswer, hs.releases h (.forget d n) fun m => ?_⟩
  rw [h.sound.below_iff hn]
  constructor
  · rintro (rfl | ⟨v, hv, hm⟩)
    · exact ⟨w, self_mem_all w, hn⟩
    · exact ⟨v, mem_all.2 (.inr (mem_allOf.1 hv)), hm⟩
  · rintro ⟨v, hv, hm⟩
    rcases mem_all.1 hv with rfl | hbelow
    · exact .inl (h.sound.eq_of_place (place?_of_node hm) (place?_of_node hn))
    · exact .inr ⟨v, mem_allOf.2 hbelow, hm⟩

lemma Graded.releases_forgetDescendants (h : d.Graded) (hn : d.node n = .ok w) :
    (d.forgetDescendants n).answer = .ok () ∧
    d.Releases (d.forgetDescendants n).document fun m => d.Below m n := by
  obtain ⟨lost, hs, hlost⟩ := h.sound.sheds_forgetDescendants n
  obtain ⟨hanswer, rfl⟩ := hlost w hn
  exact ⟨hanswer, hs.releases h (.forgetDescendants d n) fun m => h.sound.below_iff hn⟩

lemma Sound.forget_of_forgotten (h : d.Sound) (hn : d.isForgotten n = true) :
    d.forget n = ⟨.ok (), d, [.forgot 0]⟩ := by
  obtain ⟨htag, hindex⟩ := isForgotten_iff.1 hn
  have hroot : n ≠ d.rootId := by
    rintro rfl
    cases (isForgotten_of_node h.consistent.root).symm.trans hn
  have hnot : n.index ∉ d.root.indices := fun hmem => h.not_forgotten hmem hindex
  have hfind : d.root.find? n.index = none := by
    rw [Wrapper.find?, trail?_eq_none hnot]
    rfl
  rw [Document.forget, if_neg hroot, if_neg (not_not.2 htag), hfind, prune_of_not_mem hnot]
  rfl

/-- To forget a live wrapper other than the root takes it and all below it out, and to forget what
is below takes out that and no more. Whatever happens then, to forget the wrapper once more changes
nothing. -/
theorem releases_of_run {tag : Nat} {file : String} {initial : Text} {settings : Settings}
    {reader : Reader} {ops : List Operation}
    (hrun : (create tag file initial settings reader).run ops = some d)
    (hn : d.node n = .ok w) (hroot : n ≠ d.rootId) :
    ((d.forget n).answer = .ok () ∧ d.Releases (d.forget n).document fun m => m = n ∨ d.Below m n) ∧
    ((d.forgetDescendants n).answer = .ok () ∧
      d.Releases (d.forgetDescendants n).document fun m => d.Below m n) ∧
    ∀ later new, (d.forget n).document.run later = some new →
      new.forget n = ⟨.ok (), new, [.forgot 0]⟩ := by
  have hgraded : d.Graded := (graded_create tag file initial settings reader).moves (moves_run hrun)
  have hforget := hgraded.releases_forget hn hroot
  refine ⟨hforget, hgraded.releases_forgetDescendants hn, fun later new hlater => ?_⟩
  have hdone := hgraded.sound.move (.forget d n)
  obtain ⟨known, hknown⟩ := isSome_iff_exists.1 ((hforget.2.forgotten n).2 (.inr (.inl rfl)))
  have hstill := hdone.lastKnown?_of_moves (moves_run hlater) hknown
  exact (hdone.moves (moves_run hlater)).forget_of_forgotten (isSome_iff_exists.2 ⟨known, hstill⟩)

theorem releases_of_run_edit : ∃ d k,
    (create 0 "a.ts" "a;b;".toList {} .usual).run
      [.descendants ⟨0, 0⟩, .insertAt ⟨0, 4⟩ 3 "c".toList] = some d ∧ d.Below ⟨0, 3⟩ ⟨0, 1⟩ ∧
    d.Releases (d.forget ⟨0, 1⟩).document (fun m => m = ⟨0, 1⟩ ∨ d.Below m ⟨0, 1⟩) ∧
    (d.forget ⟨0, 1⟩).document.forget ⟨0, 1⟩ = ⟨.ok (), (d.forget ⟨0, 1⟩).document, [.forgot 0]⟩ ∧
    (d.forget ⟨0, 1⟩).document.Resolves (.firstChild ⟨0, 0⟩ .expressionStatement) k [0] ∧
    d.fresh ≤ k.index := by
  have hfound : ∃ d ∈ (create 0 "a.ts" "a;b;".toList {} .usual).run
      [.descendants ⟨0, 0⟩, .insertAt ⟨0, 4⟩ 3 "c".toList], ⟨0, 1⟩ ≠ d.rootId ∧
      (∃ outer, d.parent ⟨0, 3⟩ = .ok outer ∧ outer = some ⟨0, 2⟩) ∧
      (∃ inner, d.parent ⟨0, 2⟩ = .ok inner ∧ inner = some ⟨0, 1⟩) ∧
      (∃ w, d.node ⟨0, 1⟩ = .ok w ∧ d.address w = [0]) ∧
      (∃ ids,
        ((d.forget ⟨0, 1⟩).document.navigate (.firstChild ⟨0, 0⟩ .expressionStatement)).answer =
        .ok ids ∧ ∃ k ∈ ids[0]?, True) ∧
      ∃ p ∈ ((d.forget ⟨0, 1⟩).document.targets (.firstChild ⟨0, 0⟩ .expressionStatement))[0]?,
        p.1 = [0] := by
    decide +kernel
  obtain ⟨d, hrun, hroot, ⟨_, houter, rfl⟩, ⟨_, hinner, rfl⟩, ⟨w, hnode, haddress⟩,
    ⟨ids, hids, k, hk, -⟩, ⟨a, s⟩, hp, rfl⟩ := hfound
  have hbelow : Below d ⟨0, 3⟩ ⟨0, 1⟩ := .head houter (.single hinner)
  obtain ⟨⟨-, hreleases⟩, -, hagain⟩ := releases_of_run hrun hnode hroot
  have hresolves : (d.forget ⟨0, 1⟩).document.Resolves (.firstChild ⟨0, 0⟩ .expressionStatement)
      k [0] := ⟨ids, 0, s, hids, hk, hp⟩
  have hplace := place?_of_node hnode
  rw [haddress] at hplace
  have hnew := (hreleases.again _ _ _ (.inl rfl) hplace [] _ rfl hreleases.version _ _ hresolves).1
  exact ⟨d, k, hrun, hbelow, hreleases, hagain [] _ rfl, hresolves, hnew⟩

end Document
end LiveEdit
