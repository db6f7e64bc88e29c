import LiveEdit.Proofs.Document.Agreement

namespace LiveEdit
open List Option

def Operation.isNavigation : Operation → Bool
  | children _ | descendants _ | firstChild _ _ | firstDescendant _ _ | descendantAt _ => true
  | _ => false

namespace Document
open Wrapper Failure

variable {b : Nat} {d d' new : Document} {n : NodeId} {w w' : Wrapper} {op : Operation}
  {o : Outcome Answer}

lemma Sound.index_wrap_lt (h : d.Sound) (a : Address) :
    (d.wrap a).2.index < (d.wrap a).1.fresh := by
  obtain ⟨l, v, hl, hindex, -⟩ := trail_reach h.bound d.fresh a
  have hlt := (h.wrap a).lt_fresh_iff.2 (.inl (mem_indices_of_mem hl.mem))
  rw [hindex] at hlt
  exact hlt

lemma Sound.place?_wrap (h : d.Sound) (a : Address) :
    (d.wrap a).1.place? (d.wrap a).2 = some (d.tree.clip a) := by
  obtain ⟨l, v, hl, hindex, hclip⟩ := trail_reach h.bound d.fresh a
  have hnew := h.wrap a
  have hid : (d.wrap a).2 = (d.wrap a).1.nodeId v.index := by
    rw [hindex]
    rfl
  rw [Document.place?, hid, hnew.live hl.mem, Except.toOption, map_some, hnew.address_eq hl, hclip]
  rfl

lemma Graded.places_wrapAll (h : d.Graded) (as : List Address) :
    (d.wrapAll as).2.map (d.wrapAll as).1.place? = (as.map d.tree.clip).map some := by
  induction as generalizing d with
  | nil => rfl
  | cons a as ih =>
    have hone := h.move (.make (.wrap d a))
    have hrest := ih hone
    have htree : (d.wrap a).1.tree = d.tree := (h.agrees_wrap (Nat.zero_le _) a).tree
    -- the wrappers that are made later leave the first one where it is
    have hlater := (wraps_wrapAll (d.wrap a).1 as).agrees hone le_rfl
    have hfirst := hlater.place? (n := (d.wrap a).2) fun _ => h.sound.index_wrap_lt a
    rw [h.sound.place?_wrap] at hfirst
    rw [htree] at hrest
    rw [wrapAll, map_cons, map_cons, map_cons, ← hrest, ← hfirst]

inductive Denote (d d' : Document) : Answer → Answer → Prop where
  | nothing : Denote d d' .nothing .nothing
  | same {n : NodeId} (h : d'.place? n = d.place? n) : Denote d d' (.node n) (.node n)
  | node {n n' : NodeId} {p : Address × Site} (h : d.place? n = some p)
      (h' : d'.place? n' = some p) : Denote d d' (.node n) (.node n')
  | nodes {ns ns' : List NodeId} {ps : List (Address × Site)} (h : ns.map d.place? = ps.map some)
      (h' : ns'.map d'.place? = ps.map some) : Denote d d' (.nodes ns) (.nodes ns')

structure Alike (b : Nat) (o o' : Outcome Answer) : Prop where
  documents : Agrees b o.document o'.document
  answers : Matches (Denote o.document o'.document) o.answer o'.answer

lemma Agrees.wrap (h : Agrees b d d') (a : Address) : Agrees b (d.wrap a).1 (d'.wrap a).1 :=
  (h.graded.agrees_wrap h.le a).symm.trans (h.trans (h.graded'.agrees_wrap h.le' a))

lemma Agrees.wrapAll (h : Agrees b d d') (as : List Address) :
    Agrees b (d.wrapAll as).1 (d'.wrapAll as).1 :=
  ((wraps_wrapAll d as).agrees h.graded h.le).symm.trans
    (h.trans ((wraps_wrapAll d' as).agrees h.graded' h.le'))

lemma Agrees.denote_wrap (h : Agrees b d d') (a : Address) :
    Denote (d.wrap a).1 (d'.wrap a).1 (.node (d.wrap a).2) (.node (d'.wrap a).2) := by
  have hplace' := h.graded'.sound.place?_wrap a
  rw [h.tree] at hplace'
  exact .node (h.graded.sound.place?_wrap a) hplace'

lemma Agrees.denote_wrapAll (h : Agrees b d d') (as : List Address) : Denote (d.wrapAll as).1
      (d'.wrapAll as).1 (.nodes (d.wrapAll as).2) (.nodes (d'.wrapAll as).2) := by
  have hplaces' := h.graded'.places_wrapAll as
  rw [h.tree] at hplaces'
  exact .nodes (h.graded.places_wrapAll as) hplaces'

lemma rel_bind {α β γ δ : Type} {R : α → β → Prop} {S : γ → δ → Prop} {x : Option α}
    {y : Option β} {f : α → Option γ} {g : β → Option δ} (h : Option.Rel R x y)
    (hfg : ∀ a b, R a b → Option.Rel S (f a) (g b)) : Option.Rel S (x.bind f) (y.bind g) := by
  cases h with
  | none => exact .none
  | some hab => exact hfg _ _ hab

lemma Agrees.attempt {α β : Type}
    {R : β → β → Prop} {f : α → Answer} {plan plan' : Except Failure β}
    {act act' : β → Option (Outcome α)} (h : Agrees b d d') (hplan : Matches R plan plan')
    (hact : ∀ x x', R x x' → Option.Rel (Alike b) ((act x).map (.map f)) ((act' x').map (.map f))) :
    Option.Rel (Alike b) ((d.attempt plan act).map (.map f))
      ((d'.attempt plan' act').map (.map f)) := by
  cases hplan with
  | error e =>
    cases e with
    | refused e => exact .some ⟨h, .error e⟩
    | outOfText => exact .none
  | ok hx => exact hact _ _ hx

lemma Agrees.commit_then {α : Type} {f : α → Answer} {m : Manipulation}
    {act act' : Document × List Event → Option (Outcome α)} (h : Agrees b d d')
    (hw : Held b w w') (hact : ∀ c c', Agrees b c.1 c'.1 → c.1.tag = d.tag →
      Option.Rel (Alike b) ((act c).map (.map f)) ((act' c').map (.map f))) :
    Option.Rel (Alike b) (((d.commit w.index m).bind act).map (.map f))
      (((d'.commit w'.index m).bind act').map (.map f)) := by
  rw [map_bind, map_bind, hw.same.index]
  exact rel_bind (h.commit hw.lt m) fun c c' hc => hact c c' hc.1 hc.2

section

variable (h : Agrees b d d') (hn : Earlier b d n)
include h hn

lemma Agrees.replaceable (s : Span) :
    Matches (Held b) (d.replaceable n s) (d'.replaceable n s) := by
  refine (h.node hn).refusing.bind fun w w' hw => ?_
  rw [hw.span, hw.kind, h.text]
  split_ifs
  · exact .error _
  · exact .error _
  · exact .error _
  · exact .ok hw

lemma Agrees.replaceSpan (s : Span) (text : Text) : Option.Rel (Alike b)
      ((d.replaceSpan n s text).map (.map .node)) ((d'.replaceSpan n s text).map (.map .node)) := by
  refine h.attempt (h.replaceable hn s) fun w w' hw => h.commit_then hw ?_
  rintro ⟨new, log⟩ ⟨new', log'⟩ hnew htag
  have hearlier : Earlier b new n := fun hdocument => hn (hdocument.trans htag)
  dsimp only at hnew ⊢
  rw [hnew.lastKnown? hearlier]
  cases new.lastKnown? n with
  | none => exact .some ⟨hnew, .ok (.same (hnew.place? hearlier))⟩
  | some known =>
    -- the node that stands in is found in the tree
    simp only [outermostOver?, hw.span, hw.kind, hnew.tree]
    cases new.tree.covering? (.sized w.span.start (w.span.size - s.size + text.size)) with
    | none => exact .none
    | some a =>
      simp only [bind_eq_bind, bind_some]
      split
      · exact .some ⟨hnew.wrap _, .ok (hnew.denote_wrap _)⟩
      · exact .some ⟨hnew, .error _⟩

lemma Agrees.unwrapping :
    Matches (fun p p' => Held b p.1 p'.1 ∧ p'.2 = p.2) (d.unwrapping n) (d'.unwrapping n) := by
  refine (h.node hn).refusing.bind fun w w' hw => ?_
  have hparent := h.parent? hw.lt
  rw [hw.kind, hw.site, hw.span, hw.same.index, h.settings]
  generalize d.root.parent? w.index = x at hparent ⊢
  generalize d'.root.parent? w.index = x' at hparent ⊢
  cases hparent with
  | none =>
    cases w.kind.capabilities.body with
    | none => exact .error _
    | some place => exact .error _
  | some hp =>
    cases w.kind.capabilities.body with
    | none => exact .error _
    | some place =>
      dsimp only
      cases place.find? w.site with
      | none => exact .error _
      | some block =>
        dsimp only
        cases block.braces? with
        | none => exact .error _
        | some braces =>
          refine (matches_refl (bodySpan braces)).bind fun s s' hs => ?_
          exact .ok ⟨hp, by rw [hs]⟩

lemma Agrees.unwrap :
    Option.Rel (Alike b) ((d.unwrap n).map (.map .nodes)) ((d'.unwrap n).map (.map .nodes)) := by
  refine h.attempt (h.unwrapping hn) ?_
  rintro ⟨parent, -⟩ ⟨parent', u⟩ ⟨hparent, rfl⟩
  dsimp only at hparent ⊢
  rw [h.text]
  cases u.edit? d.text with
  | none => exact .none
  | some edit =>
    refine h.commit_then hparent ?_
    rintro ⟨new, log⟩ ⟨new', log'⟩ hnew -
    dsimp only at hnew ⊢
    rw [hnew.tree]
    exact .some ⟨hnew.wrapAll _, .ok (hnew.denote_wrapAll _)⟩

omit hn in
lemma Agrees.removal {p p' : Wrapper} (hp : Held b p p') (hw : Held b w w') :
    d'.removal p' w' = d.removal p w := by
  unfold Document.removal removalTrim
  rw [hp.kind, hw.kind, hp.site, hw.same.ordinal, hw.span, h.text]

lemma Agrees.alike_forget (log log' : List Event) :
    Alike b (.map (fun _ => .nothing) { d.forget n with log })
      (.map (fun _ => .nothing) { d'.forget n with log := log' }) := by
  obtain ⟨hdocuments, hanswer⟩ := h.forget hn
  refine ⟨hdocuments, ?_⟩
  simp only [Outcome.map, hanswer]
  cases (d.forget n).answer with
  | error e => exact .error e
  | ok u => exact .ok .nothing

lemma Agrees.remove : Option.Rel (Alike b) ((d.remove n).map (.map fun _ => .nothing))
      ((d'.remove n).map (.map fun _ => .nothing)) := by
  refine h.attempt (R := fun p p' => Held b p.1 p'.1 ∧ p'.2 = p.2) ?_ ?_
  · refine (h.node hn).refusing.bind fun w w' hw => ?_
    have hparent := h.parent? hw.lt
    rw [hw.same.index]
    generalize d.root.parent? w.index = x at hparent ⊢
    generalize d'.root.parent? w.index = x' at hparent ⊢
    cases hparent with
    | none => exact .error _
    | some hp =>
      dsimp only
      rw [h.removal hp hw]
      refine (matches_refl _).bind fun r r' hr => ?_
      exact .ok ⟨hp, hr.symm⟩
  · rintro ⟨parent, -⟩ ⟨parent', r⟩ ⟨hparent, rfl⟩
    refine h.commit_then hparent ?_
    rintro ⟨new, log⟩ ⟨new', log'⟩ hnew htag
    have hearlier : Earlier b new n := fun hdocument => hn (hdocument.trans htag)
    dsimp only at hnew ⊢
    rw [isForgotten, isForgotten, hnew.lastKnown? hearlier]
    split_ifs
    · exact .some ⟨hnew, .ok .nothing⟩
    · exact .some (hnew.alike_forget hearlier _ _)

lemma Agrees.modifiable (feature : Feature) (accepts : ModifierRole → Bool) :
    Matches (Held b) (d.modifiable n feature accepts) (d'.modifiable n feature accepts) := by
  refine (h.node hn).bind fun w w' hw => ?_
  rw [hw.kind]
  split_ifs
  · exact .ok hw
  · exact .error _

lemma Agrees.change (hw : Held b w w') (m : Option Manipulation) : Option.Rel (Alike b)
      ((d.change n w m).map (.map .node)) ((d'.change n w' m).map (.map .node)) := by
  cases m with
  | none => exact .some ⟨h, .ok (.same (h.place? hn))⟩
  | some m =>
    refine h.commit_then hw fun c c' hc htag => ?_
    have hearlier : Earlier b c.1 n := fun hdocument => hn (hdocument.trans htag)
    exact .some ⟨hc, .ok (.same (hc.place? hearlier))⟩

end

def spotOver? (t : Site) (accept : Kind → Bool) (s : Span) : Option Address :=
  (t.covering? s).map fun a =>
    (((t.lineage a).find? fun c => accept c.2.kind && c.2.span = s).map (·.1)).getD a

lemma standIn_eq (d : Document) (accept : Kind → Bool) (s : Span) :
    d.standIn accept s = (spotOver? d.tree accept s).map d.wrap := by
  rw [standIn, spotOver?, Option.map_map]
  cases d.tree.covering? s with
  | none => rfl
  | some a => rfl

lemma Graded.standInAll_eq (h : d.Graded) (accept : Kind → Bool) (spans : List Span) :
    d.standInAll accept spans = (spans.mapM (spotOver? d.tree accept)).map d.wrapAll := by
  induction spans generalizing d with
  | nil => rfl
  | cons s spans ih =>
    rw [standInAll, standIn_eq, mapM_cons]
    cases spotOver? d.tree accept s with
    | none => rfl
    | some a =>
      have htree : (d.wrap a).1.tree = d.tree := (h.agrees_wrap (Nat.zero_le _) a).tree
      have hrest := ih (h.move (.make (.wrap d a)))
      rw [htree] at hrest
      simp only [map_some, bind_eq_bind, bind_some, hrest]
      cases spans.mapM (spotOver? d.tree accept) with
      | none => rfl
      | some as => rfl

section

variable (h : Agrees b d d') (hn : Earlier b d n)
include h hn

lemma Agrees.memberPlan (index : Nat) (text : Text) : Matches (fun p p' =>
      Held b p.wrapper p'.wrapper ∧ p'.manipulation = p.manipulation ∧ p'.expected = p.expected ∧
      p'.accepts = p.accepts) (d.memberPlan n index text) (d'.memberPlan n index text) := by
  refine (h.node hn).refusing.bind fun w w' hw => ?_
  rw [hw.kind, hw.site, h.settings, h.text]
  cases w.kind.capabilities.members with
  | none => exact .error _
  | some l =>
    dsimp only
    split_ifs
    · exact .error _
    · exact .error _
    · cases w.site.braces? with
      | none => exact .error _
      | some braces =>
        refine (matches_refl _).bind fun outer outer' houter => ?_
        subst houter
        refine (matches_refl _).bind fun i i' hi => ?_
        subst hi
        exact .ok ⟨hw, rfl, rfl, rfl⟩

lemma Agrees.insertMember (index : Nat) (text : Text) :
    Option.Rel (Alike b) ((d.insertMember n index text).map (.map .node))
      ((d'.insertMember n index text).map (.map .node)) := by
  refine h.attempt (h.memberPlan hn index text) ?_
  rintro p ⟨w', m, expected, accepts⟩ ⟨hw, rfl, rfl, rfl⟩
  refine h.commit_then hw ?_
  rintro ⟨new, log⟩ ⟨new', log'⟩ hnew -
  dsimp only at hnew ⊢
  rw [standIn_eq, standIn_eq, hnew.tree]
  cases spotOver? new.tree p.accepts p.expected with
  | none => exact .none
  | some a => exact .some ⟨hnew.wrap a, .ok (hnew.denote_wrap a)⟩

lemma Agrees.statementPlan (index : Nat) (texts : List Text) : Matches (fun p p' =>
      Held b p.wrapper p'.wrapper ∧ p'.manipulation = p.manipulation ∧ p'.expected = p.expected)
      (d.statementPlan n index texts) (d'.statementPlan n index texts) := by
  have hinsertion : ∀ list index lead close joined,
      d'.statementInsertion list index lead close joined =
        d.statementInsertion list index lead close joined := by
    intro list index lead close joined
    unfold statementInsertion
    rw [h.settings, h.text]
  refine (h.node hn).refusing.bind fun w w' hw => ?_
  rw [hw.kind, hw.site, h.settings, h.text]
  cases w.kind.capabilities.statements with
  | none => exact .error _
  | some place =>
    dsimp only
    cases place.find? w.site with
    | none => exact .error _
    | some list =>
      dsimp only
      split_ifs
      · exact .error _
      · exact .error _
      all_goals
        refine (matches_refl _).bind fun outer outer' houter => ?_
        subst houter
        rw [hinsertion]
        refine (matches_refl _).bind fun i i' hi => ?_
        subst hi
        exact .ok ⟨hw, rfl, rfl⟩

lemma Agrees.insertStatements (index : Nat) (texts : List Text) :
    Option.Rel (Alike b) ((d.insertStatements n index texts).map (.map .nodes))
      ((d'.insertStatements n index texts).map (.map .nodes)) := by
  refine h.attempt (h.statementPlan hn index texts) ?_
  rintro p ⟨w', m, expected⟩ ⟨hw, rfl, rfl⟩
  refine h.commit_then hw ?_
  rintro ⟨new, log⟩ ⟨new', log'⟩ hnew -
  dsimp only at hnew ⊢
  rw [hnew.graded.standInAll_eq, hnew.graded'.standInAll_eq, hnew.tree]
  cases p.expected.mapM (spotOver? new.tree Kind.isStatement) with
  | none => exact .none
  | some as => exact .some ⟨hnew.wrapAll as, .ok (hnew.denote_wrapAll as)⟩

lemma Agrees.select (below : Site → List Address) :
    Agrees b (d.select n below).document (d'.select n below).document ∧
    Matches (fun ns ns' => Denote (d.select n below).document (d'.select n below).document
      (.nodes ns) (.nodes ns')) (d.select n below).answer (d'.select n below).answer := by
  have hnode := h.node hn
  unfold Document.select
  cases hw : d.node n with
  | error e =>
    rw [hw] at hnode
    rw [hnode.eq_error]
    exact ⟨h, .error e⟩
  | ok w =>
    rw [hw] at hnode
    obtain ⟨w', hw', hheld⟩ := hnode.exists_ok
    rw [hw']
    dsimp only
    rw [hheld.site, h.address hheld.same hheld.lt]
    exact ⟨h.wrapAll _, .ok (h.denote_wrapAll _)⟩

lemma Agrees.alike_select (below : Site → List Address) :
    Alike b ((d.select n below).map .nodes) ((d'.select n below).map .nodes) := by
  obtain ⟨hdocuments, hanswers⟩ := h.select hn below
  exact ⟨hdocuments, hanswers.map fun _ _ hns => hns⟩

end

lemma Graded.adoptAll_eq (h : d.Graded) (hw : w ∈ d.root.all) (ns : List Nat) :
    d.adoptAll w.index ns = d.wrapAll (ns.map (d.address w ++ [·])) := by
  induction ns generalizing d w with
  | nil => rfl
  | cons n ns ih =>
    obtain ⟨l, hl⟩ := exists_trail hw
    have hone : d.adopt w.index n = d.wrap (d.address w ++ [n]) := by
      rw [h.sound.adopt_eq hl, h.sound.address_eq hl]
    have hagrees := h.agrees_wrap le_rfl (d.address w ++ [n])
    have hearlier : Earlier d.fresh d (d.nodeId w.index) :=
      fun _ => h.sound.lt_fresh_iff.2 (.inl (mem_indices_of_mem hw))
    have hnode := hagrees.node hearlier
    rw [h.sound.live hw] at hnode
    obtain ⟨w', hw', hheld⟩ := hnode.exists_ok
    obtain ⟨-, hmem, hindex⟩ := hagrees.graded'.sound.node_eq_ok.1 hw'
    have hrest := ih hagrees.graded' hmem
    rw [hagrees.address hheld.same hheld.lt] at hrest
    rw [show w'.index = w.index from hindex] at hrest
    rw [adoptAll, hone, map_cons, wrapAll, hrest]

lemma Graded.children_eq (h : d.Graded) (n : NodeId) :
    d.children n = d.select n fun s => (List.range s.nodes.length).map ([·]) := by
  unfold Document.children Document.select
  cases hw : d.node n with
  | error e => rfl
  | ok w =>
    dsimp only
    rw [h.adoptAll_eq (h.sound.node_eq_ok.1 hw).2.1, List.map_map]
    rfl

lemma Denote.head {ns ns' : List NodeId} (h : Denote d d' (.nodes ns) (.nodes ns')) :
    Denote d d' (ns.head?.elim .nothing .node) (ns'.head?.elim .nothing .node) := by
  cases h with
  | @nodes _ _ ps h h' =>
    cases ps with
    | nil =>
      rw [map_eq_nil_iff.1 h, map_eq_nil_iff.1 h']
      exact .nothing
    | cons p ps =>
      obtain ⟨n, rest, rfl, hp, -⟩ := map_eq_cons_iff.1 h
      obtain ⟨n', rest', rfl, hp', -⟩ := map_eq_cons_iff.1 h'
      exact .node hp hp'

lemma Agrees.alike_first (h : Agrees b d d')
    (hn : Earlier b d n) (kind : Kind) (below : Site → List (Address × Site)) :
    Alike b ((d.first n kind below).map fun found => found.elim .nothing .node)
      ((d'.first n kind below).map fun found => found.elim .nothing .node) := by
  obtain ⟨hdocuments, hanswers⟩ :=
    h.select hn fun s => (((below s).find? (·.2.kind == kind)).map (·.1)).toList
  refine ⟨hdocuments, Matches.map (R := fun x x' => Denote _ _ (x.elim .nothing .node)
    (x'.elim .nothing .node)) (hanswers.map fun _ _ hns => ?_) fun _ _ hfound => hfound⟩
  exact hns.head

lemma Agrees.alike_descendantAt (h : Agrees b d d') (offset : Nat) :
    Alike b ((d.descendantAt offset).map .node) ((d'.descendantAt offset).map .node) := by
  unfold Document.descendantAt
  rw [h.tree, h.text]
  cases d.tree.covering? (.empty offset) with
  | none => exact ⟨h, .error _⟩
  | some a => exact ⟨h.wrap a, .ok (h.denote_wrap a)⟩

lemma Agrees.configure (h : Agrees b d d') (settings : Settings) :
    Agrees b { d with settings } { d' with settings } :=
  { h with
    settings := rfl
    graded := h.graded.move (.configure d settings)
    graded' := h.graded'.move (.configure d' settings) }

/-- Documents that agree on the earlier wrappers answer an operation that is asked of one of them,
or of none, in the same way, and agree afterwards. -/
lemma Agrees.perform (h : Agrees b d d') (hop : ∀ n, op.node? = some n → Earlier b d n) :
    Option.Rel (Alike b) (d.perform op) (d'.perform op) := by
  cases op with
  | setSettings settings => exact .some ⟨h.configure settings, .ok .nothing⟩
  | children n =>
    rw [Document.perform, Document.perform, h.graded.children_eq, h.graded'.children_eq]
    exact .some (h.alike_select (hop n rfl) _)
  | descendants n => exact .some (h.alike_select (hop n rfl) _)
  | firstChild n kind => exact .some (h.alike_first (hop n rfl) kind _)
  | firstDescendant n kind => exact .some (h.alike_first (hop n rfl) kind _)
  | descendantAt offset => exact .some (h.alike_descendantAt offset)
  | forget n => exact .some (h.alike_forget (hop n rfl) _ _)
  | forgetDescendants n =>
    obtain ⟨hdocuments, hanswer⟩ := h.forgetDescendants (hop n rfl)
    refine .some ⟨hdocuments, ?_⟩
    simp only [Outcome.map, hanswer]
    exact (matches_refl _).map fun _ _ _ => .nothing
  | insertAt n offset text => exact h.replaceSpan (hop n rfl) _ text
  | removeSpan n span => exact h.replaceSpan (hop n rfl) span []
  | replaceSpan n span text => exact h.replaceSpan (hop n rfl) span text
  | replaceText n text =>
    refine h.attempt (h.node (hop n rfl)).refusing fun w w' hw => ?_
    rw [hw.span]
    exact h.replaceSpan (hop n rfl) w.span text
  | unwrap n => exact h.unwrap (hop n rfl)
  | remove n => exact h.remove (hop n rfl)
  | setScope n scope =>
    refine h.attempt (h.modifiable (hop n rfl) _ _).refusing fun w w' hw => ?_
    rw [hw.site]
    exact h.change (hop n rfl) hw _
  | setExported n exported =>
    refine h.attempt (h.modifiable (hop n rfl) _ _).refusing fun w w' hw => ?_
    rw [hw.site]
    exact h.change (hop n rfl) hw _
  | insertMember n index text => exact h.insertMember (hop n rfl) index text
  | insertStatements n index texts => exact h.insertStatements (hop n rfl) index texts

lemma wraps_children (d : Document) (n : NodeId) : Wraps d (d.children n).document := by
  unfold Document.children
  split
  · exact .refl
  · exact wraps_adoptAll d _ _

lemma wraps_select (n : NodeId) (below : Site → List Address) :
    Wraps d (d.select n below).document := by
  unfold Document.select
  split
  · exact .refl
  · exact wraps_wrapAll d _

lemma wraps_perform (hnav : op.isNavigation = true) (h : d.perform op = some o) :
    Wraps d o.document := by
  cases op with
  | children n => exact some.inj h ▸ wraps_children d n
  | descendants n => exact some.inj h ▸ wraps_select n _
  | firstChild n kind => exact some.inj h ▸ wraps_select n _
  | firstDescendant n kind => exact some.inj h ▸ wraps_select n _
  | descendantAt offset =>
    obtain rfl := some.inj h
    unfold Document.descendantAt
    split
    · exact .refl
    · exact wraps_wrap d _
  | _ => cases hnav

lemma wraps_run {navs : List Operation} (hnavs : ∀ op ∈ navs, op.isNavigation = true)
    (h : d.run navs = some new) : Wraps d new := by
  induction navs generalizing d with
  | nil =>
    obtain rfl := some.inj h
    exact .refl
  | cons op navs ih =>
    obtain ⟨o, ho, h⟩ := bind_eq_some_iff.1 h
    have hfirst := wraps_perform (hnavs op mem_cons_self) ho
    exact hfirst.trans (ih (fun op hop => hnavs op (mem_cons_of_mem _ hop)) h)

/-- Two outcomes that look the same to whoever knows the wrappers of `d`. -/
structure Indistinct (d : Document) (o o' : Outcome Answer) : Prop where
  answer : Matches (Denote o.document o'.document) o.answer o'.answer
  text : o'.document.text = o.document.text
  version : o'.document.version = o.document.version
  diagnostics : o'.document.diagnostics = o.document.diagnostics
  forgotten : ∀ i < d.fresh,
    o'.document.lastKnown? (d.nodeId i) = o.document.lastKnown? (d.nodeId i)
  place : ∀ i < d.fresh, o'.document.place? (d.nodeId i) = o.document.place? (d.nodeId i)
  parent : ∀ i < d.fresh, o'.document.parent (d.nodeId i) = o.document.parent (d.nodeId i)

lemma Alike.indistinct {o' : Outcome Answer} (h : Alike d.fresh o o') : Indistinct d o o' := by
  have hearlier : ∀ i < d.fresh, Earlier d.fresh o.document (d.nodeId i) := fun _ hi _ => hi
  have hd := h.documents
  exact ⟨h.answers, hd.text, hd.version, hd.diagnostics,
    fun i hi => hd.lastKnown? (hearlier i hi), fun i hi => hd.place? (hearlier i hi),
    fun i hi => hd.parent (hearlier i hi)⟩

/-- To look about in a document before an operation makes no difference to it. It gives the same
error, or wrappers of the same nodes, or no outcome at all; the text, the version and the
diagnostics are the same, and each wrapper that there was is forgotten with the same last text, or
stands for the same node below the same parent. -/
theorem indistinct_of_navigation {tag : Nat} {file : String} {initial : Text} {settings : Settings}
    {reader : Reader} {ops navs : List Operation} {plus : Document}
    (hrun : (create tag file initial settings reader).run ops = some d)
    (hnavs : ∀ nav ∈ navs, nav.isNavigation = true) (hplus : d.run navs = some plus)
    (hop : ∀ n, op.node? = some n → n.document = d.tag → n.index < d.fresh) :
    Option.Rel (Indistinct d) (d.perform op) (plus.perform op) := by
  have hgraded : d.Graded := (graded_create tag file initial settings reader).moves (moves_run hrun)
  have hagrees := (wraps_run hnavs hplus).agrees hgraded le_rfl
  have hrel := hagrees.perform hop
  generalize d.perform op = x at hrel ⊢
  generalize plus.perform op = x' at hrel ⊢
  cases hrel with
  | none => exact .none
  | some halike => exact .some halike.indistinct

theorem indistinct_of_navigation_removal : ∃ d plus o o',
    (create 0 "a.ts" "a;b;".toList {} .usual).run [.children ⟨0, 0⟩] = some d ∧
      d.run [.descendants ⟨0, 0⟩, .descendantAt 2] = some plus ∧ d.fresh < plus.fresh ∧
      d.perform (.remove ⟨0, 1⟩) = some o ∧ plus.perform (.remove ⟨0, 1⟩) = some o' ∧
      o.document.isForgotten ⟨0, 1⟩ = true ∧ Indistinct d o o' := by
  have hfound : ∃ d ∈ (create 0 "a.ts" "a;b;".toList {} .usual).run [.children ⟨0, 0⟩],
      ∃ plus ∈ d.run [.descendants ⟨0, 0⟩, .descendantAt 2], ∃ o ∈ d.perform (.remove ⟨0, 1⟩),
      ∃ o' ∈ plus.perform (.remove ⟨0, 1⟩), 1 < d.fresh ∧ d.fresh < plus.fresh ∧
        o.document.isForgotten ⟨0, 1⟩ = true := by
    decide +kernel
  obtain ⟨d, hrun, plus, hplus, o, ho, o', ho', hissued, hfresh, hforgotten⟩ := hfound
  have hop : ∀ n, Operation.node? (.remove ⟨0, 1⟩) = some n → n.document = d.tag →
      n.index < d.fresh := by
    intro n hn _
    rw [← some.inj hn]
    exact hissued
  have hrel := indistinct_of_navigation hrun (by decide) hplus hop
  rw [ho, ho'] at hrel
  cases hrel with
  | some h => exact ⟨d, plus, o, o', hrun, hplus, hfresh, ho, ho', hforgotten, h⟩

end Document
end LiveEdit
