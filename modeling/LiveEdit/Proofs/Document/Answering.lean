import LiveEdit.Proofs.Document.Pointing

namespace LiveEdit
open List Option

def Site.IsOver (k : Kind) (r : Span) (s : Site) : Prop := s.kind = k ∧ s.span = r

namespace Document
open Failure

variable {d new : Document} {n : NodeId} {w : Wrapper} {s : Span} {k : Kind} {text : Text}
  {log : List Event}

lemma Sound.outermostOver?_cases (h : d.Sound) (husual : d.reader = .usual)
    (hs : s.stop ≤ d.text.size) (k : Kind) : ∃ a, d.tree.covering? s = some a ∧
    ((∃ b, d.outermostOver? a s (· == k) = some b ∧ d.tree.Outermost (Site.IsOver k s) b) ∨
      d.outermostOver? a s (· == k) = none ∧ ∀ b u, d.tree.at? b = some u → ¬u.IsOver k s) := by
  obtain ⟨a, ha⟩ := h.exists_covering? (husual ▸ keeps_usual) hs
  refine ⟨a, ha, ?_⟩
  have hall : ∀ b u, d.tree.at? b = some u → (u.kind == k && u.span = s) = true →
      (b, u) ∈ d.tree.lineage a := by
    intro b u hu hover
    obtain ⟨a', ha', hmem⟩ := (h.tight husual).mem_lineage_of_at? hu
    rw [of_decide_eq_true (Bool.and_eq_true_iff.1 hover).2] at ha'
    obtain rfl := mem_unique ha ha'
    exact hmem
  have hiff : ∀ u : Site, (u.kind == k && u.span = s) = true ↔ u.IsOver k s := by simp [Site.IsOver]
  cases hfind : (d.tree.lineage a).find? fun c => c.2.kind == k && c.2.span = s with
  | none =>
    refine .inr ⟨by rw [outermostOver?, hfind]; rfl, fun b u hu hover => ?_⟩
    have hnot := List.find?_eq_none.1 hfind _ (hall b u hu ((hiff u).2 hover))
    exact hnot ((hiff u).2 hover)
  | some x =>
    obtain ⟨b, u⟩ := x
    obtain ⟨⟨u, hu, hover⟩, hinside⟩ := Site.outermost_of_find? hfind hall
    exact .inl ⟨b, by rw [outermostOver?, hfind]; rfl, ⟨u, hu, (hiff u).1 hover⟩,
      fun c v hv hv' => hinside c v hv ((hiff v).2 hv')⟩

lemma replaceable_eq_ok (hn : d.node n = .ok w) (hin : w.span.contains s = true)
    (hstart : d.text.isBoundary s.start = true) (hstop : d.text.isBoundary s.stop = true) :
    d.replaceable n s = .ok w := by
  rw [replaceable, hn]
  simp only [refusing, hin, hstart, hstop, Bool.not_true, if_false, Bool.false_eq_true, bind,
    Except.bind]
  rfl

lemma Sound.lastKnown_of_commit {focus : Nat} {m : Manipulation} (h : d.Sound)
    (hcommit : d.commit focus m = some (new, log)) (hn : d.node n = .ok w) {known : LastKnown}
    (hknown : new.lastKnown? n = some known) : known = ⟨w.kind, w.site.text⟩ := by
  obtain ⟨lost, hloses⟩ := h.loses (.commit hcommit)
  obtain ⟨v, -, hv, rfl⟩ := hloses.exists_of_lastKnown? h (isForgotten_of_node hn) hknown
  obtain rfl := Except.ok.inj (hv.symm.trans hn)
  rfl

lemma replaceSpan_of_live (hplan : d.replaceable n s = .ok w)
    (hcommit : d.commit w.index (.replace s text) = some (new, log))
    (hlive : new.isForgotten n = false) : d.replaceSpan n s text = some ⟨.ok n, new, log⟩ := by
  have hknown : new.lastKnown? n = none := not_isSome_iff_eq_none.1 (Bool.eq_false_iff.1 hlive)
  rw [replaceSpan, hplan]
  simp only [attempt, hcommit, bind_eq_bind, bind_some, hknown]
  rfl

/-- After an edit in a node its own wrapper answers if it is kept, or else a wrapper of the
outermost node of its kind that has grown or shrunk by the edit as it should have. An error says
that it was forgotten, and means that there is no such node. -/
theorem replaceSpan_answer {tag : Nat} {file : String} {initial : Text} {settings : Settings}
    {ops : List Operation} (hrun : (create tag file initial settings .usual).run ops = some d)
    (hn : d.node n = .ok w) (hin : w.span.contains s = true)
    (hstart : d.text.isBoundary s.start = true) (hstop : d.text.isBoundary s.stop = true)
    (text : Text) :
    ∃ o, d.replaceSpan n s text = some o ∧
    (⟨s.start, s.size, text⟩ : Edit).result? d.text = some o.document.text ∧
    (o.document.isForgotten n = false → o.answer = .ok n) ∧
    (o.document.isForgotten n = true →
      (∃ a u, o.document.tree.at? a = some u ∧
        u.IsOver w.kind (.sized w.span.start (w.span.size - s.size + text.size))) →
      ∃ j a u, o.answer = .ok j ∧ o.document.place? j = some (a, u) ∧ o.document.tree.Outermost
        (Site.IsOver w.kind (.sized w.span.start (w.span.size - s.size + text.size))) a) ∧
    (o.answer = .error (.nodeForgotten ⟨w.kind, w.site.text⟩) ↔
      o.document.isForgotten n = true ∧ ∀ a u, o.document.tree.at? a = some u →
        ¬u.IsOver w.kind (.sized w.span.start (w.span.size - s.size + text.size))) := by
  have hsound := sound_run hrun
  have husual : d.reader = .usual := (moves_run hrun).fixed.2
  obtain ⟨e, new, log, he, hresult, hcommit⟩ :=
    exists_commit (Manipulation.fits_replace text hstart hstop) w.index
  obtain rfl := some.inj he
  have hnew := hsound.commit hcommit
  have husual' : new.reader = .usual := (Move.commit hcommit).fixed.2.trans husual
  have hexpected := hsound.stop_le_of_replace (husual ▸ keeps_usual) hn hin hresult
  have hplan := replaceable_eq_ok hn hin hstart hstop
  cases hknown : new.lastKnown? n with
  | none =>
    have hlive : new.isForgotten n = false := by rw [isForgotten, hknown]; rfl
    refine ⟨⟨.ok n, new, log⟩, replaceSpan_of_live hplan hcommit hlive, hresult, fun _ => rfl,
      fun hforgotten => ?_, fun herror => ?_, fun hforgotten => ?_⟩
    · rw [hlive] at hforgotten
      cases hforgotten
    · cases herror
    · rw [hlive] at hforgotten
      cases hforgotten.1
  | some known =>
    obtain rfl := hsound.lastKnown_of_commit hcommit hn hknown
    have hlost : new.isForgotten n = true := by rw [isForgotten, hknown]; rfl
    obtain ⟨a, ha, ⟨b, hb, houter⟩ | ⟨hnone, hno⟩⟩ :=
      hnew.outermostOver?_cases husual' hexpected w.kind
    · have hgraded := ((graded_create tag file initial settings .usual).moves (moves_run hrun)).move
        (.commit hcommit)
      have htree : (new.wrap b).1.tree = new.tree := (hgraded.agrees_wrap (Nat.zero_le _) b).tree
      obtain ⟨u, hu, hover⟩ := houter.found
      refine ⟨⟨.ok (new.wrap b).2, (new.wrap b).1, log⟩, ?_, hresult, fun hlive => ?_,
        fun _ _ => ?_, fun herror => ?_, fun hforgotten => ?_⟩
      · rw [replaceSpan, hplan]
        simp only [attempt, hcommit, bind_eq_bind, bind_some, hknown, ha, hb]
        rfl
      · rw [isForgotten, (wraps_wrap new b).lastKnown?, ← isForgotten, hlost] at hlive
        cases hlive
      · refine ⟨_, b, u, rfl, ?_, htree ▸ houter⟩
        rw [hnew.place?_wrap, Site.clip_of_at? hu]
      · cases herror
      · exact absurd hover (hforgotten.2 b u (htree ▸ hu))
    · refine ⟨⟨.error (.nodeForgotten ⟨w.kind, w.site.text⟩), new, log⟩, ?_, hresult,
        fun hlive => ?_, fun _ hsome => ?_, fun _ => ⟨hlost, hno⟩, fun _ => rfl⟩
      · rw [replaceSpan, hplan]
        simp only [attempt, hcommit, bind_eq_bind, bind_some, hknown, ha, hnone]
        rfl
      · rw [hlost] at hlive
        cases hlive
      · obtain ⟨b, u, hu, hover⟩ := hsome
        exact absurd hover (hno b u hu)

theorem replaceSpan_answer_hollow : ∃ d w o j a u,
    (create 0 "a.ts" "let x, y;".toList {} .usual).run [.descendants ⟨0, 0⟩] = some d ∧
    d.node ⟨0, 2⟩ = .ok w ∧ d.replaceSpan ⟨0, 2⟩ (.sized 4 1) [] = some o ∧
    o.document.isForgotten ⟨0, 2⟩ = true ∧ o.answer = .ok j ∧ o.document.place? j = some (a, u) ∧
    o.document.tree.Outermost (Site.IsOver .variableDeclaration (.empty 4)) a := by
  have hfound : ∃ d ∈ (create 0 "a.ts" "let x, y;".toList {} .usual).run [.descendants ⟨0, 0⟩],
      (d.text.isBoundary 4 = true ∧ d.text.isBoundary 5 = true) ∧
      ∃ w, d.node ⟨0, 2⟩ = .ok w ∧ (w.kind = .variableDeclaration ∧ w.span = .sized 4 1) ∧
      ∃ o ∈ d.replaceSpan ⟨0, 2⟩ (.sized 4 1) [], o.document.isForgotten ⟨0, 2⟩ = true ∧
      ∃ v ∈ o.document.tree.at? [0, 0], v.kind = .variableDeclaration ∧ v.span = .empty 4 := by
    decide +kernel
  obtain ⟨d, hrun, ⟨hstart, hstop⟩, w, hw, ⟨hkind, hspan⟩, o, ho, hforgotten, v, hv, hvkind,
    hvspan⟩ := hfound
  have hin : w.span.contains (.sized 4 1) = true := hspan ▸ Span.contains_self _
  obtain ⟨o', ho', -, -, hanswer, -⟩ := replaceSpan_answer hrun hw hin hstart hstop []
  obtain rfl := mem_unique ho ho'
  rw [hkind, hspan] at hanswer
  obtain ⟨j, a, u, hj, hplace, houter⟩ := hanswer hforgotten ⟨_, v, hv, hvkind, hvspan⟩
  exact ⟨d, w, o, j, a, u, hrun, hw, ho, hforgotten, hj, hplace, houter⟩

end Document
end LiveEdit
