import LiveEdit.Proofs.Document.Sound

namespace LiveEdit.Document
open Wrapper List Option

variable {d new : Document} {n : NodeId} {w parent : Wrapper} {focus : Nat} {m : Manipulation}
  {log : List Event} {op : Operation} {r : Except EditError Answer} {e : EditError}

lemma Sound.root_of_advance (h : d.Sound) (focus : List Nat) (m : Manipulation) (e : Edit)
    (text : Text) : (d.advance focus m e text).1.root.index = d.root.index ∨
      (d.advance focus m e text).1.root.index = d.fresh := by
  rcases h.advance_cases focus m e text with ⟨root, hkept, hnew⟩ | ⟨-, hnew⟩
  · have hroot : root.index = d.root.index :=
      (h.carries focus e text).index root (hkept ▸ mem_cons_self)
    rw [hnew]
    exact .inl hroot
  · rw [hnew]
    exact .inr rfl

lemma Sound.root_of_commit (h : d.Sound) (hc : d.commit focus m = some (new, log)) :
    new.root.index = d.root.index ∨ new.root.index = d.fresh := by
  obtain ⟨e, -, ⟨-, rfl⟩ | ⟨-, text, -, rfl⟩⟩ := exists_of_commit hc
  · exact .inl rfl
  · exact h.root_of_advance _ m e text

lemma Sound.forget_after_commit (h : d.Sound) (hw : d.node n = .ok w)
    (hparent : d.root.parent? w.index = some parent) (hc : d.commit focus m = some (new, log)) :
    (new.forget n).answer = .ok () := by
  obtain ⟨htag, hmem, hindex⟩ := h.node_eq_ok.1 hw
  have hroot : n ≠ new.rootId := by
    intro heq
    have hnumber : w.index = new.root.index := by
      rw [hindex, heq]
      rfl
    rcases h.root_of_commit hc with hsame | hfresh
    · have hnone : d.root.parent? w.index = none := by
        rw [hnumber, hsame]
        exact parent?_self h.nodup
      cases hnone.symm.trans hparent
    · have hlt : w.index < d.fresh := h.lt_fresh_iff.2 (.inl (mem_indices_of_mem hmem))
      exact Nat.lt_irrefl _ (hfresh ▸ hnumber ▸ hlt)
  have htag' : n.document = new.tag := htag.trans (Move.commit hc).fixed.1.symm
  rw [Document.forget, if_neg hroot, if_neg (not_not.2 htag')]

lemma lastKnown?_of_node (hw : d.node n = .ok w) : d.lastKnown? n = none := by
  unfold node at hw
  unfold lastKnown?
  split_ifs at hw ⊢ with htag
  cases hlook : d.forgotten.lookup n.index with
  | none => rfl
  | some known =>
    rw [hlook] at hw
    cases hw

structure Bereft (d : Document) (op : Operation) (known : LastKnown) (new : Document) (n : NodeId)
    (s : Span) (text : Text) : Prop where
  asked : d.replacement? op = some (n, s, text)
  live : ∃ w, d.node n = .ok w
  version : new.version = d.version + 1
  text : (Edit.mk s.start s.size text).result? d.text = some new.text
  forgotten : new.lastKnown? n = some known

lemma bereft_of_commit {s : Span} {text : Text} {known : LastKnown}
    (hop : d.replacement? op = some (n, s, text)) (hw : d.node n = .ok w)
    (hc : d.commit w.index (.replace s text) = some (new, log))
    (hknown : new.lastKnown? n = some known) : Bereft d op known new n s text := by
  obtain ⟨e, he, ⟨-, rfl⟩ | ⟨-, text', hresult, hnew⟩⟩ := exists_of_commit hc
  · -- an edit that is passed over loses nothing
    have hnone : new.lastKnown? n = none := lastKnown?_of_node hw
    cases hnone.symm.trans hknown
  · obtain rfl := some.inj he
    have hversion : new.version = d.version + 1 := by
      rw [hnew]
      rfl
    have htext : new.text = text' := by
      rw [hnew]
      rfl
    exact ⟨hop, ⟨w, hw⟩, hversion, htext ▸ hresult, hknown⟩

lemma Sound.course_error (h : d.Sound) (hcourse : Course d op r new) (he : r = .error e) :
    new = d ∨ ∃ known n s text, e = .nodeForgotten known ∧ Bereft d op known new n s text := by
  cases hcourse with
  | refused e => exact .inl rfl
  | configured settings => cases he
  | looked a _ => cases he
  | forgot _ _ => cases he
  | cleared _ => cases he
  | edited a _ _ => cases he
  | removed hw hparent _ hc _ =>
    rw [h.forget_after_commit hw hparent hc] at he
    cases he
  | bereft hop hw hc hknown =>
    exact .inr ⟨_, _, _, _, (Except.error.inj he).symm, bereft_of_commit hop hw hc hknown⟩

/-- An operation that fails leaves the document as it was. The one exception is a replacement of
text inside a node that was live: it may say that the node is forgotten, and then the version is the
next one, the text is edited as it was asked, and the node is forgotten. -/
theorem unchanged_of_error {tag : Nat} {file : String} {initial : Text} {settings : Settings}
    {reader : Reader} {ops : List Operation} {o : Outcome Answer}
    (hrun : (create tag file initial settings reader).run ops = some d)
    (hop : d.perform op = some o) (he : o.answer = .error e) :
    ((∀ known, e ≠ .nodeForgotten known) → o.document = d) ∧
    (∀ n, op.node? = some n → d.isForgotten n = true → o.document = d) ∧
    (o.document ≠ d → ∃ known n s text, e = .nodeForgotten known ∧
      Bereft d op known o.document n s text) := by
  have hcases := (sound_run hrun).course_error (course_perform hop) he
  refine ⟨fun hother => ?_, fun n hn hforgotten => ?_, fun hchanged => ?_⟩
  · rcases hcases with hsame | ⟨known, n, s, text, heq, -⟩
    · exact hsame
    · exact absurd heq (hother known)
  · rcases hcases with hsame | ⟨known, n', s, text, -, hbereft⟩
    · exact hsame
    · -- the node that such a replacement is asked of was live
      obtain ⟨w, hw⟩ := hbereft.live
      obtain rfl : n = n' := some.inj (hn.symm.trans (node?_of_replacement? hbereft.asked))
      rw [isForgotten, lastKnown?_of_node hw] at hforgotten
      cases hforgotten
  · exact hcases.resolve_left hchanged

theorem unchanged_of_error_name : ∃ d o known,
    (create 0 "a.ts" "a;".toList {} .usual).run [.descendants ⟨0, 0⟩] = some d ∧
      d.perform (.replaceText ⟨0, 3⟩ "1".toList) = some o ∧
      o.answer = .error (.nodeForgotten known) ∧ o.document.text = "1;".toList ∧
      ∃ n s text, Bereft d (.replaceText ⟨0, 3⟩ "1".toList) known o.document n s text := by
  have hfound : ∃ d ∈ (create 0 "a.ts" "a;".toList {} .usual).run [.descendants ⟨0, 0⟩],
      ∃ o ∈ d.perform (.replaceText ⟨0, 3⟩ "1".toList), o.document.version ≠ d.version ∧
        o.document.text = "1;".toList ∧ ¬∃ a, o.answer = .ok a ∧ True := by
    decide +kernel
  obtain ⟨d, hrun, o, hop, hversion, htext, hanswer⟩ := hfound
  cases herror : o.answer with
  | ok a => exact absurd ⟨a, herror, trivial⟩ hanswer
  | error e =>
    have hchanged : o.document ≠ d := fun heq => hversion (congrArg version heq)
    obtain ⟨known, n, s, text, rfl, hbereft⟩ := (unchanged_of_error hrun hop herror).2.2 hchanged
    exact ⟨d, o, known, hrun, hop, herror, htext, n, s, text, hbereft⟩

end LiveEdit.Document
