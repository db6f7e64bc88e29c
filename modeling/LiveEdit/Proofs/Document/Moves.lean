import Mathlib.Logic.Relation
import Mathlib.Tactic.Common
import LiveEdit.Document.Operation

/-! Whatever an operation does to a document, it does in a few elementary moves. -/

namespace LiveEdit
open List Option

def Operation.node? : Operation → Option NodeId
  | setSettings _ | descendantAt _ => none
  | children n | descendants n | firstChild n _ | firstDescendant n _ | forget n
  | forgetDescendants n | insertAt n _ _ | removeSpan n _ | replaceSpan n _ _ | replaceText n _
  | unwrap n | remove n | setScope n _ | setExported n _ | insertMember n _ _
  | insertStatements n _ _ => some n

namespace Document
open Relation

inductive Makes : Document → Document → Prop where
  | wrap (d : Document) (a : Address) : Makes d (d.wrap a).1
  | adopt (d : Document) (i n : Nat) : Makes d (d.adopt i n).1

inductive Move : Document → Document → Prop where
  | configure (d : Document) (settings : Settings) : Move d { d with settings }
  | make {d new : Document} (h : Makes d new) : Move d new
  | forget (d : Document) (n : NodeId) : Move d (d.forget n).document
  | forgetDescendants (d : Document) (n : NodeId) : Move d (d.forgetDescendants n).document
  | commit {d new : Document} {focus : Nat} {m : Manipulation} {log : List Event}
      (h : d.commit focus m = some (new, log)) : Move d new

abbrev Moves : Document → Document → Prop := ReflTransGen Move

variable {d new : Document} {n : NodeId} {s : Span} {m : Manipulation} {accept : Kind → Bool}
  {w : Wrapper} {text : Text} {f : List NodeId → Answer} {index : Nat}

lemma exists_of_commit {focus : Nat} {log : List Event} (h : d.commit focus m = some (new, log)) :
    ∃ e, m.edit? d.text = some e ∧
    (e.isEmpty = true ∧ new = d ∨ e.isEmpty = false ∧ ∃ text, e.result? d.text = some text ∧
      new = (d.advance (((d.root.trail? focus).getD []).map Wrapper.index) m e text).1) := by
  obtain ⟨e, he, h⟩ := bind_eq_some_iff.1 h
  refine ⟨e, he, ?_⟩
  split at h
  next hempty => exact .inl ⟨hempty, (congrArg Prod.fst (some.inj h)).symm⟩
  next hempty =>
    obtain ⟨text, htext, h⟩ := bind_eq_some_iff.1 h
    exact .inr ⟨Bool.not_eq_true _ ▸ hempty, text, htext, (congrArg Prod.fst (some.inj h)).symm⟩

lemma commit_eq_advance {e : Edit} (hedit : m.edit? d.text = some e) (hsome : e.isEmpty = false)
    (hresult : e.result? d.text = some text) (focus : Nat) : d.commit focus m =
      some (d.advance (((d.root.trail? focus).getD []).map Wrapper.index) m e text) := by
  rw [commit, hedit, bind_eq_bind, bind_some, hsome, if_neg Bool.false_ne_true, hresult]
  rfl

lemma Makes.exists_eq (h : Makes d new) : ∃ root fresh, new = { d with root, fresh } := by
  cases h with
  | wrap a => exact ⟨_, _, rfl⟩
  | adopt i n =>
    unfold Document.adopt
    split
    · exact ⟨d.root, d.fresh, rfl⟩
    · exact ⟨_, _, rfl⟩

lemma Move.fixed (h : Move d new) : new.tag = d.tag ∧ new.reader = d.reader := by
  cases h with
  | configure settings => exact ⟨rfl, rfl⟩
  | make h =>
    obtain ⟨root, fresh, rfl⟩ := h.exists_eq
    exact ⟨rfl, rfl⟩
  | forget n =>
    unfold Document.forget
    split
    · exact ⟨rfl, rfl⟩
    · split <;> exact ⟨rfl, rfl⟩
  | forgetDescendants n =>
    unfold Document.forgetDescendants
    split <;> exact ⟨rfl, rfl⟩
  | commit h =>
    obtain ⟨e, -, ⟨-, rfl⟩ | ⟨-, text, -, rfl⟩⟩ := exists_of_commit h <;> exact ⟨rfl, rfl⟩

lemma Moves.fixed (h : Moves d new) : new.tag = d.tag ∧ new.reader = d.reader := by
  induction h with
  | refl => exact ⟨rfl, rfl⟩
  | tail _ hm ih => exact ⟨hm.fixed.1.trans ih.1, hm.fixed.2.trans ih.2⟩

abbrev Wraps : Document → Document → Prop := ReflTransGen Makes

lemma wraps_wrap (d : Document) (a : Address) : Wraps d (d.wrap a).1 := .single (.wrap d a)

lemma Wraps.moves (h : Wraps d new) : Moves d new := by
  induction h with
  | refl => exact .refl
  | tail _ hstep ih => exact ih.tail (.make hstep)

lemma wraps_wrapAll (d : Document) (as : List Address) : Wraps d (d.wrapAll as).1 := by
  induction as generalizing d with
  | nil => exact .refl
  | cons a as ih => exact (wraps_wrap d a).trans (ih _)

lemma wraps_adoptAll (d : Document) (i : Nat) (ns : List Nat) : Wraps d (d.adoptAll i ns).1 := by
  induction ns generalizing d with
  | nil => exact .refl
  | cons n ns ih => exact .head (.adopt d i n) (ih _)

lemma wraps_standIn (h : d.standIn accept s = some (new, n)) : Wraps d new := by
  obtain ⟨a, -, h⟩ := bind_eq_some_iff.1 h
  obtain ⟨rfl, -⟩ := Prod.mk.inj (some.inj h)
  exact wraps_wrap d _

lemma wraps_standInAll {spans : List Span} {ns : List NodeId}
    (h : d.standInAll accept spans = some (new, ns)) : Wraps d new := by
  induction spans generalizing d new ns with
  | nil =>
    obtain ⟨rfl, -⟩ := Prod.mk.inj (some.inj h)
    exact .refl
  | cons s spans ih =>
    obtain ⟨one, hone, h⟩ := bind_eq_some_iff.1 h
    obtain ⟨more, hmore, h⟩ := bind_eq_some_iff.1 h
    obtain ⟨rfl, -⟩ := Prod.mk.inj (some.inj h)
    exact (wraps_standIn hone).trans (ih hmore)

def replacement? (d : Document) : Operation → Option (NodeId × Span × Text)
  | .insertAt n offset text => some (n, .empty offset, text)
  | .removeSpan n span => some (n, span, [])
  | .replaceSpan n span text => some (n, span, text)
  | .replaceText n text => (d.node n).toOption.map fun w => (n, w.span, text)
  | _ => none

lemma node?_of_replacement? (h : d.replacement? op = some (n, s, text)) : op.node? = some n := by
  unfold replacement? at h
  split at h
  · rw [← (Prod.mk.inj (some.inj h)).1]; rfl
  · rw [← (Prod.mk.inj (some.inj h)).1]; rfl
  · rw [← (Prod.mk.inj (some.inj h)).1]; rfl
  · obtain ⟨w, -, h⟩ := map_eq_some_iff.1 h
    rw [← (Prod.mk.inj h).1]; rfl
  · exact absurd h (by simp)

inductive Course (d : Document) (op : Operation) : Except EditError Answer → Document → Prop where
  | refused (e : EditError) : Course d op (.error e) d
  | configured (settings : Settings) : Course d op (.ok .nothing) { d with settings }
  | looked (a : Answer) {new : Document} (h : Wraps d new) : Course d op (.ok a) new
  | forgot {n : NodeId} (hroot : n ≠ d.rootId) (htag : n.document = d.tag) :
      Course d op (.ok .nothing) (d.forget n).document
  | cleared {n : NodeId} {w : Wrapper} (hw : d.node n = .ok w) :
      Course d op (.ok .nothing) (d.forgetDescendants n).document
  | edited (a : Answer) {focus : Nat} {m : Manipulation} {between new : Document}
      {log : List Event} (hc : d.commit focus m = some (between, log)) (h : Wraps between new) :
      Course d op (.ok a) new
  | removed {n : NodeId} {w parent : Wrapper} {r : Removal} {new : Document} {log : List Event}
      (hw : d.node n = .ok w) (hparent : d.root.parent? w.index = some parent)
      (hr : d.removal parent w = .ok r)
      (hc : d.commit parent.index (.removal r) = some (new, log))
      (hlive : new.isForgotten n = false) :
      Course d op ((new.forget n).answer.map fun _ => .nothing) (new.forget n).document
  | bereft {n : NodeId} {s : Span} {text : Text} {w : Wrapper} {known : LastKnown}
      {new : Document} {log : List Event} (hop : d.replacement? op = some (n, s, text))
      (hw : d.node n = .ok w) (hc : d.commit w.index (.replace s text) = some (new, log))
      (hknown : new.lastKnown? n = some known) :
      Course d op (.error (.nodeForgotten known)) new

variable {op : Operation} {o : Outcome Answer}

lemma Course.moves {r : Except EditError Answer} (h : Course d op r new) : Moves d new := by
  cases h with
  | refused e => exact .refl
  | configured settings => exact .single (.configure d settings)
  | looked a h => exact h.moves
  | forgot _ _ => exact .single (.forget d _)
  | cleared _ => exact .single (.forgetDescendants d _)
  | edited a hc h => exact .head (.commit hc) h.moves
  | removed _ _ _ hc _ => exact .head (.commit hc) (.single (.forget _ _))
  | bereft _ _ hc _ => exact .single (.commit hc)

lemma course_select (n : NodeId) (below : Site → List Address) :
    Course d op ((d.select n below).answer.map f) (d.select n below).document := by
  unfold select
  split
  · exact .refused _
  · exact .looked _ (wraps_wrapAll d _)

lemma course_children (n : NodeId) :
    Course d op ((d.children n).answer.map f) (d.children n).document := by
  unfold children
  split
  · exact .refused _
  · exact .looked _ (wraps_adoptAll d _ _)

lemma course_first {f : Option NodeId → Answer} (n : NodeId)
    (kind : Kind) (below : Site → List (Address × Site)) :
    Course d op ((d.first n kind below).answer.map f) (d.first n kind below).document := by
  unfold first select
  dsimp only
  split
  · exact .refused _
  · exact .looked _ (wraps_wrapAll d _)

lemma course_descendantAt {f : NodeId → Answer} (offset : Nat) :
    Course d op ((d.descendantAt offset).answer.map f) (d.descendantAt offset).document := by
  unfold descendantAt
  split
  · exact .refused _
  · exact .looked _ (wraps_wrap d _)

lemma course_forget (n : NodeId) :
    Course d op ((d.forget n).answer.map fun _ => .nothing) (d.forget n).document := by
  by_cases hroot : n = d.rootId
  · rw [forget, if_pos hroot]
    exact .refused _
  · by_cases htag : n.document = d.tag
    · have hok : (d.forget n).answer = .ok () := by
        rw [forget, if_neg hroot, if_neg (not_not.2 htag)]
      rw [hok]
      exact .forgot hroot htag
    · rw [forget, if_neg hroot, if_pos htag]
      exact .refused _

lemma course_forgetDescendants (n : NodeId) : Course d op
      ((d.forgetDescendants n).answer.map fun _ => .nothing) (d.forgetDescendants n).document := by
  cases hw : d.node n with
  | error e =>
    rw [forgetDescendants, hw]
    exact .refused e
  | ok w =>
    have hok : (d.forgetDescendants n).answer = .ok () := by rw [forgetDescendants, hw]
    rw [hok]
    exact .cleared hw

lemma course_attempt {α β : Type} {f : α → Answer} {plan : Except Failure β}
    {act : β → Option (Outcome α)} (h : (d.attempt plan act).map (.map f) = some o)
    (hact : ∀ b, plan = .ok b → (act b).map (.map f) = some o → Course d op o.answer o.document) :
    Course d op o.answer o.document := by
  unfold attempt at h
  split at h
  · obtain rfl := some.inj h
    exact .refused _
  · exact absurd h (by simp)
  next b => exact hact b rfl h

lemma bind_eq_ok {ε α β : Type} {x : Except ε α} {f : α → Except ε β} {b : β}
    (h : x >>= f = .ok b) : ∃ a, x = .ok a ∧ f a = .ok b := by
  cases x with
  | error e => cases h
  | ok a => exact ⟨a, rfl, h⟩

lemma eq_ok_of_toOption {ε α : Type} {x : Except ε α} {a : α} (h : x.toOption = some a) :
    x = .ok a := by
  cases x with
  | error e => cases h
  | ok b => rw [some.inj h]

instance decidableExistsOk {ε α : Type} {p : α → Prop} [DecidablePred p] :
    ∀ x : Except ε α, Decidable (∃ a, x = .ok a ∧ p a)
  | .error _ => isFalse fun ⟨_, h, _⟩ => nomatch h
  | .ok a => decidable_of_iff (p a) ⟨fun h => ⟨a, rfl, h⟩, fun ⟨_, h, hp⟩ => Except.ok.inj h ▸ hp⟩

lemma refusing_eq_ok {α : Type} {r : Except EditError α} {a : α} (h : Failure.refusing r = .ok a) :
    r = .ok a := by
  cases r with
  | error e => cases h
  | ok b => rw [Except.ok.inj h]

lemma node_of_replaceable (h : d.replaceable n s = .ok w) : d.node n = .ok w := by
  obtain ⟨v, hv, h⟩ := bind_eq_ok h
  have hnode := refusing_eq_ok hv
  simp only [Failure.object, pure, Except.pure] at h
  split_ifs at h
  rw [hnode, Except.ok.inj h]

lemma course_replaceSpan (hop : d.replacement? op = some (n, s, text))
    (h : (d.replaceSpan n s text).map (.map .node) = some o) : Course d op o.answer o.document := by
  refine course_attempt h fun w hplan h => ?_
  have hw : d.node n = .ok w := node_of_replaceable hplan
  obtain ⟨o', hdone, rfl⟩ := map_eq_some_iff.1 h
  obtain ⟨⟨new, log⟩, hcommit, hdone⟩ := bind_eq_some_iff.1 hdone
  dsimp only at hdone
  cases hknown : new.lastKnown? n with
  | none =>
    rw [hknown] at hdone
    obtain rfl := some.inj hdone
    exact .edited _ hcommit .refl
  | some known =>
    rw [hknown] at hdone
    obtain ⟨a, -, hdone⟩ := bind_eq_some_iff.1 hdone
    split at hdone
    · obtain rfl := some.inj hdone
      exact .edited _ hcommit (wraps_wrap new _)
    · obtain rfl := some.inj hdone
      exact .bereft hop hw hcommit hknown

lemma course_replaceText (hop : op = .replaceText n text)
    (h : (d.replaceText n text).map (.map .node) = some o) : Course d op o.answer o.document := by
  refine course_attempt h fun w hplan h => ?_
  refine course_replaceSpan ?_ h
  rw [hop, replacement?, refusing_eq_ok hplan]
  rfl

lemma course_unwrap (h : (d.unwrap n).map (.map .nodes) = some o) :
    Course d op o.answer o.document := by
  refine course_attempt h fun ⟨parent, unwrapping⟩ _ h => ?_
  obtain ⟨o', hdone, rfl⟩ := map_eq_some_iff.1 h
  obtain ⟨edit, -, hdone⟩ := bind_eq_some_iff.1 hdone
  obtain ⟨⟨new, log⟩, hcommit, hdone⟩ := bind_eq_some_iff.1 hdone
  obtain rfl := some.inj hdone
  exact .edited _ hcommit (wraps_wrapAll new _)

lemma exists_of_removalPlan {parent : Wrapper} {r : Removal}
    (h : (do
      let w ← Failure.refusing (d.node n)
      match d.root.parent? w.index with
      | none => Failure.object .rootRemoved
      | some parent => return (parent, ← d.removal parent w)) = .ok (parent, r)) :
    ∃ w, d.node n = .ok w ∧ d.root.parent? w.index = some parent ∧ d.removal parent w = .ok r := by
  obtain ⟨w, hw, h⟩ := bind_eq_ok h
  cases hparent : d.root.parent? w.index with
  | none =>
    rw [hparent] at h
    cases h
  | some p =>
    rw [hparent] at h
    obtain ⟨r', hr, h⟩ := bind_eq_ok h
    obtain ⟨rfl, rfl⟩ := Prod.mk.inj (Except.ok.inj h)
    exact ⟨w, refusing_eq_ok hw, hparent, hr⟩

lemma course_remove (h : (d.remove n).map (.map fun _ => .nothing) = some o) :
    Course d op o.answer o.document := by
  refine course_attempt h fun ⟨parent, removal⟩ hplan h => ?_
  obtain ⟨w, hw, hparent, hremoval⟩ := exists_of_removalPlan hplan
  obtain ⟨o', hdone, rfl⟩ := map_eq_some_iff.1 h
  obtain ⟨⟨new, log⟩, hcommit, hdone⟩ := bind_eq_some_iff.1 hdone
  dsimp only at hdone
  cases hlive : new.isForgotten n with
  | true =>
    rw [hlive, if_pos rfl] at hdone
    obtain rfl := some.inj hdone
    exact .edited _ hcommit .refl
  | false =>
    rw [hlive, if_neg Bool.false_ne_true] at hdone
    obtain rfl := some.inj hdone
    exact .removed hw hparent hremoval hcommit hlive

lemma course_change {m : Option Manipulation}
    (h : (d.change n w m).map (.map .node) = some o) : Course d op o.answer o.document := by
  obtain ⟨o', hdone, rfl⟩ := map_eq_some_iff.1 h
  cases m with
  | none =>
    obtain rfl := some.inj hdone
    exact .looked _ .refl
  | some m =>
    obtain ⟨⟨new, log⟩, hcommit, hdone⟩ := bind_eq_some_iff.1 hdone
    obtain rfl := some.inj hdone
    exact .edited _ hcommit .refl

lemma course_insertMember (h : (d.insertMember n index text).map (.map .node) = some o) :
    Course d op o.answer o.document := by
  refine course_attempt h fun p _ h => ?_
  obtain ⟨o', hdone, rfl⟩ := map_eq_some_iff.1 h
  obtain ⟨⟨new, log⟩, hcommit, hdone⟩ := bind_eq_some_iff.1 hdone
  obtain ⟨found, hfound, hdone⟩ := bind_eq_some_iff.1 hdone
  obtain rfl := some.inj hdone
  exact .edited _ hcommit (wraps_standIn hfound)

lemma course_insertStatements {texts : List Text}
    (h : (d.insertStatements n index texts).map (.map .nodes) = some o) :
    Course d op o.answer o.document := by
  refine course_attempt h fun p _ h => ?_
  obtain ⟨o', hdone, rfl⟩ := map_eq_some_iff.1 h
  obtain ⟨⟨new, log⟩, hcommit, hdone⟩ := bind_eq_some_iff.1 hdone
  obtain ⟨found, hfound, hdone⟩ := bind_eq_some_iff.1 hdone
  obtain rfl := some.inj hdone
  exact .edited _ hcommit (wraps_standInAll hfound)

/-- Every operation, whatever it is asked and whatever it answers, takes one of the courses. -/
lemma course_perform (h : d.perform op = some o) : Course d op o.answer o.document := by
  cases op with
  | setSettings settings =>
    obtain rfl := some.inj h
    exact .configured settings
  | children n =>
    obtain rfl := some.inj h
    exact course_children n
  | descendants n =>
    obtain rfl := some.inj h
    exact course_select n _
  | firstChild n kind =>
    obtain rfl := some.inj h
    exact course_first n kind _
  | firstDescendant n kind =>
    obtain rfl := some.inj h
    exact course_first n kind _
  | descendantAt offset =>
    obtain rfl := some.inj h
    exact course_descendantAt offset
  | forget n =>
    obtain rfl := some.inj h
    exact course_forget n
  | forgetDescendants n =>
    obtain rfl := some.inj h
    exact course_forgetDescendants n
  | insertAt n offset text => exact course_replaceSpan rfl h
  | removeSpan n span => exact course_replaceSpan rfl h
  | replaceSpan n span text => exact course_replaceSpan rfl h
  | replaceText n text => exact course_replaceText rfl h
  | unwrap n => exact course_unwrap h
  | remove n => exact course_remove h
  | setScope n scope => exact course_attempt h fun _ _ h => course_change h
  | setExported n exported => exact course_attempt h fun _ _ h => course_change h
  | insertMember n index text => exact course_insertMember h
  | insertStatements n index texts => exact course_insertStatements h

lemma moves_perform (h : d.perform op = some o) : Moves d o.document := (course_perform h).moves

lemma moves_run {ops : List Operation} (h : d.run ops = some new) : Moves d new := by
  induction ops generalizing d with
  | nil =>
    obtain rfl := some.inj h
    exact .refl
  | cons op ops ih =>
    obtain ⟨o, ho, h⟩ := bind_eq_some_iff.1 h
    exact (moves_perform ho).trans (ih h)

end Document
end LiveEdit
