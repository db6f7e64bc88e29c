import LiveEdit.Document.Editing

/-! The operations on a document as data, and runs of them. -/

namespace LiveEdit

inductive Operation where
  | setSettings (settings : Settings)
  | children (node : NodeId)
  | descendants (node : NodeId)
  | firstChild (node : NodeId) (kind : Kind)
  | firstDescendant (node : NodeId) (kind : Kind)
  | descendantAt (offset : Nat)
  | forget (node : NodeId)
  | forgetDescendants (node : NodeId)
  | insertAt (node : NodeId) (offset : Nat) (text : Text)
  | removeSpan (node : NodeId) (span : Span)
  | replaceSpan (node : NodeId) (span : Span) (text : Text)
  | replaceText (node : NodeId) (text : Text)
  | unwrap (node : NodeId)
  | remove (node : NodeId)
  | setScope (node : NodeId) (scope : Option Scope)
  | setExported (node : NodeId) (exported : Bool)
  | insertMember (node : NodeId) (index : Nat) (text : Text)
  | insertStatements (node : NodeId) (index : Nat) (texts : List Text)

inductive Answer where
  | nothing
  | node (id : NodeId)
  | nodes (ids : List NodeId)

namespace Document

def Outcome.map {α β : Type} (f : α → β) (o : Outcome α) : Outcome β :=
  ⟨o.answer.map f, o.document, o.log⟩

/-- Carries out an operation. There is no outcome where an offset taken from the tree lies outside
the text or inside a character. -/
def perform (d : Document) : Operation → Option (Outcome Answer)
  | .setSettings settings => some ⟨.ok .nothing, { d with settings }, []⟩
  | .children n => some ((d.children n).map .nodes)
  | .descendants n => some ((d.descendants n).map .nodes)
  | .firstChild n kind => some ((d.firstChild n kind).map fun found => found.elim .nothing .node)
  | .firstDescendant n kind =>
    some ((d.firstDescendant n kind).map fun found => found.elim .nothing .node)
  | .descendantAt offset => some ((d.descendantAt offset).map .node)
  | .forget n => some ((d.forget n).map fun _ => .nothing)
  | .forgetDescendants n => some ((d.forgetDescendants n).map fun _ => .nothing)
  | .insertAt n offset text => (d.insertAt n offset text).map (.map .node)
  | .removeSpan n span => (d.removeSpan n span).map (.map .node)
  | .replaceSpan n span text => (d.replaceSpan n span text).map (.map .node)
  | .replaceText n text => (d.replaceText n text).map (.map .node)
  | .unwrap n => (d.unwrap n).map (.map .nodes)
  | .remove n => (d.remove n).map (.map fun _ => .nothing)
  | .setScope n scope => (d.setScope n scope).map (.map .node)
  | .setExported n exported => (d.setExported n exported).map (.map .node)
  | .insertMember n index text => (d.insertMember n index text).map (.map .node)
  | .insertStatements n index texts => (d.insertStatements n index texts).map (.map .nodes)

def run (d : Document) : List Operation → Option Document
  | [] => some d
  | o :: os => (d.perform o).bind fun outcome => outcome.document.run os

end Document
end LiveEdit
