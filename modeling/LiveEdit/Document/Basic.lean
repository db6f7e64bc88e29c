import LiveEdit.Capability
import LiveEdit.Parse
import LiveEdit.Wrapper

/-! A document reads its text anew after each edit, and carries the wrappers over to the new tree.
-/

namespace LiveEdit

structure NodeId where
  document : Nat
  index : Nat
  deriving DecidableEq

inductive Objection where
  | foreignNode (id : NodeId)
  | rootForgotten
  | rootUnwrapped
  | rootRemoved
  | pastEnd (offset length : Nat)
  | outsideNode (span : Span) (kind : Kind) (node : Span)
  | insideCharacter (offset : Nat)
  | noBody (kind : Kind)
  | unterminatedBody (kind : Kind)
  | memberIndex (index count : Nat)
  | emptyMember
  | statementIndex (index count : Nat)
  | emptyStatement

def Objection.message (name : NodeId → String) : Objection → String
  | foreignNode id => s!"{name id} belongs to another document"
  | rootForgotten => "the root node cannot be forgotten"
  | rootUnwrapped => "the root node cannot be unwrapped"
  | rootRemoved => "the root node cannot be removed"
  | pastEnd offset length => s!"offset {offset} is past the end ({length})"
  | outsideNode span kind node => s!"{span.toString} is outside of {kind.label}@{node.toString}"
  | insideCharacter offset => s!"{offset} is not on a character boundary"
  | noBody kind => s!"{kind.label} has no body"
  | unterminatedBody kind => s!"{kind.label} has an unterminated body"
  | memberIndex index count => s!"member index {index} is out of bounds for {count} members"
  | emptyMember => "member text is empty"
  | statementIndex index count =>
    s!"statement index {index} is out of bounds for {count} statements"
  | emptyStatement => "statement text is empty"

inductive Feature where
  | unwrap | scope | setScope | isExported | setExported | insertMember | insertStatements
  deriving DecidableEq

def Feature.label : Feature → String
  | unwrap => "unwrap"
  | scope => "scope"
  | setScope => "set_scope"
  | isExported => "is_exported"
  | setExported => "set_exported"
  | insertMember => "insert_member"
  | insertStatements => "insert_statements"

inductive EditError where
  | invalidArgument (objection : Objection)
  | nodeForgotten (known : LastKnown)
  | unsupported (feature : Feature) (kind : Kind)

def EditError.message (name : NodeId → String) : EditError → String
  | invalidArgument objection => s!"Invalid argument: {objection.message name}"
  | nodeForgotten known => s!"Node was forgotten: {known.kind.label} {known.text.quoted}"
  | unsupported feature kind => s!"{feature.label} is not supported on {kind.label}"

inductive Event where
  | mismatch (snippet : Snippet) (kind : Kind) (span : Span)
  | skipped
  | committed (version : Nat) (delta : Int) (rebound forgotten : Nat)
  | forgot (count : Nat)

def Event.message : Event → String
  | mismatch snippet _ _ => s!"Structural mismatch, forgetting subtree {snippet.message}"
  | skipped => "Skipped empty edit"
  | committed _ _ _ _ => "Committed edit"
  | forgot _ => "Forgot node"

/-- How a document reads its text. The first number is that of the version that is read. Two equal
empty nodes at one place are told apart by their addresses; a registry by nodes, where a reader of
one's own makes such trees, takes the one for the other (`Reader.Apart`). -/
abbrev Reader := Nat → Text → Parse

def Reader.usual : Reader := fun _ => Parse.ofText

structure Document where
  tag : Nat
  file : String
  text : Text
  version : Nat
  root : Wrapper
  diagnostics : List Diagnostic
  settings : Settings
  reader : Reader
  fresh : Nat
  /-- The wrappers that were forgotten, by number. -/
  forgotten : List (Nat × LastKnown)

namespace Document

def create (tag : Nat) (file : String) (text : Text) (settings : Settings) (reader : Reader) :
    Document :=
  let parse := reader 0 text
  { tag, file, text, version := 0, root := .mk 0 0 ⟨0, parse.tree⟩ []
    diagnostics := parse.diagnostics, settings, reader, fresh := 1, forgotten := [] }

def tree (d : Document) : Site := d.root.site

def nodeId (d : Document) (index : Nat) : NodeId := ⟨d.tag, index⟩

def rootId (d : Document) : NodeId := d.nodeId d.root.index

def lastKnown? (d : Document) (n : NodeId) : Option LastKnown :=
  if n.document = d.tag then d.forgotten.lookup n.index else none

def isForgotten (d : Document) (n : NodeId) : Bool := (d.lastKnown? n).isSome

def node (d : Document) (n : NodeId) : Except EditError Wrapper :=
  if n.document = d.tag then
    match d.forgotten.lookup n.index with
    | some known => .error (.nodeForgotten known)
    | none =>
      match d.root.find? n.index with
      | some w => .ok w
      | none => .error (.invalidArgument (.foreignNode n))
  else .error (.invalidArgument (.foreignNode n))

def textOf? (d : Document) (w : Wrapper) : Option Text := d.text.slice? w.span

def parent (d : Document) (n : NodeId) : Except EditError (Option NodeId) := do
  let w ← d.node n
  return (d.root.parent? w.index).map fun p => d.nodeId p.index

/-- The live wrappers whose nodes do not have the text that the document has in their place. With a
reader that keeps the text there are none. -/
def textMismatches (d : Document) : List NodeId :=
  (d.root.all.filter fun w => d.textOf? w != some w.site.text).map fun w => d.nodeId w.index

structure Outcome (α : Type) where
  answer : Except EditError α
  document : Document
  log : List Event

def refuse {α : Type} (d : Document) (e : EditError) : Outcome α := ⟨.error e, d, []⟩

end Document
end LiveEdit
