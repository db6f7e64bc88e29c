import LiveEdit.Document.Navigation

/-! Committing a manipulation: the text changes, is read anew, and the wrappers are carried over. -/

namespace LiveEdit

inductive Failure where
  /-- It is refused. -/
  | refused (error : EditError)
  /-- An offset taken from the tree lies outside the text or inside a character. A reader that
  keeps the text gives no such tree. -/
  | outOfText

namespace Failure

def refusing {α : Type} : Except EditError α → Except Failure α
  | .error e => .error (.refused e)
  | .ok a => .ok a

def object {α : Type} (o : Objection) : Except Failure α := .error (.refused (.invalidArgument o))

def within {α : Type} : Option α → Except Failure α
  | none => .error .outOfText
  | some a => .ok a

end Failure

namespace Document

def attempt {α β : Type} (d : Document) (plan : Except Failure β)
    (act : β → Option (Outcome α)) : Option (Outcome α) :=
  match plan with
  | .error (.refused e) => some (d.refuse e)
  | .error .outOfText => none
  | .ok b => act b

/-- The document after an edit to `text`, and its notes. The wrappers with numbers in `focus` are
those that the edit was asked of. -/
def advance (d : Document) (focus : List Nat) (m : Manipulation) (e : Edit) (text : Text) :
    Document × List Event :=
  let version := d.version + 1
  let parse := d.reader version text
  let tree : Site := ⟨0, parse.tree⟩
  let carried := Carrier.carryPath ⟨e, focus⟩ 0 tree d.root
  let renewed : Wrapper × Nat := match carried.kept with
    | root :: _ => (root, d.fresh)
    | [] => (.mk d.fresh 0 tree [], d.fresh + 1)
  let new := { d with
    text, version, root := renewed.1, diagnostics := parse.diagnostics, fresh := renewed.2 }
  let snippet := Snippet.around text m.position
  (new.record carried.lost,
    carried.mismatched.map (fun s => .mismatch snippet s.kind s.span) ++
      [.committed version e.delta (Wrapper.allOf carried.kept).length carried.lost.length])

def commit (d : Document) (focus : Nat) (m : Manipulation) : Option (Document × List Event) := do
  let e ← m.edit? d.text
  if e.isEmpty then return (d, [.skipped])
  let text ← e.result? d.text
  return d.advance (((d.root.trail? focus).getD []).map Wrapper.index) m e text

def outermostOver? (d : Document) (a : Address) (s : Span) (accept : Kind → Bool) :
    Option Address :=
  ((d.tree.lineage a).find? fun c => accept c.2.kind && c.2.span = s).map (·.1)

/-- The wrapper of the node that is now over a span: one of an accepted kind exactly over it, or
else the innermost one over it. -/
def standIn (d : Document) (accept : Kind → Bool) (s : Span) : Option (Document × NodeId) := do
  let a ← d.tree.covering? s
  return d.wrap ((d.outermostOver? a s accept).getD a)

def standInAll (d : Document) (accept : Kind → Bool) :
    List Span → Option (Document × List NodeId)
  | [] => some (d, [])
  | s :: spans => do
    let one ← d.standIn accept s
    let more ← one.1.standInAll accept spans
    return (more.1, one.2 :: more.2)

end Document
end LiveEdit
