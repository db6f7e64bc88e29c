import LiveEdit.Document.Commit

namespace LiveEdit

namespace Document
open Failure

def replaceable (d : Document) (n : NodeId) (s : Span) : Except Failure Wrapper := do
  let w ← refusing (d.node n)
  if !w.span.contains s then object (.outsideNode s w.kind w.span)
  else if !d.text.isBoundary s.start then object (.insideCharacter s.start)
  else if !d.text.isBoundary s.stop then object (.insideCharacter s.stop)
  else return w

/-- Puts a text in the place of a span inside a node. If the edit loses the node's wrapper, the node
of the same kind that now stands in its place answers for it; without one the edit is kept, and the
wrapper is reported as forgotten. -/
def replaceSpan (d : Document) (n : NodeId) (s : Span) (text : Text) : Option (Outcome NodeId) :=
  d.attempt (d.replaceable n s) fun w => do
    let (new, log) ← d.commit w.index (.replace s text)
    match new.lastKnown? n with
    | none => return ⟨.ok n, new, log⟩
    | some known =>
      let expected := Span.sized w.span.start (w.span.size - s.size + text.size)
      let a ← new.tree.covering? expected
      match new.outermostOver? a expected (· == w.kind) with
      | some a =>
        let found := new.wrap a
        return ⟨.ok found.2, found.1, log⟩
      | none => return ⟨.error (.nodeForgotten known), new, log⟩

def insertAt (d : Document) (n : NodeId) (offset : Nat) (text : Text) : Option (Outcome NodeId) :=
  d.replaceSpan n (.empty offset) text

def removeSpan (d : Document) (n : NodeId) (s : Span) : Option (Outcome NodeId) :=
  d.replaceSpan n s []

def replaceText (d : Document) (n : NodeId) (text : Text) : Option (Outcome NodeId) :=
  d.attempt (refusing (d.node n)) fun w => d.replaceSpan n w.span text

def isListItem (parent node : Kind) : Bool :=
  node = .enumMember || node = .parameter || node = .variableDeclaration || parent = .argumentList

/-- The white space that goes with a removed span. A node on a line of its own takes the line with
it; otherwise the spaces after it go, and those before it if nothing else follows in the line. -/
def removalTrim (d : Document) (start stop : Nat) : Except Failure Trim := do
  if ← within (d.text.startsLine? start) then
    return { spacesBefore := true, spacesAfter := true, newlinesAfter := true }
  else
    return { spacesBefore := ← within (d.text.endsLine? stop), spacesAfter := true }

def removal (d : Document) (parent w : Wrapper) : Except Failure Removal := do
  let plain : Except Failure Removal := do
    return ⟨w.span, ← d.removalTrim w.span.start w.span.stop, []⟩
  let comma (s : Option Site) : Option Site := s.filter (·.kind == .comma)
  if isListItem parent.kind w.kind then
    match comma (parent.site.next? w.ordinal), comma (parent.site.previous? w.ordinal) with
    | some c, _ =>
      let span ← within (Span.between? w.span.start c.span.stop)
      return ⟨span, ← d.removalTrim span.start span.stop, []⟩
    | none, some c =>
      let _ ← within (d.text.startsLine? w.span.start)
      return ⟨← within (Span.between? c.span.start w.span.stop), {}, []⟩
    | none, none => plain
  else plain

/-- Removes a node. Its wrapper is forgotten even if the edit kept it. -/
def remove (d : Document) (n : NodeId) : Option (Outcome Unit) :=
  let plan : Except Failure (Wrapper × Removal) := do
    let w ← refusing (d.node n)
    match d.root.parent? w.index with
    | none => object .rootRemoved
    | some parent => return (parent, ← d.removal parent w)
  d.attempt plan fun (parent, removal) => do
    let (new, log) ← d.commit parent.index (.removal removal)
    if new.isForgotten n then return ⟨.ok (), new, log⟩
    else
      let forgot := new.forget n
      return { forgot with log := log ++ forgot.log }

def bodySpan (braces : Site × Site) : Except Failure Span :=
  within (Span.between? braces.1.span.stop braces.2.span.start)

def unwrapping (d : Document) (n : NodeId) : Except Failure (Wrapper × Unwrapping) := do
  let w ← refusing (d.node n)
  match d.root.parent? w.index, w.kind.capabilities.body with
  | none, _ => object .rootUnwrapped
  | some _, none => .error (.refused (.unsupported .unwrap w.kind))
  | some parent, some place =>
    match place.find? w.site with
    | none => object (.noBody w.kind)
    | some block =>
      match block.braces? with
      | none => object (.unterminatedBody w.kind)
      | some braces => return (parent, ⟨w.span, ← bodySpan braces, d.settings⟩)

def unwrap (d : Document) (n : NodeId) : Option (Outcome (List NodeId)) :=
  d.attempt (d.unwrapping n) fun (parent, unwrapping) => do
    let edit ← unwrapping.edit? d.text
    let (new, log) ← d.commit parent.index (.unwrapping unwrapping)
    let found := new.wrapAll (new.tree.outermost Kind.isStatement edit.newSpan)
    return ⟨.ok found.2, found.1, log⟩

open Text

def trimmed (t : Text) : Text := dropEnd isBlank (t.dropWhile isBlank)

structure Insertion where
  manipulation : Manipulation
  offset : Nat

def Insertion.start (i : Insertion) : Nat := i.manipulation.position + i.offset

/-- The insertion of a member at an index, where `lead` starts a line in the list and `close` the
line of the brace after it. -/
def memberInsertion (s : Site) (l : MemberList) (braces : Site × Site) (index : Nat)
    (lead close text : Text) : Except Failure Insertion := do
  let comma : Text := if l.separator = .comma then [','] else []
  match s.members l, index with
  | [], _ =>
    return ⟨.replace (← bodySpan braces) (lead ++ text ++ close), lead.size⟩
  | (_, first) :: _, 0 => return ⟨.insert first.start (text ++ comma ++ lead), 0⟩
  | members, i + 1 =>
    match members[i]? with
    | none => object (.memberIndex index members.length)
    | some (n, previous) =>
      match (s.next? n).filter fun c => l.separator = .comma && c.kind == .comma with
      | some c => return ⟨.insert c.span.stop (lead ++ text ++ comma), lead.size⟩
      | none =>
        return ⟨.insert previous.span.stop (comma ++ lead ++ text), comma.size + lead.size⟩

structure MemberPlan where
  wrapper : Wrapper
  manipulation : Manipulation
  expected : Span
  accepts : Kind → Bool

def memberPlan (d : Document) (n : NodeId) (index : Nat) (text : Text) :
    Except Failure MemberPlan := do
  let w ← refusing (d.node n)
  match w.kind.capabilities.members with
  | none => .error (.refused (.unsupported .insertMember w.kind))
  | some l =>
    let count := (w.site.members l).length
    let text := trimmed text
    if count < index then object (.memberIndex index count)
    else if text.isEmpty then object .emptyMember
    else match w.site.braces? with
      | none => object (.unterminatedBody w.kind)
      | some braces =>
        let newline := d.settings.newline.text
        let outer ← within (d.text.indentationAt? w.site.start)
        let lead := newline ++ outer ++ d.settings.indentation.text
        let i ← memberInsertion w.site l braces index lead (newline ++ outer) text
        return ⟨w, i.manipulation, .sized i.start text.size, l.accepts⟩

def insertMember (d : Document) (n : NodeId) (index : Nat) (text : Text) :
    Option (Outcome NodeId) :=
  d.attempt (d.memberPlan n index text) fun p => do
    let (new, log) ← d.commit p.wrapper.index p.manipulation
    let found ← new.standIn p.accepts p.expected
    return ⟨.ok found.2, found.1, log⟩

def statementInsertion (d : Document) (list : Site) (index : Nat) (lead close joined : Text) :
    Except Failure Insertion := do
  match list.statements, index with
  | [], _ =>
    match list.braces? with
    | some braces =>
      return ⟨.replace (← bodySpan braces) (lead ++ joined ++ close), lead.size⟩
    | none =>
      let newline := d.settings.newline.text
      let gap : Text := if d.text.getLast?.all (· == '\n') then [] else newline
      return ⟨.insert d.text.size (gap ++ joined ++ newline), gap.size⟩
  | first :: _, 0 => return ⟨.insert first.start (joined ++ lead), 0⟩
  | statements, i + 1 =>
    match statements[i]? with
    | none => object (.statementIndex index statements.length)
    | some previous => return ⟨.insert previous.span.stop (lead ++ joined), lead.size⟩

def spread (gap : Nat) : Nat → List Text → List Span
  | _, [] => []
  | n, t :: ts => .sized n t.size :: spread gap (n + t.size + gap) ts

structure StatementPlan where
  wrapper : Wrapper
  manipulation : Manipulation
  expected : List Span

def statementPlan (d : Document) (n : NodeId) (index : Nat) (texts : List Text) :
    Except Failure StatementPlan := do
  let w ← refusing (d.node n)
  match w.kind.capabilities.statements with
  | none => .error (.refused (.unsupported .insertStatements w.kind))
  | some place =>
    match place.find? w.site with
    | none => object (.noBody w.kind)
    | some list =>
      let count := list.statements.length
      let texts := texts.map trimmed
      if count < index then object (.statementIndex index count)
      else if texts.isEmpty || texts.any List.isEmpty then object .emptyStatement
      else
        let newline := d.settings.newline.text
        let outer ← within (d.text.indentationAt? list.start)
        let inner := if list.braces?.isSome then outer ++ d.settings.indentation.text else outer
        let lead := newline ++ inner
        let i ← d.statementInsertion list index lead (newline ++ outer)
          (List.intercalate lead texts)
        return ⟨w, i.manipulation, spread lead.size i.start texts⟩

def insertStatements (d : Document) (n : NodeId) (index : Nat) (texts : List Text) :
    Option (Outcome (List NodeId)) :=
  d.attempt (d.statementPlan n index texts) fun p => do
    let (new, log) ← d.commit p.wrapper.index p.manipulation
    let found ← new.standInAll Kind.isStatement p.expected
    return ⟨.ok found.2, found.1, log⟩
end Document

inductive Scope where
  | «public» | «protected» | «private»
  deriving DecidableEq

namespace Scope

def keyword : Scope → Kind
  | .public => .publicKeyword
  | .protected => .protectedKeyword
  | .private => .privateKeyword

def ofKeyword? : Kind → Option Scope
  | .publicKeyword => some .public
  | .protectedKeyword => some .protected
  | .privateKeyword => some .private
  | _ => none

end Scope

namespace Document
open Failure

def modifiable (d : Document) (n : NodeId) (feature : Feature) (accepts : ModifierRole → Bool) :
    Except EditError Wrapper := do
  let w ← d.node n
  if w.kind.capabilities.modifiers.any accepts then return w
  else .error (.unsupported feature w.kind)

def scope (d : Document) (n : NodeId) : Except EditError (Option Scope) := do
  let w ← d.modifiable n .scope ModifierRole.acceptsScope
  return w.site.modifiers.findSome? fun m => Scope.ofKeyword? m.1

def isExported (d : Document) (n : NodeId) : Except EditError Bool := do
  let w ← d.modifiable n .isExported ModifierRole.acceptsExport
  return w.site.modifiers.any fun m => m.1 == .exportKeyword

def dropModifier (s : Span) : Manipulation := .removal ⟨s, { spacesAfter := true }, []⟩

def addModifier (position : Nat) (keyword : Kind) : Manipulation :=
  .insert position (keyword.spelling ++ [' '])

/-- Where a scope goes: before the first element that is neither trivia nor the modifier of an
export. -/
def scopePosition (s : Site) : Nat :=
  let stays (c : Site) : Bool :=
    c.kind.isTrivia ||
      c.kind = .modifier && (c.token? Kind.isModifierKeyword).any (·.kind == .exportKeyword)
  ((s.elements.find? (!stays ·)).map Site.start).getD s.start

def scopeChange (s : Site) (scope : Option Scope) : Option Manipulation :=
  match s.modifiers.find? (·.1.isScopeKeyword), scope with
  | none, none => none
  | none, some wanted => some (addModifier (scopePosition s) wanted.keyword)
  | some (_, span), none => some (dropModifier span)
  | some (keyword, span), some wanted =>
    if keyword = wanted.keyword then none else some (.replace span wanted.keyword.spelling)

def exportChange (s : Site) (exported : Bool) : Option Manipulation :=
  match s.modifiers.find? (·.1 == .exportKeyword), exported with
  | some _, true | none, false => none
  | some (_, span), false => some (dropModifier span)
  | none, true => some (addModifier s.start .exportKeyword)

def change (d : Document) (n : NodeId) (w : Wrapper) : Option Manipulation →
    Option (Outcome NodeId)
  | none => some ⟨.ok n, d, []⟩
  | some m => do
    let (new, log) ← d.commit w.index m
    return ⟨.ok n, new, log⟩

def setScope (d : Document) (n : NodeId) (scope : Option Scope) : Option (Outcome NodeId) :=
  d.attempt (refusing (d.modifiable n .setScope ModifierRole.acceptsScope)) fun w =>
    d.change n w (scopeChange w.site scope)

def setExported (d : Document) (n : NodeId) (exported : Bool) : Option (Outcome NodeId) :=
  d.attempt (refusing (d.modifiable n .setExported ModifierRole.acceptsExport)) fun w =>
    d.change n w (exportChange w.site exported)

end Document
end LiveEdit
