import LiveEdit.Proofs.Parse.Building

/-! A scribe reads kinds and keeps a log. Where a node may begin it writes a placeholder, which
later gets the kind of the node, is taken back, or stays behind. A scribe is stuck when it takes a
token after the last one, finishes a node that was not started, or uses up the rounds of a loop. -/

namespace LiveEdit

namespace Outline

def Event.isPlaceholder : Event → Bool
  | .start k => k == .placeholder
  | _ => false

def shown (es : List Event) : List Event := es.filter (!·.isPlaceholder)

def tokens (es : List Event) : List Kind :=
  es.filterMap fun
    | .token k => some k
    | _ => none

/-- How many nodes are open after some events, if `d` were before. There is no answer where more
nodes are finished than were open. -/
def depth? : List Event → Nat → Option Nat
  | [], d => some d
  | .start _ :: es, d => depth? es (d + 1)
  | .finish :: es, d + 1 => depth? es d
  | .finish :: _, 0 => none
  | .token _ :: es, d => depth? es d
  | .fault _ :: es, d => depth? es d

end Outline

structure Scribe where
  rest : List Kind
  log : List Outline.Event

abbrev Routine := Scribe → Option Scribe

namespace Scribe
open Outline Grammar

abbrev next (p : Scribe) : Kind := Rule.peek p.rest

def stuck : Routine := fun _ => none

def skip : Routine := some

def take : Routine
  | ⟨[], _⟩ => none
  | ⟨k :: ks, log⟩ => some ⟨ks, log ++ [.token k]⟩

def complain (c : Complaint) : Routine := fun p => some ⟨p.rest, p.log ++ [.fault c]⟩

def start (p : Scribe) : Scribe := ⟨p.rest, p.log ++ [.start .placeholder]⟩

def finish (m : Nat) (kind : Kind) : Routine := fun p =>
  match p.log[m]? with
  | some (.start _) => some ⟨p.rest, p.log.set m (.start kind) ++ [.finish]⟩
  | _ => none

def cancel (m : Nat) : Routine := fun p =>
  match p.log.getLast? with
  | none => none
  | some e =>
    if m + 1 = p.log.length then if e.isPlaceholder then some ⟨p.rest, p.log.dropLast⟩ else none
    else some p

def seq : List Routine → Routine
  | [] => skip
  | r :: rs => fun p => r p >>= seq rs

def choose (q : Kind → Bool) (yes no : Routine) : Routine :=
  fun p => if q p.next then yes p else no p

def option (k : Kind) (r : Routine) : Routine := choose (· == k) r skip

def expect (k : Kind) : Routine := choose (· == k) take (complain (.expected k))

def node (kind : Kind) (r : Routine) : Routine := fun p => r p.start >>= finish p.log.length kind

def extend (kind : Kind) (r : Routine) (q : Kind → Bool) (more : Routine) : Routine := fun p => do
  let s ← r p.start
  if q s.next then more s >>= finish p.log.length kind else cancel p.log.length s

def recover (c : Complaint) : Routine := node .error (seq [complain c, take])

def loop (round : Nat → Routine) : Routine := fun p => round (p.rest.length + 1) p

def repeated (stop : Kind → Bool) (r : Routine) : Nat → Routine
  | 0 => stuck
  | n + 1 => choose (fun k => k == .endOfFile || stop k) skip (seq [r, repeated stop r n])

def items (starts : Kind → Bool) (item : Routine) (close : Kind) (stops : Kind → Bool)
    (c : Complaint) : Nat → Routine
  | 0 => stuck
  | n + 1 =>
    choose (fun k => k == .endOfFile || k == close) skip
      (choose starts (seq [item, option .comma (seq [take, items starts item close stops c n])])
        (choose stops skip (seq [recover c, items starts item close stops c n])))

def list (starts : Kind → Bool) (item : Routine) (close : Kind) (stops : Kind → Bool)
    (c : Complaint) : Routine :=
  seq [loop (items starts item close stops c), expect close]

def modifiersWithin : Nat → Scribe → Option (Bool × Scribe)
  | 0, _ => none
  | n + 1, p =>
    if p.next.isModifierKeyword then do
      let s ← node .modifier take p
      let (_, s) ← modifiersWithin n s
      return (true, s)
    else some (false, p)

def modifiers (p : Scribe) : Option (Bool × Scribe) := modifiersWithin (p.rest.length + 1) p

def name : Routine := choose (· == .identifier) (node .name take) (complain .name)

def typeClause : Routine :=
  option .colon (node .typeClause (seq [take,
    choose (· == .identifier) (node .typeReference take) (complain .type)]))

def arguments (expression : Routine) : Routine :=
  node .argumentList
  (seq [take, list expressionStart.contains expression .rightParenthesis listRecovery.contains
    .unexpectedInArguments])

def atomOf (expression : Routine) : Kind → Routine
  | .identifier => extend .callExpression (node .nameExpression name) (· == .leftParenthesis)
    (arguments expression)
  | .number | .string => node .literalExpression take
  | .minus => node .literalExpression (seq [take, expect .number])
  | .leftParenthesis =>
    node .parenthesizedExpression (seq [take, expression, expect .rightParenthesis])
  | _ => complain .expression

def atom (expression : Routine) : Routine := fun p => atomOf expression p.next p

def operations (operand : Routine) : Nat → Routine
  | 0 => stuck
  | n + 1 =>
    choose operators.contains
      (seq [take, choose expressionStart.contains (seq [operand, operations operand n])
        (complain .expression)]) skip

def expressionOver (inner : Routine) : Routine :=
  choose expressionStart.contains
    (extend .binaryExpression (atom inner) operators.contains (loop (operations (atom inner))))
    (complain .expression)

def expressionWithin : Nat → Routine
  | 0 => stuck
  | n + 1 => expressionOver (expressionWithin n)

def expression : Routine := loop expressionWithin

def initializer : Routine := option .equals (seq [take, expression])

def variableDeclaration : Routine := node .variableDeclaration (seq [name, typeClause, initializer])

def variableDeclarations : Nat → Routine
  | 0 => stuck
  | n + 1 => seq [variableDeclaration, option .comma (seq [take, variableDeclarations n])]

def variableStatement : Routine := seq [take, loop variableDeclarations, option .semicolon take]

def parameterList : Routine :=
  node .parameterList
  (seq [take, list (· == .identifier) (node .parameter (seq [name, typeClause])) .rightParenthesis
    listRecovery.contains .unexpectedInParameters])

def signature (block : Routine) : Routine :=
  seq [choose (· == .leftParenthesis) parameterList (complain .parameterList), typeClause,
    choose (· == .leftCurly) block (expect .semicolon)]

def functionDeclaration (block : Routine) : Routine := seq [take, name, signature block]

def classMember (block : Routine) : Routine := fun p => do
  let (any, s) ← modifiers p.start
  if s.next = .identifier then do
    let s ← name s
    if s.next =
      .leftParenthesis then seq [signature block] s >>= finish p.log.length .methodDeclaration
    else seq [typeClause, initializer,
      option .semicolon take] s >>= finish p.log.length .propertyDeclaration
  else if any then complain .memberName s >>= finish p.log.length .error
  else cancel p.log.length s >>= recover .unexpectedInClass

def classDeclaration (block : Routine) : Routine :=
  seq [take, name, choose (· == .leftCurly)
    (seq [take, loop (repeated (· == .rightCurly) (classMember block)), expect .rightCurly])
    (complain .classBody)]

def enumDeclaration : Routine :=
  seq [take, name, choose (· == .leftCurly)
    (seq [take, list (· == .identifier) (node .enumMember (seq [name, initializer])) .rightCurly
      (fun _ => false)
      .enumMember]) (complain .enumBody)]

def namespaceDeclaration (block : Routine) : Routine :=
  seq [take, name, choose (· == .leftCurly) block (complain .namespaceBody)]

def declaration? (block : Routine) : Kind → Option (Kind × Routine)
  | .constKeyword | .letKeyword | .varKeyword => some (.variableStatement, variableStatement)
  | .functionKeyword => some (.functionDeclaration, functionDeclaration block)
  | .classKeyword => some (.classDeclaration, classDeclaration block)
  | .enumKeyword => some (.enumDeclaration, enumDeclaration)
  | .namespaceKeyword => some (.namespaceDeclaration, namespaceDeclaration block)
  | _ => none

def block (statement : Routine) : Routine :=
  node .block
  (seq [expect .leftCurly, loop (repeated (· == .rightCurly) statement), expect .rightCurly])

def consequence (statement : Routine) : Routine :=
  choose (fun k => k == .rightCurly || k == .endOfFile) (complain .statement) statement

def returnParts : Routine :=
  seq [take, choose expressionStart.contains expression skip, option .semicolon take]

def ifParts (statement : Routine) : Routine :=
  seq [take, expect .leftParenthesis, expression, expect .rightParenthesis, consequence statement,
    option .elseKeyword (seq [take, consequence statement])]

def plainOf (inner : Routine) (m : Nat) : Kind → Routine
  | .leftCurly => fun p => cancel m p >>= block inner
  | .returnKeyword => fun p => returnParts p >>= finish m .returnStatement
  | .ifKeyword => fun p => ifParts inner p >>= finish m .ifStatement
  | k =>
    if expressionStart.contains k then fun p =>
      seq [expression, option .semicolon take] p >>= finish m .expressionStatement
    else fun p => cancel m p >>= recover .unexpectedToken

def statementOver (inner : Routine) : Routine := fun p => do
  let (any, s) ← modifiers p.start
  match declaration? (block inner) s.next with
  | some (kind, body) => body s >>= finish p.log.length kind
  | none =>
    if any then complain .declaration s >>= finish p.log.length .error
    else plainOf inner p.log.length s.next s

def statementWithin : Nat → Routine
  | 0 => stuck
  | n + 1 => statementOver (statementWithin n)

def statement : Routine := loop statementWithin

def file : Routine := loop (repeated (fun _ => false) statement)

end Scribe
end LiveEdit
