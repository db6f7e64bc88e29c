import LiveEdit.Kind

/-! Outlines, and the rules that make them of kinds. A rule never fails: what is missing becomes a
fault. A token is read at every level, so the number of tokens bounds how deep rules nest. -/

namespace LiveEdit

inductive Complaint where
  | expected (kind : Kind)
  | declaration
  | namespaceBody
  | statement
  | unexpectedToken
  | name
  | type
  | parameterList
  | unexpectedInParameters
  | classBody
  | memberName
  | unexpectedInClass
  | enumBody
  | enumMember
  | expression
  | unexpectedInArguments
  deriving DecidableEq

def Complaint.message : Complaint → String
  | .expected kind => s!"expected {kind.label}"
  | .declaration => "expected a declaration after modifiers"
  | .namespaceBody => "expected a namespace body"
  | .statement => "expected a statement"
  | .unexpectedToken => "unexpected token"
  | .name => "expected a name"
  | .type => "expected a type"
  | .parameterList => "expected a parameter list"
  | .unexpectedInParameters => "unexpected token in parameter list"
  | .classBody => "expected a class body"
  | .memberName => "expected a member name"
  | .unexpectedInClass => "unexpected token in class body"
  | .enumBody => "expected an enum body"
  | .enumMember => "expected an enum member"
  | .expression => "expected an expression"
  | .unexpectedInArguments => "unexpected token in argument list"

inductive Outline where
  | leaf (kind : Kind)
  | fault (complaint : Complaint)
  | branch (kind : Kind) (parts : List Outline)

abbrev Rule := List Kind → List Outline × List Kind

namespace Rule

def peek (ks : List Kind) : Kind := ks.headD .endOfFile

def skip : Rule := fun ks => ([], ks)

/-- Reads the next token. After the last one it reads the end as if that were a token. -/
def take : Rule
  | [] => ([.leaf .endOfFile], [])
  | k :: ks => ([.leaf k], ks)

def complain (c : Complaint) : Rule := fun ks => ([.fault c], ks)

def seq : List Rule → Rule
  | [] => skip
  | r :: rs => fun ks =>
    let a := r ks
    let b := seq rs a.2
    (a.1 ++ b.1, b.2)

def choose (p : Kind → Bool) (yes no : Rule) : Rule := fun ks =>
  if p (peek ks) then yes ks else no ks

def option (k : Kind) (r : Rule) : Rule := choose (· == k) r skip

def expect (k : Kind) : Rule := choose (· == k) take (complain (.expected k))

def nodeFrom (first : List Outline) (kind : Kind) (r : Rule) : Rule :=
  fun ks =>
    let a := r ks
    ([.branch kind (first ++ a.1)], a.2)

def node (kind : Kind) (r : Rule) : Rule := nodeFrom [] kind r

def extend (kind : Kind) (r : Rule) (p : Kind → Bool) (more : Rule) : Rule := fun ks =>
  let a := r ks
  if p (peek a.2) then nodeFrom a.1 kind more a.2 else a

def recover (c : Complaint) : Rule := node .error (seq [complain c, take])

def repeatWithin (stop : Kind → Bool) (r : Rule) : Nat → Rule
  | 0 => skip
  | n + 1 => choose (fun k => k == .endOfFile || stop k) skip (seq [r, repeatWithin stop r n])

/-- Reads with a rule up to a kind that satisfies `stop` or the end. Each round reads a token, so
there are no more rounds than tokens. -/
def repeatUntil (stop : Kind → Bool) (r : Rule) : Rule := fun ks => repeatWithin stop r ks.length ks

structure Listing where
  starts : Kind → Bool
  item : Rule
  close : Kind
  stops : Kind → Bool
  complaint : Complaint

def Listing.within (l : Listing) : Nat → Rule
  | 0 => skip
  | n + 1 =>
    choose (fun k => k == .endOfFile || k == l.close) skip
      (choose l.starts (seq [l.item, option .comma (seq [take, l.within n])])
        (choose l.stops skip (seq [recover l.complaint, l.within n])))

def Listing.rule (l : Listing) : Rule := seq [fun ks => l.within ks.length ks, expect l.close]

end Rule

namespace Grammar
open Rule

def expressionStart : TokenSet :=
  ⟨[.identifier, .number, .string, .leftParenthesis, .minus], by decide⟩

def operators : TokenSet := ⟨[.plus, .minus, .star, .slash, .dot, .equals], by decide⟩

def listRecovery : TokenSet := ⟨[.semicolon, .leftCurly, .rightCurly], by decide⟩

def modifiers : Rule := fun ks =>
  ((ks.takeWhile Kind.isModifierKeyword).map fun k => .branch .modifier [.leaf k],
    ks.dropWhile Kind.isModifierKeyword)

def name : Rule := choose (· == .identifier) (node .name take) (complain .name)

def typeClause : Rule :=
  option .colon (node .typeClause (seq [take,
    choose (· == .identifier) (node .typeReference take) (complain .type)]))

def arguments (expression : Rule) : Rule :=
  node .argumentList (seq [take, Listing.rule {
    starts := expressionStart.contains
    item := expression
    close := .rightParenthesis
    stops := listRecovery.contains
    complaint := .unexpectedInArguments }])

def atom (expression : Rule) : Rule := fun ks =>
  match peek ks with
  | .identifier =>
    extend .callExpression (node .nameExpression name) (· == .leftParenthesis)
      (arguments expression) ks
  | .number | .string => node .literalExpression take ks
  | .minus => node .literalExpression (seq [take, expect .number]) ks
  | .leftParenthesis =>
    node .parenthesizedExpression (seq [take, expression, expect .rightParenthesis]) ks
  | _ => complain .expression ks

def operations (operand : Rule) : Nat → Rule
  | 0 => skip
  | n + 1 =>
    choose operators.contains
      (seq [take, choose expressionStart.contains (seq [operand, operations operand n])
        (complain .expression)])
      skip

def expressionOver (inner : Rule) : Rule :=
  choose expressionStart.contains
    (extend .binaryExpression (atom inner) operators.contains
      fun ks => operations (atom inner) ks.length ks)
    (complain .expression)

def expressionWithin : Nat → Rule
  | 0 => skip
  | n + 1 => expressionOver (expressionWithin n)

def expression : Rule := fun ks => expressionWithin (ks.length + 1) ks

def initializer : Rule := option .equals (seq [take, expression])

def variableDeclaration : Rule := node .variableDeclaration (seq [name, typeClause, initializer])

def variableDeclarations : Nat → Rule
  | 0 => skip
  | n + 1 => seq [variableDeclaration, option .comma (seq [take, variableDeclarations n])]

def variableStatement : Rule :=
  seq [take, fun ks => variableDeclarations (ks.length + 1) ks, option .semicolon take]

def parameterList : Rule :=
  node .parameterList (seq [take, Listing.rule {
    starts := (· == .identifier)
    item := node .parameter (seq [name, typeClause])
    close := .rightParenthesis
    stops := listRecovery.contains
    complaint := .unexpectedInParameters }])

def signature (block : Rule) : Rule :=
  seq [choose (· == .leftParenthesis) parameterList (complain .parameterList), typeClause,
    choose (· == .leftCurly) block (expect .semicolon)]

def functionDeclaration (block : Rule) : Rule := seq [take, name, signature block]

def method (block : Rule) : Rule := seq [name, signature block]

def property : Rule := seq [name, typeClause, initializer, option .semicolon take]

def classMember (block : Rule) : Rule := fun ks =>
  let m := modifiers ks
  if peek m.2 = .identifier then
    if peek (m.2.drop 1) = .leftParenthesis then
      nodeFrom m.1 .methodDeclaration (method block) m.2
    else nodeFrom m.1 .propertyDeclaration property m.2
  else if m.1.isEmpty then recover .unexpectedInClass m.2
  else nodeFrom m.1 .error (complain .memberName) m.2

def classDeclaration (block : Rule) : Rule :=
  seq [take, name, choose (· == .leftCurly)
    (seq [take, repeatUntil (· == .rightCurly) (classMember block), expect .rightCurly])
    (complain .classBody)]

def enumDeclaration : Rule :=
  seq [take, name, choose (· == .leftCurly)
    (seq [take, Listing.rule {
      starts := (· == .identifier)
      item := node .enumMember (seq [name, initializer])
      close := .rightCurly
      stops := fun _ => false
      complaint := .enumMember }])
    (complain .enumBody)]

def namespaceDeclaration (block : Rule) : Rule :=
  seq [take, name, choose (· == .leftCurly) block (complain .namespaceBody)]

def declaration? (block : Rule) : Kind → Option (Kind × Rule)
  | .constKeyword | .letKeyword | .varKeyword => some (.variableStatement, variableStatement)
  | .functionKeyword => some (.functionDeclaration, functionDeclaration block)
  | .classKeyword => some (.classDeclaration, classDeclaration block)
  | .enumKeyword => some (.enumDeclaration, enumDeclaration)
  | .namespaceKeyword => some (.namespaceDeclaration, namespaceDeclaration block)
  | _ => none

def block (statement : Rule) : Rule :=
  node .block
    (seq [expect .leftCurly, repeatUntil (· == .rightCurly) statement, expect .rightCurly])

def consequence (statement : Rule) : Rule :=
  choose (fun k => k == .rightCurly || k == .endOfFile) (complain .statement) statement

def ifStatement (statement : Rule) : Rule :=
  node .ifStatement (seq [take, expect .leftParenthesis, expression, expect .rightParenthesis,
    consequence statement, option .elseKeyword (seq [take, consequence statement])])

def returnStatement : Rule :=
  node .returnStatement (seq [take, choose expressionStart.contains expression skip,
    option .semicolon take])

def expressionStatement : Rule :=
  node .expressionStatement (seq [expression, option .semicolon take])

def plainStatement (inner : Rule) : Rule := fun ks =>
  match peek ks with
  | .leftCurly => block inner ks
  | .returnKeyword => returnStatement ks
  | .ifKeyword => ifStatement inner ks
  | _ => choose expressionStart.contains expressionStatement (recover .unexpectedToken) ks

def statementOver (inner : Rule) : Rule := fun ks =>
  let m := modifiers ks
  match declaration? (block inner) (peek m.2) with
  | some (kind, body) => nodeFrom m.1 kind body m.2
  | none =>
    if m.1.isEmpty then plainStatement inner m.2
    else nodeFrom m.1 .error (complain .declaration) m.2

def statementWithin : Nat → Rule
  | 0 => skip
  | n + 1 => statementOver (statementWithin n)

def statement : Rule := fun ks => statementWithin (ks.length + 1) ks

def file : Rule := repeatUntil (fun _ => false) statement
end Grammar

def Outline.ofKinds (ks : List Kind) : List Outline := (Grammar.file ks).1

end LiveEdit
