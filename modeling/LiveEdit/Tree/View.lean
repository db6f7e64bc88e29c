import LiveEdit.Tree.Basic

/-! Views of nodes: the named parts that the nodes of a kind have. -/

namespace LiveEdit

inductive Selector where
  | node (p : Kind → Bool)
  | nodes (p : Kind → Bool)
  | token (p : Kind → Bool)
  | tokens (p : Kind → Bool)
  | tokenKind (p : Kind → Bool)

inductive Selection where
  | one (site : Option Site)
  | many (sites : List Site)
  | kind (kind : Option Kind)

def Selector.select (s : Site) : Selector → Selection
  | node p => .one (s.node? p)
  | nodes p => .many (s.nodes.filter fun c => p c.kind)
  | token p => .one (s.token? p)
  | tokens p => .many (s.tokens.filter fun c => p c.kind)
  | tokenKind p => .kind ((s.token? p).map Site.kind)

namespace Kind

def isVariableKeyword (k : Kind) : Bool := k = .constKeyword || k = .letKeyword || k = .varKeyword

/-- The parts of the nodes of a kind. Kinds that are only read through their parents have no
view. -/
def view? (k : Kind) : Option (List (String × Selector)) :=
  let modifiers := ("modifiers", Selector.nodes (· == .modifier))
  let name := ("name", Selector.node (· == .name))
  let initializer := ("initializer", Selector.node isExpression)
  let body := ("body", Selector.node (· == .block))
  let statements := ("statements", Selector.nodes isStatement)
  let commas := ("commas", Selector.tokens (· == .comma))
  let leftCurly := ("left_curly", Selector.token (· == .leftCurly))
  let rightCurly := ("right_curly", Selector.token (· == .rightCurly))
  match k with
  | .sourceFile => some [statements]
  | .modifier =>
    some [("keyword", .token isModifierKeyword), ("keyword_kind", .tokenKind isModifierKeyword)]
  | .name => some [("identifier", .token (· == .identifier))]
  | .variableStatement =>
    some [modifiers, ("keyword", .token isVariableKeyword),
      ("declarations", .nodes (· == .variableDeclaration))]
  | .variableDeclaration => some [name, initializer]
  | .functionDeclaration =>
    some [modifiers, name, ("parameter_list", .node (· == .parameterList)), body]
  | .parameterList => some [("parameters", .nodes (· == .parameter)), commas]
  | .parameter => some [name]
  | .classDeclaration =>
    some [modifiers, name, ("members", .nodes isClassMember), leftCurly, rightCurly]
  | .propertyDeclaration => some [modifiers, name]
  | .methodDeclaration => some [modifiers, name, body]
  | .enumDeclaration =>
    some [modifiers, name, ("members", .nodes (· == .enumMember)), commas, leftCurly, rightCurly]
  | .enumMember => some [name, initializer]
  | .namespaceDeclaration => some [modifiers, name, body]
  | .block => some [statements, leftCurly, rightCurly]
  | .expressionStatement | .returnStatement | .ifStatement | .nameExpression
  | .literalExpression | .callExpression | .parenthesizedExpression | .binaryExpression => some []
  | _ => none

end Kind
end LiveEdit
