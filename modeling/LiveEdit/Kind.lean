import LiveEdit.Text.Basic

/-! The kinds of tokens and nodes, in their fixed order. -/

namespace LiveEdit

inductive Kind where
  | whitespace | lineComment | blockComment
  | classKeyword | constKeyword | elseKeyword | enumKeyword | exportKeyword | functionKeyword
  | ifKeyword | letKeyword | namespaceKeyword | privateKeyword | protectedKeyword | publicKeyword
  | readonlyKeyword | returnKeyword | staticKeyword | varKeyword
  | identifier | number | string
  | leftCurly | rightCurly | leftParenthesis | rightParenthesis
  | semicolon | colon | comma | dot | equals | plus | minus | star | slash
  | unknown | endOfFile
  | sourceFile | modifier | name | typeClause | typeReference | variableStatement
  | variableDeclaration | functionDeclaration | parameterList | parameter | classDeclaration
  | propertyDeclaration | methodDeclaration | enumDeclaration | enumMember | namespaceDeclaration
  | block | expressionStatement | returnStatement | ifStatement | nameExpression
  | literalExpression | callExpression | argumentList | parenthesizedExpression
  | binaryExpression
  | placeholder | error
  deriving DecidableEq

namespace Kind

def all : List Kind :=
  [.whitespace, .lineComment, .blockComment, .classKeyword, .constKeyword, .elseKeyword,
   .enumKeyword, .exportKeyword, .functionKeyword, .ifKeyword, .letKeyword, .namespaceKeyword,
   .privateKeyword, .protectedKeyword, .publicKeyword, .readonlyKeyword, .returnKeyword,
   .staticKeyword, .varKeyword, .identifier, .number, .string, .leftCurly, .rightCurly,
   .leftParenthesis, .rightParenthesis, .semicolon, .colon, .comma, .dot, .equals, .plus,
   .minus, .star, .slash, .unknown, .endOfFile, .sourceFile, .modifier, .name, .typeClause,
   .typeReference, .variableStatement, .variableDeclaration, .functionDeclaration,
   .parameterList, .parameter, .classDeclaration, .propertyDeclaration, .methodDeclaration,
   .enumDeclaration, .enumMember, .namespaceDeclaration, .block, .expressionStatement,
   .returnStatement, .ifStatement, .nameExpression, .literalExpression, .callExpression,
   .argumentList, .parenthesizedExpression, .binaryExpression, .placeholder, .error]

def index (k : Kind) : Nat := k.ctorIdx

def label : Kind → String
  | .whitespace => "WHITESPACE"
  | .lineComment => "LINE_COMMENT"
  | .blockComment => "BLOCK_COMMENT"
  | .classKeyword => "CLASS"
  | .constKeyword => "CONST"
  | .elseKeyword => "ELSE"
  | .enumKeyword => "ENUM"
  | .exportKeyword => "EXPORT"
  | .functionKeyword => "FUNCTION"
  | .ifKeyword => "IF"
  | .letKeyword => "LET"
  | .namespaceKeyword => "NAMESPACE"
  | .privateKeyword => "PRIVATE"
  | .protectedKeyword => "PROTECTED"
  | .publicKeyword => "PUBLIC"
  | .readonlyKeyword => "READONLY"
  | .returnKeyword => "RETURN"
  | .staticKeyword => "STATIC"
  | .varKeyword => "VAR"
  | .identifier => "IDENTIFIER"
  | .number => "NUMBER"
  | .string => "STRING"
  | .leftCurly => "LEFT_CURLY"
  | .rightCurly => "RIGHT_CURLY"
  | .leftParenthesis => "LEFT_PARENTHESIS"
  | .rightParenthesis => "RIGHT_PARENTHESIS"
  | .semicolon => "SEMICOLON"
  | .colon => "COLON"
  | .comma => "COMMA"
  | .dot => "DOT"
  | .equals => "EQUALS"
  | .plus => "PLUS"
  | .minus => "MINUS"
  | .star => "STAR"
  | .slash => "SLASH"
  | .unknown => "UNKNOWN"
  | .endOfFile => "END_OF_FILE"
  | .sourceFile => "SourceFile"
  | .modifier => "Modifier"
  | .name => "Name"
  | .typeClause => "TypeAnnotation"
  | .typeReference => "TypeReference"
  | .variableStatement => "VariableStatement"
  | .variableDeclaration => "VariableDeclaration"
  | .functionDeclaration => "FunctionDeclaration"
  | .parameterList => "ParameterList"
  | .parameter => "Parameter"
  | .classDeclaration => "ClassDeclaration"
  | .propertyDeclaration => "PropertyDeclaration"
  | .methodDeclaration => "MethodDeclaration"
  | .enumDeclaration => "EnumDeclaration"
  | .enumMember => "EnumMember"
  | .namespaceDeclaration => "NamespaceDeclaration"
  | .block => "Block"
  | .expressionStatement => "ExpressionStatement"
  | .returnStatement => "ReturnStatement"
  | .ifStatement => "IfStatement"
  | .nameExpression => "NameExpression"
  | .literalExpression => "LiteralExpression"
  | .callExpression => "CallExpression"
  | .argumentList => "ArgumentList"
  | .parenthesizedExpression => "ParenthesizedExpression"
  | .binaryExpression => "BinaryExpression"
  | .placeholder => "Node"
  | .error => "ERROR"

def ofLabel? (s : String) : Option Kind := all.find? fun k => k.label == s

def isTrivia (k : Kind) : Bool := k = .whitespace || k = .lineComment || k = .blockComment

def isToken (k : Kind) : Bool := k.index ≤ Kind.endOfFile.index

def isNode (k : Kind) : Bool := !k.isToken

def isScopeKeyword (k : Kind) : Bool :=
  k = .privateKeyword || k = .protectedKeyword || k = .publicKeyword

def isModifierKeyword (k : Kind) : Bool :=
  k = .exportKeyword || k.isScopeKeyword || k = .readonlyKeyword || k = .staticKeyword

def isStatement : Kind → Bool
  | .variableStatement | .functionDeclaration | .classDeclaration | .enumDeclaration
  | .namespaceDeclaration | .block | .expressionStatement | .returnStatement | .ifStatement => true
  | _ => false

def isClassMember (k : Kind) : Bool := k = .propertyDeclaration || k = .methodDeclaration

def isExpression : Kind → Bool
  | .nameExpression | .literalExpression | .callExpression | .parenthesizedExpression
  | .binaryExpression => true
  | _ => false

def keywords : List (Text × Kind) :=
  [(['c', 'l', 'a', 's', 's'], .classKeyword),
   (['c', 'o', 'n', 's', 't'], .constKeyword),
   (['e', 'l', 's', 'e'], .elseKeyword),
   (['e', 'n', 'u', 'm'], .enumKeyword),
   (['e', 'x', 'p', 'o', 'r', 't'], .exportKeyword),
   (['f', 'u', 'n', 'c', 't', 'i', 'o', 'n'], .functionKeyword),
   (['i', 'f'], .ifKeyword),
   (['l', 'e', 't'], .letKeyword),
   (['n', 'a', 'm', 'e', 's', 'p', 'a', 'c', 'e'], .namespaceKeyword),
   (['p', 'r', 'i', 'v', 'a', 't', 'e'], .privateKeyword),
   (['p', 'r', 'o', 't', 'e', 'c', 't', 'e', 'd'], .protectedKeyword),
   (['p', 'u', 'b', 'l', 'i', 'c'], .publicKeyword),
   (['r', 'e', 'a', 'd', 'o', 'n', 'l', 'y'], .readonlyKeyword),
   (['r', 'e', 't', 'u', 'r', 'n'], .returnKeyword),
   (['s', 't', 'a', 't', 'i', 'c'], .staticKeyword),
   (['v', 'a', 'r'], .varKeyword)]

def keyword? (word : Text) : Option Kind := keywords.lookup word

def spelling (k : Kind) : Text :=
  ((keywords.find? fun entry => entry.2 = k).map Prod.fst).getD []

end Kind

structure TokenSet where
  kinds : List Kind
  tokens : ∀ k ∈ kinds, k.isToken = true := by decide

namespace TokenSet

def empty : TokenSet := ⟨[], by decide⟩

def contains (s : TokenSet) (k : Kind) : Bool := s.kinds.contains k

def union (s t : TokenSet) : TokenSet :=
  ⟨s.kinds ++ t.kinds, fun k h => (List.mem_append.1 h).elim (s.tokens k) (t.tokens k)⟩

def ofList? (ks : List Kind) : Option TokenSet :=
  if h : ∀ k ∈ ks, k.isToken = true then some ⟨ks, h⟩ else none

end TokenSet
end LiveEdit
