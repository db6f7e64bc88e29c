import LiveEdit.Tree.Basic

/-! Capabilities: what can be done with the nodes of a kind beyond editing their text. -/

namespace LiveEdit

inductive ModifierRole where
  | member
  | declaration
  deriving DecidableEq

namespace ModifierRole

def acceptsScope (r : ModifierRole) : Bool := r = .member

def acceptsExport (r : ModifierRole) : Bool := r = .declaration

end ModifierRole

inductive Separator where
  | newline | comma
  deriving DecidableEq

structure MemberList where
  accepts : Kind → Bool
  separator : Separator

inductive BlockPlace where
  | own | inner
  deriving DecidableEq

def BlockPlace.find? (s : Site) : BlockPlace → Option Site
  | own => some s
  | inner => s.node? (· == .block)

structure Capabilities where
  modifiers : Option ModifierRole := none
  members : Option MemberList := none
  statements : Option BlockPlace := none
  body : Option BlockPlace := none

def Kind.capabilities : Kind → Capabilities
  | .sourceFile => { statements := some .own }
  | .block => { statements := some .own, body := some .own }
  | .namespaceDeclaration | .functionDeclaration =>
    { modifiers := some .declaration, statements := some .inner, body := some .inner }
  | .classDeclaration =>
    { modifiers := some .declaration, members := some ⟨Kind.isClassMember, .newline⟩ }
  | .enumDeclaration =>
    { modifiers := some .declaration, members := some ⟨(· == .enumMember), .comma⟩ }
  | .variableStatement => { modifiers := some .declaration }
  | .propertyDeclaration | .methodDeclaration => { modifiers := some .member }
  | _ => {}

namespace Site

def members (s : Site) (l : MemberList) : List (Nat × Site) :=
  (s.nodes.zipIdx.filter fun c => l.accepts c.1.kind).map Prod.swap

def statements (s : Site) : List Site := s.nodes.filter (·.kind.isStatement)

def modifiers (s : Site) : List (Kind × Span) :=
  s.nodes.filterMap fun m =>
    if m.kind = .modifier then (m.token? Kind.isModifierKeyword).map (·.kind, m.span) else none

end Site
end LiveEdit
