import LiveEdit.Kind

/-! Lossless trees. The leaves are tokens, white space and comments included, so that a tree holds
its whole text. -/

namespace LiveEdit

inductive Tree where
  | token (kind : Kind) (text : Text)
  | node (kind : Kind) (children : List Tree)

/-- The way to a node: at each step, which of the child nodes to take. Tokens are not counted. -/
abbrev Address := List Nat

namespace Tree

mutual

def decEq : (t u : Tree) → Decidable (t = u)
  | token k s, token l r => decidable_of_iff (k = l ∧ s = r) (by simp)
  | node k ts, node l us =>
    have := decEqAll ts us
    decidable_of_iff (k = l ∧ ts = us) (by simp)
  | token .., node .. => isFalse nofun
  | node .., token .. => isFalse nofun

def decEqAll : (ts us : List Tree) → Decidable (ts = us)
  | [], [] => isTrue rfl
  | t :: ts, u :: us =>
    have := decEq t u
    have := decEqAll ts us
    decidable_of_iff (t = u ∧ ts = us) (by simp)
  | [], _ :: _ => isFalse nofun
  | _ :: _, [] => isFalse nofun

end

instance : DecidableEq Tree := decEq

def kind : Tree → Kind
  | token k _ => k
  | node k _ => k

def isNode : Tree → Bool
  | token _ _ => false
  | node _ _ => true

def children : Tree → List Tree
  | token _ _ => []
  | node _ ts => ts

mutual

def text : Tree → Text
  | token _ t => t
  | node _ ts => textAll ts

def textAll : List Tree → Text
  | [] => []
  | t :: ts => text t ++ textAll ts

end

mutual

def size : Tree → Nat
  | token _ t => t.size
  | node _ ts => sizeAll ts

def sizeAll : List Tree → Nat
  | [] => 0
  | t :: ts => size t + sizeAll ts

end

mutual

def leaves : Tree → List (Kind × Text)
  | token k t => [(k, t)]
  | node _ ts => leavesAll ts

def leavesAll : List Tree → List (Kind × Text)
  | [] => []
  | t :: ts => leaves t ++ leavesAll ts

end

mutual

def addresses : Tree → List Address
  | token _ _ => []
  | node _ ts => addressesAll 0 ts

def addressesAll : Nat → List Tree → List Address
  | _, [] => []
  | n, t :: ts =>
    if t.isNode then ([] :: addresses t).map (n :: ·) ++ addressesAll (n + 1) ts
    else addressesAll n ts

end

end Tree

structure Site where
  start : Nat
  tree : Tree
  deriving DecidableEq

namespace Site

def kind (s : Site) : Kind := s.tree.kind

def text (s : Site) : Text := s.tree.text

def span (s : Site) : Span := .sized s.start s.tree.size

def row : Nat → List Tree → List Site
  | _, [] => []
  | n, t :: ts => ⟨n, t⟩ :: row (n + t.size) ts

def elements (s : Site) : List Site := row s.start s.tree.children

def nodes (s : Site) : List Site := s.elements.filter (·.tree.isNode)

def tokens (s : Site) : List Site := s.elements.filter (!·.tree.isNode)

def node? (s : Site) (p : Kind → Bool) : Option Site := s.nodes.find? fun c => p c.kind

def token? (s : Site) (p : Kind → Bool) : Option Site := s.tokens.find? fun c => p c.kind

def splitRow : Nat → List Site → List Site × List Site
  | _, [] => ([], [])
  | 0, s :: row => if s.tree.isNode then ([], row) else ((splitRow 0 row).map (s :: ·) id)
  | n + 1, s :: row => (splitRow (if s.tree.isNode then n else n + 1) row).map (s :: ·) id

def next? (s : Site) (n : Nat) : Option Site :=
  (splitRow n s.elements).2.find? (!·.kind.isTrivia)

def previous? (s : Site) (n : Nat) : Option Site :=
  (splitRow n s.elements).1.reverse.find? (!·.kind.isTrivia)

def braces? (s : Site) : Option (Site × Site) :=
  match s.tokens.dropWhile (·.kind != .leftCurly) with
  | [] => none
  | left :: more => (more.find? (·.kind == .rightCurly)).map (left, ·)

def at? (s : Site) : Address → Option Site
  | [] => some s
  | n :: a => s.nodes[n]?.bind fun c => c.at? a

def lineage (s : Site) (a : Address) : List (Address × Site) :=
  (List.range (a.length + 1)).filterMap fun n => (s.at? (a.take n)).map (a.take n, ·)

def descendants (s : Site) : List (Address × Site) :=
  s.tree.addresses.filterMap fun a => (s.at? a).map (a, ·)

end Site

namespace Tree

mutual

def listing (depth start : Nat) : Tree → List (Nat × Site)
  | token k t => [(depth, ⟨start, token k t⟩)]
  | node k ts => (depth, ⟨start, node k ts⟩) :: listingAll (depth + 1) start ts

def listingAll (depth start : Nat) : List Tree → List (Nat × Site)
  | [] => []
  | t :: ts => listing depth start t ++ listingAll depth (start + t.size) ts

end

mutual

def covering (s : Span) (start : Nat) : Tree → Address
  | token _ _ => []
  | node _ ts => coveringAll s start 0 ts

def coveringAll (s : Span) (start n : Nat) : List Tree → Address
  | [] => []
  | t :: ts =>
    let stop := start + t.size
    let last := match ts with
      | [] => true
      | u :: _ => s.start < stop + u.size && s.stop ≤ stop
    if stop ≤ s.start && !last then coveringAll s stop (if t.isNode then n + 1 else n) ts
    else if t.isNode && (Span.sized start t.size).contains s then n :: covering s start t
    else []

end

mutual

def outermost (p : Kind → Bool) (s : Span) (start : Nat) : Tree → List Address
  | token _ _ => []
  | node _ ts => outermostAll p s start 0 ts

def outermostAll (p : Kind → Bool) (s : Span) (start n : Nat) : List Tree → List Address
  | [] => []
  | t :: ts =>
    let here := Span.sized start t.size
    if t.isNode then
      (if s.contains here && p t.kind then [[n]]
       else if s.overlaps here then (outermost p s start t).map (n :: ·)
       else []) ++ outermostAll p s here.stop (n + 1) ts
    else outermostAll p s here.stop n ts

end

end Tree

namespace Site

def listing (s : Site) : List (Nat × Site) := s.tree.listing 0 s.start

def covering? (s : Site) (r : Span) : Option Address :=
  if s.span.contains r then some (s.tree.covering r s.start) else none

def outermost (s : Site) (p : Kind → Bool) (r : Span) : List Address :=
  s.tree.outermost p r s.start

end Site
end LiveEdit
