import LiveEdit.Edit
import LiveEdit.OrderedIndex
import LiveEdit.Tree.Basic

/-! Wrappers: identities handed out for nodes. A wrapper is bound to a node of the current tree and
holds the wrappers of nodes below it that were asked for so far, in the order of the nodes. -/

namespace LiveEdit

inductive Wrapper where
  | mk (index ordinal : Nat) (site : Site) (children : List Wrapper)

structure LastKnown where
  kind : Kind
  text : Text
  deriving DecidableEq

namespace Wrapper

def index : Wrapper → Nat
  | mk i _ _ _ => i

def ordinal : Wrapper → Nat
  | mk _ n _ _ => n

def site : Wrapper → Site
  | mk _ _ s _ => s

def children : Wrapper → List Wrapper
  | mk _ _ _ ws => ws

def kind (w : Wrapper) : Kind := w.site.kind

def span (w : Wrapper) : Span := w.site.span

def lastKnown (w : Wrapper) : LastKnown := ⟨w.site.kind, w.site.text⟩

mutual

def all : Wrapper → List Wrapper
  | mk i n s ws => mk i n s ws :: allOf ws

def allOf : List Wrapper → List Wrapper
  | [] => []
  | w :: ws => all w ++ allOf ws

end

mutual

def trail? (i : Nat) : Wrapper → Option (List Wrapper)
  | mk j n s ws =>
    if i = j then some [mk j n s ws] else (trailIn? i ws).map (mk j n s ws :: ·)

def trailIn? (i : Nat) : List Wrapper → Option (List Wrapper)
  | [] => none
  | w :: ws => (trail? i w).or (trailIn? i ws)

end

def find? (i : Nat) (w : Wrapper) : Option Wrapper := (w.trail? i).bind List.getLast?

def parent? (i : Nat) (w : Wrapper) : Option Wrapper := (w.trail? i).bind (·.dropLast.getLast?)

mutual

def prune (i : Nat) : Wrapper → Wrapper
  | mk j n s ws => mk j n s (pruneAll i ws)

def pruneAll (i : Nat) : List Wrapper → List Wrapper
  | [] => []
  | w :: ws => if w.index = i then pruneAll i ws else prune i w :: pruneAll i ws

end

mutual

def clear (i : Nat) : Wrapper → Wrapper
  | mk j n s ws => if i = j then mk j n s [] else mk j n s (clearAll i ws)

def clearAll (i : Nat) : List Wrapper → List Wrapper
  | [] => []
  | w :: ws => clear i w :: clearAll i ws

end

mutual

def replace : Wrapper → Wrapper → Wrapper
  | mk i n s ws, c => if i = c.index then c else mk i n s (replaceAll ws c)

def replaceAll : List Wrapper → Wrapper → List Wrapper
  | [], _ => []
  | w :: ws, c => replace w c :: replaceAll ws c

end

def slots (w : Wrapper) : OrderedIndex Nat Wrapper := ⟨ordinal, compare, w.children⟩

def setChild (w c : Wrapper) : Wrapper := mk w.index w.ordinal w.site (w.slots.set c).items

structure Reached where
  wrapper : Wrapper
  index : Nat
  fresh : Nat

/-- The wrapper of the node at an address. Wrappers that are missing on the way get the next free
numbers. -/
def reach (fresh : Nat) : Address → Wrapper → Reached
  | [], w => ⟨w, w.index, fresh⟩
  | n :: a, w =>
    match w.slots.get? n with
    | some c =>
      let r := reach fresh a c
      { r with wrapper := w.setChild r.wrapper }
    | none =>
      match w.site.nodes[n]? with
      | some s =>
        let r := reach (fresh + 1) a (mk fresh n s [])
        { r with wrapper := w.setChild r.wrapper }
      | none => ⟨w, w.index, fresh⟩

end Wrapper

structure Carried where
  kept : List Wrapper := []
  lost : List Wrapper := []
  /-- The old nodes of those that were lost though the edit did not touch them. -/
  mismatched : List Site := []

namespace Carried

def append (a b : Carried) : Carried :=
  ⟨a.kept ++ b.kept, a.lost ++ b.lost, a.mismatched ++ b.mismatched⟩

def lose (w : Wrapper) : Carried := { lost := w.all }

def mismatch (w : Wrapper) : Carried := { lost := w.all, mismatched := [w.site] }

def keep (index ordinal : Nat) (site : Site) (below : Carried) : Carried :=
  { below with kept := [.mk index ordinal site below.kept] }

end Carried

inductive Placement where
  | before | after | path
  deriving DecidableEq

inductive Verdict where
  | lost
  | mismatched
  | path (ordinal : Nat) (site : Site)
  | unchanged (shifted : Bool) (ordinal : Nat) (site : Site)

structure Carrier where
  edit : Edit
  focus : List Nat

namespace Carrier

def edited (x : Carrier) : Span := x.edit.oldSpan

def shift (x : Carrier) (n : Nat) : Int := n + x.edit.delta

def outside (x : Carrier) (s : Span) : Option Placement :=
  if s.stop ≤ x.edited.start then some .before
  else if x.edited.stop ≤ s.start then some .after
  else none

/-- The placement of a node; there is none if the edit covers it or cuts into it. What is inserted
at the edge of a node in focus belongs to that node. -/
def place (x : Carrier) (index : Nat) (s : Span) : Option Placement :=
  if x.edited.contains s then none
  else if s.contains x.edited && x.focus.contains index then some .path
  else match x.outside s with
    | some p => some p
    | none => if s.contains x.edited then some .path else none

def grown (x : Carrier) (kind : Kind) (s : Span) (new : Site) : Bool :=
  new.kind == kind && new.start == s.start && (new.span.stop : Int) == x.shift s.stop

def same (x : Carrier) (shifted : Bool) (kind : Kind) (s : Span) (new : Site) : Bool :=
  new.kind == kind &&
    if shifted then
      (new.start : Int) == x.shift s.start && (new.span.stop : Int) == x.shift s.stop
    else new.start == s.start && new.span.stop == s.stop

def grownInto (x : Carrier) (old new : Site) : Bool := x.grown old.kind old.span new

def sameAs (x : Carrier) (shifted : Bool) (old new : Site) : Bool :=
  x.same shifted old.kind old.span new

/-- What follows from the final placement of a child, if there were `oldCount` child nodes and now
there are `nodes`. -/
def judge (oldCount : Nat) (nodes : List Site) (ordinal : Nat) : Option Placement → Verdict
  | none => .lost
  | some .path =>
    match nodes[ordinal]? with
    | some new => .path ordinal new
    | none => .lost
  | some .before =>
    match nodes[ordinal]? with
    | some new => .unchanged false ordinal new
    | none => .mismatched
  | some .after =>
    if oldCount ≤ nodes.length + ordinal then
      match nodes[nodes.length + ordinal - oldCount]? with
      | some new => .unchanged true (nodes.length + ordinal - oldCount) new
      | none => .mismatched
    else .mismatched

/-- The ways to compare a node with what is to become of it. In `m` a comparison may fail. -/
structure Comparison (m : Type → Type) where
  grown : Kind → Span → Site → m Bool
  same : Bool → Kind → Span → Site → m Bool

section
variable {m : Type → Type} [Monad m]

def settleBy (x : Carrier) (grown : Site → m Bool) (nodes : List Site) (index ordinal : Nat)
    (s : Span) : m (Option Placement) :=
  match x.place index s, x.outside s with
  | some .path, some beside =>
    match nodes[ordinal]? with
    | some new => do if ← grown new then pure (some .path) else pure (some beside)
    | none => pure (some beside)
  | placement, _ => pure placement

mutual

def walkUnchanged (c : Comparison m) (shifted : Bool) (ordinal : Nat) (new : Site) :
    Wrapper → m Carried
  | .mk i n old ws => do
    if ← c.same shifted old.kind old.span new then
      return (← walkUnchangedAll c shifted new.nodes ws).keep i ordinal new
    else return .mismatch (.mk i n old ws)

def walkUnchangedAll (c : Comparison m) (shifted : Bool) (nodes : List Site) :
    List Wrapper → m Carried
  | [] => return {}
  | w :: ws => do
    let first ← (match nodes[w.ordinal]? with
      | some new => walkUnchanged c shifted w.ordinal new w
      | none => pure (.mismatch w))
    return first.append (← walkUnchangedAll c shifted nodes ws)

end

mutual

def walkPath (x : Carrier) (c : Comparison m) (ordinal : Nat) (new : Site) : Wrapper → m Carried
  | .mk i n old ws => do
    if ← c.grown old.kind old.span new then
      return (← walkPathAll x c old.nodes.length new.nodes ws).keep i ordinal new
    else return .lose (.mk i n old ws)

def walkPathAll (x : Carrier) (c : Comparison m) (oldCount : Nat) (nodes : List Site) :
    List Wrapper → m Carried
  | [] => return {}
  | w :: ws => do
    let p ← x.settleBy (c.grown w.kind w.span) nodes w.index w.ordinal w.span
    let first ← (match judge oldCount nodes w.ordinal p with
      | .lost => pure (.lose w)
      | .mismatched => pure (.mismatch w)
      | .path ordinal new => walkPath x c ordinal new w
      | .unchanged shifted ordinal new => walkUnchanged c shifted ordinal new w)
    return first.append (← walkPathAll x c oldCount nodes ws)

end

end

def exact (x : Carrier) : Comparison Id := ⟨x.grown, x.same⟩

def verdictOf (x : Carrier) (oldCount : Nat) (nodes : List Site) (index ordinal : Nat) (kind : Kind)
    (s : Span) : Verdict :=
  judge oldCount nodes ordinal (x.settleBy (x.exact.grown kind s) nodes index ordinal s)

def carryUnchanged (x : Carrier) (shifted : Bool) (ordinal : Nat) (new : Site) (w : Wrapper) :
    Carried := walkUnchanged x.exact shifted ordinal new w

def carryPath (x : Carrier) (ordinal : Nat) (new : Site) (w : Wrapper) : Carried :=
  x.walkPath x.exact ordinal new w

end Carrier
end LiveEdit
