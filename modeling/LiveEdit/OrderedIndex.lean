/-! Ordered indexes: items kept in the order of a key that is read off them, at most one for each
class of equal keys. -/

namespace LiveEdit

structure OrderedIndex (κ ν : Type) where
  key : ν → κ
  order : κ → κ → Ordering
  items : List ν

namespace OrderedIndex
variable {κ ν : Type}

def empty (key : ν → κ) (order : κ → κ → Ordering) : OrderedIndex κ ν := ⟨key, order, []⟩

def precedes (x : OrderedIndex κ ν) (k : κ) (v : ν) : Bool := x.order (x.key v) k == .lt

def hasKey (x : OrderedIndex κ ν) (k : κ) (v : ν) : Bool := x.order (x.key v) k == .eq

def before (x : OrderedIndex κ ν) (k : κ) : List ν := x.items.takeWhile (x.precedes k)

def upFrom (x : OrderedIndex κ ν) (k : κ) : List ν := x.items.dropWhile (x.precedes k)

def get? (x : OrderedIndex κ ν) (k : κ) : Option ν := (x.upFrom k).head?.filter (x.hasKey k)

def containsKey (x : OrderedIndex κ ν) (k : κ) : Bool := (x.get? k).isSome

def after (x : OrderedIndex κ ν) (k : κ) : List ν :=
  if x.containsKey k then (x.upFrom k).drop 1 else x.upFrom k

def set (x : OrderedIndex κ ν) (v : ν) : OrderedIndex κ ν :=
  { x with items := x.before (x.key v) ++ v :: x.after (x.key v) }

def eraseKey (x : OrderedIndex κ ν) (k : κ) : OrderedIndex κ ν :=
  { x with items := x.before k ++ x.after k }

def eraseLike (x : OrderedIndex κ ν) (v : ν) : OrderedIndex κ ν := x.eraseKey (x.key v)

def clear (x : OrderedIndex κ ν) : OrderedIndex κ ν := { x with items := [] }

def size (x : OrderedIndex κ ν) : Nat := x.items.length

def isEmpty (x : OrderedIndex κ ν) : Bool := x.items.isEmpty

inductive Request (κ ν : Type) where
  | set (v : ν)
  | eraseKey (k : κ)
  | eraseLike (v : ν)
  | clear

/-- The item that a request gives back, which is the one that it puts out of the index, and the
index that it leaves. -/
def perform (x : OrderedIndex κ ν) : Request κ ν → Option ν × OrderedIndex κ ν
  | .set v => (x.get? (x.key v), x.set v)
  | .eraseKey k => (x.get? k, x.eraseKey k)
  | .eraseLike v => (x.get? (x.key v), x.eraseLike v)
  | .clear => (none, x.clear)

def performAll (x : OrderedIndex κ ν) : List (Request κ ν) → List (Option ν) × OrderedIndex κ ν
  | [] => ([], x)
  | r :: rs =>
    let (given, next) := x.perform r
    let (later, last) := next.performAll rs
    (given :: later, last)

def render (x : OrderedIndex κ ν) (f : ν → String) : String :=
  "[" ++ ", ".intercalate (x.items.map f) ++ "]"

end OrderedIndex
end LiveEdit
