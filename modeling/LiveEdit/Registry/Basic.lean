import LiveEdit.Wrapper

/-! The registry of wrappers: an entry for each, with links up and down, and for each version of the
text a table from nodes to wrappers. The entry of a forgotten wrapper stays, but without node and
slots. -/

namespace LiveEdit

inductive Cursor where
  | root (site : Site)
  | under (parent : Cursor) (ordinal : Nat) (site : Site)

namespace Cursor

def site : Cursor → Site
  | root s => s
  | under _ _ s => s

def parent? : Cursor → Option Cursor
  | root _ => none
  | under c _ _ => some c

def top : Cursor → Site
  | root s => s
  | under c _ _ => c.top

def child? (c : Cursor) (n : Nat) : Option Cursor := c.site.nodes[n]?.map (under c n)

def down (c : Cursor) : Address → Cursor
  | [] => c
  | n :: a =>
    match c.child? n with
    | some e => e.down a
    | none => c

end Cursor

structure Slot where
  ordinal : Nat
  index : Nat
  deriving DecidableEq

structure Entry where
  kind : Kind
  span : Span
  node? : Option Cursor
  parent? : Option Nat
  ordinal : Nat
  slots : OrderedIndex Nat Slot

def noSlots : OrderedIndex Nat Slot := .empty Slot.ordinal compare

namespace Entry

def below (e : Entry) : List Nat := e.slots.items.map Slot.index

def blank (e : Entry) : Entry := { e with node? := none, slots := e.slots.clear }

end Entry

structure Registry where
  entries : List Entry := []
  nodes : Nat → Site → Option Nat := fun _ _ => none
  known : Nat → Option LastKnown := fun _ => none

namespace Registry

def site? (r : Registry) (i : Nat) : Option Site := r.entries[i]?.bind (·.node?.map Cursor.site)

def update (r : Registry) (i : Nat) (f : Entry → Entry) : Registry :=
  { r with entries := r.entries.modify i f }

def bind (r : Registry) (version : Nat) (s : Site) (i? : Option Nat) : Registry :=
  { r with nodes := fun v u => if v = version ∧ u = s then i? else r.nodes v u }

def create (r : Registry) (version : Nat) (c : Cursor) (parent? : Option Nat) (ordinal : Nat) :
    Registry :=
  let i := r.entries.length
  let e : Entry := ⟨c.site.kind, c.site.span, some c, parent?, ordinal, noSlots⟩
  let made := { r with entries := r.entries ++ [e] }.bind version c.site (some i)
  match parent? with
  | some p => made.update p fun e => { e with slots := e.slots.set ⟨ordinal, i⟩ }
  | none => made

def getOrCreate (r : Registry) (version : Nat) (c : Cursor) (parent? : Option Nat) (ordinal : Nat) :
    Registry × Nat :=
  match r.nodes version c.site with
  | some i => (r, i)
  | none => (r.create version c parent? ordinal, r.entries.length)

def detach (r : Registry) (i : Nat) : Registry :=
  match r.entries[i]? with
  | none => r
  | some e =>
    match e.parent? with
    | none => r
    | some p => r.update p fun above =>
      if above.slots.get? e.ordinal = some ⟨e.ordinal, i⟩ then
        { above with slots := above.slots.eraseLike ⟨e.ordinal, i⟩ }
      else above

def release (r : Registry) (version i : Nat) (e : Entry) : Registry :=
  let blank := r.update i Entry.blank
  let unbound := match e.node? with
    | some c => blank.bind version c.site none
    | none => blank
  let known : LastKnown := ⟨e.kind, (e.node?.map (·.site.text)).getD []⟩
  { unbound with known := fun j => if j = i then some known else r.known j }

def load (r : Registry) : Nat := r.entries.foldr (·.slots.size + ·) 0

theorem foldr_modify {l : List Entry} {i : Nat} {e : Entry} (h : l[i]? = some e)
    (f : Entry → Entry) (g : Entry → Nat) :
    (l.modify i f).foldr (g · + ·) 0 + g e = l.foldr (g · + ·) 0 + g (f e) := by
  induction l generalizing i with
  | nil => cases h
  | cons a l ih =>
    cases i with
    | zero =>
      obtain rfl := Option.some.inj h
      simp only [List.modify_zero_cons, List.foldr_cons]
      omega
    | succ i =>
      have hrest := ih h
      simp only [List.modify_succ_cons, List.foldr_cons]
      omega

theorem load_release {r : Registry} {i : Nat} {e : Entry} (h : r.entries[i]? = some e)
    (version : Nat) : (r.release version i e).load + e.slots.size = r.load := by
  have hsum := foldr_modify h Entry.blank (·.slots.size)
  unfold release
  cases e.node? <;> exact hsum

def forgetAll (version : Nat) (r : Registry) : List Nat → Registry × Nat
  | [] => (r, 0)
  | i :: todo =>
    match h : r.entries[i]? with
    | none => forgetAll version r todo
    | some e =>
      have := load_release h version
      let rest := forgetAll version (r.release version i e) (e.below ++ todo)
      (rest.1, rest.2 + 1)
  termination_by todo => r.load + todo.length
  decreasing_by
    · simp
    · simp only [OrderedIndex.size] at this
      simp only [Entry.below, List.length_append, List.length_map, List.length_cons]
      omega

def forget (r : Registry) (version i : Nat) : Registry × Nat :=
  if (r.known i).isSome then (r, 0) else (r.detach i).forgetAll version [i]

def dropVersion (r : Registry) (version : Nat) : Registry :=
  { r with nodes := fun v s => if v = version then none else r.nodes v s }

def wrap (version : Nat) (r : Registry) : Cursor → Registry × Nat
  | .root s => r.getOrCreate version (.root s) none 0
  | .under c n s =>
    match r.nodes version s with
    | some i => (r, i)
    | none =>
      let above := wrap version r c
      above.1.getOrCreate version (.under c n s) (some above.2) n

/-- A live wrapper and those above it, from the top down. There is a bound on how many they are. -/
def lineage (r : Registry) : Nat → Nat → List Nat
  | 0, _ => []
  | bound + 1, i =>
    match r.entries[i]? with
    | some ⟨_, _, some _, parent?, _, _⟩ =>
      (match parent? with
        | some p => r.lineage bound p
        | none => []) ++ [i]
    | _ => []

end Registry
end LiveEdit
