import LiveEdit.Document.Commit
import LiveEdit.Registry.Basic

/-! Documents that keep their wrappers in a registry. After an edit, the entries are walked from the
root down, beside the new tree. -/

namespace LiveEdit

theorem Site.sizeOf_lt {s c : Site} (h : c ∈ s.nodes) : sizeOf c.tree < sizeOf s.tree := by
  have hrow : ∀ (n : Nat) (ts : List Tree), c ∈ row n ts → c.tree ∈ ts := by
    intro n ts
    induction ts generalizing n with
    | nil => exact fun hc => nomatch hc
    | cons t ts ih =>
      intro hc
      rcases List.mem_cons.1 hc with rfl | hc
      · exact List.mem_cons_self
      · exact List.mem_cons_of_mem t (ih _ hc)
  have hmem := hrow _ _ (List.mem_filter.1 h).1
  obtain ⟨n, tree⟩ := s
  cases tree with
  | token k x => cases hmem
  | node k ts =>
    have hlt := List.sizeOf_lt_of_mem hmem
    simp only [Tree.children] at hlt
    simp only [Tree.node.sizeOf_spec]
    omega

theorem Carrier.getElem?_of_path {x : Carrier} {oldCount index ordinal n : Nat} {nodes : List Site}
    {kind : Kind} {span : Span} {s : Site}
    (h : x.verdictOf oldCount nodes index ordinal kind span = .path n s) : nodes[n]? = some s := by
  unfold verdictOf judge at h
  split at h
  · cases h
  · split at h
    next hnode =>
      obtain ⟨rfl, rfl⟩ := Verdict.path.inj h
      exact hnode
    next => cases h
  · split at h <;> cases h
  · split at h
    · split at h <;> cases h
    · cases h

structure Turn extends Registry where
  rebound : Nat := 0
  forgotten : Nat := 0
  mismatched : List (Kind × Span) := []

namespace Turn

def forget (t : Turn) (version i : Nat) : Turn :=
  let done := t.toRegistry.forget version i
  { t with toRegistry := done.1, forgotten := t.forgotten + done.2 }

def mismatch (t : Turn) (version i : Nat) : Turn :=
  match t.entries[i]? with
  | none => t
  | some e => { t with mismatched := t.mismatched ++ [(e.kind, e.span)] }.forget version i

def rebind (t : Turn) (version i : Nat) (c : Cursor) : Turn :=
  { t with
    toRegistry := (t.update i fun e => { e with span := c.site.span, node? := some c }).bind version
      c.site (some i)
    rebound := t.rebound + 1 }

/-- Goes through slots. Those that `f` gives for them make up the new ones. -/
def sweep (f : Slot → Turn → Turn × Option Slot) (t : Turn) (kept : OrderedIndex Nat Slot) :
    List Slot → Turn × OrderedIndex Nat Slot
  | [] => (t, kept)
  | slot :: slots =>
    let one := f slot t
    sweep f one.1 (one.2.elim kept kept.set) slots

def setSlots (i : Nat) (swept : Turn × OrderedIndex Nat Slot) : Turn :=
  { swept.1 with toRegistry := swept.1.update i fun e => { e with slots := swept.2 } }

def seat (i ordinal : Nat) (seen : Turn × Bool) : Turn × Option Slot :=
  bif seen.2 then
    ({ seen.1 with toRegistry := seen.1.update i fun e => { e with ordinal } }, some ⟨ordinal, i⟩)
  else (seen.1, none)

def visitUnchanged (x : Carrier) (version : Nat) (shifted : Bool) (i : Nat) (new : Cursor)
    (t : Turn) : Turn × Bool :=
  match t.entries[i]? with
  | none => (t, false)
  | some e =>
    if x.same shifted e.kind e.span new.site then
      let visit (slot : Slot) (t : Turn) : Turn × Option Slot :=
        match h : new.site.nodes[slot.ordinal]? with
        | none => (t.mismatch version slot.index, none)
        | some s =>
          have := Site.sizeOf_lt (List.mem_of_getElem? h)
          let seen := visitUnchanged x version shifted slot.index (.under new slot.ordinal s) t
          (seen.1, bif seen.2 then some slot else none)
      (setSlots i (sweep visit (t.rebind (version + 1) i new) noSlots e.slots.items), true)
    else (t.mismatch version i, false)
  termination_by sizeOf new.site.tree

def visitPath (x : Carrier) (version i : Nat) (new : Cursor) (t : Turn) : Turn × Bool :=
  match t.entries[i]? with
  | none => (t, false)
  | some e =>
    if x.grown e.kind e.span new.site then
      let oldCount := (e.node?.map (·.site.nodes.length)).getD 0
      let visit (slot : Slot) (t : Turn) : Turn × Option Slot :=
        match t.entries[slot.index]? with
        | none => (t, none)
        | some c =>
          match h : x.verdictOf oldCount new.site.nodes slot.index slot.ordinal c.kind c.span with
          | .lost => (t.forget version slot.index, none)
          | .mismatched => (t.mismatch version slot.index, none)
          | .path n s =>
            have := Site.sizeOf_lt (List.mem_of_getElem? (Carrier.getElem?_of_path h))
            seat slot.index n (visitPath x version slot.index (.under new n s) t)
          | .unchanged shifted n s =>
            seat slot.index n (visitUnchanged x version shifted slot.index (.under new n s) t)
      (setSlots i (sweep visit (t.rebind (version + 1) i new) noSlots e.slots.items), true)
    else (t.forget version i, false)
  termination_by sizeOf new.site.tree

end Turn

inductive Problem where
  | stillBound
  | unbound
  | otherVersion (version : Nat)
  | otherTree
  | otherKind (kind bound : Kind)
  | otherSpan (span bound : Span)
  | otherText
  | otherParent
  | otherChild (child : NodeId)

def Problem.message (name : NodeId → String) : Problem → String
  | stillBound => "is forgotten but still bound"
  | unbound => "is live but unbound"
  | otherVersion version => s!"is not bound to version {version}"
  | otherTree => "belongs to a superseded tree"
  | otherKind kind bound => s!"is {kind.label} but bound to {bound.label}"
  | otherSpan span bound => s!"has range {span.toString} but is bound to {bound.toString}"
  | otherText => "does not match the document text"
  | otherParent => "has an inconsistent parent"
  | otherChild child => s!"has an inconsistent child {name child}"

structure Ledger where
  tag : Nat
  text : Text
  version : Nat
  root : Nat
  tree : Site
  reader : Reader
  registry : Registry

namespace Ledger

def create (tag : Nat) (text : Text) (reader : Reader) : Ledger :=
  let tree : Site := ⟨0, (reader 0 text).tree⟩
  let made := ({} : Registry).getOrCreate 0 (.root tree) none 0
  { tag, text, version := 0, root := made.2, tree, reader, registry := made.1 }

def nodeId (l : Ledger) (index : Nat) : NodeId := ⟨l.tag, index⟩

def node (l : Ledger) (n : NodeId) : Except EditError Entry :=
  if n.document = l.tag then
    match l.registry.known n.index with
    | some known => .error (.nodeForgotten known)
    | none =>
      match l.registry.entries[n.index]? with
      | some e => .ok e
      | none => .error (.invalidArgument (.foreignNode n))
  else .error (.invalidArgument (.foreignNode n))

def parent (l : Ledger) (n : NodeId) : Except EditError (Option NodeId) := do
  let e ← l.node n
  return e.parent?.map l.nodeId

def wrap (l : Ledger) (a : Address) : Ledger × NodeId :=
  let made := l.registry.wrap l.version ((Cursor.root l.tree).down a)
  ({ l with registry := made.1 }, l.nodeId made.2)

def adopt (l : Ledger) (i n : Nat) : Ledger × NodeId :=
  match (l.registry.entries[i]?.bind Entry.node?).bind (·.child? n) with
  | some c =>
    let made := l.registry.getOrCreate l.version c (some i) n
    ({ l with registry := made.1 }, l.nodeId made.2)
  | none => (l, l.nodeId i)

def adoptAll (l : Ledger) (i : Nat) : List Nat → Ledger × List NodeId
  | [] => (l, [])
  | n :: ns =>
    let one := l.adopt i n
    let more := one.1.adoptAll i ns
    (more.1, one.2 :: more.2)

def children (l : Ledger) (n : NodeId) : Except EditError (Ledger × List NodeId) := do
  let e ← l.node n
  return l.adoptAll n.index (List.range ((e.node?.map (·.site.nodes.length)).getD 0))

def forget (l : Ledger) (n : NodeId) : Except EditError (Ledger × List Event) :=
  if n = l.nodeId l.root then .error (.invalidArgument .rootForgotten)
  else if n.document ≠ l.tag then .error (.invalidArgument (.foreignNode n))
  else
    let done := l.registry.forget l.version n.index
    .ok ({ l with registry := done.1 }, [.forgot done.2])

def forgetDescendants (l : Ledger) (n : NodeId) : Except EditError Ledger := do
  let e ← l.node n
  return { l with registry := e.below.foldl (fun r i => (r.forget l.version i).1) l.registry }

def advance (l : Ledger) (focus : List Nat) (m : Manipulation) (e : Edit) (text : Text) :
    Ledger × List Event :=
  let version := l.version + 1
  let tree : Site := ⟨0, (l.reader version text).tree⟩
  let t := (Turn.visitPath ⟨e, focus⟩ l.version l.root (.root tree) { toRegistry := l.registry }).1
  let walked := t.toRegistry.dropVersion l.version
  let renewed := match walked.known l.root with
    | some _ => walked.getOrCreate version (.root tree) none 0
    | none => (walked, l.root)
  ({ l with text, version, tree, registry := renewed.1, root := renewed.2 },
    t.mismatched.map (fun k => .mismatch (.around text m.position) k.1 k.2) ++
      [.committed version e.delta t.rebound t.forgotten])

def commit (l : Ledger) (focus : Nat) (m : Manipulation) : Option (Ledger × List Event) := do
  let e ← m.edit? l.text
  if e.isEmpty then return (l, [.skipped])
  let text ← e.result? l.text
  return l.advance (l.registry.lineage l.registry.entries.length focus) m e text

def disagreements (l : Ledger) (i : Nat) (e : Entry) (c : Cursor) : List Problem :=
  let s := c.site
  let at? := l.registry.site?
  (if l.registry.nodes l.version s = some i then [] else [.otherVersion l.version]) ++
  (if c.top = l.tree then [] else [.otherTree]) ++
  (if s.kind = e.kind then [] else [.otherKind e.kind s.kind]) ++
  (if s.span ≠ e.span then [.otherSpan e.span s.span]
    else if l.text.slice? e.span = some s.text then [] else [.otherText]) ++
  (if e.parent?.map at? = c.parent?.map (some ·.site) then [] else [.otherParent]) ++
  (e.slots.items.filter fun slot =>
    (l.registry.entries[slot.index]?.map Entry.ordinal) ≠ some slot.ordinal ∨
      (at? slot.index).isNone ∨ at? slot.index ≠ s.nodes[slot.ordinal]?).map
    fun slot => .otherChild (l.nodeId slot.index)

def problems (l : Ledger) : List (NodeId × Problem) :=
  l.registry.entries.zipIdx.flatMap fun (e, i) =>
    (match l.registry.known i, e.node? with
      | some _, some _ => [Problem.stillBound]
      | some _, none => []
      | none, none => [.unbound]
      | none, some c => l.disagreements i e c).map (l.nodeId i, ·)

end Ledger
end LiveEdit
