import LiveEdit.Document.Basic

/-! Moving about in a document. A wrapper is made when its node is first asked for. -/

namespace LiveEdit.Document

def wrap (d : Document) (a : Address) : Document × NodeId :=
  let r := d.root.reach d.fresh a
  ({ d with root := r.wrapper, fresh := r.fresh }, d.nodeId r.index)

def wrapAll (d : Document) : List Address → Document × List NodeId
  | [] => (d, [])
  | a :: as =>
    let one := d.wrap a
    let more := one.1.wrapAll as
    (more.1, one.2 :: more.2)

def address (d : Document) (w : Wrapper) : Address :=
  (((d.root.trail? w.index).getD []).drop 1).map Wrapper.ordinal

def select (d : Document) (n : NodeId) (below : Site → List Address) : Outcome (List NodeId) :=
  match d.node n with
  | .error e => d.refuse e
  | .ok w =>
    let found := d.wrapAll ((below w.site).map (d.address w ++ ·))
    ⟨.ok found.2, found.1, []⟩

def adopt (d : Document) (i n : Nat) : Document × NodeId :=
  match d.root.find? i with
  | none => (d, d.nodeId i)
  | some w =>
    let r := w.reach d.fresh [n]
    ({ d with root := d.root.replace r.wrapper, fresh := r.fresh }, d.nodeId r.index)

def adoptAll (d : Document) (i : Nat) : List Nat → Document × List NodeId
  | [] => (d, [])
  | n :: ns =>
    let one := d.adopt i n
    let more := one.1.adoptAll i ns
    (more.1, one.2 :: more.2)

def children (d : Document) (n : NodeId) : Outcome (List NodeId) :=
  match d.node n with
  | .error e => d.refuse e
  | .ok w =>
    let found := d.adoptAll w.index (List.range w.site.nodes.length)
    ⟨.ok found.2, found.1, []⟩

def descendants (d : Document) (n : NodeId) : Outcome (List NodeId) :=
  d.select n (·.tree.addresses)

def first (d : Document) (n : NodeId) (kind : Kind) (below : Site → List (Address × Site)) :
    Outcome (Option NodeId) :=
  let found := d.select n fun s => (((below s).find? (·.2.kind == kind)).map (·.1)).toList
  { found with answer := found.answer.map List.head? }

def firstChild (d : Document) (n : NodeId) (kind : Kind) : Outcome (Option NodeId) :=
  d.first n kind fun s => s.nodes.zipIdx.map fun (c, i) => ([i], c)

def firstDescendant (d : Document) (n : NodeId) (kind : Kind) : Outcome (Option NodeId) :=
  d.first n kind Site.descendants

def descendantAt (d : Document) (offset : Nat) : Outcome NodeId :=
  match d.tree.covering? (.empty offset) with
  | none => d.refuse (.invalidArgument (.pastEnd offset d.text.size))
  | some a =>
    let found := d.wrap a
    ⟨.ok found.2, found.1, []⟩

def record (d : Document) (lost : List Wrapper) : Document :=
  { d with forgotten := lost.map (fun w => (w.index, w.lastKnown)) ++ d.forgotten }

def forget (d : Document) (n : NodeId) : Outcome Unit :=
  if n = d.rootId then d.refuse (.invalidArgument .rootForgotten)
  else if n.document ≠ d.tag then d.refuse (.invalidArgument (.foreignNode n))
  else
    let lost := ((d.root.find? n.index).map Wrapper.all).getD []
    ⟨.ok (), { d with root := d.root.prune n.index }.record lost, [.forgot lost.length]⟩

def forgetDescendants (d : Document) (n : NodeId) : Outcome Unit :=
  match d.node n with
  | .error e => d.refuse e
  | .ok w => ⟨.ok (), { d with root := d.root.clear w.index }.record (Wrapper.allOf w.children), []⟩

end LiveEdit.Document
