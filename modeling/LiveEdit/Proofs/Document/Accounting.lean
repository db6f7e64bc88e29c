import LiveEdit.Proofs.Document.Consistency

namespace LiveEdit.Document
open Wrapper List Option

variable {d new : Document} {n : NodeId} {m : Manipulation} {e : Edit} {text : Text}
  {focus : List Nat}

def live (d : Document) : List NodeId := d.root.indices.map d.nodeId

def rebound (d : Document) (focus : List Nat) (e : Edit) (text : Text) : List NodeId :=
  (indicesOf (d.carried focus e text).kept).map d.nodeId

def lost (d : Document) (focus : List Nat) (e : Edit) (text : Text) : List NodeId :=
  ((d.carried focus e text).lost.map index).map d.nodeId

lemma Sound.once (h : d.Sound) : (d.rebound focus e text ++ d.lost focus e text).Perm d.live := by
  rw [rebound, lost, ← map_append]
  exact (h.carries focus e text).numbers.symm.map _

end LiveEdit.Document
