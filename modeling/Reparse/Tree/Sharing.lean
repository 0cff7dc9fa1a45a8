import Std.Data.HashSet
import Reparse.Tree.WellFormed

/-!
# Nodes shared between trees

A tree derived after an edit holds many nodes of the tree before.  They are told
by identity.  That identity can be trusted rests on the supply of stamps, which
gives each of them out once.
-/

namespace Reparse

namespace Node

/-- The stamps of the node and of everything below it. -/
def stamps (root : Node) : Std.HashSet Nat :=
  root.visits.foldl (fun stamps visit => stamps.insert visit.node.stamp) ∅

/-- The indices, in the order of the text, of the nodes of `new` that are nodes
of `old`. -/
def sharedIndices (old new : Node) : List Nat :=
  let known := old.stamps
  (new.visits.zipIdx.filter fun entry => known.contains entry.1.node.stamp).map
    Prod.snd

/-- For the nodes of `new`, in the order of the text: the stamp of each one that
is a node of `old`. -/
def takenFrom (old new : Node) : List (Option Nat) :=
  new.visits.map fun visit =>
    if old.hasStamp visit.node.stamp then some visit.node.stamp else none

/-- No stamp stands for two nodes: where a node of the first tree and a node of
the second one pass for one and the same node, they are.  Whatever is shared,
nodes made from one supply are like this, also when both trees are the same. -/
def Unambiguous (left right : Node) : Prop :=
  left.Everywhere fun node => right.Everywhere fun twin =>
    node.identical twin = true → node = twin

end Node

end Reparse
