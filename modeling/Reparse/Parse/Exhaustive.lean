import Reparse.Bisection
import Reparse.Parse.Search
import Reparse.Tree.Path

/-!
# Searching by halving, and searching everywhere

`Node.searchHalving` finds the child to go on with by halving the list of
children, which relies on their order.  `Node.candidates` relies on nothing: it
looks at every node below the root and keeps the paths to those of a symbol that
start at a position and have bytes.  What a search has to find, and which
damaged nodes it meets on the way, is said in terms of these paths.
-/

namespace Reparse

namespace Node

def endsBy (node : Node) (position index : Nat) : Bool :=
  match node.child? index with
  | some child => child.stop ≤ position
  | none => false

/-- The first child that ends after a position of the node, found by halving. -/
def childHalving? (node : Node) (position : Nat) : Option (Placed Node) :=
  node.child? (bisect (node.endsBy position) 0 node.childCount)

/-- `Node.search` with the children found by halving. -/
def searchHalving (symbol : Symbol) (node : Node) (position : Nat) :
    SearchResult :=
  match _ : node.childHalving? position with
  | none => ⟨none, 0, 0⟩
  | some child =>
      if position < child.offset then ⟨none, 0, 0⟩
      else
        let candidate := position == child.offset && child.item.symbol == symbol
        if candidate && !child.item.damaged then ⟨some child.item, 0, 0⟩
        else
          let below := child.item.searchHalving symbol (position - child.offset)
          ⟨below.found, below.skipped + 1, below.intersected + candidate.toNat⟩
termination_by node.count
decreasing_by exact Node.count_lt_of_mem (List.mem_of_getElem? ‹_›)

/-- Whether a path leads to a node of the symbol that has bytes, starts at a
position of the root and is damaged or not, as asked. -/
def isCandidate (root : Node) (symbol : Symbol) (position : Nat)
    (damaged : Bool) (path : List Nat) : Bool :=
  match root.locate? 0 path with
  | some placed =>
      position == placed.offset && placed.item.symbol == symbol &&
        placed.item.damaged == damaged && !placed.item.isEmpty
  | none => false

/-- The paths to all such nodes below the root, in the order of the text,
parents first. -/
def candidates (root : Node) (symbol : Symbol) (position : Nat)
    (damaged : Bool) : List (List Nat) :=
  root.paths.tail.filter (root.isCandidate symbol position damaged)

/-- The path to the first undamaged node of the symbol that has bytes and starts
at a position. -/
def firstIntact? (root : Node) (symbol : Symbol) (position : Nat) :
    Option (List Nat) :=
  (root.candidates symbol position false).head?

/-- Whether a path leads to the end of another one or to a node above it.  Every
path is taken to lie above a path that does not exist. -/
def leadsAbove (path : List Nat) : Option (List Nat) → Bool
  | some other => path.isPrefixOf other
  | none => true

/-- The paths to the damaged nodes of the symbol that have bytes and start at a
position: those above the first undamaged one, or all of them if there is
none. -/
def damagedAbove (root : Node) (symbol : Symbol) (position : Nat) :
    List (List Nat) :=
  (root.candidates symbol position true).filter fun path =>
    leadsAbove path (root.firstIntact? symbol position)

end Node

end Reparse
