import Reparse.Tree.Shell

/-!
# Searching a shell

A parser asks for an undamaged node of a symbol that starts at a position.  The
search goes down through the nodes that cover the position.  A damaged node of
the symbol does not end it, because a node of the same symbol may start at the
same position further down.  The root is never found.
-/

namespace Reparse

/-- What a search found, how many nodes it stepped into, and how many nodes of
the symbol it met at the position that were damaged. -/
structure SearchResult where
  found : Option Node
  skipped : Nat
  intersected : Nat

namespace Node

/-- The first child that ends after a position of the node. -/
def childCovering? (node : Node) (position : Nat) : Option (Placed Node) :=
  node.children.find? fun child => position < child.stop

/-- Searches below the node for an undamaged node of the symbol that starts at a
position of the node. -/
def search (symbol : Symbol) (node : Node) (position : Nat) : SearchResult :=
  match _ : node.childCovering? position with
  | none => ⟨none, 0, 0⟩
  | some child =>
      if position < child.offset then ⟨none, 0, 0⟩
      else
        let candidate := position == child.offset && child.item.symbol == symbol
        if candidate && !child.item.damaged then ⟨some child.item, 0, 0⟩
        else
          let below := child.item.search symbol (position - child.offset)
          ⟨below.found, below.skipped + 1, below.intersected + candidate.toNat⟩
termination_by node.count
decreasing_by exact Node.count_lt_of_mem (List.mem_of_find?_eq_some ‹_›)

end Node

structure SearchStatistics where
  lookups : Nat
  hits : Nat
  skipped : Nat
  intersected : Nat
deriving DecidableEq

namespace SearchStatistics

def initial : SearchStatistics := ⟨0, 0, 0, 0⟩

def add (statistics : SearchStatistics) (result : SearchResult) :
    SearchStatistics :=
  ⟨statistics.lookups + 1, statistics.hits + result.found.isSome.toNat,
    statistics.skipped + result.skipped,
    statistics.intersected + result.intersected⟩

end SearchStatistics

/-- An undamaged node of the symbol that starts at a position of the edited
text. -/
def Shell.search (shell : Shell) (symbol : Symbol) (position : Nat) :
    SearchResult :=
  shell.root.search symbol position

/-- Searches for one symbol and position after the other; each result comes with
the statistics so far. -/
def Shell.searchAll (shell : Shell) (queries : List (Symbol × Nat)) :
    List (Option Node × SearchStatistics) :=
  go queries SearchStatistics.initial
where
  go : List (Symbol × Nat) → SearchStatistics →
    List (Option Node × SearchStatistics)
    | [], _ => []
    | (symbol, position) :: rest, statistics =>
        let result := shell.search symbol position
        let counted := statistics.add result
        (result.found, counted) :: go rest counted

end Reparse
