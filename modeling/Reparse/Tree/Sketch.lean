import Reparse.Tree.Basic

/-!
# Sketched trees

A tree can be put together by hand from a list of rows, one for each node in the
order of the text, parents first.  The depth of a row says to which node it
belongs: the children of a row are the rows one level deeper that follow it
before the next row that is not deeper.
-/

namespace Reparse

/-- A node without its children, `offset` bytes after the start of its
parent. -/
structure SketchRow where
  depth : Nat
  symbol : Symbol
  offset : Nat
  length : Nat
  lookahead : Nat

/-- The nodes made from the last rows that still lack a parent, with the depths
of their rows. -/
structure SketchState where
  supply : Nat
  waiting : List (Nat × Placed Node)

namespace SketchState

/-- Makes the node of the row in front of those already used.  Its children are
the nodes without a parent that lie deeper. -/
def add (row : SketchRow) (state : SketchState) : SketchState :=
  let children := state.waiting.takeWhile fun entry => row.depth < entry.1
  let others := state.waiting.dropWhile fun entry => row.depth < entry.1
  let node : Node :=
    { stamp := state.supply
      symbol := row.symbol
      length := row.length
      lookahead := row.lookahead
      damaged := false
      children := children.map Prod.snd }
  ⟨state.supply + 1, (row.depth, ⟨row.offset, node⟩) :: others⟩

end SketchState

/-- The node of the first row with everything below it, and the rest of the
supply. -/
def Node.ofSketch? (rows : List SketchRow) (supply : Nat) :
    Option (Node × Nat) :=
  let final := rows.foldr SketchState.add ⟨supply, []⟩
  final.waiting.head?.map fun entry => (entry.2.item, final.supply)

end Reparse
