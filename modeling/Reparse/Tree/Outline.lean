import Reparse.Tree.Basic

/-!
# Outlines

The outline of a tree shows the named nodes with their names, nested in
parentheses.  It is written in one pass over the nodes in the order of the text:
a parenthesis is closed as soon as a node is met that lies no deeper than the
named node that opened it.
-/

namespace Reparse

/-- An outline being written: the text so far and the depths of the open
parentheses, the innermost first. -/
structure OutlineState where
  written : String
  opened : List Nat

namespace OutlineState

/-- Closes the parentheses opened at `depth` or below. -/
def close (depth : Nat) (written : String) : List Nat → OutlineState
  | [] => ⟨written, []⟩
  | innermost :: outer =>
      if depth ≤ innermost then close depth (written.push ')') outer
      else ⟨written, innermost :: outer⟩

def openNode (state : OutlineState) (depth : Nat) (name : String) :
    OutlineState :=
  let separated :=
    if state.written.isEmpty then state.written else state.written.push ' '
  ⟨separated.push '(' ++ name, depth :: state.opened⟩

def visit (grammar : Grammar) (state : OutlineState) (visit : Node.Visit) :
    OutlineState :=
  let closed := close visit.depth state.written state.opened
  if grammar.isNamed visit.node.symbol then
    closed.openNode visit.depth (grammar.symbolName visit.node.symbol)
  else closed

end OutlineState

/-- The named nodes of a tree in nested parentheses. -/
def Tree.outline (tree : Tree) : String :=
  let final :=
    tree.root.visits.foldl (OutlineState.visit tree.grammar.value) ⟨"", []⟩
  (OutlineState.close 0 final.written final.opened).written

end Reparse
