import Reparse.Tree.Outline
import Reparse.Tree.PathCursor

/-!
# Walks

A walk repeats a move for as long as it succeeds.  Nothing here bounds how often
that is, neither in a walk nor in the search for the next node that a filter
accepts, so one that never ends has no value.  What a walk should meet is read
off the list of all nodes in the order of the text.  An outline is written on a
walk, too.
-/

namespace Reparse

/-- The text with all parentheses closed. -/
def OutlineState.finish (state : OutlineState) : String :=
  state.opened.foldl (fun written _ => written.push ')') state.written

namespace Cursor

def visit (cursor : Cursor) : Node.Visit :=
  ⟨cursor.depth, cursor.start, cursor.node⟩

/-- Steps backward; at the root the cursor stays.  Says whether there was a
node. -/
def previous (cursor : Cursor) : Bool × Cursor :=
  match cursor.backward with
  | some moved => (true, moved)
  | none => (false, cursor)

/-- Steps forward until the filter accepts a node or there is none left. -/
def seek (filter : NodeFilter) (cursor : Cursor) : Option (Bool × Cursor) :=
  match cursor.next with
  | (false, finished) => some (false, finished)
  | (true, moved) =>
      if filter.accepts moved.tree.grammar.value moved.node.symbol then
        some (true, moved)
      else moved |>.seek filter
partial_fixpoint

/-- Repeats a move until it fails: all cursors on the way, and the one it failed
with. -/
def walk (move : Cursor → Bool × Cursor) (cursor : Cursor) :
    Option (List Cursor × Cursor) :=
  match move cursor with
  | (false, last) => some ([], last)
  | (true, moved) => do
      let (met, last) ← moved |>.walk move
      return (moved :: met, last)
partial_fixpoint

/-- Goes on with an outline at this node and at every node that stepping forward
leads to. -/
def writeOutline (state : OutlineState) (cursor : Cursor) : Option String :=
  let visited := state.visit cursor.tree.grammar.value cursor.visit
  match cursor.next with
  | (false, _) => some visited.finish
  | (true, moved) => moved |>.writeOutline visited
partial_fixpoint

def accepts (cursor : Cursor) (filter : NodeFilter) (visit : Node.Visit) :
    Bool :=
  filter.accepts cursor.tree.grammar.value visit.node.symbol

/-- The nodes from the root of the cursor on, in the order of the text: the root
and everything below it. -/
def nodesBelow (cursor : Cursor) : List Node.Visit :=
  cursor.node.preorder 0 cursor.start

/-- A cursor with this cursor's node as its root stands, with moves left, at the
node of this index in the order of the text.  The path tells it from other
places that hold the same node. -/
structure Reaches (origin : Cursor) (index : Nat) (cursor : Cursor) : Prop where
  tree : cursor.tree = origin.tree
  unspent : cursor.exhausted = false
  path : origin.node.paths[index]? = some cursor.path
  visit : origin.nodesBelow[index]? = some cursor.visit

/-- The cursors met on a walk, one after the other: what is seen at each, and
the path to it. -/
structure Met (origin : Cursor) (visits : List Node.Visit)
    (paths : List (List Nat)) (met : List Cursor) : Prop where
  trees : ∀ cursor ∈ met, cursor.tree = origin.tree
  visits : met.map visit = visits
  paths : met.map path = paths

/-- Stepping backward is the move `previous`. -/
theorem move_previous (cursor : Cursor) :
    cursor.move .previous = (.moved cursor.previous.1, cursor.previous.2) := by
  rw [move, previous]
  cases cursor.backward <;> rfl

end Cursor

end Reparse
