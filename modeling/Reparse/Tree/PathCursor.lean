import Reparse.Tree.Path
import Reparse.Tree.Tour

/-!
# Cursors as paths

All that distinguishes one position of a cursor from another is the path from
the root of the cursor to its node.  The moves below are stated on paths alone:
a move is possible when the path it leads to exists, and stepping forward or
backward goes to the neighbour in the list of all paths.

Of the moves of a cursor, those that lead from one position to another are
called steps.
-/

namespace Reparse

/-- A cursor that remembers nothing but its root, its path, and whether it is
exhausted. -/
structure PathCursor where
  tree : Tree
  root : Node
  rootStart : Nat
  path : List Nat
  exhausted : Bool

def Cursor.path (cursor : Cursor) : List Nat :=
  (cursor.trail.map TrailStep.index).reverse

def Cursor.rootStart (cursor : Cursor) : Nat :=
  match cursor.trail.getLast? with
  | none => cursor.start
  | some step => step.parentStart

def Cursor.asPath (cursor : Cursor) : PathCursor :=
  ⟨cursor.tree, cursor.rootNode, cursor.rootStart, cursor.path,
    cursor.exhausted⟩

/-- A move that leads to another position, if it is possible. -/
inductive Step where
  | down
  | right
  | left
  | up
  | next
  | previous
  | nextMatching (filter : NodeFilter)
  | firstChildForByte (position : Nat)

namespace Step

def asMove : Step → Move
  | .down => .down
  | .right => .right
  | .left => .left
  | .up => .up
  | .next => .next
  | .previous => .previous
  | .nextMatching filter => .nextMatching filter
  | .firstChildForByte position => .firstChildForByte position

/-- Whether the step uses the cursor up when it is not possible. -/
def exhausts : Step → Bool
  | .next | .nextMatching _ => true
  | _ => false

end Step

def Sight.refused : Sight → Bool
  | .moved success => !success
  | .index found => found.isNone
  | _ => false

namespace PathCursor

def place? (cursor : PathCursor) : Option (Placed Node) :=
  cursor.root.locate? cursor.rootStart cursor.path

/-- The cursor at the end of another path, if the path exists. -/
def goTo (cursor : PathCursor) (path : List Nat) : Option PathCursor :=
  if cursor.exhausted then none
  else if (cursor.root.locate? cursor.rootStart path).isSome then
    some { cursor with path }
  else none

def down (cursor : PathCursor) : Option PathCursor :=
  cursor.goTo (cursor.path ++ [0])

def up (cursor : PathCursor) : Option PathCursor :=
  if cursor.path = [] then none else cursor.goTo cursor.path.dropLast

def right (cursor : PathCursor) : Option PathCursor :=
  match cursor.path.getLast? with
  | none => none
  | some index => cursor.goTo (cursor.path.dropLast ++ [index + 1])

def left (cursor : PathCursor) : Option PathCursor :=
  match cursor.path.getLast? with
  | none | some 0 => none
  | some (index + 1) => cursor.goTo (cursor.path.dropLast ++ [index])

/-- The path after the current one in the order of the text. -/
def pathAfter? (cursor : PathCursor) : Option (List Nat) :=
  (cursor.root.paths.dropWhile (· != cursor.path)).tail.head?

/-- The path before the current one in the order of the text. -/
def pathBefore? (cursor : PathCursor) : Option (List Nat) :=
  (cursor.root.paths.takeWhile (· != cursor.path)).getLast?

def forward (cursor : PathCursor) : Option PathCursor :=
  cursor.pathAfter?.bind cursor.goTo

def backward (cursor : PathCursor) : Option PathCursor :=
  cursor.pathBefore?.bind cursor.goTo

def exhaust (cursor : PathCursor) : PathCursor :=
  { cursor with path := [], exhausted := true }

/-- Steps forward; past the last node the cursor is exhausted. -/
def next (cursor : PathCursor) : Bool × PathCursor :=
  match cursor.forward with
  | some moved => (true, moved)
  | none => (false, cursor.exhaust)

def accepts (cursor : PathCursor) (filter : NodeFilter) (path : List Nat) :
    Bool :=
  (cursor.root.locate? cursor.rootStart path).any fun placed =>
    filter.accepts cursor.tree.grammar.value placed.item.symbol

/-- To the first later path whose node the filter accepts; without one the
cursor is exhausted. -/
def nextMatching (cursor : PathCursor) (filter : NodeFilter) :
    Bool × PathCursor :=
  let later := (cursor.root.paths.dropWhile (· != cursor.path)).tail
  match (later.find? (cursor.accepts filter)).bind cursor.goTo with
  | some moved => (true, moved)
  | none => (false, cursor.exhaust)

def firstChildForByte (cursor : PathCursor) (position : Nat) :
    Option (Nat × PathCursor) :=
  cursor.place?.bind fun placed =>
    (placed.item.children.findIdx? fun child =>
      position < placed.offset + child.stop).bind fun index =>
        (cursor.goTo (cursor.path ++ [index])).map fun moved => (index, moved)

def orStay (cursor : PathCursor) (moved : Option PathCursor) :
    Sight × PathCursor :=
  match moved with
  | some cursor => (.moved true, cursor)
  | none => (.moved false, cursor)

def step (cursor : PathCursor) : Step → Sight × PathCursor
  | .down => cursor.orStay cursor.down
  | .right => cursor.orStay cursor.right
  | .left => cursor.orStay cursor.left
  | .up => cursor.orStay cursor.up
  | .next => let (success, moved) := cursor.next; (.moved success, moved)
  | .previous => cursor.orStay cursor.backward
  | .nextMatching filter =>
      let (success, moved) := cursor.nextMatching filter
      (.moved success, moved)
  | .firstChildForByte position =>
      match cursor.firstChildForByte position with
      | some (index, moved) => (.index (some index), moved)
      | none => (.index none, cursor)

def stepAll (cursor : PathCursor) (steps : List Step) : PathCursor :=
  steps.foldl (fun cursor step => (cursor.step step).2) cursor

end PathCursor

/-- Whether the cursor stands where the path leads: at the same node in the same
place, as deep as the path is long, at the child that is entered last, and with
as many moves left. -/
structure Cursor.StandsAt (cursor : Cursor) (path : PathCursor) : Prop where
  tree : cursor.tree = path.tree
  place : path.place? = some ⟨cursor.start, cursor.node⟩
  depth : cursor.depth = path.path.length
  childIndex : cursor.childIndex? = path.path.getLast?
  exhausted : cursor.exhausted = path.exhausted

end Reparse
