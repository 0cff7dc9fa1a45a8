import Reparse.Tree.PathCursor

/-!
# Runs of path folds

A path fold is moved about and asked for values.  A run keeps a plain cursor
beside it, which makes the same moves, and notes which paths were entered and
for which paths a value was computed.  What was noted says for which nodes a
value has yet to be computed: those that were not evaluated since they were last
entered.
-/

namespace Reparse

/-- A move of a path fold from one position to another, if it is possible. -/
inductive PathMove where
  | down
  | right
  | left
  | up
  | next
deriving DecidableEq

namespace PathMove

/-- Whether the move enters the node that it leads to; going up returns to one
entered before. -/
def enters : PathMove → Bool
  | .up => false
  | _ => true

def asMove : PathMove → Move
  | .down => .down
  | .right => .right
  | .left => .left
  | .up => .up
  | .next => .next

def asFoldMove : PathMove → FoldMove
  | .down => .down
  | .right => .right
  | .left => .left
  | .up => .up
  | .next => .next

end PathMove

/-- What a reducer may look at: the node, where it lies, and how it was
reached. -/
structure View where
  node : Node
  range : Span
  depth : Nat
  childIndex? : Option Nat

namespace Cursor

def view (cursor : Cursor) : View :=
  ⟨cursor.node, cursor.range, cursor.depth, cursor.childIndex?⟩

/-- The cursors at the nodes along a path, from the node of the cursor to the
end of the path, or to where the path leaves the tree. -/
def along (cursor : Cursor) : List Nat → List Cursor
  | [] => [cursor]
  | index :: path =>
      match cursor.node.child? index with
      | none => [cursor]
      | some child => cursor :: (cursor.enter index child).along path

def orRemain (cursor : Cursor) (moved : Option Cursor) : Bool × Cursor :=
  match moved with
  | some cursor => (true, cursor)
  | none => (false, cursor)

def go (cursor : Cursor) : PathMove → Bool × Cursor
  | .down => cursor.orRemain cursor.down
  | .right => cursor.orRemain cursor.right
  | .left => cursor.orRemain cursor.left
  | .up => cursor.orRemain cursor.up
  | .next => cursor.next

theorem move_asMove (cursor : Cursor) (move : PathMove) :
    cursor.move move.asMove =
      (.moved (cursor.go move).1, (cursor.go move).2) := by
  have stays (moved : Option Cursor) :
      cursor.orStay moved =
        (.moved (cursor.orRemain moved).1, (cursor.orRemain moved).2) := by
    cases moved <;> rfl
  cases move with
  | next => rfl
  | down | right | left | up => exact stays _

end Cursor

namespace PathFold

variable {α : Type}

/-- The fold at the current node of a cursor whose values depend on what is to
be seen. -/
def ofReducer (cursor : Cursor) (seed : α) (reducer : α → View → α) :
    PathFold α :=
  ofCursor cursor seed fun value here => reducer value here.view

def orRemain (fold : PathFold α) (moved : Option (PathFold α)) :
    Bool × PathFold α :=
  match moved with
  | some fold => (true, fold)
  | none => (false, fold)

def go (fold : PathFold α) : PathMove → Bool × PathFold α
  | .down => fold.orRemain fold.down
  | .right => fold.orRemain fold.right
  | .left => fold.orRemain fold.left
  | .up => fold.orRemain fold.up
  | .next => fold.next

theorem move_asFoldMove (fold : PathFold Carried) (move : PathMove) :
    fold.move move.asFoldMove =
      (.moved (fold.go move).1, (fold.go move).2) := by
  have stays (moved : Option (PathFold Carried)) :
      fold.orStay moved =
        (.moved (fold.orRemain moved).1, (fold.orRemain moved).2) := by
    cases moved <;> rfl
  cases move with
  | next => rfl
  | down | right | left | up => exact stays _

/-- The cursors for which the step is computed when the value is asked for, the
latest first. -/
def computed (fold : PathFold α) : List Cursor :=
  (valueAbove fold.cursor fold.seed fold.step fold.values 0).2.2

theorem evaluated_value (fold : PathFold α) :
    fold.value.2.evaluated = fold.computed ++ fold.evaluated :=
  rfl

end PathFold

inductive FoldEvent where
  | entered (path : List Nat)
  | evaluated (path : List Nat)
deriving DecidableEq

namespace FoldEvent

/-- Whether the node at the path was not evaluated since it was last entered, or
at all if it never was entered.  The events are given with the latest first. -/
def isPending (events : List FoldEvent) (path : List Nat) : Bool :=
  !(events.takeWhile (· != .entered path)).contains (.evaluated path)

end FoldEvent

inductive FoldStep where
  | move (move : PathMove)
  | value
deriving DecidableEq

/-- A path fold, a plain cursor that makes the same moves, and what was noted so
far, the latest first. -/
structure FoldRun (α : Type) where
  fold : PathFold α
  plain : Cursor
  events : List FoldEvent

namespace FoldRun

variable {α : Type}

def start (cursor : Cursor) (seed : α) (reducer : α → View → α) : FoldRun α :=
  ⟨.ofReducer cursor seed reducer, cursor.subtree, []⟩

def step (run : FoldRun α) : FoldStep → FoldRun α
  | .move move =>
      let (success, fold) := run.fold.go move
      let (_, plain) := run.plain.go move
      ⟨fold, plain,
        if success && move.enters then .entered fold.cursor.path :: run.events
        else run.events⟩
  | .value =>
      { run with
        fold := run.fold.value.2
        events := run.fold.computed.map (fun here => .evaluated here.path) ++
          run.events }

def stepAll (run : FoldRun α) (steps : List FoldStep) : FoldRun α :=
  steps.foldl step run

/-- The cursors at the nodes on the path from the root of a run to where it
stands. -/
def onPath (cursor : Cursor) (run : FoldRun α) : List Cursor :=
  ({ cursor.subtree with exhausted := run.plain.exhausted } : Cursor).along
    run.plain.path

end FoldRun

end Reparse
