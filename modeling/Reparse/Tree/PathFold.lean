import Reparse.Tree.Cursor

/-!
# Folding along the path

A path fold is a cursor that carries a value for every node on its path.  The
value of a node is `step` of the value of its parent and the cursor at the node,
and `seed` stands in for the value of the root's parent.  Values are computed on
request and kept while the cursor stays at the node or below it, so a move to
the side or upwards never computes the value of an ancestor again.
-/

namespace Reparse

/-- A cursor with the values along its path. -/
structure PathFold (α : Type) where
  cursor : Cursor
  seed : α
  step : α → Cursor → α
  /-- The values along the path that are known, for the nearest node first. -/
  values : List (Option α)
  /-- The cursors for which `step` has been computed, the latest first. -/
  evaluated : List Cursor

namespace Cursor

/-- The cursor at the ancestor `distance` steps up. -/
def ancestor (cursor : Cursor) (distance : Nat) : Cursor :=
  match distance with
  | 0 => cursor
  | above + 1 =>
      match cursor.trail.drop above with
      | [] => cursor
      | step :: trail =>
          { cursor with
            node := step.parent
            start := step.parentStart
            trail := trail }

end Cursor

namespace PathFold

variable {α : Type}

def ofCursor (cursor : Cursor) (seed : α) (step : α → Cursor → α) :
    PathFold α :=
  ⟨cursor.subtree, seed, step, [none], []⟩

/-- The value `distance` steps up the path, the known values from there on, and
the cursors it took to compute it, the latest first. -/
def valueAbove (cursor : Cursor) (seed : α) (step : α → Cursor → α) :
    List (Option α) → Nat → α × List (Option α) × List Cursor
  | [], _ => (seed, [], [])
  | some value :: above, _ => (value, some value :: above, [])
  | none :: above, distance =>
      let (parent, known, evaluated) :=
        valueAbove cursor seed step above (distance + 1)
      let here := cursor.ancestor distance
      let value := step parent here
      (value, some value :: known, here :: evaluated)

/-- The value of the current node, and the fold that knows it. -/
def value (fold : PathFold α) : α × PathFold α :=
  let (found, known, evaluated) :=
    valueAbove fold.cursor fold.seed fold.step fold.values 0
  (found,
    { fold with values := known, evaluated := evaluated ++ fold.evaluated })

/-- To the first child, whose value is not known yet. -/
def down (fold : PathFold α) : Option (PathFold α) :=
  fold.cursor.down.map fun moved =>
    { fold with cursor := moved, values := none :: fold.values }

def up (fold : PathFold α) : Option (PathFold α) :=
  fold.cursor.up.map fun moved =>
    { fold with cursor := moved, values := fold.values.tail }

def replaceLast (fold : PathFold α) (moved : Cursor) : PathFold α :=
  { fold with cursor := moved, values := none :: fold.values.tail }

def right (fold : PathFold α) : Option (PathFold α) :=
  fold.cursor.right.map fold.replaceLast

def left (fold : PathFold α) : Option (PathFold α) :=
  fold.cursor.left.map fold.replaceLast

/-- The next sibling of the node, or of the nearest ancestor that has one.  At
the root the fold is exhausted instead. -/
def rightOrAbove (fold : PathFold α) : Bool × PathFold α :=
  match fold.right with
  | some moved => (true, moved)
  | none =>
      match _ : fold.up with
      | some parent => parent.rightOrAbove
      | none =>
          (false,
            { fold with cursor := { fold.cursor with exhausted := true } })
termination_by fold.cursor.trail.length
decreasing_by
  next moved =>
    simp only [up, Option.map_eq_some_iff] at moved
    obtain ⟨above, upFound, same⟩ := moved
    rw [← same]
    simp only [Cursor.up] at upFound
    split at upFound
    · simp at upFound
    · split at upFound
      · simp at upFound
      · next trailFound =>
          simp only [Option.some.injEq] at upFound
          rw [← upFound, trailFound]
          simp

/-- Steps forward, as `Cursor.next` does. -/
def next (fold : PathFold α) : Bool × PathFold α :=
  match fold.down with
  | some child => (true, child)
  | none => fold.rightOrAbove

/-- The values met by stepping forward to the end, at most `bound` of them. -/
def remainingWithin : Nat → PathFold α → List α × PathFold α
  | 0, fold => ([], fold)
  | bound + 1, fold =>
      match fold.next with
      | (false, finished) => ([], finished)
      | (true, moved) =>
          let (found, known) := moved.value
          let (values, last) := remainingWithin bound known
          (found :: values, last)

/-- The values of all nodes from the next one to the last, each computed when it
is reached. -/
def remaining (fold : PathFold α) : List α × PathFold α :=
  remainingWithin fold.cursor.rootNode.count fold

end PathFold

end Reparse
