import Reparse.Tree.Basic

/-!
# Cursors

A cursor is a node of a tree together with the way that leads to it from the
root of the cursor.  A move either leads to another cursor or is not possible.
Stepping forward visits the nodes in the order of the text, parents first; a
cursor that has been stepped past the last node is exhausted, and no move of it
is possible any more.
-/

namespace Reparse

/-- One step of the way down: the parent, where it starts, and which child was
entered.  The children after that one are kept at hand. -/
structure TrailStep where
  parent : Node
  parentStart : Nat
  index : Nat
  following : List (Placed Node)
  following_eq : following = parent.children.drop (index + 1)

namespace TrailStep

def into (parent : Node) (parentStart index : Nat) : TrailStep :=
  ⟨parent, parentStart, index, parent.children.drop (index + 1), rfl⟩

/-- A step is determined by the parent, its place, and the index. -/
theorem eq_into (step : TrailStep) :
    step = into step.parent step.parentStart step.index := by
  cases step
  simp only [into, TrailStep.mk.injEq, true_and]
  assumption

def toRight? (step : TrailStep) : Option (Placed Node × TrailStep) :=
  match entered : step.following with
  | [] => none
  | child :: rest =>
      some
        (child,
          { step with
            index := step.index + 1
            following := rest
            following_eq := by
              rw [← List.drop_drop, ← step.following_eq, entered, List.drop_one,
                List.tail_cons] })

theorem toRight?_eq (step : TrailStep) :
    step.toRight? =
      (step.parent.child? (step.index + 1)).map fun child =>
        (child, into step.parent step.parentStart (step.index + 1)) := by
  have found : step.parent.child? (step.index + 1) = step.following.head? := by
    rw [step.following_eq, Node.child?, List.head?_drop]
  rw [toRight?]
  split
  · next entered =>
      rw [found, entered]
      rfl
  · next child rest entered =>
      have first : step.parent.child? (step.index + 1) = some child := by
        rw [found, entered, List.head?_cons]
      rw [first, Option.map_some]
      exact congrArg (fun entered => some (child, entered)) (eq_into _)

end TrailStep

/-- A node of a tree and the way to it, the nearest step first. -/
structure Cursor where
  tree : Tree
  node : Node
  start : Nat
  trail : List TrailStep
  exhausted : Bool

namespace Cursor

def ofTree (tree : Tree) : Cursor := ⟨tree, tree.root, 0, [], false⟩

def subtree (cursor : Cursor) : Cursor :=
  ⟨cursor.tree, cursor.node, cursor.start, [], false⟩

def depth (cursor : Cursor) : Nat := cursor.trail.length

/-- Which child of its parent the node is; none at the root. -/
def childIndex? (cursor : Cursor) : Option Nat :=
  cursor.trail.head?.map TrailStep.index

def range (cursor : Cursor) : Span :=
  ⟨cursor.start, cursor.start + cursor.node.length⟩

def nodeType (cursor : Cursor) : String :=
  cursor.tree.grammar.value.symbolName cursor.node.symbol

def isNamed (cursor : Cursor) : Bool :=
  cursor.tree.grammar.value.isNamed cursor.node.symbol

def isError (cursor : Cursor) : Bool := cursor.node.symbol.isError

/-- The text of the node, empty if the node lies outside the text. -/
def text (cursor : Cursor) : List UInt8 :=
  (cursor.tree.text? cursor.range).getD []

def enter (cursor : Cursor) (index : Nat) (child : Placed Node) : Cursor :=
  { cursor with
    node := child.item
    start := cursor.start + child.offset
    trail := .into cursor.node cursor.start index :: cursor.trail }

def down (cursor : Cursor) : Option Cursor :=
  if cursor.exhausted then none
  else (cursor.node.child? 0).map (cursor.enter 0)

def up (cursor : Cursor) : Option Cursor :=
  if cursor.exhausted then none
  else
    match cursor.trail with
    | [] => none
    | step :: above =>
        some { cursor with
          node := step.parent
          start := step.parentStart
          trail := above }

/-- To the child of the same parent at another index. -/
def sibling (cursor : Cursor) (move : Nat → Option Nat) : Option Cursor :=
  if cursor.exhausted then none
  else
    match cursor.trail with
    | [] => none
    | step :: above =>
        match move step.index with
        | none => none
        | some index =>
            (step.parent.child? index).map fun child =>
              { cursor with
                node := child.item
                start := step.parentStart + child.offset
                trail := .into step.parent step.parentStart index :: above }

def right (cursor : Cursor) : Option Cursor :=
  if cursor.exhausted then none
  else
    match cursor.trail with
    | [] => none
    | step :: above =>
        step.toRight?.map fun (child, entered) =>
          { cursor with
            node := child.item
            start := step.parentStart + child.offset
            trail := entered :: above }

theorem right_eq_sibling (cursor : Cursor) :
    cursor.right = cursor.sibling fun index => some (index + 1) := by
  rw [right, sibling]
  split
  · rfl
  · split
    · rfl
    · next step above trailFound =>
        rw [TrailStep.toRight?_eq, Option.map_map]
        rfl

def left (cursor : Cursor) : Option Cursor :=
  cursor.sibling fun index => if index = 0 then none else some (index - 1)

/-- The next sibling of the node, or of the nearest ancestor that has one. -/
def rightOrAbove (cursor : Cursor) : Option Cursor :=
  match cursor.right with
  | some moved => some moved
  | none =>
      match _ : cursor.up with
      | some parent => parent.rightOrAbove
      | none => none
termination_by cursor.trail.length
decreasing_by
  next moved =>
    simp only [up] at moved
    split at moved
    · simp at moved
    · split at moved
      · simp at moved
      · next trailFound =>
          simp only [Option.some.injEq] at moved
          rw [← moved, trailFound]
          simp

def forward (cursor : Cursor) : Option Cursor :=
  match cursor.down with
  | some child => some child
  | none => cursor.rightOrAbove

/-- To the root, with no move left. -/
def exhaust (cursor : Cursor) : Cursor :=
  match cursor.trail.getLast? with
  | none => { cursor with exhausted := true }
  | some step =>
      { cursor with
        node := step.parent
        start := step.parentStart
        trail := []
        exhausted := true }

/-- Steps forward; past the last node the cursor is exhausted.  Says whether
there was a node. -/
def next (cursor : Cursor) : Bool × Cursor :=
  match cursor.forward with
  | some moved => (true, moved)
  | none => (false, cursor.exhaust)

/-- Down along last children to a node without children. -/
def lastDescendant (cursor : Cursor) : Cursor :=
  match _ : cursor.node.children.getLast? with
  | none => cursor
  | some child =>
      (cursor.enter (cursor.node.childCount - 1) child).lastDescendant
termination_by cursor.node.count
decreasing_by exact Node.count_lt_of_mem (List.mem_of_getLast? ‹_›)

def backward (cursor : Cursor) : Option Cursor :=
  match cursor.left with
  | some sibling => some sibling.lastDescendant
  | none => cursor.up

/-- Repeats `next`, at most `bound` times, until the filter accepts a node. -/
def nextMatchingWithin (filter : NodeFilter) : Nat → Cursor → Bool × Cursor
  | 0, cursor => (false, cursor)
  | bound + 1, cursor =>
      match cursor.next with
      | (false, finished) => (false, finished)
      | (true, moved) =>
          if filter.accepts moved.tree.grammar.value moved.node.symbol then
            (true, moved)
          else nextMatchingWithin filter bound moved

def rootNode (cursor : Cursor) : Node :=
  match cursor.trail.getLast? with
  | none => cursor.node
  | some step => step.parent

/-- Steps forward to a node that the filter accepts; without one the cursor is
exhausted.  Every step leads to a later node, so the number of nodes bounds the
steps. -/
def nextMatching (cursor : Cursor) (filter : NodeFilter) : Bool × Cursor :=
  nextMatchingWithin filter cursor.rootNode.count cursor

/-- To the first child that ends after a position of the text; the index of the
child comes with it. -/
def firstChildForByte (cursor : Cursor) (position : Nat) :
    Option (Nat × Cursor) :=
  if cursor.exhausted then none
  else
    match cursor.node.children.findIdx? fun child =>
        position < cursor.start + child.stop with
    | none => none
    | some index =>
        (cursor.node.child? index).map fun child =>
          (index, cursor.enter index child)

/-- Repeats a move, at most `bound` times, as long as it is possible; gives all
cursors on the way and the last one. -/
def trace (move : Cursor → Option Cursor) : Nat → Cursor → List Cursor × Cursor
  | 0, cursor => ([], cursor)
  | bound + 1, cursor =>
      match move cursor with
      | none => ([], cursor)
      | some moved =>
          let (visited, last) := trace move bound moved
          (moved :: visited, last)

/-- All cursors met by stepping forward to the end, and the exhausted cursor
after that. -/
def remaining (cursor : Cursor) : List Cursor × Cursor :=
  let (visited, last) := trace forward cursor.rootNode.count cursor
  (visited, last.exhaust)

/-- All cursors met by stepping backward to the root, and the cursor there. -/
def preceding (cursor : Cursor) : List Cursor × Cursor :=
  trace backward cursor.rootNode.count cursor

/-- All cursors met by `nextMatching` until the end, and the exhausted cursor
after that. -/
def remainingMatching (cursor : Cursor) (filter : NodeFilter) :
    List Cursor × Cursor :=
  let (visited, last) := cursor.remaining
  (visited.filter fun moved =>
    filter.accepts moved.tree.grammar.value moved.node.symbol, last)

end Cursor

end Reparse
