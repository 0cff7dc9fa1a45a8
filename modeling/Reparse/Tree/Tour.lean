import Reparse.Text.Decimal
import Reparse.Tree.PathFold

/-!
# Tours

A tour moves cursors through a tree and notes what is seen.  Cursors can be set
aside: a tour keeps a stack of them, and the one on top moves.
-/

namespace Reparse

inductive Move where
  | down
  | right
  | left
  | up
  | next
  | previous
  | nextMatching (filter : NodeFilter)
  | firstChildForByte (position : Nat)
  /-- To the end, naming every node on the way. -/
  | rest
  /-- To the root, naming every node on the way. -/
  | back
  /-- To the end, showing every node on the way that the filter accepts. -/
  | all (filter : NodeFilter)
  | text
  | symbol
  | node

inductive Sight where
  | moved (success : Bool)
  | index (found : Option Nat)
  | names (names : List String)
  | hits (hits : List Cursor)
  | text (bytes : List UInt8)
  | symbol (symbol : Symbol)
  | node (node : Node)

namespace Cursor

def orStay (cursor : Cursor) (moved : Option Cursor) : Sight × Cursor :=
  match moved with
  | some cursor => (.moved true, cursor)
  | none => (.moved false, cursor)

def move (cursor : Cursor) : Move → Sight × Cursor
  | .down => cursor.orStay cursor.down
  | .right => cursor.orStay cursor.right
  | .left => cursor.orStay cursor.left
  | .up => cursor.orStay cursor.up
  | .next => let (success, moved) := cursor.next; (.moved success, moved)
  | .previous => cursor.orStay cursor.backward
  | .nextMatching filter =>
      let (success, moved) := cursor.nextMatching filter
      (.moved success, moved)
  | .firstChildForByte position =>
      match cursor.firstChildForByte position with
      | some (index, moved) => (.index (some index), moved)
      | none => (.index none, cursor)
  | .rest =>
      let (visited, last) := cursor.remaining
      (.names (visited.map nodeType), last)
  | .back =>
      let (visited, last) := cursor.preceding
      (.names (visited.map nodeType), last)
  | .all filter =>
      let (visited, last) := cursor.remainingMatching filter
      (.hits visited, last)
  | .text => (.text cursor.text, cursor)
  | .symbol => (.symbol cursor.node.symbol, cursor)
  | .node => (.node cursor.node, cursor)

/-- Makes moves one after the other, whatever becomes of each. -/
def moveAll (cursor : Cursor) (moves : List Move) : Cursor :=
  moves.foldl (fun cursor move => (cursor.move move).2) cursor

end Cursor

inductive TourMove where
  | plain (move : Move)
  /-- Goes on with a copy of the cursor on top. -/
  | fork
  /-- Goes on with a cursor that has the current node as its root. -/
  | subtree
  | pop

/-- The cursor that moves and those set aside, the latest first. -/
structure Tour where
  top : Cursor
  below : List Cursor

namespace Tour

def ofTree (tree : Tree) : Tour := ⟨Cursor.ofTree tree, []⟩

def step (tour : Tour) : TourMove → Sight × Tour
  | .plain move =>
      let (sight, moved) := tour.top.move move
      (sight, { tour with top := moved })
  | .fork => (.moved true, ⟨tour.top, tour.top :: tour.below⟩)
  | .subtree => (.moved true, ⟨tour.top.subtree, tour.top :: tour.below⟩)
  | .pop =>
      match tour.below with
      | [] => (.moved false, tour)
      | cursor :: below => (.moved true, ⟨cursor, below⟩)

/-- Makes moves one after the other; each sight comes with the cursor on top
after it. -/
def run (tour : Tour) : List TourMove → List (Sight × Cursor)
  | [] => []
  | move :: moves =>
      let (sight, moved) := tour.step move
      (sight, moved.top) :: moved.run moves

end Tour

inductive Carried where
  | text (text : String)
  | number (number : Nat)

def Carried.show : Carried → String
  | .text shown => shown
  | .number value => toString value

/-- How the value of a node follows from that of its parent. -/
inductive Reducer where
  | path
  /-- Appends the range, depth and index of the node. -/
  | trace
  | length
  | depth

namespace Reducer

def seed (reducer : Reducer) (text : String) : Carried :=
  match reducer with
  | .path | .trace => .text text
  | .length | .depth => .number ((Decimal.read? text.toList).getD 0)

/-- What the reducer appends at a node; nothing for one that counts. -/
def addition (reducer : Reducer) (cursor : Cursor) : String :=
  match reducer with
  | .path => "/" ++ cursor.nodeType
  | .trace =>
      let index := (cursor.childIndex?.map toString).getD "-"
      "[" ++ cursor.range.text ++ " " ++ toString cursor.depth ++ " " ++
        index ++ "]"
  | .length | .depth => ""

/-- How much the reducer adds at a node; nothing for one that appends. -/
def increase (reducer : Reducer) (cursor : Cursor) : Nat :=
  match reducer with
  | .length => cursor.node.length
  | .depth => 1
  | .path | .trace => 0

def step (reducer : Reducer) (carried : Carried) (cursor : Cursor) : Carried :=
  match carried with
  | .text text => .text (text ++ reducer.addition cursor)
  | .number number => .number (number + reducer.increase cursor)

end Reducer

inductive FoldMove where
  | down
  | right
  | left
  | up
  | next
  | value
  | cursor
  /-- To the end, showing the value of every node on the way. -/
  | rest

inductive FoldSight where
  | moved (success : Bool)
  | value (value : Carried)
  | cursor (cursor : Cursor)
  | values (values : List Carried)

namespace PathFold

def orStay (fold : PathFold Carried) (moved : Option (PathFold Carried)) :
    FoldSight × PathFold Carried :=
  match moved with
  | some fold => (.moved true, fold)
  | none => (.moved false, fold)

def move (fold : PathFold Carried) : FoldMove → FoldSight × PathFold Carried
  | .down => fold.orStay fold.down
  | .right => fold.orStay fold.right
  | .left => fold.orStay fold.left
  | .up => fold.orStay fold.up
  | .next => let (success, moved) := fold.next; (.moved success, moved)
  | .value => let (value, known) := fold.value; (.value value, known)
  | .cursor => (.cursor fold.cursor, fold)
  | .rest => let (values, last) := fold.remaining; (.values values, last)

/-- Makes moves one after the other; each sight comes with the number of values
computed so far. -/
def run (fold : PathFold Carried) : List FoldMove → List (FoldSight × Nat)
  | [] => []
  | move :: moves =>
      let (sight, moved) := fold.move move
      (sight, moved.evaluated.length) :: moved.run moves

end PathFold

def Cursor.reducing (cursor : Cursor) (reducer : Reducer) (seed : String) :
    PathFold Carried :=
  PathFold.ofCursor cursor (reducer.seed seed) reducer.step

end Reparse
