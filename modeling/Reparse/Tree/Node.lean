import Reparse.Grammar.Symbol

/-!
# Nodes

A node keeps its length and where its children begin within it, never a position
in the text.  That is why a node can stay in a new tree although the text in
front of it grew or shrank: only its place in its parent changes.

Nodes have an identity beside their contents.  Every construction of a node
takes a stamp from a supply, so two nodes with one stamp are one and the same
node, wherever they are met.
-/

namespace Reparse

/-- Something at an offset: a child within its parent, or a node within a
text. -/
structure Placed (α : Type) where
  offset : Nat
  item : α

structure Node where
  stamp : Nat
  symbol : Symbol
  length : Nat
  /-- Number of bytes after the node that were examined in deriving it. -/
  lookahead : Nat
  /-- Whether an edit touched the bytes the node was derived from. -/
  damaged : Bool
  /-- The children in order of offset.  Bytes between them belong to no
  child. -/
  children : List (Placed Node)

instance : Inhabited Node := ⟨⟨0, Symbol.error, 0, 0, false, []⟩⟩

def Placed.stop (placed : Placed Node) : Nat :=
  placed.offset + placed.item.length

namespace Node

def leaf (stamp : Nat) (symbol : Symbol) (length lookahead : Nat) : Node :=
  ⟨stamp, symbol, length, lookahead, false, []⟩

def isLeaf (node : Node) : Bool := node.children.isEmpty

def isEmpty (node : Node) : Bool := node.length == 0

def childCount (node : Node) : Nat := node.children.length

def child? (node : Node) (index : Nat) : Option (Placed Node) :=
  node.children[index]?

def identical (left right : Node) : Bool := left.stamp == right.stamp

mutual

def count : Node → Nat
  | ⟨_, _, _, _, _, children⟩ => countList children + 1

def countList : List (Placed Node) → Nat
  | [] => 0
  | ⟨_, node⟩ :: rest => node.count + countList rest

end

mutual

def height : Node → Nat
  | ⟨_, _, _, _, _, children⟩ => heightList children

/-- One more than the greatest height in a list of children; zero without
children. -/
def heightList : List (Placed Node) → Nat
  | [] => 0
  | ⟨_, node⟩ :: rest => max (node.height + 1) (heightList rest)

end

mutual

def hasStamp (wanted : Nat) : Node → Bool
  | ⟨stamp, _, _, _, _, children⟩ =>
      stamp == wanted || hasStampList wanted children

def hasStampList (wanted : Nat) : List (Placed Node) → Bool
  | [] => false
  | ⟨_, node⟩ :: rest => node.hasStamp wanted || hasStampList wanted rest

end

/-- A node met on the way through a tree: how deep it lies and where it
starts. -/
structure Visit where
  depth : Nat
  start : Nat
  node : Node

mutual

/-- The node and everything below in the order of the text, parents first. -/
def preorder (depth start : Nat) : Node → List Visit
  | node@⟨_, _, _, _, _, children⟩ =>
      ⟨depth, start, node⟩ :: preorderList (depth + 1) start children

/-- List counterpart of `Node.preorder`, for children of a parent that starts at
`origin`. -/
def preorderList (depth origin : Nat) : List (Placed Node) → List Visit
  | [] => []
  | ⟨offset, node⟩ :: rest =>
      node.preorder depth (origin + offset) ++ preorderList depth origin rest

end

mutual

def preorderOnto (depth start : Nat) (later : List Visit) : Node → List Visit
  | node@⟨_, _, _, _, _, children⟩ =>
      ⟨depth, start, node⟩ :: preorderListOnto (depth + 1) start later children

/-- List counterpart of `Node.preorderOnto`, for children of a parent that
starts at `origin`. -/
def preorderListOnto (depth origin : Nat) (later : List Visit) :
    List (Placed Node) → List Visit
  | [] => later
  | ⟨offset, node⟩ :: rest =>
      node.preorderOnto depth (origin + offset)
        (preorderListOnto depth origin later rest)

end

/-- All nodes of a tree in the order of the text, the root first. -/
def visits (root : Node) : List Visit := root.preorderOnto 0 0 []

theorem count_pos (node : Node) : 0 < node.count := by
  cases node
  simp [count]

theorem count_eq (node : Node) : node.count = countList node.children + 1 := by
  cases node
  simp [count]

theorem count_le_countList {children : List (Placed Node)} {child : Placed Node}
    (member : child ∈ children) : child.item.count ≤ countList children := by
  induction children with
  | nil => simp at member
  | cons first rest induction =>
      cases first
      simp only [countList]
      rcases List.mem_cons.mp member with same | later
      · subst same
        simp only
        omega
      · have := induction later
        omega

theorem count_lt_of_mem {node : Node} {child : Placed Node}
    (member : child ∈ node.children) :
    child.item.count < node.count := by
  have := count_le_countList member
  have := count_eq node
  omega

/-- What holds of a node as soon as it holds of its children holds of every
node. -/
theorem induction_on_children {motive : Node → Prop}
    (step : ∀ node, (∀ child ∈ node.children, motive child.item) → motive node)
    (node : Node) : motive node :=
  step node fun child _ => induction_on_children step child.item
termination_by node.count
decreasing_by exact count_lt_of_mem ‹_›

mutual

theorem preorderOnto_eq (depth start : Nat) (later : List Visit) :
    ∀ node : Node,
      node.preorderOnto depth start later = node.preorder depth start ++ later
  | ⟨_, _, _, _, _, children⟩ => by
      simp [preorderOnto, preorder,
        preorderListOnto_eq (depth + 1) start later children]

theorem preorderListOnto_eq (depth origin : Nat) (later : List Visit) :
    ∀ children : List (Placed Node),
      preorderListOnto depth origin later children =
        preorderList depth origin children ++ later
  | [] => rfl
  | ⟨offset, node⟩ :: rest => by
      simp [preorderListOnto, preorderList,
        preorderListOnto_eq depth origin later rest,
        preorderOnto_eq depth (origin + offset)
          (preorderList depth origin rest ++ later) node]

end

theorem visits_eq (root : Node) : root.visits = root.preorder 0 0 := by
  rw [visits, preorderOnto_eq, List.append_nil]

theorem preorder_eq (depth start : Nat) (node : Node) :
    node.preorder depth start =
      ⟨depth, start, node⟩ :: preorderList (depth + 1) start node.children := by
  cases node
  rfl

end Node

end Reparse
