import Reparse.Tree.Node

/-!
# Paths

A path leads from a node down to another one: it says which child to enter, step
by step.  The paths of a node, listed in the order of the text, lead to the
nodes that a walk through it visits.
-/

namespace Reparse

namespace Node

/-- The node at the end of a path and where it starts, for a path that begins at
a node that starts at `start`. -/
def locate? (node : Node) (start : Nat) : List Nat → Option (Placed Node)
  | [] => some ⟨start, node⟩
  | index :: path =>
      match node.child? index with
      | none => none
      | some child => child.item.locate? (start + child.offset) path

mutual

/-- The paths to the node itself and to everything below it, in the order of the
text. -/
def paths : Node → List (List Nat)
  | ⟨_, _, _, _, _, children⟩ => [] :: pathsList 0 children

/-- The paths into the children from the one with index `first` on. -/
def pathsList (first : Nat) : List (Placed Node) → List (List Nat)
  | [] => []
  | ⟨_, node⟩ :: rest =>
      node.paths.map (first :: ·) ++ pathsList (first + 1) rest

end

/-- The nodes without children below a root, at their places in the text; the
root itself is not one of them. -/
def leaves (root : Node) : List (Placed Node) :=
  (root.visits.tail.filter fun visit => visit.node.isLeaf).map fun visit =>
    ⟨visit.start, visit.node⟩

mutual

theorem length_paths : ∀ node : Node, node.paths.length = node.count
  | ⟨_, _, _, _, _, children⟩ => by
      simp [paths, count, length_pathsList 0 children]

theorem length_pathsList (first : Nat) :
    ∀ children : List (Placed Node),
      (pathsList first children).length = countList children
  | [] => rfl
  | ⟨_, node⟩ :: rest => by
      simp [pathsList, countList, length_paths node,
        length_pathsList (first + 1) rest]

end

mutual

theorem length_preorder (depth start : Nat) :
    ∀ node : Node, (node.preorder depth start).length = node.count
  | ⟨_, _, _, _, _, children⟩ => by
      simp [preorder, count, length_preorderList (depth + 1) start children]

theorem length_preorderList (depth origin : Nat) :
    ∀ children : List (Placed Node),
      (preorderList depth origin children).length = countList children
  | [] => rfl
  | ⟨offset, node⟩ :: rest => by
      simp [preorderList, countList,
        length_preorder depth (origin + offset) node,
        length_preorderList depth origin rest]

end

end Node

end Reparse
