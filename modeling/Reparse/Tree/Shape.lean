import Reparse.Tree.Node

/-!
# Contents and shapes

What is left of a node when its identity is forgotten is its content; what is
left when the numbers of examined bytes are forgotten as well is its shape.
Both are nodes again, with zeros in place of what is forgotten, so two contents
or two shapes can simply be equal.
-/

namespace Reparse

namespace Node

mutual

/-- The node without identities. -/
def content : Node → Node
  | ⟨_, symbol, length, lookahead, damaged, children⟩ =>
      ⟨0, symbol, length, lookahead, damaged, contentList children⟩

def contentList : List (Placed Node) → List (Placed Node)
  | [] => []
  | ⟨offset, node⟩ :: rest => ⟨offset, node.content⟩ :: contentList rest

end

mutual

/-- The node without identities and numbers of examined bytes. -/
def shape : Node → Node
  | ⟨_, symbol, length, _, damaged, children⟩ =>
      ⟨0, symbol, length, 0, damaged, shapeList children⟩

def shapeList : List (Placed Node) → List (Placed Node)
  | [] => []
  | ⟨offset, node⟩ :: rest => ⟨offset, node.shape⟩ :: shapeList rest

end

mutual

theorem shape_content : ∀ node : Node, node.content.shape = node.shape
  | ⟨_, _, _, _, _, children⟩ => by
      simp [content, shape, shapeList_contentList children]

theorem shapeList_contentList :
    ∀ children : List (Placed Node),
      shapeList (contentList children) = shapeList children
  | [] => rfl
  | ⟨_, node⟩ :: rest => by
      simp [contentList, shapeList, shape_content node,
        shapeList_contentList rest]

end

theorem contentList_append (left right : List (Placed Node)) :
    contentList (left ++ right) = contentList left ++ contentList right := by
  induction left with
  | nil => rfl
  | cons child left induction =>
      cases child
      simp [contentList, induction]

end Node

end Reparse
