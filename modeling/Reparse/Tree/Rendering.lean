import Reparse.Tree.Outline

/-!
# Rendering by recursion

The outline of a node, said from the inside out.  A named node is its name in
parentheses, with the renderings of its children after it; any other node is
just the renderings of its children.  Parts that render as nothing are left out.
-/

namespace Reparse

namespace Node

mutual

/-- The node and the named nodes below it in nested parentheses. -/
def rendering (grammar : Grammar) : Node → String
  | ⟨_, symbol, _, _, _, children⟩ =>
      let parts := renderings grammar children
      if grammar.isNamed symbol then
        "(" ++ " ".intercalate (grammar.symbolName symbol :: parts) ++ ")"
      else " ".intercalate parts

/-- The renderings of a list of children that are not empty. -/
def renderings (grammar : Grammar) : List (Placed Node) → List String
  | [] => []
  | ⟨_, node⟩ :: rest =>
      let part := node.rendering grammar
      if part.isEmpty then renderings grammar rest
      else part :: renderings grammar rest

end

end Node

end Reparse
