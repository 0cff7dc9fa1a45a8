import Reparse.Tree.Basic

/-!
# Trees under edit

An edit never changes a tree.  It copies the path from the root to every node
the edit could have influenced, marks the copies as damaged, and shares every
other node.  The outcome is a *shell*: its offsets are those of the edited text,
and its damaged nodes are what a parser has to derive again.
-/

namespace Reparse

namespace Node

mutual

/-- The node as the edit leaves it: a damaged copy in which every child that the
edit affects is copied in turn.  The node starts at `start` in the old text and
at `newStart` in the new one. -/
def damage (edit : Edit) (start newStart supply : Nat) : Node → Node × Nat
  | ⟨_, symbol, length, lookahead, _, children⟩ =>
      let (copies, next) := damageList edit start newStart supply children
      (⟨next, symbol, edit.adjust (start + length) - newStart, lookahead, true,
        copies⟩, next + 1)

/-- List counterpart of `Node.damage`, for children of a parent at `start` and
`newStart`. -/
def damageList (edit : Edit) (start newStart supply : Nat) :
    List (Placed Node) → List (Placed Node) × Nat
  | [] => ([], supply)
  | ⟨offset, node⟩ :: rest =>
      let childStart := start + offset
      let newChildStart := edit.adjust childStart
      let (copy, next) :=
        if edit.affects ⟨childStart, childStart + node.length⟩
            node.lookahead then
          node.damage edit childStart newChildStart supply
        else (node, supply)
      let (copies, last) := damageList edit start newStart next rest
      (⟨newChildStart - newStart, copy⟩ :: copies, last)

end

end Node

/-- A tree with edits applied, waiting for the new text. -/
structure Shell where
  base : Tree
  root : Node
  /-- The edits in the order in which they were applied. -/
  edits : List Edit

namespace Shell

def ofTree (tree : Tree) : Shell := ⟨tree, tree.root, []⟩

def length (shell : Shell) : Nat := shell.root.length

def isEmpty (shell : Shell) : Bool := shell.root.isEmpty

def isUnchanged (shell : Shell) : Bool := shell.edits.isEmpty

/-- The version of the tree under edit. -/
def version (shell : Shell) : Nat := shell.base.version

def usesGrammar (shell : Shell) (grammar : Stamped Grammar) : Bool :=
  shell.base.grammar.identical grammar

/-- Applies one more edit, given in positions of the text left by the edits
before it. -/
def edit (shell : Shell) (edit : Edit) (supply : Nat) :
    Except EditError (Shell × Nat) := do
  edit.check shell.length
  let (root, next) := shell.root.damage edit 0 0 supply
  return (⟨shell.base, root, shell.edits ++ [edit]⟩, next)

/-- Applies edits in order; the first one that is refused is the outcome. -/
def editAll (shell : Shell) : List Edit → Nat → Except EditError (Shell × Nat)
  | [], supply => .ok (shell, supply)
  | edit :: edits, supply => do
      let (edited, next) ← shell.edit edit supply
      edited.editAll edits next

def describe (shell : Shell) : String :=
  "EditedTree \x7b version: " ++ toString shell.version ++ ", edits: [" ++
    ", ".intercalate (shell.edits.map Edit.describe) ++ "], len: " ++
    toString shell.length ++ ", .. \x7d"

end Shell

namespace Tree

def edit (tree : Tree) (edit : Edit) (supply : Nat) :
    Except EditError (Shell × Nat) :=
  (Shell.ofTree tree).edit edit supply

def editAll (tree : Tree) (edits : List Edit) (supply : Nat) :
    Except EditError (Shell × Nat) :=
  (Shell.ofTree tree).editAll edits supply

end Tree

end Reparse
