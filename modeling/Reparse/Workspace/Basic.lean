import Reparse.Grammar.Declaration
import Reparse.Parse.Parser
import Reparse.Workspace.Slots

/-!
# Workspaces

A workspace keeps grammars, parsers, trees, trees under edit, and single nodes
under names, and hands out stamps.  What it keeps is what holds trees alive: a
weak reference leads back to its tree as long as the root, the grammar and the
text of the tree are each held by something kept.
-/

namespace Reparse

/-- Everything kept under names, and the next stamp. -/
structure Workspace where
  supply : Nat
  grammars : Slots (Stamped Grammar)
  parsers : Slots Parser
  trees : Slots Tree
  shells : Slots Shell
  nodes : Slots Node
  weakTrees : Slots WeakTree

inductive WorkspaceError where
  | grammar (error : GrammarError)
  | edit (error : EditError)
  | parse (error : ParseError)
  | released (error : ReleasedError)
  /-- Nothing of the right kind is kept under the name. -/
  | nothingKept (name : String)
deriving DecidableEq

def WorkspaceError.message : WorkspaceError → String
  | .grammar error => error.message
  | .edit error => error.message
  | .parse error => error.message
  | .released error => error.message
  | .nothingKept name => "nothing is kept under " ++ name

namespace Workspace

def empty : Workspace := ⟨0, .empty, .empty, .empty, .empty, .empty, .empty⟩

/-- The root of the tree, or of the tree under edit, or the node, whichever is
kept under the name. -/
def node? (workspace : Workspace) (name : String) : Option Node :=
  ((workspace.trees.get? name).map Tree.root).or
    (((workspace.shells.get? name).map Shell.root).or
      (workspace.nodes.get? name))

def holdsNode (workspace : Workspace) (node : Node) : Bool :=
  workspace.trees.any (fun tree => tree.root.hasStamp node.stamp) ||
    workspace.shells.any (fun shell =>
      shell.base.root.hasStamp node.stamp || shell.root.hasStamp node.stamp) ||
    workspace.nodes.any fun kept => kept.hasStamp node.stamp

def holdsGrammar (workspace : Workspace) (grammar : Stamped Grammar) : Bool :=
  workspace.grammars.any (fun kept => kept.identical grammar) ||
    workspace.parsers.any (fun parser => parser.grammar.identical grammar) ||
    workspace.trees.any (fun tree => tree.grammar.identical grammar) ||
    workspace.shells.any fun shell => shell.base.grammar.identical grammar

def holdsSource (workspace : Workspace) (source : Stamped (Array UInt8)) :
    Bool :=
  workspace.trees.any (fun tree => tree.source.identical source) ||
    workspace.shells.any fun shell => shell.base.source.identical source

/-- The tree of a weak reference, as long as it is held. -/
def upgrade (workspace : Workspace) (weak : WeakTree) :
    Except ReleasedError Tree :=
  if workspace.holdsNode weak.target.root &&
      workspace.holdsGrammar weak.target.grammar &&
      workspace.holdsSource weak.target.source then
    .ok weak.target
  else .error ⟨weak.version⟩

end Workspace

end Reparse
