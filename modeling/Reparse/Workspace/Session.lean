import Reparse.Tree.Sketch
import Reparse.Workspace.Basic

/-!
# Sessions

The operations of a workspace.  An operation that fails stores nothing; a tree
under edit that an operation takes over is gone from the workspace even when the
operation fails.
-/

namespace Reparse

/-- An operation on a workspace. -/
abbrev Session (α : Type) := ExceptT WorkspaceError (StateM Workspace) α

namespace Session

/-- The kept value, or the failure that names the slot. -/
def orMissing {α : Type} (name : String) : Option α → Session α
  | some value => pure value
  | none => throw (.nothingKept name)

def grammar (name : String) : Session (Stamped Grammar) := do
  orMissing name ((← get).grammars.get? name)

def parser (name : String) : Session Parser := do
  orMissing name ((← get).parsers.get? name)

def tree (name : String) : Session Tree := do
  orMissing name ((← get).trees.get? name)

def shell (name : String) : Session Shell := do
  orMissing name ((← get).shells.get? name)

def node (name : String) : Session Node := do
  orMissing name ((← get).node? name)

def weakTree (name : String) : Session WeakTree := do
  orMissing name ((← get).weakTrees.get? name)

/-- The tree under edit kept under a name, which is not kept any longer. -/
def takeShell (name : String) : Session Shell := do
  let taken ← shell name
  modify fun workspace =>
    { workspace with shells := workspace.shells.erase name }
  return taken

def stamped {α : Type} (value : α) : Session (Stamped α) := do
  let stamp := (← get).supply
  modify fun workspace => { workspace with supply := stamp + 1 }
  return ⟨stamp, value⟩

def keepTree (name : Option String) (tree : Tree) : Session Unit :=
  modify fun workspace =>
    { workspace with trees := workspace.trees.put? name tree }

def keepShell (name : Option String) (shell : Shell) : Session Unit :=
  modify fun workspace =>
    { workspace with shells := workspace.shells.put? name shell }

def keepNode (name : Option String) (node : Node) : Session Unit :=
  modify fun workspace =>
    { workspace with nodes := workspace.nodes.put? name node }

def openGrammar (name : Option String) (grammar : Except GrammarError Grammar) :
    Session (Stamped Grammar) := do
  match grammar with
  | .error error => throw (.grammar error)
  | .ok contents =>
      let opened ← stamped contents
      modify fun workspace =>
        { workspace with grammars := workspace.grammars.put? name opened }
      return opened

def openParser (name : Option String) (grammarName : String)
    (options : ParserOptions) : Session Parser := do
  let opened := Parser.ofGrammar (← grammar grammarName) options
  modify fun workspace =>
    { workspace with parsers := workspace.parsers.put? name opened }
  return opened

/-- What became of a parse, and the parser's statistics after it. -/
structure ParseReport where
  outcome : Except ParseError Tree
  parser : Parser

/-- Parses a text after the edits of the tree under edit kept under
`previousName`, which is taken. -/
def parseWith (parser : Parser) (text : List UInt8)
    (previousName name : Option String) : Session ParseReport := do
  let previous ← previousName.mapM takeShell
  let result := parser.parse text previous (← get).supply
  match result with
  | .error error => return ⟨.error error, parser⟩
  | .ok parsed =>
      modify fun workspace => { workspace with supply := parsed.supply }
      keepTree name parsed.tree
      return ⟨.ok parsed.tree, parser.afterParse result⟩

def parse (parserName : String) (text : List UInt8)
    (previousName name : Option String) : Session ParseReport := do
  let report ← parseWith (← parser parserName) text previousName name
  modify fun workspace =>
    { workspace with parsers := workspace.parsers.put parserName report.parser }
  return report

/-- Parses with a parser that is used only once. -/
def parseOnce (grammarName : String) (text : List UInt8)
    (previousName name : Option String) : Session ParseReport := do
  let once := Parser.ofGrammar (← grammar grammarName) {}
  parseWith once text previousName name

def graft (grammarName nodeName : String) (text : List UInt8) (version : Nat)
    (name : Option String) : Session Tree := do
  let root ← node nodeName
  let language ← grammar grammarName
  let source ← stamped text.toArray
  let grafted : Tree := ⟨root, language, source, version⟩
  keepTree name grafted
  return grafted

def sketch (grammarName : String) (text : List UInt8) (rows : List SketchRow)
    (version : Nat) (name : Option String) : Session Tree := do
  let language ← grammar grammarName
  match Node.ofSketch? rows (← get).supply with
  | none => throw (.nothingKept "")
  | some (root, supply) =>
      modify fun workspace => { workspace with supply }
      let source ← stamped text.toArray
      let sketched : Tree := ⟨root, language, source, version⟩
      keepTree name sketched
      return sketched

def finishEdit (name : Option String) :
    Except EditError (Shell × Nat) → Session Shell
  | .error error => throw (.edit error)
  | .ok (edited, supply) => do
      modify fun workspace => { workspace with supply }
      keepShell name edited
      return edited

def editTree (treeName : String) (edits : List Edit) (name : Option String) :
    Session Shell := do
  finishEdit name ((← tree treeName).editAll edits (← get).supply)

def editMore (shellName : String) (edit : Edit) (name : Option String) :
    Session Shell := do
  finishEdit name ((← takeShell shellName).edit edit (← get).supply)

def discardEdits (shellName : String) (name : Option String) :
    Session Tree := do
  let base := (← takeShell shellName).base
  keepTree name base
  return base

def downgrade (treeName : String) (name : Option String) :
    Session WeakTree := do
  let weak : WeakTree := ⟨← tree treeName⟩
  modify fun workspace =>
    { workspace with weakTrees := workspace.weakTrees.put? name weak }
  return weak

def describeWeak (weak : WeakTree) : Session String := do
  return weak.describe ((← get).holdsNode weak.target.root)

def upgrade (weak : WeakTree) (name : Option String) :
    Session (Except ReleasedError Tree) := do
  match (← get).upgrade weak with
  | .error error => return .error error
  | .ok upgraded =>
      keepTree name upgraded
      return .ok upgraded

/-- Stops keeping whatever is kept under a name, weak references apart; says
whether there was anything. -/
def drop (name : String) : Session Bool := do
  let workspace ← get
  let existed :=
    workspace.trees.has name || workspace.shells.has name ||
      workspace.nodes.has name || workspace.parsers.has name ||
        workspace.grammars.has name
  set
    { workspace with
      trees := workspace.trees.erase name
      shells := workspace.shells.erase name
      nodes := workspace.nodes.erase name
      parsers := workspace.parsers.erase name
      grammars := workspace.grammars.erase name }
  return existed

end Session

end Reparse
