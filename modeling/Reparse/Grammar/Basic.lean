import Std.Data.HashMap
import Reparse.Grammar.LeftRecursion
import Reparse.Grammar.Pattern

/-!
# Grammars

A grammar knows its symbols by number and by name, the rule of every symbol that
has one, the patterns of its tokens in order of preference, and the patterns
skipped between tokens.  The error symbol belongs to every grammar without being
counted.
-/

namespace Reparse

inductive SymbolKind where
  /-- A token without a name of its own, such as a keyword or punctuation. -/
  | literal
  | token
  /-- A rule whose matches become nodes. -/
  | visible
  /-- A rule whose matches leave their nodes to the rule around them. -/
  | hidden
deriving DecidableEq

namespace SymbolKind

def isTerminal : SymbolKind → Bool
  | .literal | .token => true
  | .visible | .hidden => false

/-- Whether nodes of the symbol are worth naming. -/
def isNamed : SymbolKind → Bool
  | .token | .visible => true
  | .literal | .hidden => false

def isHidden : SymbolKind → Bool
  | .hidden => true
  | _ => false

/-- The names of the properties that hold, in a fixed order. -/
def flagNames (kind : SymbolKind) : List String :=
  (if kind.isTerminal then ["TERMINAL"] else []) ++
    (if kind.isNamed then ["NAMED"] else []) ++
    if kind.isHidden then ["HIDDEN"] else []

/-- The properties as a sum of one, two and four. -/
def flagBits (kind : SymbolKind) : Nat :=
  kind.isTerminal.toNat + 2 * kind.isNamed.toNat + 4 * kind.isHidden.toNat

end SymbolKind

structure SymbolInfo where
  name : String
  kind : SymbolKind
deriving DecidableEq

structure Terminal where
  symbol : Symbol
  pattern : Pattern
deriving DecidableEq

/-- The name of the error symbol, which no declaration may take. -/
def errorName : String := "ERROR"

/-- A language, ready for parsing. -/
structure Grammar where
  name : String
  symbols : Array SymbolInfo
  /-- The numbers of the declared symbols by name. -/
  ids : Std.HashMap String Symbol
  rules : RuleTable
  /-- The tokens; of two equally good matches the earlier one is taken. -/
  terminals : List Terminal
  extras : List Pattern
  root : Symbol
  /-- Ranks of the symbols: the calls at the start of a rule lead to smaller
  ranks. -/
  ranks : Array Nat

namespace Grammar

def symbolCount (grammar : Grammar) : Nat := grammar.symbols.size

/-- The kind of a symbol; error nodes are named like rules. -/
def kind? (grammar : Grammar) (symbol : Symbol) : Option SymbolKind :=
  if symbol.isError then some .visible
  else grammar.symbols[symbol.id]?.map SymbolInfo.kind

def symbolName? (grammar : Grammar) (symbol : Symbol) : Option String :=
  if symbol.isError then some errorName
  else grammar.symbols[symbol.id]?.map SymbolInfo.name

/-- The name of a symbol, empty for a number that stands for none. -/
def symbolName (grammar : Grammar) (symbol : Symbol) : String :=
  (grammar.symbolName? symbol).getD ""

def symbol? (grammar : Grammar) (name : String) : Option Symbol :=
  if name = errorName then some Symbol.error else grammar.ids[name]?

def isNamed (grammar : Grammar) (symbol : Symbol) : Bool :=
  (grammar.kind? symbol).any SymbolKind.isNamed

def isHidden (grammar : Grammar) (symbol : Symbol) : Bool :=
  (grammar.kind? symbol).any SymbolKind.isHidden

def isTerminal (grammar : Grammar) (symbol : Symbol) : Bool :=
  (grammar.kind? symbol).any SymbolKind.isTerminal

/-- The names of the properties of a symbol, none for a number that stands for
no symbol. -/
def flagNames (grammar : Grammar) (symbol : Symbol) : List String :=
  ((grammar.kind? symbol).map SymbolKind.flagNames).getD []

def rule? (grammar : Grammar) (symbol : Symbol) : Option (Rule Symbol) :=
  grammar.rules.rule? symbol

def rank (grammar : Grammar) (symbol : Symbol) : Nat :=
  grammar.ranks.getD symbol.id 0

/-- The same language read from another symbol. -/
def withRoot (grammar : Grammar) (root : Symbol) : Grammar :=
  { grammar with root }

end Grammar

/-- Which nodes a search stops at. -/
inductive NodeFilter where
  | any
  | named
  | only (symbol : Symbol)
deriving DecidableEq

def NodeFilter.accepts (filter : NodeFilter) (grammar : Grammar)
    (symbol : Symbol) : Bool :=
  match filter with
  | .any => true
  | .named => grammar.isNamed symbol
  | .only wanted => symbol == wanted

end Reparse
