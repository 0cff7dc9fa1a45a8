import Reparse.Grammar.Symbol

/-!
# Rules

A rule says how the tokens of a construct follow one another.  Choice is
ordered: the first alternative that matches is taken and the later ones are not
tried.  Rules are written over references, which name symbols by text, and run
over symbols; `Rule.resolve` leads from the one to the other.
-/

namespace Reparse

inductive Rule (α : Type) where
  /-- What the symbol stands for. -/
  | symbol (name : α)
  | seq (items : List (Rule α))
  | choice (alternatives : List (Rule α))
  /-- The item zero or more times, as long as it consumes something. -/
  | star (item : Rule α)
  | opt (item : Rule α)

/-- How the author of a grammar refers to a symbol. -/
inductive Reference where
  | name (text : String)
  /-- An anonymous token that is exactly this text, declared by its first
  use. -/
  | literal (text : String)
deriving DecidableEq

def Reference.text : Reference → String
  | .name text => text
  | .literal text => text

namespace Rule

variable {α β ε : Type}

def named (text : String) : Rule Reference := .symbol (.name text)

def literal (text : String) : Rule Reference := .symbol (.literal text)

/-- The item one or more times. -/
def plus (item : Rule α) : Rule α := .seq [item, .star item]

/-- Items with a separator between any two of them; possibly none. -/
def separated (item : Rule Reference) (separator : String) : Rule Reference :=
  .opt (.seq [item, .star (.seq [literal separator, item])])

mutual

def literals : Rule Reference → List String
  | .symbol (.name _) => []
  | .symbol (.literal text) => [text]
  | .seq items => literalsList items
  | .choice alternatives => literalsList alternatives
  | .star item => item.literals
  | .opt item => item.literals

def literalsList : List (Rule Reference) → List String
  | [] => []
  | rule :: rules => rule.literals ++ literalsList rules

end

mutual

/-- Replaces every symbol; the first one that cannot be replaced is the
outcome. -/
def resolve (lookup : α → Except ε β) : Rule α → Except ε (Rule β)
  | .symbol name => do return .symbol (← lookup name)
  | .seq items => do return .seq (← resolveList lookup items)
  | .choice alternatives => do
      return .choice (← resolveList lookup alternatives)
  | .star item => do return .star (← item.resolve lookup)
  | .opt item => do return .opt (← item.resolve lookup)

def resolveList (lookup : α → Except ε β) :
    List (Rule α) → Except ε (List (Rule β))
  | [] => .ok []
  | rule :: rules => do
      let resolved ← rule.resolve lookup
      return resolved :: (← resolveList lookup rules)

end

end Rule

end Reparse
