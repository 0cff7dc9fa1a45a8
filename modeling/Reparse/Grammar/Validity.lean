import Reparse.Grammar.Declaration
import Reparse.Grammar.Nullability

/-!
# Valid declarations

When a list of declarations describes a grammar, said rule by rule instead of as
an order of checks.
-/

namespace Reparse

namespace Declaration

def tokensOf (declarations : List Declaration) : List TokenDeclaration :=
  declarations.filterMap token?

def rulesOf (declarations : List Declaration) : List RuleDeclaration :=
  declarations.filterMap rule?

/-- The root, which is the last one declared. -/
def rootOf? (declarations : List Declaration) : Option RuleDeclaration :=
  (declarations.filterMap root?).getLast?

/-- The declared names: tokens and keywords, then the root, then the rules. -/
def declaredNames (declarations : List Declaration) (root : RuleDeclaration) :
    List String :=
  (tokensOf declarations).map TokenDeclaration.name ++
    root.name :: (rulesOf declarations).map RuleDeclaration.name

def keywordNames (declarations : List Declaration) : List String :=
  ((tokensOf declarations).filter fun token => token.kind == .literal).map
    TokenDeclaration.name

/-- The literals met inside the root and the rules, in order of appearance. -/
def inlineLiterals (declarations : List Declaration) (root : RuleDeclaration) :
    List String :=
  (root :: rulesOf declarations).flatMap fun rule => rule.body.literals

end Declaration

namespace Rule

mutual

/-- The names of declared symbols that a rule refers to, in order of
appearance. -/
def names : Rule Reference → List String
  | .symbol (.name text) => [text]
  | .symbol (.literal _) => []
  | .seq items => namesList items
  | .choice alternatives => namesList alternatives
  | .star item => item.names
  | .opt item => item.names

def namesList : List (Rule Reference) → List String
  | [] => []
  | rule :: rules => rule.names ++ namesList rules

end

mutual

def symbols {α : Type} : Rule α → List α
  | .symbol name => [name]
  | .seq items => symbolsList items
  | .choice alternatives => symbolsList alternatives
  | .star item => item.symbols
  | .opt item => item.symbols

def symbolsList {α : Type} : List (Rule α) → List α
  | [] => []
  | rule :: rules => rule.symbols ++ symbolsList rules

end

end Rule

open Declaration in
/-- The names of the declarations are in order: left recursion apart, they
describe a grammar. -/
structure NamesInOrder (declarations : List Declaration)
    (root : RuleDeclaration) : Prop where
  root_declared : rootOf? declarations = some root
  root_visible : isHiddenName root.name = false
  names_nodup : (declaredNames declarations root).Nodup
  error_not_declared : errorName ∉ declaredNames declarations root
  error_not_literal : errorName ∉ inlineLiterals declarations root
  tokens_filled : ∀ token ∈ tokensOf declarations, token.pattern ≠ .literal []
  literals_filled : "" ∉ inlineLiterals declarations root
  /-- A literal inside a rule shares its text with keywords only. -/
  literals_fresh : ∀ text ∈ inlineLiterals declarations root,
    text ∈ declaredNames declarations root → text ∈ keywordNames declarations
  names_known : ∀ rule ∈ root :: rulesOf declarations, ∀ name ∈ rule.body.names,
    name ∈ declaredNames declarations root ∨
      name ∈ inlineLiterals declarations root
  within_capacity :
    (declaredNames declarations root ++
        (inlineLiterals declarations root).eraseDups.filter
          (· ∉ declaredNames declarations root)).length ≤
      Symbol.capacity

end Reparse
