import Mathlib.Logic.Relation
import Reparse.Grammar.Validity

/-!
# Left recursion by name

Left recursion as the author of a grammar meets it, said of the declarations
before any name is numbered: which rules match empty, which names a rule calls
at its start, and which names come back to themselves through such calls.
-/

namespace Reparse

namespace Declaration

/-- The non-terminals with their rules: the root, which is its item any number
of times, and the rules in order of declaration. -/
def nonterminals (declarations : List Declaration) (root : RuleDeclaration) :
    List RuleDeclaration :=
  ⟨root.name, .star root.body⟩ :: rulesOf declarations

end Declaration

namespace Rule

/-- The rule matches empty, where a name stands for its rule in the list. -/
inductive MatchesEmpty (rules : List RuleDeclaration) :
    Rule Reference → Prop where
  | symbol {reference : Reference} {rule : RuleDeclaration} :
      rule ∈ rules → rule.name = reference.text → MatchesEmpty rules rule.body →
      MatchesEmpty rules (.symbol reference)
  | seq {items : List (Rule Reference)} :
      (∀ item ∈ items, MatchesEmpty rules item) →
      MatchesEmpty rules (.seq items)
  | choice {alternatives : List (Rule Reference)}
      {alternative : Rule Reference} :
      alternative ∈ alternatives → MatchesEmpty rules alternative →
      MatchesEmpty rules (.choice alternatives)
  | star (item : Rule Reference) : MatchesEmpty rules (.star item)
  | opt (item : Rule Reference) : MatchesEmpty rules (.opt item)

/-- The name of a rule in the list occurs in the rule, and in every sequence
around it only items that match empty stand before it. -/
inductive BeginsWith (rules : List RuleDeclaration) :
    Rule Reference → String → Prop where
  | symbol {reference : Reference} {rule : RuleDeclaration} :
      rule ∈ rules → rule.name = reference.text →
      BeginsWith rules (.symbol reference) rule.name
  | seq {before after : List (Rule Reference)} {item : Rule Reference}
      {called : String} :
      (∀ earlier ∈ before, MatchesEmpty rules earlier) →
      BeginsWith rules item called →
      BeginsWith rules (.seq (before ++ item :: after)) called
  | choice {alternatives : List (Rule Reference)} {alternative : Rule Reference}
      {called : String} :
      alternative ∈ alternatives → BeginsWith rules alternative called →
      BeginsWith rules (.choice alternatives) called
  | star {item : Rule Reference} {called : String} :
      BeginsWith rules item called → BeginsWith rules (.star item) called
  | opt {item : Rule Reference} {called : String} :
      BeginsWith rules item called → BeginsWith rules (.opt item) called

end Rule

/-- The rule of the first name calls the second one at its start. -/
def CallsAtStart (rules : List RuleDeclaration) (caller called : String) :
    Prop :=
  ∃ rule ∈ rules, rule.name = caller ∧ rule.body.BeginsWith rules called

/-- The name reaches itself through one or more calls at the start of rules. -/
def ReachesItself (rules : List RuleDeclaration) (name : String) : Prop :=
  Relation.TransGen (CallsAtStart rules) name name

end Reparse
