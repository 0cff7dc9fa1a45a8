import Reparse.Grammar.LeftRecursion

/-!
# Empty matches and leading calls

What the search for left recursion computes, said as relations: which rules can
match without a token, which symbols a rule may call at its start, and when
calls at the start lead from one symbol to another.  A symbol that leads to
itself is left recursive.
-/

namespace Reparse

namespace RuleTable

/-- The rule can match without a token. -/
inductive Nullable (rules : RuleTable) : Rule Symbol → Prop where
  | symbol {called : Symbol} {rule : Rule Symbol} :
      rules.rule? called = some rule → Nullable rules rule →
      Nullable rules (.symbol called)
  | seq {items : List (Rule Symbol)} :
      (∀ item ∈ items, Nullable rules item) → Nullable rules (.seq items)
  | choice {alternatives : List (Rule Symbol)} {alternative : Rule Symbol} :
      alternative ∈ alternatives → Nullable rules alternative →
      Nullable rules (.choice alternatives)
  | star (item : Rule Symbol) : Nullable rules (.star item)
  | opt (item : Rule Symbol) : Nullable rules (.opt item)

/-- The rule may call the symbol before it consumes a token. -/
inductive LeadingCall (rules : RuleTable) : Rule Symbol → Symbol → Prop where
  | symbol {called : Symbol} :
      rules.hasRule called = true → LeadingCall rules (.symbol called) called
  | seq {before after : List (Rule Symbol)} {item : Rule Symbol}
      {called : Symbol} :
      (∀ earlier ∈ before, Nullable rules earlier) →
      LeadingCall rules item called →
      LeadingCall rules (.seq (before ++ item :: after)) called
  | choice {alternatives : List (Rule Symbol)} {alternative : Rule Symbol}
      {called : Symbol} :
      alternative ∈ alternatives → LeadingCall rules alternative called →
      LeadingCall rules (.choice alternatives) called
  | star {item : Rule Symbol} {called : Symbol} :
      LeadingCall rules item called → LeadingCall rules (.star item) called
  | opt {item : Rule Symbol} {called : Symbol} :
      LeadingCall rules item called → LeadingCall rules (.opt item) called

/-- The rule of the first symbol may call the second one before it consumes a
token. -/
def Calls (rules : RuleTable) (caller called : Symbol) : Prop :=
  ∃ rule, rules.rule? caller = some rule ∧ LeadingCall rules rule called

/-- One or more calls before a token is consumed lead from the first symbol to
the second one. -/
inductive Leads (rules : RuleTable) : Symbol → Symbol → Prop where
  | single {caller called : Symbol} :
      rules.Calls caller called → Leads rules caller called
  | step {caller middle called : Symbol} :
      rules.Calls caller middle → Leads rules middle called →
      Leads rules caller called

/-- The symbol can come back to itself before a token is consumed. -/
def LeftRecursive (rules : RuleTable) (symbol : Symbol) : Prop :=
  rules.Leads symbol symbol

theorem Leads.trans {rules : RuleTable} {first middle last : Symbol}
    (before : rules.Leads first middle) (after : rules.Leads middle last) :
    rules.Leads first last := by
  induction before with
  | single call => exact .step call after
  | step call _ induction => exact .step call (induction after)

end RuleTable

end Reparse
