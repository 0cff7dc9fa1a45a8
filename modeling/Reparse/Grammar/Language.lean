import Reparse.Grammar.Basic
import Reparse.Grammar.Nullability

/-!
# Languages of rules

A rule describes a language of symbol sequences, namely those that the children
of a node derived by the rule can form.  A visible symbol stands for itself, or
for nothing if its rule can match without a token; a hidden symbol stands for
what its rule describes.
-/

namespace Reparse

namespace Grammar

/-- The sequence of symbols belongs to the language of the rule. -/
inductive Yields (grammar : Grammar) : Rule Symbol → List Symbol → Prop where
  | terminal {symbol : Symbol} :
      grammar.isTerminal symbol = true →
      Yields grammar (.symbol symbol) [symbol]
  | visible {symbol : Symbol} {rule : Rule Symbol} :
      grammar.isTerminal symbol = false → grammar.isHidden symbol = false →
      grammar.rule? symbol = some rule →
      Yields grammar (.symbol symbol) [symbol]
  | empty {symbol : Symbol} :
      grammar.isTerminal symbol = false → grammar.isHidden symbol = false →
      grammar.rules.Nullable (.symbol symbol) →
      Yields grammar (.symbol symbol) []
  | hidden {symbol : Symbol} {rule : Rule Symbol} {word : List Symbol} :
      grammar.isTerminal symbol = false → grammar.isHidden symbol = true →
      grammar.rule? symbol = some rule → Yields grammar rule word →
      Yields grammar (.symbol symbol) word
  | seqNil : Yields grammar (.seq []) []
  | seqCons {item : Rule Symbol} {items : List (Rule Symbol)}
      {first rest : List Symbol} :
      Yields grammar item first → Yields grammar (.seq items) rest →
      Yields grammar (.seq (item :: items)) (first ++ rest)
  | choice {alternatives : List (Rule Symbol)} {alternative : Rule Symbol}
      {word : List Symbol} :
      alternative ∈ alternatives → Yields grammar alternative word →
      Yields grammar (.choice alternatives) word
  | starNil (item : Rule Symbol) : Yields grammar (.star item) []
  | starCons {item : Rule Symbol} {first rest : List Symbol} :
      Yields grammar item first → Yields grammar (.star item) rest →
      Yields grammar (.star item) (first ++ rest)
  | optNone (item : Rule Symbol) : Yields grammar (.opt item) []
  | optSome {item : Rule Symbol} {word : List Symbol} :
      Yields grammar item word → Yields grammar (.opt item) word

end Grammar

end Reparse
