import Reparse.Token.List

/-!
# Maximal munch

What reading a text finds, said without reading.  Between two tokens lies the
greedy chain of extras: the earliest declared extra that makes progress, and
then the chain of what is left.  At a token no extra makes progress, and its
pattern is the preferred one among those that make progress.
-/

namespace Reparse

namespace Pattern

/-- The pattern matches that many bytes, at least one, at the beginning of the
remaining bytes. -/
def Progresses (pattern : Pattern) (rest : List UInt8) (length : Nat) : Prop :=
  (pattern.scan rest).length = some length ∧ 0 < length

def Stalls (pattern : Pattern) (rest : List UInt8) : Prop :=
  ∀ length, ¬pattern.Progresses rest length

end Pattern

/-- The greedy chain of extras at the beginning of the remaining bytes has this
length. -/
inductive ExtraChain (extras : List Pattern) : List UInt8 → Nat → Prop where
  | done {rest : List UInt8} :
      (∀ extra ∈ extras, extra.Stalls rest) → ExtraChain extras rest 0
  | step {before after : List Pattern} {extra : Pattern} {rest : List UInt8}
      {length following : Nat} :
      extras = before ++ extra :: after →
      (∀ earlier ∈ before, earlier.Stalls rest) →
      extra.Progresses rest length →
      ExtraChain extras (rest.drop length) following →
      ExtraChain extras rest (length + following)

/-- The terminal at an index is the one to take, with a match of this length. -/
structure Wins (terminals : List Terminal) (rest : List UInt8)
    (index length : Nat) (terminal : Terminal) : Prop where
  declared : terminals[index]? = some terminal
  progresses : terminal.pattern.Progresses rest length
  longest : ∀ other ∈ terminals, ∀ otherLength,
    other.pattern.Progresses rest otherLength → otherLength ≤ length
  /-- Of the literals that match as much, it is the earliest. -/
  first_literal : ∀ (otherIndex : Nat) (other : Terminal),
    terminals[otherIndex]? = some other →
    other.pattern.Progresses rest length → other.pattern.isLiteral = true →
      terminal.pattern.isLiteral = true ∧ index ≤ otherIndex
  /-- Unless it is a literal, it is the earliest of all that match as much. -/
  first_of_all : ∀ (otherIndex : Nat) (other : Terminal),
    terminals[otherIndex]? = some other →
    other.pattern.Progresses rest length → terminal.pattern.isLiteral = false →
      index ≤ otherIndex

/-- Where reading goes on after the first tokens of a text: the extras and
tokens up to there cover all bytes. -/
inductive Munch (grammar : Grammar) (input : List UInt8) :
    List Token → Nat → Prop where
  | start : Munch grammar input [] 0
  | token {tokens : List Token} {position gap index length : Nat}
      {terminal : Terminal} {examinedEnd : Nat} :
      Munch grammar input tokens position →
      ExtraChain grammar.extras (input.drop position) gap →
      Wins grammar.terminals (input.drop (position + gap)) index length
          terminal →
      Munch grammar input
        (tokens ++
          [⟨terminal.symbol, ⟨position + gap, position + gap + length⟩,
            examinedEnd⟩])
        (position + gap + length)

/-- The tokens, the extras between them and the extras behind the last one cover
the text. -/
def Munched (grammar : Grammar) (input : List UInt8) (tokens : List Token) :
    Prop :=
  ∃ position gap, Munch grammar input tokens position ∧
    ExtraChain grammar.extras (input.drop position) gap ∧
      position + gap = input.length

/-- Behind the first tokens of a text and the extras after them a byte is left
at which neither an extra nor a terminal makes progress. -/
def StuckAt (grammar : Grammar) (input : List UInt8) (error : LexError) :
    Prop :=
  ∃ tokens position gap, Munch grammar input tokens position ∧
    ExtraChain grammar.extras (input.drop position) gap ∧
      error.offset = position + gap ∧
        input[error.offset]? = some error.byte ∧
          (∀ extra ∈ grammar.extras, extra.Stalls (input.drop error.offset)) ∧
            ∀ terminal ∈ grammar.terminals,
              terminal.pattern.Stalls (input.drop error.offset)

def Token.place (token : Token) : Symbol × Span := (token.symbol, token.span)

end Reparse
