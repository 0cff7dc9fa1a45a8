import Reparse.Grammar.Pattern

/-!
# Languages of patterns

Which bytes a pattern stands for, said without scanning.
-/

namespace Reparse

/-- The text between two delimiters: bytes other than the delimiter and the
backslash, and backslashes with the byte after them.  A backslash that is itself
the delimiter protects nothing. -/
inductive QuotedBody (delimiter : UInt8) : List UInt8 → Prop where
  | nil : QuotedBody delimiter []
  | plain {byte : UInt8} {rest : List UInt8} :
      byte ≠ delimiter → byte ≠ Byte.backslash → QuotedBody delimiter rest →
      QuotedBody delimiter (byte :: rest)
  | escaped {byte : UInt8} {rest : List UInt8} :
      delimiter ≠ Byte.backslash → QuotedBody delimiter rest →
      QuotedBody delimiter (Byte.backslash :: byte :: rest)

namespace Pattern

def IsRun (accepts : UInt8 → Bool) (bytes : List UInt8) : Prop :=
  bytes ≠ [] ∧ ∀ byte ∈ bytes, accepts byte = true

/-- The bytes are a lexeme of the pattern. -/
def Accepts : Pattern → List UInt8 → Prop
  | .literal text, bytes => bytes = text
  | .identifier, bytes =>
      ∃ first rest, bytes = first :: rest ∧ Byte.startsName first = true ∧
        ∀ byte ∈ rest, Byte.continuesName byte = true
  | .number, bytes =>
      IsRun Byte.isDigit bytes ∨
        ∃ whole fraction, bytes = whole ++ Byte.point :: fraction ∧
          IsRun Byte.isDigit whole ∧ IsRun Byte.isDigit fraction
  | .quoted delimiter, bytes =>
      ∃ body, bytes = delimiter :: (body ++ [delimiter]) ∧
        QuotedBody delimiter body
  | .whitespace, bytes => IsRun Byte.isSpace bytes
  | .lineComment opening, bytes =>
      ∃ body, bytes = opening ++ body ∧ Byte.newline ∉ body

/-- The longest lexeme of the pattern at the beginning of the remaining bytes
has this length. -/
def LongestMatch (pattern : Pattern) (rest : List UInt8) (length : Nat) :
    Prop :=
  length ≤ rest.length ∧ pattern.Accepts (rest.take length) ∧
    ∀ longer, longer ≤ rest.length → pattern.Accepts (rest.take longer) →
      longer ≤ length

/-- How many of the remaining bytes the pattern takes.  A literal takes exactly
its text, a quotation ends where it is a lexeme, a comment goes on to the end of
the line or of the text, and all else is taken for as long as possible. -/
def Takes : Pattern → List UInt8 → Nat → Prop
  | .literal text, rest, length => text <+: rest ∧ length = text.length
  | .quoted delimiter, rest, length =>
      length ≤ rest.length ∧ (quoted delimiter).Accepts (rest.take length)
  | .lineComment opening, rest, length =>
      ∃ body after, rest = opening ++ (body ++ after) ∧ Byte.newline ∉ body ∧
        (after = [] ∨ after.head? = some Byte.newline) ∧
          length = opening.length + body.length
  | .identifier, rest, length => identifier.LongestMatch rest length
  | .number, rest, length => number.LongestMatch rest length
  | .whitespace, rest, length => whitespace.LongestMatch rest length

end Pattern

end Reparse
