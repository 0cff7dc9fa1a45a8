import Reparse.Grammar.Slices
import Reparse.Token.List

/-!
# Reading in loops

Tokens are read by loops over positions of the text: over the extras, again from
the first one whenever one of them made progress; over the token patterns, with
the best match so far; and over the tokens until the end is found.  Nothing here
bounds the loops, and each scan slices the text at its position.  So a loop that
never ends, like a slice outside of the text, leaves reading without a value.
-/

namespace Reparse

/-- Tries the extras in order until one makes progress: where reading goes on
behind it, and how far all the patterns tried have looked. -/
def passExtra :
    List Pattern → List UInt8 → Nat → Nat → Option (Option Nat × Nat)
  | [], _, _, examined => some (none, examined)
  | extra :: extras, input, position, examined => do
      let scan ← extra.scanSliced input position
      match scan.progress with
      | some length =>
          some (some (position + length),
            max examined (position + scan.examined))
      | none =>
          passExtra extras input position
            (max examined (position + scan.examined))

/-- Whether a match of a token pattern is taken instead of the best one so
far. -/
def outdoes (length : Nat) (terminal : Terminal) :
    Option (Nat × Terminal) → Bool
  | none => true
  | some (bestLength, best) =>
      decide (bestLength < length) ||
        (length == bestLength && terminal.pattern.isLiteral &&
          !best.pattern.isLiteral)

/-- Tries the token patterns in order: the best match, if there is one, and how
far all of them have looked. -/
def tryTerminals :
    List Terminal → List UInt8 → Nat → Option (Nat × Terminal) → Nat →
      Option (Option (Nat × Terminal) × Nat)
  | [], _, _, best, examined => some (best, examined)
  | terminal :: terminals, input, position, best, examined => do
      let scan ← terminal.pattern.scanSliced input position
      let examined := max examined (position + scan.examined)
      match scan.progress with
      | some length =>
          let best :=
            if outdoes length terminal best then some (length, terminal)
            else best
          tryTerminals terminals input position best examined
      | none => tryTerminals terminals input position best examined

namespace Grammar

/-- Passes extras, from the first declared one again each time, until none makes
progress. -/
def passExtras (grammar : Grammar) (input : List UInt8)
    (position examined : Nat) : Option (Nat × Nat) := do
  let (passed, examined) ← passExtra grammar.extras input position examined
  match passed with
  | some next => grammar |>.passExtras input next examined
  | none => some (position, examined)
partial_fixpoint

/-- Reads one token at a position. -/
def lexLoop (grammar : Grammar) (input : List UInt8) (start : Nat) :
    Option (Except LexError LexStep) := do
  let (position, examined) ← grammar.passExtras input start start
  match input[position]? with
  | none => return .ok (.finished (max examined (input.length + 1)))
  | some byte =>
      let (best, examined) ←
        tryTerminals grammar.terminals input position none examined
      match best with
      | some (length, terminal) =>
          return .ok
            (.token ⟨terminal.symbol, ⟨position, position + length⟩, examined⟩)
      | none => return .error ⟨position, byte⟩

/-- Reads tokens, each from the end of the one before it, until the end is
found. -/
def tokenizeLoop (grammar : Grammar) (input : List UInt8) (position : Nat)
    (tokens : Array Token) : Option (Except LexError TokenList) := do
  match ← grammar.lexLoop input position with
  | .error error => return .error error
  | .ok (.token token) =>
      grammar |>.tokenizeLoop input token.span.stop (tokens.push token)
  | .ok (.finished examinedEnd) =>
      return .ok ⟨tokens, examinedEnd, input.length⟩
partial_fixpoint

end Grammar

end Reparse
