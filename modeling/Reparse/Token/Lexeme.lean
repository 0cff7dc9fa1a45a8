import Reparse.Grammar.Basic
import Reparse.Text.Edit

/-!
# Reading one lexeme

Reading depends on nothing but the remaining bytes.  First the extras are
skipped, the earliest declared one that matches each time; then every token
pattern is tried, the longest match is taken, and of equally long ones a literal
before another pattern and an earlier one before a later one.  All patterns that
were tried take part in the decision, so all the bytes they examined count.
Everything here is measured from the place where reading starts.
-/

namespace Reparse

/-- A token in its text.  `examinedEnd` lies behind the last byte examined for
it, the extras in front of it included. -/
structure Token where
  symbol : Symbol
  span : Span
  examinedEnd : Nat
deriving DecidableEq, Inhabited

/-- A byte at which no token begins. -/
structure LexError where
  offset : Nat
  byte : UInt8
deriving DecidableEq

def LexError.message (error : LexError) : String :=
  "unexpected byte 0x" ++ String.ofList (Quoted.hexByte error.byte) ++
    " at offset " ++ toString error.offset

namespace Lexeme

/-- The first extra that makes progress, by its length, and the bytes examined
in finding it. -/
def leadingExtra : List Pattern → List UInt8 → Option Nat × Nat
  | [], _ => (none, 0)
  | extra :: extras, rest =>
      let scan := extra.scan rest
      match scan.progress with
      | some length => (some length, scan.examined)
      | none =>
          let (found, examined) := leadingExtra extras rest
          (found, max scan.examined examined)

theorem leadingExtra_bounds {extras : List Pattern} {rest : List UInt8}
    {length examined : Nat}
    (found : leadingExtra extras rest = (some length, examined)) :
    0 < length ∧ length ≤ rest.length := by
  induction extras generalizing length examined with
  | nil => simp [leadingExtra] at found
  | cons extra extras induction =>
      simp only [leadingExtra] at found
      split at found
      · next progress progressFound =>
          simp only [Prod.mk.injEq, Option.some.injEq] at found
          simp only [Scan.progress, Option.filter_eq_some_iff,
            decide_eq_true_eq] at progressFound
          rw [← found.1]
          exact ⟨progressFound.2, Pattern.length_le_of_scan progressFound.1⟩
      · simp only [Prod.mk.injEq] at found
        exact induction (Prod.ext found.1 rfl)

/-- The extras between two tokens: their length and the number of bytes
examined. -/
structure Gap where
  length : Nat
  examined : Nat
deriving DecidableEq

/-- Skips extras until none makes progress. -/
def skipExtras (extras : List Pattern) (rest : List UInt8) : Gap :=
  match _ : leadingExtra extras rest with
  | (none, examined) => ⟨0, examined⟩
  | (some length, examined) =>
      let following := skipExtras extras (rest.drop length)
      ⟨length + following.length, max examined (length + following.examined)⟩
termination_by rest.length
decreasing_by
  have bounds := leadingExtra_bounds ‹_›
  simp only [List.length_drop]
  omega

/-- A token pattern that made progress. -/
structure Candidate where
  symbol : Symbol
  length : Nat
  isLiteral : Bool
  length_pos : 0 < length

namespace Candidate

def ofScan? (terminal : Terminal) (scan : Scan) : Option Candidate :=
  match scan.length with
  | some (length + 1) =>
      some ⟨terminal.symbol, length + 1, terminal.pattern.isLiteral,
        Nat.succ_pos length⟩
  | _ => none

/-- Whether a later candidate is taken instead of an earlier one. -/
def beats (later earlier : Candidate) : Bool :=
  decide (earlier.length < later.length) ||
    (later.length == earlier.length && later.isLiteral && !earlier.isLiteral)

def better : Option Candidate → Option Candidate → Option Candidate
  | none, later => later
  | some earlier, none => some earlier
  | some earlier, some later =>
      if later.beats earlier then some later else some earlier

end Candidate

/-- The token patterns tried so far: the best candidate and the bytes
examined. -/
structure Contest where
  best : Option Candidate
  examined : Nat

def Contest.enter (rest : List UInt8) (contest : Contest)
    (terminal : Terminal) : Contest :=
  let scan := terminal.pattern.scan rest
  ⟨Candidate.better contest.best (Candidate.ofScan? terminal scan),
    max contest.examined scan.examined⟩

def contest (terminals : List Terminal) (rest : List UInt8) : Contest :=
  terminals.foldl (Contest.enter rest) ⟨none, 0⟩

end Lexeme

/-- A token measured from where reading started: the extras in front of it, its
own bytes, and the number of bytes examined. -/
structure Lexeme where
  symbol : Symbol
  gap : Nat
  length : Nat
  examined : Nat
  length_pos : 0 < length

inductive Reading where
  | lexeme (lexeme : Lexeme)
  /-- Only extras were left. -/
  | finished (examined : Nat)
  /-- No token begins after the extras. -/
  | stuck (offset : Nat) (byte : UInt8)

namespace Lexeme

/-- Reads one token at the beginning of the remaining bytes. -/
def read (terminals : List Terminal) (extras : List Pattern)
    (rest : List UInt8) : Reading :=
  let skipped := skipExtras extras rest
  match rest.drop skipped.length with
  | [] => .finished (max skipped.examined (rest.length + 1))
  | byte :: tail =>
      let tried := contest terminals (byte :: tail)
      match tried.best with
      | some best =>
          .lexeme
            { symbol := best.symbol
              gap := skipped.length
              length := best.length
              examined := max skipped.examined (skipped.length + tried.examined)
              length_pos := best.length_pos }
      | none => .stuck skipped.length byte

/-- A token is read only where bytes are left. -/
theorem length_pos_of_read {terminals : List Terminal} {extras : List Pattern}
    {rest : List UInt8} {lexeme : Lexeme}
    (found : read terminals extras rest = .lexeme lexeme) :
    0 < rest.length := by
  cases rest with
  | nil => simp [read] at found
  | cons byte rest => simp

def extent (lexeme : Lexeme) : Nat := lexeme.gap + lexeme.length

def token (lexeme : Lexeme) (position : Nat) : Token :=
  { symbol := lexeme.symbol
    span := ⟨position + lexeme.gap, position + lexeme.extent⟩
    examinedEnd := position + lexeme.examined }

end Lexeme

inductive LexStep where
  | token (token : Token)
  | finished (examinedEnd : Nat)
deriving DecidableEq

/-- What reading found, in positions of the text. -/
def Reading.step (reading : Reading) (position : Nat) :
    Except LexError LexStep :=
  match reading with
  | .lexeme found => .ok (.token (found.token position))
  | .finished examined => .ok (.finished (position + examined))
  | .stuck offset byte => .error ⟨position + offset, byte⟩

/-- Reads one token at a position of a text.  Past the end of the text there is
nothing an extra could be tried on; without extras the end is found there at
once, at the greatest offset if the position lies beyond it. -/
def Grammar.lexAt? (grammar : Grammar) (input : List UInt8) (position : Nat) :
    Option (Except LexError LexStep) :=
  if position ≤ input.length then
    some ((Lexeme.read grammar.terminals grammar.extras
      (input.drop position)).step position)
  else if grammar.extras.isEmpty then
    some (.ok (.finished (min position (offsetLimit - 1))))
  else none

end Reparse
