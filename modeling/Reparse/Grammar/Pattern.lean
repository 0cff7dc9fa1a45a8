import Reparse.Text.Quoted
import Reparse.Text.Utf8

/-!
# Lexical patterns

A pattern is tried at the beginning of the remaining bytes and reports two
numbers: how many bytes it matched, and how many it looked at to decide.  The
second one is what makes it sound to keep a token through an edit: as long as
the examined bytes are the same, so is the outcome.  Looking at the end of the
text counts as examining one byte past it.
-/

namespace Reparse

inductive Pattern where
  | literal (text : List UInt8)
  /-- A letter or underscore, then letters, digits and underscores. -/
  | identifier
  /-- Digits, and possibly a point with digits after it. -/
  | number
  /-- Text between two delimiters, in which a backslash takes the next byte with
  it. -/
  | quoted (delimiter : UInt8)
  | whitespace
  /-- The opening bytes and what follows them on the line. -/
  | lineComment (opening : List UInt8)
deriving DecidableEq

/-- What became of a pattern: the matched length, if it matched, and the number
of bytes examined, counted from the same place. -/
structure Scan where
  length : Option Nat
  examined : Nat
deriving DecidableEq

namespace Scan

def matched (length examined : Nat) : Scan := ⟨some length, examined⟩

def failed (examined : Nat) : Scan := ⟨none, examined⟩

/-- The same outcome, counted from `distance` bytes earlier. -/
def after (scan : Scan) (distance : Nat) : Scan :=
  ⟨scan.length.map (· + distance), scan.examined + distance⟩

/-- The matched length, if it is not zero. -/
def progress (scan : Scan) : Option Nat := scan.length.filter (0 < ·)

end Scan

namespace Byte

def newline : UInt8 := 10

def backslash : UInt8 := 92

def point : UInt8 := 46

def isDigit (byte : UInt8) : Bool := 48 ≤ byte && byte ≤ 57

def isLetter (byte : UInt8) : Bool :=
  (65 ≤ byte && byte ≤ 90) || (97 ≤ byte && byte ≤ 122)

def startsName (byte : UInt8) : Bool := isLetter byte || byte == 95

def continuesName (byte : UInt8) : Bool := startsName byte || isDigit byte

def isSpace (byte : UInt8) : Bool :=
  byte == 32 || byte == 9 || byte == 13 || byte == newline

end Byte

namespace Pattern

/-- Compares byte by byte and stops at the first difference. -/
def scanLiteral : List UInt8 → List UInt8 → Scan
  | [], _ => .matched 0 0
  | _ :: _, [] => .failed 1
  | expected :: text, byte :: rest =>
      if byte = expected then (scanLiteral text rest).after 1 else .failed 1

/-- Takes the longest run of bytes in the class, which must not be empty. -/
def scanRun (accepts : UInt8 → Bool) (rest : List UInt8) : Scan :=
  match (rest.takeWhile accepts).length with
  | 0 => .failed 1
  | length + 1 => .matched (length + 1) (length + 2)

def scanIdentifier : List UInt8 → Scan
  | [] => .failed 1
  | first :: rest =>
      if Byte.startsName first then
        let length := (rest.takeWhile Byte.continuesName).length + 1
        .matched length (length + 1)
      else .failed 1

/-- Takes the digits in front of the point, and the point only if a digit
follows it. -/
def scanNumber (rest : List UInt8) : Scan :=
  match (rest.takeWhile Byte.isDigit).length with
  | 0 => .failed 1
  | whole + 1 =>
      match rest.drop (whole + 1) with
      | [] => .matched (whole + 1) (whole + 2)
      | separator :: fraction =>
          if separator = Byte.point then
            match (fraction.takeWhile Byte.isDigit).length with
            | 0 => .matched (whole + 1) (whole + 3)
            | places + 1 => .matched (whole + places + 3) (whole + places + 4)
          else .matched (whole + 1) (whole + 2)

/-- Where the closing delimiter ends, for text whose first byte is at
`offset`. -/
def closing? (delimiter : UInt8) : List UInt8 → Nat → Option Nat
  | [], _ => none
  | byte :: rest, offset =>
      if byte = delimiter then some (offset + 1)
      else if byte = Byte.backslash then
        match rest with
        | [] => none
        | _ :: rest => closing? delimiter rest (offset + 2)
      else closing? delimiter rest (offset + 1)

/-- Takes the text from one delimiter to the next that no backslash protects.
The search for it runs to the end of the text when there is none. -/
def scanQuoted (delimiter : UInt8) : List UInt8 → Scan
  | [] => .failed 1
  | first :: rest =>
      if first = delimiter then
        match closing? delimiter rest 1 with
        | some length => .matched length length
        | none => .failed (rest.length + 2)
      else .failed 1

/-- Takes the opening bytes and all that comes before the end of the line. -/
def scanLineComment (opening rest : List UInt8) : Scan :=
  let start := scanLiteral opening rest
  match start.length with
  | none => start
  | some _ =>
      let body := (rest.drop opening.length).takeWhile (· != Byte.newline)
      .matched (opening.length + body.length) (opening.length + body.length + 1)

/-- Tries the pattern at the beginning of the remaining bytes. -/
def scan : Pattern → List UInt8 → Scan
  | .literal text, rest => scanLiteral text rest
  | .identifier, rest => scanIdentifier rest
  | .number, rest => scanNumber rest
  | .quoted delimiter, rest => scanQuoted delimiter rest
  | .whitespace, rest => scanRun Byte.isSpace rest
  | .lineComment opening, rest => scanLineComment opening rest

/-- Tries the pattern at a position of a text; nothing can be tried past its
end. -/
def scanAt? (pattern : Pattern) (input : List UInt8) (position : Nat) :
    Option Scan :=
  if position ≤ input.length then some (pattern.scan (input.drop position))
  else none

/-- Whether the pattern is an exact text.  Of two matches of one length the
literal is preferred, so that a keyword is not read as an identifier. -/
def isLiteral : Pattern → Bool
  | .literal _ => true
  | _ => false

/-- The pattern with its parameter between quotes. -/
def describe : Pattern → String
  | .literal text => "Literal(" ++ Quoted.text (Utf8.decode text) ++ ")"
  | .identifier => "Identifier"
  | .number => "Number"
  | .quoted delimiter =>
      "QuotedString(" ++ Quoted.character (Char.ofNat delimiter.toNat) ++ ")"
  | .whitespace => "Whitespace"
  | .lineComment opening =>
      "LineComment(" ++ Quoted.text (Utf8.decode opening) ++ ")"

/-! ## No scan matches more than there is -/

theorem scanLiteral_length_le {text rest : List UInt8} {length : Nat}
    (found : (scanLiteral text rest).length = some length) :
    length = text.length ∧ length ≤ rest.length := by
  induction text generalizing rest length with
  | nil =>
      simp only [scanLiteral, Scan.matched, Option.some.injEq] at found
      simp [← found]
  | cons expected text induction =>
      cases rest with
      | nil => simp [scanLiteral, Scan.failed] at found
      | cons byte rest =>
          simp only [scanLiteral] at found
          split at found
          · simp only [Scan.after, Option.map_eq_some_iff] at found
            obtain ⟨shorter, shorterFound, rfl⟩ := found
            have := induction shorterFound
            simp only [List.length_cons]
            omega
          · simp [Scan.failed] at found

theorem length_takeWhile_le (accepts : UInt8 → Bool) (rest : List UInt8) :
    (rest.takeWhile accepts).length ≤ rest.length :=
  (List.takeWhile_sublist accepts).length_le

theorem closing?_le {delimiter : UInt8} {rest : List UInt8}
    {offset length : Nat}
    (found : closing? delimiter rest offset = some length) :
    length ≤ offset + rest.length := by
  fun_induction closing? delimiter rest offset with
  | case1 => simp at found
  | case2 => simp at found; simp only [List.length_cons]; omega
  | case3 => simp at found
  | case4 _ _ _ _ induction =>
      have := induction found
      simp only [List.length_cons]
      omega
  | case5 _ _ _ _ _ induction =>
      have := induction found
      simp only [List.length_cons]
      omega

/-- A match lies within the remaining bytes. -/
theorem length_le_of_scan {pattern : Pattern} {rest : List UInt8} {length : Nat}
    (found : (pattern.scan rest).length = some length) :
    length ≤ rest.length := by
  cases pattern with
  | literal text => exact (scanLiteral_length_le found).2
  | identifier =>
      cases rest with
      | nil => simp [scan, scanIdentifier, Scan.failed] at found
      | cons first rest =>
          have := length_takeWhile_le Byte.continuesName rest
          simp only [scan, scanIdentifier] at found
          split at found
          · simp [Scan.matched] at found
            simp only [List.length_cons]
            omega
          · simp [Scan.failed] at found
  | number =>
      have wholeLength := length_takeWhile_le Byte.isDigit rest
      simp only [scan, scanNumber] at found
      split at found
      · simp [Scan.failed] at found
      · next whole wholeFound =>
          split at found
          · simp [Scan.matched] at found
            omega
          · next separator fraction remaining =>
              have remainingLength := congrArg List.length remaining
              simp only [List.length_drop, List.length_cons] at remainingLength
              have fractionLength := length_takeWhile_le Byte.isDigit fraction
              split at found
              · split at found <;> simp [Scan.matched] at found <;> omega
              · simp [Scan.matched] at found
                omega
  | quoted delimiter =>
      cases rest with
      | nil => simp [scan, scanQuoted, Scan.failed] at found
      | cons first rest =>
          simp only [scan, scanQuoted] at found
          split at found
          · split at found
            · next closed =>
                have := closing?_le closed
                simp [Scan.matched] at found
                simp only [List.length_cons]
                omega
            · simp [Scan.failed] at found
          · simp [Scan.failed] at found
  | whitespace =>
      have := length_takeWhile_le Byte.isSpace rest
      simp only [scan, scanRun] at found
      split at found
      · simp [Scan.failed] at found
      · simp [Scan.matched] at found
        omega
  | lineComment opening =>
      simp only [scan, scanLineComment] at found
      split at found
      · next failed => simp [failed] at found
      · next openingFound =>
          have := scanLiteral_length_le openingFound
          have :=
            length_takeWhile_le (· != Byte.newline) (rest.drop opening.length)
          simp only [List.length_drop] at this
          simp [Scan.matched] at found
          omega

end Pattern

end Reparse
