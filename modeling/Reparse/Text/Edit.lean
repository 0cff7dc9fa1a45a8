import Reparse.Text.Span

/-!
# Edits

An edit replaces the bytes `start..oldStop` of a text so that the replacement
occupies `start..newStop`.  What a node was derived from is its span together
with the bytes past its end that were looked at; an edit *affects* the node when
it touches one of those bytes.  Offsets are kept below `offsetLimit`, and
`Edit.check` refuses every edit whose result would not be.
-/

namespace Reparse

/-- Offsets are stored in words of this many values. -/
def offsetLimit : Nat := 1 <<< 32

/-- The replacement of the bytes `start..oldStop` by bytes at
`start..newStop`. -/
structure Edit where
  start : Nat
  oldStop : Nat
  newStop : Nat
deriving DecidableEq, Inhabited

inductive EditError where
  | startAfterOldStop (start oldStop : Nat)
  | startAfterNewStop (start newStop : Nat)
  | outOfBounds (oldStop length : Nat)
  | tooLarge (newLength : Nat)
  | lengthMismatch (expected actual : Nat)
deriving DecidableEq

def EditError.message : EditError → String
  | .startAfterOldStop start oldStop =>
      "edit start " ++ toString start ++ " is after its old end " ++
        toString oldStop
  | .startAfterNewStop start newStop =>
      "edit start " ++ toString start ++ " is after its new end " ++
        toString newStop
  | .outOfBounds oldStop length =>
      "edit ends at byte " ++ toString oldStop ++ " but the text is only " ++
        toString length ++ " bytes long"
  | .tooLarge newLength =>
      "edit would grow the text to " ++ toString newLength ++ " bytes"
  | .lengthMismatch expected actual =>
      "edited tree expects " ++ toString expected ++ " bytes of text but " ++
        toString actual ++ " were supplied"

namespace Edit

def insert (start length : Nat) : Edit := ⟨start, start, start + length⟩

def delete (start length : Nat) : Edit := ⟨start, start + length, start⟩

def replace (start oldLength newLength : Nat) : Edit :=
  ⟨start, start + oldLength, start + newLength⟩

/-- By how many bytes the text grows; negative when it shrinks. -/
def delta (edit : Edit) : Int := (edit.newStop : Int) - (edit.oldStop : Int)

def oldLength (edit : Edit) : Nat := edit.oldStop - edit.start

def newLength (edit : Edit) : Nat := edit.newStop - edit.start

/-- Whether the edit touches a byte of `span` or one of the `lookahead` bytes
after it.  A pure insertion exactly at the start of the span only moves it. -/
def affects (edit : Edit) (span : Span) (lookahead : Nat) : Bool :=
  decide (edit.start < span.stop + lookahead) &&
    decide (span.start < edit.oldStop)

/-- Where a position of the old text lies in the new text.  Positions before the
edit stay, positions at or after the removed bytes move with what follows, and
positions among the removed bytes are drawn back into the inserted ones. -/
def adjust (edit : Edit) (position : Nat) : Nat :=
  if position < edit.start then position
  else if edit.oldStop ≤ position then
    (position - edit.oldStop + edit.newStop) % offsetLimit
  else min position edit.newStop

def resultLength (edit : Edit) (length : Nat) : Nat :=
  length - edit.oldStop + edit.newStop

/-- Refuses an edit that does not fit a text of `length` bytes or makes it too
long to parse. -/
def check (edit : Edit) (length : Nat) : Except EditError Unit :=
  if edit.oldStop < edit.start then
    .error (.startAfterOldStop edit.start edit.oldStop)
  else if edit.newStop < edit.start then
    .error (.startAfterNewStop edit.start edit.newStop)
  else if length < edit.oldStop then
    .error (.outOfBounds edit.oldStop length)
  else if offsetLimit - 1 ≤ edit.resultLength length then
    .error (.tooLarge (edit.resultLength length))
  else .ok ()

def text (edit : Edit) : String :=
  "[" ++ toString edit.start ++ ", " ++ toString edit.oldStop ++ ") -> [" ++
    toString edit.start ++ ", " ++ toString edit.newStop ++ ")"

def describe (edit : Edit) : String :=
  "InputEdit \x7b start: " ++ toString edit.start ++ ", old_end: " ++
    toString edit.oldStop ++ ", new_end: " ++ toString edit.newStop ++ " \x7d"

end Edit

end Reparse
