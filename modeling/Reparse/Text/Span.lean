/-!
# Byte spans

A span is a half-open range of byte offsets.  Spans locate tokens and nodes in a
text, and the comparison of two trees reports the changed part of the new text
as spans.
-/

namespace Reparse

/-- A range of byte offsets: `start` belongs to it and `stop` does not. -/
structure Span where
  start : Nat
  stop : Nat
deriving DecidableEq, Inhabited

namespace Span

def empty : Span := ⟨0, 0⟩

def point (offset : Nat) : Span := ⟨offset, offset⟩

def length (span : Span) : Nat := span.stop - span.start

def isEmpty (span : Span) : Bool := span.start == span.stop

def contains (span : Span) (offset : Nat) : Bool :=
  decide (span.start ≤ offset) && decide (offset < span.stop)

def intersects (left right : Span) : Bool :=
  !left.isEmpty && !right.isEmpty &&
    decide (left.start < right.stop) && decide (right.start < left.stop)

def merge (left right : Span) : Span :=
  ⟨min left.start right.start, max left.stop right.stop⟩

def shift (span : Span) (distance : Nat) : Span :=
  ⟨span.start + distance, span.stop + distance⟩

def text (span : Span) : String :=
  toString span.start ++ ".." ++ toString span.stop

def changeText (span : Span) : String :=
  "ChangeRange \x7b start: " ++ toString span.start ++ ", end: " ++
    toString span.stop ++ " \x7d"

end Span

end Reparse
