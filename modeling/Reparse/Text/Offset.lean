import Reparse.Text.Edit

/-!
# Arithmetic on offsets

Offsets are words below `offsetLimit`.  The operations here look whether their
result is one, and come to nothing where a sum or a shifted position is too
large or a difference would be negative.
-/

namespace Reparse

/-- The sum of two offsets, if it is one. -/
def plus? (left right : Nat) : Option Nat :=
  if left + right < offsetLimit then some (left + right) else none

/-- The difference of two offsets, if it is one. -/
def minus? (left right : Nat) : Option Nat :=
  if right ≤ left then some (left - right) else none

theorem plus?_eq_some {left right : Nat} (small : left + right < offsetLimit) :
    plus? left right = some (left + right) :=
  if_pos small

theorem minus?_eq_some {left right : Nat} (ordered : right ≤ left) :
    minus? left right = some (left - right) :=
  if_pos ordered

namespace Edit

/-- `Edit.adjust` with the shifted position checked: it is computed among the
integers, and must not change when it is stored as an offset. -/
def adjust? (edit : Edit) (position : Nat) : Option Nat :=
  if position < edit.start then some position
  else if edit.oldStop ≤ position then
    let shifted := (position : Int) + edit.delta
    if 0 ≤ shifted ∧ shifted < offsetLimit then some shifted.toNat else none
  else some (min position edit.newStop)

end Edit

end Reparse
