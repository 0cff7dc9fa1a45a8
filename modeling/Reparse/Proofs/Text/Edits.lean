import Reparse.Parse.History
import Reparse.Proofs.Token.Locality

/-!
# Positions under edits

An edit that fits a text moves its positions in order and past no limit.  Bytes
that it does not touch are found again at the moved position.
-/

namespace Reparse

namespace Edit

/-- The edit has its bounds in order, lies in a text of `length` bytes and does
not make it too long. -/
structure Fits (edit : Edit) (length : Nat) : Prop where
  ordered : edit.start ≤ edit.oldStop
  grows : edit.start ≤ edit.newStop
  inside : edit.oldStop ≤ length
  small : edit.resultLength length < offsetLimit

theorem fits_of_check {edit : Edit} {length : Nat}
    (accepted : edit.check length = .ok ()) : edit.Fits length := by
  unfold check at accepted
  split at accepted
  · cases accepted
  · split at accepted
    · cases accepted
    · split at accepted
      · cases accepted
      · split at accepted
        · cases accepted
        · constructor <;> omega

/-- An accepted edit makes no text longer than one that is parsed. -/
theorem resultLength_le_of_check {edit : Edit} {length : Nat}
    (accepted : edit.check length = .ok ()) :
    edit.resultLength length ≤ Parser.longestText := by
  unfold check at accepted
  repeat
    split at accepted
    · cases accepted
  rw [Parser.longestText]
  omega

section

variable {edit : Edit} {length position : Nat} (fits : edit.Fits length)

theorem adjust_of_lt (before : position < edit.start) :
    edit.adjust position = position :=
  if_pos before

theorem adjust_of_between (after : edit.start ≤ position)
    (before : position < edit.oldStop) :
    edit.adjust position = min position edit.newStop := by
  rw [adjust, if_neg (by omega), if_neg (by omega)]

include fits

theorem adjust_of_le (after : edit.oldStop ≤ position)
    (within : position ≤ length) :
    edit.adjust position = position - edit.oldStop + edit.newStop := by
  have ordered := fits.ordered
  have small := fits.small
  simp only [resultLength] at small
  rw [adjust, if_neg (by omega), if_pos after]
  exact Nat.mod_eq_of_lt (by omega)

/-- Where a position lies after the edit. -/
theorem adjust_cases (within : position ≤ length) :
    (position < edit.start ∧ edit.adjust position = position) ∨
      (edit.oldStop ≤ position ∧
        edit.adjust position = position - edit.oldStop + edit.newStop) ∨
        (edit.start ≤ position ∧ position < edit.oldStop ∧
          edit.adjust position = min position edit.newStop) := by
  rcases Nat.lt_or_ge position edit.start with before | after
  · exact .inl ⟨before, adjust_of_lt before⟩
  · rcases Nat.lt_or_ge position edit.oldStop with inside | behind
    · exact .inr (.inr ⟨after, inside, adjust_of_between after inside⟩)
    · exact .inr (.inl ⟨behind, adjust_of_le fits behind within⟩)

theorem adjust_le_adjust {later : Nat} (ordered : position ≤ later)
    (within : later ≤ length) : edit.adjust position ≤ edit.adjust later := by
  have bounds := fits.ordered
  have grows := fits.grows
  rcases adjust_cases fits (Nat.le_trans ordered within) with
    ⟨_, here⟩ | ⟨_, here⟩ | ⟨_, _, here⟩ <;>
  rcases adjust_cases fits within with
    ⟨_, there⟩ | ⟨_, there⟩ | ⟨_, _, there⟩ <;>
  omega

theorem adjust_length : edit.adjust length = edit.resultLength length := by
  rw [adjust_of_le fits fits.inside (Nat.le_refl _)]
  rfl

end

/-- An edit that does not affect a span lies behind what was looked at for it,
or in front of it. -/
theorem affects_eq_false {edit : Edit} {start stop lookahead : Nat} :
    edit.affects ⟨start, stop⟩ lookahead = false ↔
      stop + lookahead ≤ edit.start ∨ edit.oldStop ≤ start := by
  simp only [affects, Bool.and_eq_false_iff, decide_eq_false_iff_not]
  omega

section

variable {edit : Edit} {length start stop lookahead : Nat}
  (fits : edit.Fits length) (within : stop ≤ length)
  (unaffected : edit.affects ⟨start, stop⟩ lookahead = false)

include fits within unaffected

/-- Positions inside a span that is not affected keep their distance from its
start. -/
theorem adjust_add {distance : Nat} (inside : start + distance < stop) :
    edit.adjust (start + distance) = edit.adjust start + distance := by
  have bounds := fits.ordered
  rcases affects_eq_false.mp unaffected with before | after
  · rw [adjust_of_lt (by omega), adjust_of_lt (by omega)]
  · rw [adjust_of_le fits (by omega) (by omega),
      adjust_of_le fits after (by omega)]
    omega

/-- A span that is not affected ends no later than its end is moved to. -/
theorem adjust_add_le (ordered : start ≤ stop) :
    edit.adjust start + (stop - start) ≤ edit.adjust stop := by
  have bounds := fits.ordered
  have grows := fits.grows
  rcases affects_eq_false.mp unaffected with before | after
  · rcases adjust_cases fits (Nat.le_trans ordered within) with
      ⟨_, here⟩ | ⟨_, here⟩ | ⟨_, _, here⟩ <;>
    rcases adjust_cases fits within with
      ⟨_, there⟩ | ⟨_, there⟩ | ⟨_, _, there⟩ <;>
    omega
  · rw [adjust_of_le fits after (by omega),
      adjust_of_le fits (Nat.le_trans after ordered) within]
    omega

/-- What was looked at for a span that is not affected stays within what was
looked at for a span around it. -/
theorem adjust_covered {outerStop outerLookahead : Nat} (filled : start < stop)
    (inside : stop ≤ outerStop) (outerWithin : outerStop ≤ length)
    (covered : stop + lookahead ≤ outerStop + outerLookahead) :
    edit.adjust start + (stop - start) + lookahead ≤
      edit.adjust outerStop + outerLookahead := by
  have bounds := fits.ordered
  have grows := fits.grows
  rcases affects_eq_false.mp unaffected with before | after
  · rw [adjust_of_lt (by omega)]
    rcases adjust_cases fits outerWithin with
      ⟨_, there⟩ | ⟨_, there⟩ | ⟨_, _, there⟩ <;>
    omega
  · rw [adjust_of_le fits after (by omega),
      adjust_of_le fits (by omega) outerWithin]
    omega

/-- The bytes looked at for a span that is not affected are found again where
the span is moved to. -/
theorem agreeFor_of_produces (filled : start < stop) {old new : List UInt8}
    (produces : edit.Produces old new) :
    AgreeFor (stop - start + lookahead) (old.drop start)
      (new.drop (edit.adjust start)) := by
  obtain ⟨ordered, oldInside, inserted, newStop, rfl⟩ := produces
  rcases affects_eq_false.mp unaffected with before | after
  · rw [adjust_of_lt (by omega)]
    intro index below
    have inFront : start + index < (old.take edit.start).length := by
      rw [List.length_take]
      omega
    rw [List.getElem?_drop, List.getElem?_drop,
      List.getElem?_append_left inFront, List.getElem?_take_of_lt (by omega)]
  · rw [adjust_of_le fits after (by omega)]
    have moved : start - edit.oldStop + edit.newStop =
        (old.take edit.start).length +
          (inserted.length + (start - edit.oldStop)) := by
      rw [List.length_take]
      omega
    rw [moved, List.drop_length_add_append, List.drop_length_add_append,
      List.drop_drop,
      show edit.oldStop + (start - edit.oldStop) = start from by omega]
    exact AgreeFor.refl _ _

end

/-- Where a position lies after edits in order. -/
def adjustAll (edits : List Edit) (position : Nat) : Nat :=
  edits.foldl (fun place edit => edit.adjust place) position

/-- The edits fit a text of `length` bytes, one after the other. -/
inductive FitAll : List Edit → Nat → Prop where
  | nil (length : Nat) : FitAll [] length
  | cons {edit : Edit} {edits : List Edit} {length : Nat} :
      edit.Fits length → FitAll edits (edit.resultLength length) →
      FitAll (edit :: edits) length

/-- No edit affects the node at the span it has when the edit is applied. -/
def Untouched : List Edit → Nat → Node → Prop
  | [], _, _ => True
  | edit :: edits, start, node =>
      edit.affects ⟨start, start + node.length⟩ node.lookahead = false ∧
        Untouched edits (edit.adjust start) node

/-- The bytes looked at for a node that no edit affects are found again where
the node is moved to. -/
theorem agreeFor_of_untouched {edits : List Edit} {length start : Nat}
    {node : Node} {old new : List UInt8} (fitAll : FitAll edits length)
    (produced : EditsProduce edits old new) (filled : 0 < node.length)
    (within : start + node.length ≤ length)
    (untouched : Untouched edits start node) :
    AgreeFor (node.length + node.lookahead) (old.drop start)
      (new.drop (adjustAll edits start)) := by
  induction produced generalizing length start with
  | nil text => exact AgreeFor.refl _ _
  | @cons edit edits old middle new produces _ induction =>
      obtain ⟨unaffected, later⟩ := untouched
      cases fitAll with
      | cons fits fitLater =>
          have first := agreeFor_of_produces fits within unaffected (by omega)
            produces
          rw [Nat.add_sub_cancel_left] at first
          refine first.trans (induction fitLater ?_ later)
          have moved := adjust_add_le fits within unaffected (by omega)
          have reached := adjust_le_adjust fits within (Nat.le_refl _)
          rw [adjust_length fits] at reached
          omega

end Edit

end Reparse
