import Reparse.Grammar.Slices

/-!
# No scan slices outside

The scans by indices come to an end within the text and find what the scans by
recursion find.  An index never leaves the bytes it was taken for: behind a
byte that was looked at there is always a slice, if only an empty one, and the
search for a closing delimiter stops before it jumps past the end.
-/

namespace Reparse

theorem slice?_eq_some {bytes : List UInt8} {index : Nat}
    (inside : index ≤ bytes.length) :
    slice? bytes index = some (bytes.drop index) :=
  if_pos inside

namespace Pattern

theorem literalFrom_eq (rest text : List UInt8) (index : Nat) :
    literalFrom rest index text =
      (scanLiteral text (rest.drop index)).after index := by
  induction text generalizing index with
  | nil => simp [literalFrom, scanLiteral, Scan.matched, Scan.after]
  | cons expected text induction =>
      rw [literalFrom, induction]
      cases found : rest[index]? with
      | none =>
          rw [List.drop_eq_nil_of_le (List.getElem?_eq_none_iff.mp found)]
          simp [scanLiteral, Scan.failed, Scan.after, Nat.add_comm]
      | some byte =>
          obtain ⟨inside, here⟩ := List.getElem?_eq_some_iff.mp found
          rw [List.drop_eq_getElem_cons inside, here]
          by_cases same : byte = expected
          · have place (x : Nat) : x + (index + 1) = x + 1 + index := by omega
            simp [scanLiteral, same, Scan.after, Function.comp_def, place]
          · simp [scanLiteral, same, Scan.failed, Scan.after, Nat.add_comm]

theorem literalFrom_zero (rest text : List UInt8) :
    literalFrom rest 0 text = scanLiteral text rest := by
  rw [literalFrom_eq]
  simp [Scan.after]

theorem identifierSliced_eq (rest : List UInt8) :
    identifierSliced rest = some (scanIdentifier rest) := by
  cases rest with
  | nil => rfl
  | cons first rest =>
      simp only [identifierSliced, List.head?_cons, scanIdentifier]
      split
      · rw [slice?_eq_some (Nat.le_add_left 1 rest.length), Option.bind_eq_bind,
          Option.bind_some, List.drop_one, List.tail_cons, Nat.add_comm 1]
        rfl
      · rfl

theorem numberSliced_eq (rest : List UInt8) :
    numberSliced rest = some (scanNumber rest) := by
  have within := length_takeWhile_le Byte.isDigit rest
  simp only [numberSliced, scanNumber]
  cases count : (rest.takeWhile Byte.isDigit).length with
  | zero => rfl
  | succ whole =>
      rw [count] at within
      simp only [Nat.succ_ne_zero, if_false]
      cases behind : rest.drop (whole + 1) with
      | nil =>
          have none : rest[whole + 1]? = none := by
            rw [← List.head?_drop, behind]
            rfl
          simp [none]
      | cons separator fraction =>
          have here : rest[whole + 1]? = some separator := by
            rw [← List.head?_drop, behind]
            rfl
          have inside := (List.getElem?_eq_some_iff.mp here).1
          have after : rest.drop (whole + 1 + 1) = fraction := by
            rw [← List.drop_drop, behind]
            rfl
          by_cases point : separator = Byte.point
          · simp only [here, point, ne_eq, not_true_eq_false, if_false, if_true]
            rw [slice?_eq_some (Nat.succ_le_of_lt inside), after,
              Option.bind_eq_bind, Option.bind_some]
            cases (fraction.takeWhile Byte.isDigit).length with
            | zero => rfl
            | succ places =>
                simp [Scan.matched]
                omega
          · simp [here, point]

/-- Up to the next delimiter or backslash nothing closes a quotation. -/
theorem closing?_of_findIdx? {delimiter : UInt8} {bytes : List UInt8}
    (offset : Nat) :
    closing? delimiter bytes offset =
      match bytes.findIdx? fun byte =>
          byte == delimiter || byte == Byte.backslash with
      | none => none
      | some distance =>
          if bytes[distance]? = some delimiter then
            some (offset + distance + 1)
          else
            closing? delimiter (bytes.drop (distance + 2))
              (offset + distance + 2) := by
  induction bytes generalizing offset with
  | nil => rfl
  | cons byte bytes induction =>
      rw [List.findIdx?_cons]
      by_cases closes : byte = delimiter
      · rw [closing?.eq_def]
        simp [closes]
      · by_cases escapes : byte = Byte.backslash
        · subst escapes
          cases bytes <;> simp [closing?, closes]
        · have later := induction (offset + 1)
          have skipped : closing? delimiter (byte :: bytes) offset =
              closing? delimiter bytes (offset + 1) := by
            rw [closing?.eq_def]
            simp only [if_neg closes, if_neg escapes]
          have other :
              (byte == delimiter || byte == Byte.backslash) = false := by
            simp [closes, escapes]
          rw [skipped, later, other]
          cases bytes.findIdx? fun byte =>
              byte == delimiter || byte == Byte.backslash with
          | none => rfl
          | some distance =>
              have place : offset + 1 + distance = offset + (distance + 1) := by
                omega
              simp only [Option.map_some, Bool.false_eq_true, if_false,
                List.getElem?_cons_succ, List.drop_succ_cons, place]

/-- The jumps end where a recursion over the bytes ends. -/
theorem Quotation.jump_eq (delimiter : UInt8) (rest : List UInt8) (index : Nat)
    (inside : index ≤ rest.length) :
    Quotation.jump ⟨delimiter, rest⟩ index =
      some (match closing? delimiter (rest.drop index) index with
        | some length => .matched length length
        | none => .failed (rest.length + 1)) := by
  rw [jump, slice?_eq_some inside, Option.bind_eq_bind,
    Option.bind_some, closing?_of_findIdx?]
  cases found : (rest.drop index).findIdx? fun byte =>
      byte == delimiter || byte == Byte.backslash with
  | none => rfl
  | some distance =>
      have within : index + distance < rest.length := by
        have := (List.findIdx?_eq_some_iff_getElem.mp found).1
        rw [List.length_drop] at this
        omega
      have here : rest[index + distance]? = some rest[index + distance] :=
        List.getElem?_eq_getElem within
      simp only [List.getElem?_drop, here, Option.bind_eq_bind,
        Option.bind_some, Option.some.injEq]
      by_cases closes : rest[index + distance] = delimiter
      · rw [if_pos closes, if_pos closes]
        rfl
      · rw [if_neg closes, if_neg closes, List.drop_drop]
        split
        · next past =>
            rw [List.drop_eq_nil_of_le (by omega)]
            rfl
        · next short =>
            rw [jump_eq delimiter rest _ (Nat.le_of_not_lt short)]
            rfl
termination_by rest.length - index

theorem quotedSliced_eq (delimiter : UInt8) (rest : List UInt8) :
    quotedSliced delimiter rest = some (scanQuoted delimiter rest) := by
  cases rest with
  | nil => rfl
  | cons first rest =>
      simp only [quotedSliced, List.head?_cons, Option.some.injEq, scanQuoted]
      split
      · rw [Quotation.jump_eq _ _ _ (Nat.le_add_left 1 rest.length)]
        rfl
      · rfl

/-- The index of the first byte outside a class is the length of the run before
it. -/
theorem findIdx?_getD_length (stops : UInt8 → Bool) (bytes : List UInt8) :
    (bytes.findIdx? stops).getD bytes.length =
      (bytes.takeWhile fun byte => !stops byte).length := by
  induction bytes with
  | nil => rfl
  | cons byte bytes induction =>
      rw [List.findIdx?_cons, List.takeWhile_cons]
      cases stops byte with
      | true => rfl
      | false =>
          simp only [Bool.not_false, if_true, List.length_cons, ← induction]
          cases bytes.findIdx? stops <;> rfl

theorem lineCommentSliced_eq (opening rest : List UInt8) :
    lineCommentSliced opening rest = some (scanLineComment opening rest) := by
  simp only [lineCommentSliced, scanLineComment, literalFrom_zero]
  cases found : (scanLiteral opening rest).length with
  | none => rfl
  | some length =>
      obtain ⟨same, within⟩ := scanLiteral_length_le found
      simp only [Option.isNone_some, Bool.false_eq_true, if_false]
      rw [slice?_eq_some (same ▸ within), Option.bind_eq_bind,
        Option.bind_some, findIdx?_getD_length]
      rfl

/-- A scan by indices has a value exactly where a scan can be made, and the same
one: it slices nowhere outside of the text and comes to an end. -/
theorem scanSliced_eq (pattern : Pattern) (input : List UInt8)
    (position : Nat) :
    pattern.scanSliced input position = pattern.scanAt? input position := by
  rw [scanSliced, scanAt?, slice?]
  split
  · rw [Option.bind_eq_bind, Option.bind_some]
    cases pattern with
    | literal text => exact congrArg some (literalFrom_zero _ text)
    | identifier => exact identifierSliced_eq _
    | number => exact numberSliced_eq _
    | quoted delimiter => exact quotedSliced_eq delimiter _
    | whitespace =>
        simp only [scan, scanRun]
        cases ((input.drop position).takeWhile Byte.isSpace).length <;> rfl
    | lineComment opening => exact lineCommentSliced_eq opening _
  · rfl

end Pattern

end Reparse
