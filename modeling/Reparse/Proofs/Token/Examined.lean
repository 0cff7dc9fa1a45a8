import Reparse.Proofs.Token.Nearsight

/-!
# How far reading looks

Reading looks at the bytes that are left and at their end, and at nothing
behind it.  So no token is examined further than the end of the text, which is
looked at when no more tokens are found.
-/

namespace Reparse

namespace Pattern

theorem scanLiteral_examined_le_length (text rest : List UInt8) :
    (scanLiteral text rest).examined ≤ rest.length + 1 := by
  induction text generalizing rest with
  | nil => exact Nat.zero_le _
  | cons expected text induction =>
      cases rest with
      | nil => exact Nat.le_refl _
      | cons byte rest =>
          have bound := induction rest
          simp only [scanLiteral, List.length_cons]
          split
          · exact Nat.succ_le_succ bound
          · exact Nat.le_add_left _ _

theorem scanNumber_examined_le_length (rest : List UInt8) :
    (scanNumber rest).examined ≤ rest.length + 1 := by
  have wholeLength := length_takeWhile_le Byte.isDigit rest
  rw [scanNumber]
  split
  · exact Nat.le_add_left _ _
  · next whole wholeFound =>
      split
      · simp only [Scan.matched]
        omega
      · next separator fraction remaining =>
          have remainingLength := congrArg List.length remaining
          rw [List.length_drop, List.length_cons] at remainingLength
          have fractionLength := length_takeWhile_le Byte.isDigit fraction
          split
          · split <;> simp only [Scan.matched] <;> omega
          · simp only [Scan.matched]
            omega

theorem scanQuoted_examined_le_length (delimiter : UInt8)
    (rest : List UInt8) :
    (scanQuoted delimiter rest).examined ≤ rest.length + 1 := by
  cases rest with
  | nil => exact Nat.le_refl _
  | cons first rest =>
      simp only [scanQuoted, List.length_cons]
      split
      · split
        · next closed =>
            have bound := closing?_le closed
            simp only [Scan.matched]
            omega
        · exact Nat.le_refl _
      · exact Nat.le_add_left _ _

/-- A scan looks at the remaining bytes and at their end. -/
theorem scan_examined_le_length (pattern : Pattern) (rest : List UInt8) :
    (pattern.scan rest).examined ≤ rest.length + 1 := by
  cases pattern with
  | literal text => exact scanLiteral_examined_le_length text rest
  | identifier =>
      cases rest with
      | nil => exact Nat.le_refl _
      | cons first rest =>
          have := length_takeWhile_le Byte.continuesName rest
          simp only [scan, scanIdentifier, List.length_cons]
          split
          · simp only [Scan.matched]
            omega
          · exact Nat.le_add_left _ _
  | number => exact scanNumber_examined_le_length rest
  | quoted delimiter => exact scanQuoted_examined_le_length delimiter rest
  | whitespace =>
      have := length_takeWhile_le Byte.isSpace rest
      simp only [scan, scanRun]
      split
      · exact Nat.le_add_left _ _
      · simp only [Scan.matched]
        omega
  | lineComment opening =>
      have bound := scanLiteral_examined_le_length opening rest
      simp only [scan, scanLineComment]
      split
      · exact bound
      · next openingFound =>
          have := scanLiteral_length_le openingFound
          have := length_takeWhile_le (· != Byte.newline)
            (rest.drop opening.length)
          rw [List.length_drop] at this
          simp only [Scan.matched]
          omega

end Pattern

namespace Lexeme

theorem leadingExtra_examined_le_length (extras : List Pattern)
    (rest : List UInt8) : (leadingExtra extras rest).2 ≤ rest.length + 1 := by
  induction extras with
  | nil => exact Nat.zero_le _
  | cons extra extras induction =>
      have bound := extra.scan_examined_le_length rest
      simp only [leadingExtra]
      split
      · exact bound
      · exact Nat.max_le.mpr ⟨bound, induction⟩

theorem skipExtras_bounds (extras : List Pattern) (rest : List UInt8) :
    (skipExtras extras rest).length ≤ rest.length ∧
      (skipExtras extras rest).examined ≤ rest.length + 1 := by
  fun_induction skipExtras extras rest with
  | case1 rest examined leading =>
      have bound := leadingExtra_examined_le_length extras rest
      rw [leading] at bound
      exact ⟨Nat.zero_le _, bound⟩
  | case2 rest length examined leading following induction =>
      have bound := leadingExtra_examined_le_length extras rest
      have inside := (leadingExtra_bounds leading).2
      rw [leading] at bound
      rw [List.length_drop] at induction
      simp only [following] at bound ⊢
      omega

/-- A lexeme is found without looking behind the end of the text. -/
theorem examined_le_length_of_read {terminals : List Terminal}
    {extras : List Pattern} {rest : List UInt8} {lexeme : Lexeme}
    (found : read terminals extras rest = .lexeme lexeme) :
    lexeme.examined ≤ rest.length + 1 := by
  obtain ⟨skippedInside, skippedExamined⟩ := skipExtras_bounds extras rest
  have tried : (contest terminals
      (rest.drop (skipExtras extras rest).length)).examined ≤
        (rest.drop (skipExtras extras rest).length).length + 1 :=
    contest_examined_le fun terminal _ =>
      terminal.pattern.scan_examined_le_length _
  obtain ⟨best, _, rfl⟩ := read_eq_lexeme found
  rw [List.length_drop] at tried
  simp only
  omega

/-- The end is found by looking at it. -/
theorem length_lt_examined_of_finished {terminals : List Terminal}
    {extras : List Pattern} {rest : List UInt8} {examined : Nat}
    (found : read terminals extras rest = .finished examined) :
    rest.length < examined := by
  simp only [read] at found
  split at found
  · cases found
    exact Nat.le_max_right _ _
  · split at found <;> cases found

end Lexeme

namespace Grammar

variable {grammar : Grammar} {text : List UInt8} {list : TokenList}

/-- Finding the end of the text takes looking at all of it. -/
theorem length_lt_endExamined (found : grammar.tokenize text = .ok list) :
    text.length < list.endExamined := by
  obtain ⟨examined, finished, same⟩ := finished_of_tokenize found
  have past := Lexeme.length_lt_examined_of_finished finished
  rw [List.length_drop] at past
  omega

/-- Nothing is examined further than the end of the text. -/
theorem examinedEnd_le_endExamined (found : grammar.tokenize text = .ok list)
    (index : Nat) : list.examinedEnd index ≤ list.endExamined := by
  have past := length_lt_endExamined found
  rw [TokenList.examinedEnd]
  split
  · next token here =>
      obtain ⟨lexeme, reading, same⟩ := lexeme_of_get? found here
      have bound := Lexeme.examined_le_length_of_read reading
      have inside := edge_le_length found
        (Nat.le_of_lt (TokenList.lt_size_of_get? here))
      rw [List.length_drop] at bound
      rw [same]
      simp only [Lexeme.token]
      omega
  · exact Nat.le_refl _

end Grammar

end Reparse
