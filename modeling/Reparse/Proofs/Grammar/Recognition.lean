import Reparse.Grammar.LexicalLanguage
import Reparse.Proofs.Grammar.Slices
import Reparse.Proofs.Token.Examined

/-!
# Patterns recognize their languages

A pattern has a language, which says what a lexeme is, and a scan, which finds
one.  For each kind of pattern the scan is sound, it matches a lexeme, and
complete, no lexeme that the bytes begin with is longer than the match.  What
this comes to depends on the language: a literal has a single lexeme, the
bytes begin with at most one quotation, and a comment goes on for as long as
its line does.
-/

namespace Reparse

namespace Pattern

variable {pattern : Pattern} {rest : List UInt8} {length : Nat}

/-- The bytes begin with a lexeme of this length. -/
def Begins (pattern : Pattern) (rest : List UInt8) (length : Nat) : Prop :=
  ∃ lexeme tail, rest = lexeme ++ tail ∧ pattern.Accepts lexeme ∧
    lexeme.length = length

theorem begins_iff :
    pattern.Begins rest length ↔
      length ≤ rest.length ∧ pattern.Accepts (rest.take length) := by
  constructor
  · rintro ⟨lexeme, tail, rfl, accepted, rfl⟩
    rw [List.length_append, List.take_left]
    exact ⟨Nat.le_add_right _ _, accepted⟩
  · rintro ⟨inside, accepted⟩
    exact ⟨rest.take length, rest.drop length,
      (List.take_append_drop length rest).symm, accepted,
      List.length_take_of_le inside⟩

theorem longestMatch_iff_begins :
    pattern.LongestMatch rest length ↔
      pattern.Begins rest length ∧
        ∀ longer, pattern.Begins rest longer → longer ≤ length := by
  simp only [LongestMatch, begins_iff, and_assoc, and_imp]

/-- What was found is the length of the longest of the lexemes that the bytes
begin with. -/
structure Finds (pattern : Pattern) (rest : List UInt8)
    (found : Option Nat) : Prop where
  sound : ∀ length, found = some length → pattern.Begins rest length
  complete : ∀ length, pattern.Begins rest length →
    ∃ longest, found = some longest ∧ length ≤ longest

namespace Finds

variable {found : Option Nat}

theorem of_none (absent : ∀ length, ¬pattern.Begins rest length) :
    pattern.Finds rest none :=
  ⟨nofun, fun length begins => absurd begins (absent length)⟩

theorem of_some (begins : pattern.Begins rest length)
    (bound : ∀ other, pattern.Begins rest other → other ≤ length) :
    pattern.Finds rest (some length) := by
  constructor
  · rintro _ ⟨⟩
    exact begins
  · intro other beginsOther
    exact ⟨length, rfl, bound other beginsOther⟩

theorem eq_some_iff (finds : pattern.Finds rest found) :
    found = some length ↔ pattern.LongestMatch rest length := by
  rw [longestMatch_iff_begins]
  constructor
  · intro same
    refine ⟨finds.sound length same, ?_⟩
    intro longer begins
    obtain ⟨longest, sameLongest, bound⟩ := finds.complete longer begins
    rw [same] at sameLongest
    cases sameLongest
    exact bound
  · rintro ⟨begins, longest⟩
    obtain ⟨matched, same, bound⟩ := finds.complete length begins
    have least := longest matched (finds.sound matched same)
    rw [same, Nat.le_antisymm least bound]

theorem eq_none_iff (finds : pattern.Finds rest found) :
    found = none ↔ ∀ length, ¬pattern.Begins rest length := by
  constructor
  · rintro rfl length begins
    obtain ⟨_, same, _⟩ := finds.complete length begins
    cases same
  · intro absent
    cases same : found with
    | none => rfl
    | some length => exact absurd (finds.sound length same) (absent length)

end Finds

/-! ## Runs -/

theorem length_le_takeWhile {accepts : UInt8 → Bool} {run : List UInt8}
    (accepted : ∀ byte ∈ run, accepts byte = true) (tail : List UInt8) :
    run.length ≤ ((run ++ tail).takeWhile accepts).length := by
  rw [List.takeWhile_append_of_pos accepted, List.length_append]
  exact Nat.le_add_right _ _

theorem mem_takeWhile {accepts : UInt8 → Bool} {byte : UInt8}
    (member : byte ∈ rest.takeWhile accepts) : accepts byte = true :=
  List.all_eq_true.mp List.all_takeWhile byte member

theorem IsRun.length_pos {accepts : UInt8 → Bool} {bytes : List UInt8}
    (run : IsRun accepts bytes) : 0 < bytes.length :=
  List.length_pos_iff.mpr run.1

theorem isRun_takeWhile {accepts : UInt8 → Bool}
    (found : 0 < (rest.takeWhile accepts).length) :
    IsRun accepts (rest.takeWhile accepts) :=
  ⟨List.length_pos_iff.mp found, fun _ => mem_takeWhile⟩

theorem finds_whitespace (rest : List UInt8) :
    whitespace.Finds rest (whitespace.scan rest).length := by
  have bound : ∀ length, whitespace.Begins rest length →
      0 < length ∧ length ≤ (rest.takeWhile Byte.isSpace).length := by
    rintro _ ⟨lexeme, tail, rfl, run, rfl⟩
    exact ⟨run.length_pos, length_le_takeWhile run.2 tail⟩
  simp only [scan, scanRun]
  split
  · next count =>
      apply Finds.of_none
      intro length begins
      have := bound length begins
      omega
  · next length count =>
      apply Finds.of_some
      · exact ⟨_, _, List.takeWhile_append_dropWhile.symm,
          isRun_takeWhile (by omega), count⟩
      · intro other begins
        have within := (bound other begins).2
        rwa [count] at within

theorem finds_identifier (rest : List UInt8) :
    identifier.Finds rest (identifier.scan rest).length := by
  cases rest with
  | nil =>
      apply Finds.of_none
      rintro _ ⟨lexeme, tail, same, ⟨first, name, rfl, _⟩, _⟩
      cases same
  | cons first rest =>
      simp only [scan, scanIdentifier]
      split
      · next starts =>
          apply Finds.of_some
          · refine ⟨first :: rest.takeWhile Byte.continuesName,
              rest.dropWhile Byte.continuesName, ?_,
              ⟨first, _, rfl, starts, fun _ => mem_takeWhile⟩, rfl⟩
            rw [List.cons_append, List.takeWhile_append_dropWhile]
          · rintro _ ⟨_, tail, same, ⟨_, name, rfl, _, continues⟩, rfl⟩
            cases same
            exact Nat.succ_le_succ (length_le_takeWhile continues tail)
      · next starts =>
          apply Finds.of_none
          rintro _ ⟨_, tail, same, ⟨_, name, rfl, startsName, _⟩, _⟩
          cases same
          exact starts startsName

/-! ## Numbers -/

/-- A number is some of the digits that the bytes begin with, or all of them
with a point and some of the digits behind it. -/
theorem length_of_begins_number {whole : Nat}
    (count : (rest.takeWhile Byte.isDigit).length = whole)
    (begins : number.Begins rest length) :
    0 < length ∧ 0 < whole ∧ (length ≤ whole ∨
      ∃ behind places, rest.drop whole = Byte.point :: behind ∧ 0 < places ∧
        places ≤ (behind.takeWhile Byte.isDigit).length ∧
          length = whole + 1 + places) := by
  subst count
  obtain ⟨lexeme, tail, rfl, digits | fractional, rfl⟩ := begins
  · have bound := length_le_takeWhile digits.2 tail
    have positive := digits.length_pos
    exact ⟨positive, Nat.lt_of_lt_of_le positive bound, .inl bound⟩
  · obtain ⟨digits, fraction, rfl, digitsRun, fractionRun⟩ := fractional
    rw [List.append_assoc, List.takeWhile_append_of_pos digitsRun.2,
      List.cons_append, List.takeWhile_cons_of_neg (by decide),
      List.append_nil, List.drop_left]
    refine ⟨?_, digitsRun.length_pos, .inr ⟨fraction ++ tail, fraction.length,
      rfl, fractionRun.length_pos, length_le_takeWhile fractionRun.2 tail, ?_⟩⟩
    · exact Nat.lt_of_lt_of_le digitsRun.length_pos
        (List.prefix_append _ _).length_le
    · simp only [List.length_append, List.length_cons]
      omega

theorem begins_number_of_digits
    (found : 0 < (rest.takeWhile Byte.isDigit).length) :
    number.Begins rest (rest.takeWhile Byte.isDigit).length :=
  ⟨_, _, List.takeWhile_append_dropWhile.symm,
    .inl (isRun_takeWhile found), rfl⟩

theorem begins_number_of_fraction {behind : List UInt8}
    (found : 0 < (rest.takeWhile Byte.isDigit).length)
    (point : rest.drop (rest.takeWhile Byte.isDigit).length =
      Byte.point :: behind)
    (follows : 0 < (behind.takeWhile Byte.isDigit).length) :
    number.Begins rest ((rest.takeWhile Byte.isDigit).length + 1 +
      (behind.takeWhile Byte.isDigit).length) := by
  refine ⟨rest.takeWhile Byte.isDigit ++
      Byte.point :: behind.takeWhile Byte.isDigit,
    behind.dropWhile Byte.isDigit, ?_,
    .inr ⟨_, _, rfl, isRun_takeWhile found, isRun_takeWhile follows⟩, ?_⟩
  · have digits : rest.take (rest.takeWhile Byte.isDigit).length =
        rest.takeWhile Byte.isDigit :=
      (List.prefix_iff_eq_take.mp (List.takeWhile_prefix _)).symm
    rw [List.append_assoc, List.cons_append, List.takeWhile_append_dropWhile,
      ← point, ← digits, List.length_take_of_le (length_takeWhile_le _ _),
      List.take_append_drop]
  · simp only [List.length_append, List.length_cons]
    omega

theorem finds_number (rest : List UInt8) :
    number.Finds rest (number.scan rest).length := by
  simp only [scan, scanNumber]
  split
  · next count =>
      apply Finds.of_none
      intro length begins
      exact absurd (length_of_begins_number count begins).2.1 (Nat.lt_irrefl 0)
  · next whole count =>
      have digits := begins_number_of_digits (count ▸ Nat.succ_pos whole)
      rw [count] at digits
      split
      · next ended =>
          apply Finds.of_some digits
          intro other begins
          obtain ⟨_, _, within | ⟨_, _, point, _⟩⟩ :=
            length_of_begins_number count begins
          · exact within
          · rw [ended] at point
            cases point
      · next separator fraction remaining =>
          split
          · next isPoint =>
              subst isPoint
              split
              · next none =>
                  apply Finds.of_some digits
                  intro other begins
                  obtain ⟨_, _, within | ⟨_, _, point, positive, bound, _⟩⟩ :=
                    length_of_begins_number count begins
                  · exact within
                  · rw [remaining] at point
                    cases point
                    omega
              · next places following =>
                  apply Finds.of_some
                  · have begins := begins_number_of_fraction
                      (count ▸ Nat.succ_pos whole) (count.symm ▸ remaining)
                      (following ▸ Nat.succ_pos places)
                    rw [count, following] at begins
                    have sum : whole + 1 + 1 + (places + 1) =
                        whole + places + 3 := by omega
                    rwa [sum] at begins
                  · intro other begins
                    obtain ⟨_, _, within | ⟨_, _, point, _, bound, rfl⟩⟩ :=
                      length_of_begins_number count begins
                    · omega
                    · rw [remaining] at point
                      cases point
                      omega
          · next other =>
              apply Finds.of_some digits
              intro length begins
              obtain ⟨_, _, within | ⟨_, _, point, _⟩⟩ :=
                length_of_begins_number count begins
              · exact within
              · rw [remaining] at point
                cases point
                exact absurd rfl other

/-! ## Quotations -/

theorem closing?_of_quotedBody {delimiter : UInt8} {body : List UInt8}
    (quoted : QuotedBody delimiter body) (after : List UInt8) (offset : Nat) :
    closing? delimiter (body ++ delimiter :: after) offset =
      some (offset + body.length + 1) := by
  induction quoted generalizing offset with
  | nil => simp [closing?.eq_def]
  | @plain byte rest other unescaped _ induction =>
      rw [List.cons_append, closing?.eq_def]
      simp only [if_neg other, if_neg unescaped]
      rw [induction, List.length_cons, Nat.add_right_comm offset 1,
        Nat.add_assoc offset]
  | @escaped byte rest different _ induction =>
      rw [List.cons_append, List.cons_append, closing?.eq_def]
      simp only [if_neg different.symm, if_true]
      rw [induction]
      simp only [List.length_cons, Option.some.injEq]
      omega

theorem quotedBody_of_closing? {delimiter : UInt8} {bytes : List UInt8}
    {offset length : Nat}
    (found : closing? delimiter bytes offset = some length) :
    ∃ body after, bytes = body ++ delimiter :: after ∧
      QuotedBody delimiter body ∧ length = offset + body.length + 1 := by
  fun_induction closing? delimiter bytes offset with
  | case1 => cases found
  | case2 rest offset =>
      cases found
      exact ⟨[], rest, rfl, .nil, rfl⟩
  | case3 => cases found
  | case4 offset escaped rest different induction =>
      obtain ⟨body, after, rfl, quoted, rfl⟩ := induction found
      refine ⟨_ :: _ :: body, after, rfl,
        .escaped (Ne.symm different) quoted, ?_⟩
      · simp only [List.length_cons]
        omega
  | case5 byte rest offset other unescaped induction =>
      obtain ⟨body, after, rfl, quoted, rfl⟩ := induction found
      refine ⟨byte :: body, after, rfl, .plain other unescaped quoted, ?_⟩
      simp only [List.length_cons]
      omega

/-- The closing delimiter is the one behind the only text between delimiters
that the bytes begin with. -/
theorem closing?_eq_some_iff {delimiter : UInt8} {bytes : List UInt8}
    {offset length : Nat} :
    closing? delimiter bytes offset = some length ↔
      ∃ body after, bytes = body ++ delimiter :: after ∧
        QuotedBody delimiter body ∧ length = offset + body.length + 1 := by
  constructor
  · exact quotedBody_of_closing?
  · rintro ⟨body, after, rfl, quoted, rfl⟩
    exact closing?_of_quotedBody quoted after offset

theorem begins_quoted_iff {delimiter first : UInt8} :
    (quoted delimiter).Begins (first :: rest) length ↔
      first = delimiter ∧ closing? delimiter rest 1 = some length := by
  rw [closing?_eq_some_iff]
  constructor
  · rintro ⟨_, tail, same, ⟨body, rfl, valid⟩, rfl⟩
    cases same
    refine ⟨rfl, body, tail, ?_, valid, ?_⟩
    · simp
    · simp only [List.length_cons, List.length_append, List.length_nil]
      omega
  · rintro ⟨rfl, body, after, rfl, valid, rfl⟩
    refine ⟨first :: (body ++ [first]), after, ?_, ⟨body, rfl, valid⟩, ?_⟩
    · simp
    · simp only [List.length_cons, List.length_append, List.length_nil]
      omega

/-- The bytes begin with no more than one quotation. -/
theorem begins_quoted_unique {delimiter : UInt8} {other : Nat}
    (begins : (quoted delimiter).Begins rest length)
    (beginsOther : (quoted delimiter).Begins rest other) : length = other := by
  cases rest with
  | nil =>
      obtain ⟨_, _, same, ⟨_, rfl, _⟩, _⟩ := begins
      cases same
  | cons first rest =>
      have closed := (begins_quoted_iff.mp begins).2
      have closedOther := (begins_quoted_iff.mp beginsOther).2
      exact Option.some.inj (closed.symm.trans closedOther)

theorem finds_quoted (delimiter : UInt8) (rest : List UInt8) :
    (quoted delimiter).Finds rest ((quoted delimiter).scan rest).length := by
  cases rest with
  | nil =>
      apply Finds.of_none
      rintro _ ⟨_, _, same, ⟨_, rfl, _⟩, _⟩
      cases same
  | cons first rest =>
      simp only [scan, scanQuoted]
      split
      · next opens =>
          split
          · next length closed =>
              have begins := begins_quoted_iff.mpr ⟨opens, closed⟩
              apply Finds.of_some begins
              intro other beginsOther
              exact Nat.le_of_eq (begins_quoted_unique beginsOther begins)
          · next unclosed =>
              apply Finds.of_none
              intro length begins
              have closed := (begins_quoted_iff.mp begins).2
              rw [unclosed] at closed
              cases closed
      · next different =>
          apply Finds.of_none
          intro length begins
          exact different (begins_quoted_iff.mp begins).1

/-! ## Literals and comments -/

theorem scanLiteral_eq_some_iff {text : List UInt8} :
    (scanLiteral text rest).length = some length ↔
      text <+: rest ∧ length = text.length := by
  induction text generalizing rest length with
  | nil => simp [scanLiteral, Scan.matched, eq_comm]
  | cons expected text induction =>
      cases rest with
      | nil => simp [scanLiteral, Scan.failed]
      | cons byte rest =>
          rw [List.cons_prefix_cons, scanLiteral]
          split
          · next same =>
              simp only [Scan.after, Option.map_eq_some_iff, induction]
              constructor
              · rintro ⟨_, ⟨begins, rfl⟩, rfl⟩
                exact ⟨⟨same.symm, begins⟩, rfl⟩
              · rintro ⟨⟨_, begins⟩, rfl⟩
                exact ⟨text.length, ⟨begins, rfl⟩, rfl⟩
          · next different =>
              constructor
              · intro impossible
                cases impossible
              · rintro ⟨⟨same, _⟩, _⟩
                exact absurd same.symm different

theorem begins_literal_iff {text : List UInt8} :
    (literal text).Begins rest length ↔
      text <+: rest ∧ length = text.length := by
  constructor
  · rintro ⟨_, tail, rfl, rfl, rfl⟩
    exact ⟨List.prefix_append _ _, rfl⟩
  · rintro ⟨⟨tail, rfl⟩, rfl⟩
    exact ⟨text, tail, rfl, rfl, rfl⟩

theorem finds_literal (text rest : List UInt8) :
    (literal text).Finds rest ((literal text).scan rest).length := by
  have same {length : Nat} : (scanLiteral text rest).length = some length ↔
      (literal text).Begins rest length :=
    scanLiteral_eq_some_iff.trans begins_literal_iff.symm
  exact ⟨fun _ => same.mp,
    fun length begins => ⟨length, same.mpr begins, Nat.le_refl _⟩⟩

/-- Up to the first line feed no byte is one. -/
theorem newline_not_mem_takeWhile :
    Byte.newline ∉ rest.takeWhile (· != Byte.newline) := by
  intro member
  have := mem_takeWhile member
  simp at this

theorem ne_newline_of_not_mem {body : List UInt8}
    (line : Byte.newline ∉ body) :
    ∀ byte ∈ body, (byte != Byte.newline) = true := by
  intro byte member
  rw [bne_iff_ne]
  rintro rfl
  exact line member

theorem length_of_begins_lineComment {opening behind : List UInt8}
    (begins : (lineComment opening).Begins (opening ++ behind) length) :
    length ≤ opening.length +
      (behind.takeWhile (· != Byte.newline)).length := by
  obtain ⟨_, tail, same, ⟨body, rfl, line⟩, rfl⟩ := begins
  rw [List.append_assoc, List.append_cancel_left_eq] at same
  subst same
  have bound := length_le_takeWhile (ne_newline_of_not_mem line) tail
  rw [List.length_append]
  omega

theorem finds_lineComment (opening rest : List UInt8) :
    (lineComment opening).Finds rest
      ((lineComment opening).scan rest).length := by
  simp only [scan, scanLineComment]
  split
  · next none =>
      rw [none]
      apply Finds.of_none
      rintro _ ⟨_, tail, rfl, ⟨body, rfl, _⟩, _⟩
      have opens : (scanLiteral opening (opening ++ body ++ tail)).length =
          some opening.length := by
        rw [scanLiteral_eq_some_iff, List.append_assoc]
        exact ⟨List.prefix_append _ _, rfl⟩
      rw [none] at opens
      cases opens
  · next opens =>
      obtain ⟨⟨behind, rfl⟩, _⟩ := scanLiteral_eq_some_iff.mp opens
      rw [List.drop_left]
      apply Finds.of_some
      · refine ⟨opening ++ behind.takeWhile (· != Byte.newline),
          behind.dropWhile (· != Byte.newline), ?_,
          ⟨_, rfl, newline_not_mem_takeWhile⟩, List.length_append⟩
        rw [List.append_assoc, List.takeWhile_append_dropWhile]
      · exact fun other => length_of_begins_lineComment

/-- A scan is sound and complete for the language of its pattern. -/
theorem finds_scan (pattern : Pattern) (rest : List UInt8) :
    pattern.Finds rest (pattern.scan rest).length := by
  cases pattern with
  | literal text => exact finds_literal text rest
  | identifier => exact finds_identifier rest
  | number => exact finds_number rest
  | quoted delimiter => exact finds_quoted delimiter rest
  | whitespace => exact finds_whitespace rest
  | lineComment opening => exact finds_lineComment opening rest

/-! ## What is taken -/

theorem takes_literal_iff {text : List UInt8} :
    (literal text).Takes rest length ↔
      (literal text).LongestMatch rest length := by
  rw [longestMatch_iff_begins, begins_literal_iff]
  constructor
  · rintro ⟨begins, rfl⟩
    refine ⟨⟨begins, rfl⟩, fun longer beginsLonger => ?_⟩
    exact Nat.le_of_eq (begins_literal_iff.mp beginsLonger).2
  · exact And.left

theorem takes_quoted_iff {delimiter : UInt8} :
    (quoted delimiter).Takes rest length ↔
      (quoted delimiter).LongestMatch rest length := by
  rw [longestMatch_iff_begins, Takes, ← begins_iff]
  constructor
  · intro begins
    refine ⟨begins, fun longer beginsLonger => ?_⟩
    exact Nat.le_of_eq (begins_quoted_unique beginsLonger begins)
  · exact And.left

theorem takes_lineComment_iff {opening : List UInt8} :
    (lineComment opening).Takes rest length ↔
      (lineComment opening).LongestMatch rest length := by
  rw [longestMatch_iff_begins]
  constructor
  · rintro ⟨body, after, rfl, line, ends, rfl⟩
    constructor
    · exact ⟨opening ++ body, after, (List.append_assoc _ _ _).symm,
        ⟨body, rfl, line⟩, List.length_append⟩
    · intro longer begins
      have stops : after.takeWhile (· != Byte.newline) = [] := by
        cases after with
        | nil => rfl
        | cons byte after =>
            rcases ends with empty | newline
            · cases empty
            · cases newline
              rfl
      have bound := length_of_begins_lineComment begins
      rw [List.takeWhile_append_of_pos (ne_newline_of_not_mem line), stops,
        List.append_nil] at bound
      exact bound
  · rintro ⟨⟨_, after, rfl, ⟨body, rfl, line⟩, rfl⟩, longest⟩
    refine ⟨body, after, List.append_assoc _ _ _, line, ?_,
      List.length_append⟩
    -- A byte behind the comment that ends no line would belong to it.
    cases after with
    | nil => exact .inl rfl
    | cons byte after =>
        right
        apply Decidable.byContradiction
        intro other
        have begins : (lineComment opening).Begins
            (opening ++ body ++ byte :: after)
            (opening ++ body ++ [byte]).length := by
          refine ⟨opening ++ body ++ [byte], after, ?_,
            ⟨body ++ [byte], List.append_assoc _ _ _, ?_⟩, rfl⟩
          · simp
          · simp only [List.mem_append, List.mem_singleton, not_or]
            exact ⟨line, fun same => other (congrArg some same.symm)⟩
        have bound := longest _ begins
        simp only [List.length_append, List.length_cons, List.length_nil]
          at bound
        omega

theorem takes_iff_longestMatch :
    pattern.Takes rest length ↔ pattern.LongestMatch rest length := by
  cases pattern with
  | literal text => exact takes_literal_iff
  | quoted delimiter => exact takes_quoted_iff
  | lineComment opening => exact takes_lineComment_iff
  | identifier => exact Iff.rfl
  | number => exact Iff.rfl
  | whitespace => exact Iff.rfl

/-- A comment begins wherever its opening bytes stand. -/
theorem takes_lineComment_exists_iff {opening : List UInt8} :
    (∃ length, (lineComment opening).Takes rest length) ↔
      opening <+: rest := by
  constructor
  · rintro ⟨_, body, after, rfl, _⟩
    exact List.prefix_append _ _
  · rintro ⟨behind, rfl⟩
    have begins : (lineComment opening).Begins (opening ++ behind)
        opening.length :=
      ⟨opening, behind, rfl,
        ⟨[], (List.append_nil _).symm, List.not_mem_nil⟩, rfl⟩
    have finds := finds_lineComment opening (opening ++ behind)
    obtain ⟨length, found, _⟩ := finds.complete _ begins
    exact ⟨length, takes_iff_longestMatch.mpr (finds.eq_some_iff.mp found)⟩

theorem takes_quoted_unique {delimiter : UInt8} {other : Nat}
    (takes : (quoted delimiter).Takes rest length)
    (takesOther : (quoted delimiter).Takes rest other) : length = other :=
  begins_quoted_unique (begins_iff.mpr takes) (begins_iff.mpr takesOther)

/-- Wherever in a text a pattern is tried, the scan has a value: it slices
nowhere outside of the text and comes to an end.  It matches what the pattern
takes and fails where no lexeme begins, and all it matched it has examined, but
nothing behind the end of the text. -/
theorem scan_recognizes (pattern : Pattern) (input : List UInt8)
    (position : Nat) (inside : position ≤ input.length) :
    ∃ scan, pattern.scanSliced input position = some scan ∧
      pattern.scanAt? input position = some scan ∧
      (∀ length, scan.length = some length ↔
        pattern.Takes (input.drop position) length) ∧
      (scan.length = none ↔
        ∀ length, length ≤ (input.drop position).length →
          ¬pattern.Accepts ((input.drop position).take length)) ∧
      (∀ opening, pattern = .lineComment opening →
        (scan.length.isSome ↔ opening <+: input.drop position)) ∧
      (∀ delimiter, pattern = .quoted delimiter → ∀ length other,
        pattern.Takes (input.drop position) length →
          pattern.Takes (input.drop position) other → length = other) ∧
      (∀ length, scan.length = some length → length ≤ scan.examined) ∧
      scan.examined ≤ (input.drop position).length + 1 := by
  have value : pattern.scanAt? input position =
      some (pattern.scan (input.drop position)) := if_pos inside
  have finds := pattern.finds_scan (input.drop position)
  have takes (length : Nat) :
      (pattern.scan (input.drop position)).length = some length ↔
        pattern.Takes (input.drop position) length :=
    finds.eq_some_iff.trans takes_iff_longestMatch.symm
  refine ⟨_, (scanSliced_eq pattern input position).trans value, value, takes,
    ?_, ?_, ?_, fun _ => length_le_examined,
    pattern.scan_examined_le_length _⟩
  · simp only [finds.eq_none_iff, begins_iff, not_and]
  · rintro opening rfl
    simp only [← takes_lineComment_exists_iff, Option.isSome_iff_exists, takes]
  · rintro delimiter rfl length other
    exact takes_quoted_unique

/-- A quotation with a protected delimiter, behind a letter. -/
theorem quotation_recognized :
    (quoted 34).scanAt? [97, 34, 92, 34, 34, 32] 1 = some ⟨some 4, 4⟩ ∧
      (quoted 34).Takes [34, 92, 34, 34, 32] 4 := by
  obtain ⟨scan, _, found, takes, _⟩ :=
    scan_recognizes (quoted 34) [97, 34, 92, 34, 34, 32] 1 (by decide)
  cases found
  exact ⟨by decide, (takes 4).mp (by decide)⟩

end Pattern

end Reparse
