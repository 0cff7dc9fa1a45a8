import Reparse.Token.Lexeme

/-!
# Reading is local

A pattern, the extras between two tokens and the reading of a whole token
depend on no byte past the ones they report as examined.  Two texts that agree
on the examined bytes are read alike, where a text that ends is told apart
from one that goes on.
-/

namespace Reparse

/-- Both texts have the same bytes before `count`, or end at the same place
before it. -/
def AgreeFor (count : Nat) (left right : List UInt8) : Prop :=
  ∀ index, index < count → left[index]? = right[index]?

namespace AgreeFor

variable {count : Nat} {left right : List UInt8}

theorem refl (count : Nat) (text : List UInt8) : AgreeFor count text text :=
  fun _ _ => rfl

theorem symm (agree : AgreeFor count left right) : AgreeFor count right left :=
  fun index below => (agree index below).symm

theorem trans {last : List UInt8} (first : AgreeFor count left right)
    (second : AgreeFor count right last) : AgreeFor count left last :=
  fun index below => (first index below).trans (second index below)

theorem mono {fewer : Nat} (agree : AgreeFor count left right)
    (bound : fewer ≤ count) : AgreeFor fewer left right :=
  fun index below => agree index (Nat.lt_of_lt_of_le below bound)

theorem drop (agree : AgreeFor count left right) (distance : Nat) :
    AgreeFor (count - distance) (left.drop distance) (right.drop distance) := by
  intro index below
  rw [List.getElem?_drop, List.getElem?_drop]
  exact agree _ (by omega)

theorem take_eq (agree : AgreeFor count left right) :
    left.take count = right.take count := by
  apply List.ext_getElem?
  intro index
  rw [List.getElem?_take, List.getElem?_take]
  split
  · next below => exact agree index below
  · rfl

theorem eq_nil (agree : AgreeFor (count + 1) [] right) : right = [] := by
  have first := agree 0 (Nat.succ_pos count)
  simpa using first.symm

theorem eq_cons {byte : UInt8} {rest : List UInt8}
    (agree : AgreeFor (count + 1) (byte :: rest) right) :
    ∃ tail, right = byte :: tail ∧ AgreeFor count rest tail := by
  cases right with
  | nil =>
      have first := agree 0 (Nat.succ_pos count)
      simp at first
  | cons other tail =>
      have first := agree 0 (Nat.succ_pos count)
      have same : byte = other := by simpa using first
      subst same
      refine ⟨tail, rfl, ?_⟩
      intro index below
      simpa using agree (index + 1) (Nat.succ_lt_succ below)

/-- Texts that agree one byte past the end of one of them are the same. -/
theorem eq_of_length (agree : AgreeFor (left.length + 1) left right) :
    right = left := by
  induction left generalizing right with
  | nil => exact agree.eq_nil
  | cons byte rest induction =>
      obtain ⟨tail, rfl, agreeRest⟩ := agree.eq_cons
      rw [induction agreeRest]

theorem takeWhile_eq {accepts : UInt8 → Bool}
    (agree : AgreeFor ((left.takeWhile accepts).length + 1) left right) :
    right.takeWhile accepts = left.takeWhile accepts := by
  induction left generalizing right with
  | nil => rw [agree.eq_nil]
  | cons byte rest induction =>
      obtain ⟨tail, rfl, agreeRest⟩ := agree.eq_cons
      by_cases accepted : accepts byte = true
      · simp only [List.takeWhile_cons, accepted, if_true] at agreeRest ⊢
        rw [induction (by simpa using agreeRest)]
      · simp [accepted]

end AgreeFor

namespace Pattern

theorem scanLiteral_congr {text left right : List UInt8}
    (agree : AgreeFor (scanLiteral text left).examined left right) :
    scanLiteral text right = scanLiteral text left := by
  induction text generalizing left right with
  | nil => rfl
  | cons expected text induction =>
      cases left with
      | nil =>
          simp only [scanLiteral, Scan.failed] at agree
          rw [agree.eq_nil]
      | cons byte rest =>
          by_cases same : byte = expected
          · simp only [scanLiteral, same, if_true, Scan.after] at agree
            obtain ⟨tail, rfl, agreeRest⟩ := agree.eq_cons
            simp only [scanLiteral, same, if_true, induction agreeRest]
          · simp only [scanLiteral, same, if_false, Scan.failed] at agree
            obtain ⟨tail, rfl, _⟩ := agree.eq_cons
            simp only [scanLiteral, same, if_false]

theorem scanRun_congr {accepts : UInt8 → Bool} {left right : List UInt8}
    (agree : AgreeFor (scanRun accepts left).examined left right) :
    scanRun accepts right = scanRun accepts left := by
  have run : AgreeFor ((left.takeWhile accepts).length + 1) left right := by
    apply agree.mono
    simp only [scanRun]
    split
    · next empty => simp [Scan.failed, empty]
    · next found => simp [Scan.matched, found]
  simp only [scanRun, run.takeWhile_eq]

theorem scanIdentifier_congr {left right : List UInt8}
    (agree : AgreeFor (scanIdentifier left).examined left right) :
    scanIdentifier right = scanIdentifier left := by
  cases left with
  | nil =>
      simp only [scanIdentifier, Scan.failed] at agree
      rw [agree.eq_nil]
  | cons first rest =>
      by_cases starts : Byte.startsName first = true
      · simp only [scanIdentifier, starts, if_true, Scan.matched] at agree
        obtain ⟨tail, rfl, agreeRest⟩ := agree.eq_cons
        simp only [scanIdentifier, starts, if_true, agreeRest.takeWhile_eq]
      · simp only [scanIdentifier, starts, Scan.failed] at agree
        obtain ⟨tail, rfl, _⟩ := agree.eq_cons
        simp [scanIdentifier, starts]

theorem scanNumber_congr {left right : List UInt8}
    (agree : AgreeFor (scanNumber left).examined left right) :
    scanNumber right = scanNumber left := by
  have examinedWhole :
      (left.takeWhile Byte.isDigit).length + 1 ≤
        (scanNumber left).examined := by
    unfold scanNumber
    split
    · next none => simp [Scan.failed, none]
    · next whole found =>
        rw [found]
        split
        · simp [Scan.matched]
        · split
          · split <;> simp only [Scan.matched] <;> omega
          · simp [Scan.matched]
  have sameWhole := (agree.mono examinedWhole).takeWhile_eq
  unfold scanNumber at agree ⊢
  rw [sameWhole]
  split
  · rfl
  · next whole found =>
      rw [found] at agree examinedWhole
      have agreeRest := agree.drop (whole + 1)
      simp only at agreeRest
      cases rest : left.drop (whole + 1) with
      | nil =>
          rw [rest] at agreeRest
          simp only [Scan.matched,
            show whole + 2 - (whole + 1) = 0 + 1 from by omega] at agreeRest
          rw [agreeRest.eq_nil]
      | cons separator fraction =>
          rw [rest] at agreeRest
          by_cases point : separator = Byte.point
          · have agreePlaces : AgreeFor
                ((fraction.takeWhile Byte.isDigit).length + 1 + 1)
                (separator :: fraction) (right.drop (whole + 1)) := by
              apply agreeRest.mono
              simp only [point, if_true]
              cases places : (fraction.takeWhile Byte.isDigit).length with
              | zero => simp only [Scan.matched]; omega
              | succ places => simp only [Scan.matched]; omega
            obtain ⟨tail, tailFound, agreeFraction⟩ := agreePlaces.eq_cons
            simp only [tailFound, point, if_true, agreeFraction.takeWhile_eq]
          · simp only [point, if_false, Scan.matched,
              show whole + 2 - (whole + 1) = 0 + 1 from by omega] at agreeRest
            obtain ⟨tail, tailFound, _⟩ := agreeRest.eq_cons
            simp only [tailFound, point, if_false]

theorem closing?_congr {delimiter : UInt8} {left right : List UInt8}
    {offset length : Nat} (found : closing? delimiter left offset = some length)
    (agree : AgreeFor (length - offset) left right) :
    offset < length ∧ closing? delimiter right offset = some length := by
  fun_induction closing? delimiter left offset generalizing right with
  | case1 => cases found
  | case2 rest offset =>
      obtain rfl := Option.some.inj found
      rw [Nat.add_sub_cancel_left] at agree
      obtain ⟨tail, rfl, _⟩ := AgreeFor.eq_cons agree
      refine ⟨Nat.lt_succ_self _, ?_⟩
      unfold closing?
      simp
  | case3 => cases found
  | case4 offset escaped rest plain induction =>
      have later : offset + 2 < length :=
        (induction found (AgreeFor.refl _ _)).1
      rw [show length - offset = length - (offset + 2) + 1 + 1 from by omega]
        at agree
      obtain ⟨tail, rfl, agreeTail⟩ := agree.eq_cons
      obtain ⟨rest, rfl, agreeRest⟩ := agreeTail.eq_cons
      refine ⟨by omega, ?_⟩
      unfold closing?
      simpa [plain] using (induction found agreeRest).2
  | case5 byte rest offset other plain induction =>
      have later : offset + 1 < length :=
        (induction found (AgreeFor.refl _ _)).1
      rw [show length - offset = length - (offset + 1) + 1 from by omega]
        at agree
      obtain ⟨tail, rfl, agreeTail⟩ := agree.eq_cons
      refine ⟨by omega, ?_⟩
      unfold closing?
      simpa [other, plain] using (induction found agreeTail).2

theorem scanQuoted_congr {delimiter : UInt8} {left right : List UInt8}
    (agree : AgreeFor (scanQuoted delimiter left).examined left right) :
    scanQuoted delimiter right = scanQuoted delimiter left := by
  cases left with
  | nil =>
      simp only [scanQuoted, Scan.failed] at agree
      rw [agree.eq_nil]
  | cons first rest =>
      by_cases opens : first = delimiter
      · cases closed : closing? delimiter rest 1 with
        | some length =>
            simp only [scanQuoted, opens, if_true, closed,
              Scan.matched] at agree
            have later := (closing?_congr closed (AgreeFor.refl _ _)).1
            rw [show length = (length - 1) + 1 from by omega] at agree
            obtain ⟨tail, rfl, agreeRest⟩ := agree.eq_cons
            simp only [scanQuoted, opens, if_true, closed,
              (closing?_congr closed agreeRest).2]
        | none =>
            simp only [scanQuoted, opens, if_true, closed, Scan.failed] at agree
            have agreeAll :
                AgreeFor ((delimiter :: rest).length + 1) (delimiter :: rest)
                  right :=
              agree
            rw [agreeAll.eq_of_length, opens]
      · simp only [scanQuoted, opens, if_false, Scan.failed] at agree
        obtain ⟨tail, rfl, _⟩ := agree.eq_cons
        simp only [scanQuoted, opens, if_false]

theorem scanLiteral_matched {text rest : List UInt8} {length : Nat}
    (found : (scanLiteral text rest).length = some length) :
    scanLiteral text rest = .matched text.length text.length := by
  induction text generalizing rest length with
  | nil => rfl
  | cons expected text induction =>
      cases rest with
      | nil => simp [scanLiteral, Scan.failed] at found
      | cons byte rest =>
          by_cases same : byte = expected
          · simp only [scanLiteral, same, if_true, Scan.after,
              Option.map_eq_some_iff] at found
            obtain ⟨shorter, shorterFound, _⟩ := found
            simp [scanLiteral, same, induction shorterFound, Scan.after,
              Scan.matched]
          · simp [scanLiteral, same, Scan.failed] at found

theorem scanLineComment_congr {opening left right : List UInt8}
    (agree : AgreeFor (scanLineComment opening left).examined left right) :
    scanLineComment opening right = scanLineComment opening left := by
  cases found : (scanLiteral opening left).length with
  | none =>
      have same : scanLineComment opening left = scanLiteral opening left := by
        simp [scanLineComment, found]
      rw [same] at agree ⊢
      simp [scanLineComment, scanLiteral_congr agree, found]
  | some length =>
      have openingExamined : (scanLiteral opening left).examined ≤
          (scanLineComment opening left).examined := by
        simp only [scanLineComment, scanLiteral_matched found, Scan.matched]
        omega
      have sameOpening := scanLiteral_congr (agree.mono openingExamined)
      have agreeBody := agree.drop opening.length
      simp only [scanLineComment, found, Scan.matched,
        Nat.add_assoc, Nat.add_sub_cancel_left] at agreeBody
      simp only [scanLineComment, sameOpening, found, agreeBody.takeWhile_eq]

/-- A pattern is scanned alike on texts that agree on the bytes it examines. -/
theorem scan_congr {pattern : Pattern} {left right : List UInt8}
    (agree : AgreeFor (pattern.scan left).examined left right) :
    pattern.scan right = pattern.scan left := by
  cases pattern with
  | literal text => exact scanLiteral_congr agree
  | identifier => exact scanIdentifier_congr agree
  | number => exact scanNumber_congr agree
  | quoted delimiter => exact scanQuoted_congr agree
  | whitespace => exact scanRun_congr agree
  | lineComment opening => exact scanLineComment_congr agree

end Pattern

namespace Lexeme

theorem leadingExtra_congr {extras : List Pattern} {left right : List UInt8}
    (agree : AgreeFor (leadingExtra extras left).2 left right) :
    leadingExtra extras right = leadingExtra extras left := by
  induction extras with
  | nil => rfl
  | cons extra extras induction =>
      simp only [leadingExtra] at agree ⊢
      cases progress : (extra.scan left).progress with
      | some length =>
          simp only [progress] at agree
          simp only [Pattern.scan_congr agree, progress]
      | none =>
          simp only [progress] at agree
          have scanned := agree.mono (Nat.le_max_left _ _)
          have others := agree.mono (Nat.le_max_right _ _)
          simp only [Pattern.scan_congr scanned, progress, induction others]

theorem skipExtras_of_none {extras : List Pattern} {rest : List UInt8}
    {examined : Nat} (found : leadingExtra extras rest = (none, examined)) :
    skipExtras extras rest = ⟨0, examined⟩ := by
  rw [skipExtras]
  split <;> simp_all

theorem skipExtras_of_some {extras : List Pattern} {rest : List UInt8}
    {length examined : Nat}
    (found : leadingExtra extras rest = (some length, examined)) :
    skipExtras extras rest =
      ⟨length + (skipExtras extras (rest.drop length)).length,
        max examined
          (length + (skipExtras extras (rest.drop length)).examined)⟩ := by
  rw [skipExtras]
  split <;> simp_all

theorem skipExtras_congr {extras : List Pattern} {left right : List UInt8}
    (agree : AgreeFor (skipExtras extras left).examined left right) :
    skipExtras extras right = skipExtras extras left := by
  induction left using skipExtras.induct extras generalizing right with
  | case1 rest examined found =>
      rw [skipExtras_of_none found] at agree ⊢
      apply skipExtras_of_none
      rw [← found]
      exact leadingExtra_congr (by rw [found]; exact agree)
  | case2 rest length examined found induction =>
      rw [skipExtras_of_some found] at agree ⊢
      have leading : AgreeFor examined rest right :=
        agree.mono (Nat.le_max_left _ _)
      have same : leadingExtra extras right = (some length, examined) := by
        rw [← found]
        exact leadingExtra_congr (by rw [found]; exact leading)
      have others :
          AgreeFor (skipExtras extras (rest.drop length)).examined
            (rest.drop length) (right.drop length) :=
        (agree.drop length).mono (by simp only; omega)
      rw [skipExtras_of_some same, induction others]

/-- Behind the extras that were skipped, none is left to skip. -/
theorem skipExtras_drop (extras : List Pattern) (rest : List UInt8) :
    (skipExtras extras (rest.drop (skipExtras extras rest).length)).length = 0 ∧
      (skipExtras extras rest).length +
          (skipExtras extras
            (rest.drop (skipExtras extras rest).length)).examined ≤
        (skipExtras extras rest).examined := by
  induction rest using skipExtras.induct extras with
  | case1 rest examined found =>
      rw [skipExtras_of_none found, List.drop_zero, skipExtras_of_none found]
      exact ⟨rfl, Nat.le_of_eq (Nat.zero_add _)⟩
  | case2 rest length examined found induction =>
      rw [skipExtras_of_some found, ← List.drop_drop]
      refine ⟨induction.1, ?_⟩
      have := induction.2
      simp only
      omega

theorem contest_congr_from {terminals : List Terminal} {left right : List UInt8}
    {tried : Contest}
    (agree : AgreeFor
      (terminals.foldl (Contest.enter left) tried).examined left right) :
    tried.examined ≤ (terminals.foldl (Contest.enter left) tried).examined ∧
      terminals.foldl (Contest.enter right) tried =
        terminals.foldl (Contest.enter left) tried := by
  induction terminals generalizing tried with
  | nil => exact ⟨Nat.le_refl _, rfl⟩
  | cons terminal terminals induction =>
      obtain ⟨grows, same⟩ := induction agree
      have examined : tried.examined ≤ (tried.enter left terminal).examined :=
        Nat.le_max_left _ _
      have scanned : (terminal.pattern.scan left).examined ≤
          (tried.enter left terminal).examined :=
        Nat.le_max_right _ _
      refine ⟨Nat.le_trans examined grows, ?_⟩
      have entered :
          tried.enter right terminal = tried.enter left terminal := by
        simp only [Contest.enter,
          Pattern.scan_congr (agree.mono (Nat.le_trans scanned grows))]
      rw [List.foldl_cons, List.foldl_cons, entered, same]

theorem contest_congr {terminals : List Terminal} {left right : List UInt8}
    (agree : AgreeFor (contest terminals left).examined left right) :
    contest terminals right = contest terminals left :=
  (contest_congr_from agree).2

/-- What the reading of a lexeme found: the gap in front of it and the best
candidate behind the gap. -/
theorem read_eq_lexeme {terminals : List Terminal} {extras : List Pattern}
    {rest : List UInt8} {lexeme : Lexeme}
    (found : read terminals extras rest = .lexeme lexeme) :
    ∃ best : Candidate,
      (contest terminals
          (rest.drop (skipExtras extras rest).length)).best = some best ∧
        lexeme =
          { symbol := best.symbol
            gap := (skipExtras extras rest).length
            length := best.length
            examined := max (skipExtras extras rest).examined
              ((skipExtras extras rest).length +
                (contest terminals
                  (rest.drop (skipExtras extras rest).length)).examined)
            length_pos := best.length_pos } := by
  simp only [read] at found
  split at found
  · cases found
  · next byte tail remaining =>
      split at found
      · next best won =>
          rw [← remaining] at found won
          exact ⟨best, won, (Reading.lexeme.inj found).symm⟩
      · cases found

theorem read_of_best {terminals : List Terminal} {extras : List Pattern}
    {rest : List UInt8} {best : Candidate}
    (left : rest.drop (skipExtras extras rest).length ≠ [])
    (won : (contest terminals
      (rest.drop (skipExtras extras rest).length)).best = some best) :
    read terminals extras rest =
      .lexeme
        { symbol := best.symbol
          gap := (skipExtras extras rest).length
          length := best.length
          examined := max (skipExtras extras rest).examined
            ((skipExtras extras rest).length +
              (contest terminals
                (rest.drop (skipExtras extras rest).length)).examined)
          length_pos := best.length_pos } := by
  simp only [read]
  cases remaining : rest.drop (skipExtras extras rest).length with
  | nil => exact absurd remaining left
  | cons byte tail =>
      rw [remaining] at won
      simp only [won]

theorem contest_nil (terminals : List Terminal) :
    (contest terminals []).best = none := by
  have step : ∀ tried : Contest, tried.best = none →
      (terminals.foldl (Contest.enter []) tried).best = none := by
    induction terminals with
    | nil => exact fun _ none => none
    | cons terminal terminals induction =>
        intro tried none
        apply induction
        have short : Candidate.ofScan? terminal (terminal.pattern.scan []) =
            Option.none := by
          unfold Candidate.ofScan?
          split
          · next length found =>
              have := Pattern.length_le_of_scan found
              simp at this
          · rfl
        simp [Contest.enter, none, short, Candidate.better]
  exact step ⟨none, 0⟩ rfl

/-- A lexeme is read alike from texts that agree on the bytes it examines. -/
theorem read_lexeme_congr {terminals : List Terminal} {extras : List Pattern}
    {left right : List UInt8} {lexeme : Lexeme}
    (found : read terminals extras left = .lexeme lexeme)
    (agree : AgreeFor lexeme.examined left right) :
    read terminals extras right = .lexeme lexeme := by
  obtain ⟨best, won, rfl⟩ := read_eq_lexeme found
  have sameGap := skipExtras_congr (agree.mono (Nat.le_max_left _ _))
  have tried :
      AgreeFor
        (contest terminals
          (left.drop (skipExtras extras left).length)).examined
        (left.drop (skipExtras extras left).length)
        (right.drop (skipExtras extras left).length) :=
    (agree.drop (skipExtras extras left).length).mono (by simp only; omega)
  have sameContest := contest_congr tried
  rw [← sameContest, ← sameGap] at won
  have goesOn : right.drop (skipExtras extras right).length ≠ [] := by
    intro ended
    rw [ended, contest_nil] at won
    cases won
  rw [read_of_best goesOn won]
  simp only [sameGap, sameContest]

/-- The end is found alike in texts that agree one byte past it. -/
theorem read_finished_congr {terminals : List Terminal} {extras : List Pattern}
    {left right : List UInt8} {examined : Nat}
    (found : read terminals extras left = .finished examined)
    (agree : AgreeFor examined left right) : right = left := by
  simp only [read] at found
  split at found
  · simp only [Reading.finished.injEq] at found
    exact (agree.mono (by omega)).eq_of_length
  · split at found <;> cases found

/-- Reading from the first byte of a lexeme finds it again, without a gap. -/
theorem read_drop_gap {terminals : List Terminal} {extras : List Pattern}
    {rest : List UInt8} {lexeme : Lexeme}
    (found : read terminals extras rest = .lexeme lexeme) :
    ∃ again : Lexeme,
      read terminals extras (rest.drop lexeme.gap) = .lexeme again ∧
        again.symbol = lexeme.symbol ∧ again.gap = 0 ∧
          again.length = lexeme.length ∧
            lexeme.gap + again.examined ≤ lexeme.examined := by
  obtain ⟨best, won, rfl⟩ := read_eq_lexeme found
  obtain ⟨noGap, examined⟩ := skipExtras_drop extras rest
  simp only
  have sameWon := won
  have unmoved : rest.drop (skipExtras extras rest).length =
      (rest.drop (skipExtras extras rest).length).drop
        (skipExtras extras
          (rest.drop (skipExtras extras rest).length)).length := by
    rw [noGap, List.drop_zero]
  rw [unmoved] at sameWon
  have goesOn : (rest.drop (skipExtras extras rest).length).drop
      (skipExtras extras
        (rest.drop (skipExtras extras rest).length)).length ≠ [] := by
    intro ended
    rw [ended, contest_nil] at sameWon
    cases sameWon
  refine ⟨_, read_of_best goesOn sameWon, rfl, noGap, rfl, ?_⟩
  simp only [noGap, List.drop_zero]
  omega

end Lexeme

/-- The token in a text that has at `target` what this one has at `origin`. -/
def Token.moved (token : Token) (origin target : Nat) : Token where
  symbol := token.symbol
  span :=
    ⟨token.span.start - origin + target, token.span.stop - origin + target⟩
  examinedEnd := token.examinedEnd - origin + target

namespace LexStep

/-- The end of the bytes examined for the step. -/
def examinedEnd : LexStep → Nat
  | .token found => found.examinedEnd
  | .finished stop => stop

/-- The step in a text that has at `target` what this one has at `origin`. -/
def moved (origin target : Nat) : LexStep → LexStep
  | .token found => .token (found.moved origin target)
  | .finished stop => .finished (stop - origin + target)

end LexStep

namespace Grammar

variable {grammar : Grammar} {text left right : List UInt8}
  {position origin target : Nat} {step : LexStep}

theorem lexAt?_eq_some (within : position ≤ text.length) {reading : Reading}
    (found : Lexeme.read grammar.terminals grammar.extras (text.drop position) =
      reading) :
    grammar.lexAt? text position = some (reading.step position) := by
  rw [lexAt?, if_pos within, found]

/-- A step is read as a lexeme, or as the end of the text. -/
theorem read_of_lexAt? (within : position ≤ text.length)
    (found : grammar.lexAt? text position = some (.ok step)) :
    (∃ lexeme, Lexeme.read grammar.terminals grammar.extras
        (text.drop position) = .lexeme lexeme ∧
      step = .token (lexeme.token position)) ∨
    ∃ examined, Lexeme.read grammar.terminals grammar.extras
        (text.drop position) = .finished examined ∧
      step = .finished (position + examined) := by
  cases reading : Lexeme.read grammar.terminals grammar.extras
      (text.drop position) with
  | lexeme lexeme =>
      rw [lexAt?_eq_some within reading] at found
      cases found
      exact .inl ⟨lexeme, rfl, rfl⟩
  | finished examined =>
      rw [lexAt?_eq_some within reading] at found
      cases found
      exact .inr ⟨examined, rfl, rfl⟩
  | stuck offset byte =>
      rw [lexAt?_eq_some within reading] at found
      cases found

theorem lexAt?_moved (within : origin ≤ left.length)
    (reachable : target ≤ right.length)
    (found : grammar.lexAt? left origin = some (.ok step))
    (agree : AgreeFor (step.examinedEnd - origin) (left.drop origin)
      (right.drop target)) :
    grammar.lexAt? right target = some (.ok (step.moved origin target)) := by
  obtain ⟨lexeme, read, rfl⟩ | ⟨examined, read, rfl⟩ :=
    read_of_lexAt? within found
  · have examined : (LexStep.token (lexeme.token origin)).examinedEnd - origin =
        lexeme.examined := Nat.add_sub_cancel_left ..
    rw [examined] at agree
    rw [lexAt?_eq_some reachable (Lexeme.read_lexeme_congr read agree)]
    simp only [Reading.step, LexStep.moved, Token.moved, Lexeme.token,
      Nat.add_sub_cancel_left, Nat.add_comm target]
  · have sameEnd : right.drop target = left.drop origin := by
      apply Lexeme.read_finished_congr read
      apply agree.mono
      exact Nat.le_of_eq (Nat.add_sub_cancel_left ..).symm
    rw [lexAt?_eq_some reachable (sameEnd ▸ read)]
    simp only [Reading.step, LexStep.moved, Nat.add_sub_cancel_left,
      Nat.add_comm]

theorem lexAt?_start (within : origin ≤ left.length) {token : Token}
    (found : grammar.lexAt? left origin = some (.ok (.token token))) :
    ∃ again, grammar.lexAt? left token.span.start = some (.ok (.token again)) ∧
      again.symbol = token.symbol ∧ again.span = token.span := by
  obtain ⟨lexeme, read, same⟩ | ⟨examined, -, other⟩ :=
    read_of_lexAt? within found
  · obtain rfl := LexStep.token.inj same
    obtain ⟨again, readAgain, symbol, gap, length, -⟩ :=
      Lexeme.read_drop_gap read
    rw [List.drop_drop] at readAgain
    have inside : origin + lexeme.gap ≤ left.length := by
      have remaining := Lexeme.length_pos_of_read readAgain
      rw [List.length_drop] at remaining
      exact Nat.le_of_lt (Nat.lt_of_sub_pos remaining)
    refine ⟨_, lexAt?_eq_some inside readAgain, symbol, ?_⟩
    simp only [Lexeme.token, Lexeme.extent, gap, length, Nat.zero_add,
      Nat.add_zero, Nat.add_assoc]
  · cases other

/-- Texts that agree on the bytes examined, where a text that ends differs from
one that goes on, are read alike wherever these bytes lie; and a token is read
again from its first byte. -/
theorem lexAt?_local (within : origin ≤ left.length)
    (reachable : target ≤ right.length)
    (found : grammar.lexAt? left origin = some (.ok step))
    (agree : ∀ index, index < step.examinedEnd - origin →
      left[origin + index]? = right[target + index]?) :
    grammar.lexAt? right target = some (.ok (step.moved origin target)) ∧
      ∀ token, step = .token token →
        ∃ again, grammar.lexAt? left token.span.start =
            some (.ok (.token again)) ∧
          again.symbol = token.symbol ∧ again.span = token.span := by
  constructor
  · apply lexAt?_moved within reachable found
    intro index below
    rw [List.getElem?_drop, List.getElem?_drop]
    exact agree index below
  · intro token same
    exact lexAt?_start within (same ▸ found)

/-- Names between blanks. -/
def names : Grammar where
  name := "names"
  symbols := #[⟨"name", .token⟩]
  ids := {("name", ⟨0⟩)}
  rules := #[none]
  terminals := [⟨⟨0⟩, .identifier⟩]
  extras := [.whitespace]
  root := ⟨0⟩
  ranks := #[0]

/-- The name in ` ab` is read in `1 ab` one byte further, and in ` ab` again
from its first letter. -/
theorem lexAt?_local_name :
    names.lexAt? [32, 97, 98] 0 = some (.ok (.token ⟨⟨0⟩, ⟨1, 3⟩, 4⟩)) ∧
      names.lexAt? [49, 32, 97, 98] 1 =
        some (.ok (.token ⟨⟨0⟩, ⟨2, 4⟩, 5⟩)) ∧
      ∃ again, names.lexAt? [32, 97, 98] 1 = some (.ok (.token again)) ∧
        again.symbol = ⟨0⟩ ∧ again.span = ⟨1, 3⟩ := by
  have name : Lexeme.read names.terminals names.extras [32, 97, 98] =
      .lexeme ⟨⟨0⟩, 1, 2, 4, Nat.two_pos⟩ := by
    cbv
  have read : names.lexAt? [32, 97, 98] 0 =
      some (.ok (.token ⟨⟨0⟩, ⟨1, 3⟩, 4⟩)) := by
    rw [lexAt?_eq_some (Nat.zero_le 3) name]
    rfl
  have agree : ∀ index, index < 4 →
      ([32, 97, 98] : List UInt8)[0 + index]? =
        [49, 32, 97, 98][1 + index]? := by
    decide
  have both := @lexAt?_local names [32, 97, 98] [49, 32, 97, 98] 0 1 _
    (by decide) (by decide) read agree
  exact ⟨read, both.1, both.2 _ rfl⟩

end Grammar

end Reparse
