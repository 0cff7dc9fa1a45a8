import Reparse.Proofs.Grammar.Slices
import Reparse.Proofs.Token.Examined
import Reparse.Token.Loop

/-!
# Reading comes to an end

The loops over positions have a value on every text, and it is the one that
reading by recursion has.  A loop over the extras moves on by what an extra
matched, a loop over the tokens by what a token covers, and neither leaves the
text.
-/

namespace Reparse

open Lexeme

theorem Pattern.scanSliced_of_le (pattern : Pattern) {input : List UInt8}
    {position : Nat} (inside : position ≤ input.length) :
    pattern.scanSliced input position =
      some (pattern.scan (input.drop position)) :=
  (pattern.scanSliced_eq input position).trans (if_pos inside)

/-! ## Extras -/

/-- An extra that makes progress has been examined as a whole. -/
theorem Lexeme.length_le_of_leadingExtra {extras : List Pattern}
    {rest : List UInt8} {length : Nat}
    (found : (leadingExtra extras rest).1 = some length) :
    length ≤ (leadingExtra extras rest).2 := by
  induction extras with
  | nil => cases found
  | cons extra extras induction =>
      rw [leadingExtra] at found ⊢
      cases progress : (extra.scan rest).progress with
      | some matched =>
          simp only [progress, Option.some.injEq] at found ⊢
          subst found
          have complete := (Pattern.progress_eq_some.mp progress).1
          exact Pattern.length_le_examined complete
      | none =>
          simp only [progress] at found ⊢
          exact Nat.le_trans (induction found) (Nat.le_max_right _ _)

/-- The extras in front of a token have been examined as a whole. -/
theorem Lexeme.skipExtras_length_le (extras : List Pattern)
    (rest : List UInt8) :
    (skipExtras extras rest).length ≤ (skipExtras extras rest).examined := by
  induction rest using skipExtras.induct extras with
  | case1 rest looked leading =>
      rw [skipExtras_of_none leading]
      exact Nat.zero_le _
  | case2 rest length looked leading induction =>
      rw [skipExtras_of_some leading]
      simp only
      omega

theorem passExtra_eq (extras : List Pattern) {input : List UInt8}
    {position examined : Nat} (inside : position ≤ input.length)
    (reached : position ≤ examined) :
    passExtra extras input position examined =
      some ((leadingExtra extras (input.drop position)).1.map (position + ·),
        max examined
          (position + (leadingExtra extras (input.drop position)).2)) := by
  induction extras generalizing examined with
  | nil =>
      simp only [passExtra, leadingExtra, Option.map_none, Nat.add_zero,
        Nat.max_eq_left reached]
  | cons extra extras induction =>
      rw [passExtra, extra.scanSliced_of_le inside, Option.bind_eq_bind,
        Option.bind_some, leadingExtra]
      cases progress : (extra.scan (input.drop position)).progress with
      | some length => rfl
      | none =>
          simp only
          rw [induction (by omega)]
          simp only [Option.some.injEq, Prod.mk.injEq, true_and]
          omega

/-- The extras passed in a loop are those skipped by recursion. -/
theorem Grammar.passExtras_eq (grammar : Grammar) {input rest : List UInt8}
    {position examined : Nat} (inside : position ≤ input.length)
    (left : rest = input.drop position) (reached : position ≤ examined) :
    grammar.passExtras input position examined =
      some (position + (skipExtras grammar.extras rest).length,
        max examined
          (position + (skipExtras grammar.extras rest).examined)) := by
  induction rest using skipExtras.induct grammar.extras
    generalizing position examined with
  | case1 rest looked leading =>
      rw [passExtras, passExtra_eq _ inside reached, ← left, leading,
        skipExtras_of_none leading]
      rfl
  | case2 rest length looked leading induction =>
      obtain ⟨advance, within⟩ := leadingExtra_bounds leading
      have covered : length ≤ looked := by
        have bound := length_le_of_leadingExtra (congrArg Prod.fst leading)
        rwa [leading] at bound
      rw [left, List.length_drop] at within
      rw [passExtras, passExtra_eq _ inside reached, ← left, leading,
        Option.bind_eq_bind, Option.bind_some, skipExtras_of_some leading]
      simp only [Option.map_some]
      rw [induction (by omega) (by rw [left, List.drop_drop]) (by omega)]
      simp only [Option.some.injEq, Prod.mk.injEq]
      omega

/-! ## Token patterns -/

/-- The candidate is a match of the terminal, of this length. -/
structure Lexeme.Candidate.Represents (candidate : Candidate) (length : Nat)
    (terminal : Terminal) : Prop where
  symbol : candidate.symbol = terminal.symbol
  length : candidate.length = length
  isLiteral : candidate.isLiteral = terminal.pattern.isLiteral

/-- A scan that makes progress offers a candidate. -/
theorem Lexeme.Candidate.ofScan?_of_progress (terminal : Terminal)
    {scan : Scan} {length : Nat} (progress : scan.progress = some length) :
    ∃ candidate, Candidate.ofScan? terminal scan = some candidate ∧
      candidate.Represents length terminal := by
  obtain ⟨found, positive⟩ := Pattern.progress_eq_some.mp progress
  obtain ⟨length, rfl⟩ := Nat.exists_eq_succ_of_ne_zero (Nat.ne_of_gt positive)
  rw [Candidate.ofScan?, found]
  exact ⟨_, rfl, rfl, rfl, rfl⟩

/-- A scan without progress offers none. -/
theorem Lexeme.Candidate.ofScan?_of_stalled (terminal : Terminal)
    {scan : Scan} (stalled : scan.progress = none) :
    Candidate.ofScan? terminal scan = none := by
  have offer := length_ofScan? terminal scan
  rwa [stalled, Option.map_eq_none_iff] at offer

theorem Lexeme.Candidate.better_none (leader : Option Candidate) :
    Candidate.better leader none = leader := by
  cases leader <;> rfl

/-- The best match of a loop and the best candidate of a contest. -/
abbrev Leaders (best : Option (Nat × Terminal))
    (leader : Option Candidate) : Prop :=
  Option.Rel (fun found (candidate : Candidate) =>
    candidate.Represents found.1 found.2) best leader

/-- A match is preferred by both or by none. -/
theorem leaders_better {best : Option (Nat × Terminal)}
    {leader : Option Candidate} {candidate : Candidate} {length : Nat}
    {terminal : Terminal} (leaders : Leaders best leader)
    (represents : candidate.Represents length terminal) :
    Leaders (if outdoes length terminal best then some (length, terminal)
      else best) (Candidate.better leader (some candidate)) := by
  cases leaders with
  | none => exact .some represents
  | @some found earlier leads =>
      have same : candidate.beats earlier =
          outdoes length terminal (some found) := by
        rw [Candidate.beats, represents.length, represents.isLiteral,
          leads.length, leads.isLiteral]
        rfl
      rw [Candidate.better, same]
      split
      · exact .some represents
      · exact .some leads

theorem tryTerminals_eq (terminals : List Terminal) {input : List UInt8}
    {position : Nat} (start : Nat) (inside : position ≤ input.length)
    {best : Option (Nat × Terminal)} {tried : Contest}
    (leaders : Leaders best tried.best) :
    ∃ winner,
      tryTerminals terminals input position best
          (max start (position + tried.examined)) =
        some (winner, max start (position +
          (terminals.foldl (Contest.enter (input.drop position))
            tried).examined)) ∧
      Leaders winner
        (terminals.foldl (Contest.enter (input.drop position)) tried).best := by
  induction terminals generalizing best tried with
  | nil => exact ⟨best, rfl, leaders⟩
  | cons terminal terminals induction =>
      rw [tryTerminals, terminal.pattern.scanSliced_of_le inside,
        Option.bind_eq_bind, Option.bind_some, List.foldl_cons]
      have looked : max (max start (position + tried.examined))
          (position + (terminal.pattern.scan (input.drop position)).examined) =
            max start (position +
              (tried.enter (input.drop position) terminal).examined) := by
        simp only [Contest.enter]
        omega
      rw [looked]
      cases progress :
          (terminal.pattern.scan (input.drop position)).progress with
      | none =>
          apply induction
          rw [Contest.enter, Candidate.ofScan?_of_stalled terminal progress]
          simp only [Candidate.better_none]
          exact leaders
      | some length =>
          obtain ⟨candidate, offered, represents⟩ :=
            Candidate.ofScan?_of_progress terminal progress
          apply induction
          rw [Contest.enter, offered]
          exact leaders_better leaders represents

/-! ## Tokens -/

namespace Grammar

variable {grammar : Grammar} {input : List UInt8}

/-- One token is read in loops as it is read by recursion. -/
theorem lexLoop_eq {start : Nat} (inside : start ≤ input.length) :
    grammar.lexLoop input start =
      some ((Lexeme.read grammar.terminals grammar.extras
        (input.drop start)).step start) := by
  have covered := skipExtras_length_le grammar.extras (input.drop start)
  obtain ⟨gapInside, _⟩ :=
    skipExtras_bounds grammar.extras (input.drop start)
  rw [List.length_drop] at gapInside
  rw [lexLoop, passExtras_eq grammar inside rfl (Nat.le_refl start),
    Option.bind_eq_bind, Option.bind_some, Lexeme.read]
  generalize skipExtras grammar.extras (input.drop start) = skipped at *
  have here : input[start + skipped.length]? =
      ((input.drop start).drop skipped.length).head? := by
    rw [List.drop_drop, List.head?_drop]
  simp only [here]
  cases left : (input.drop start).drop skipped.length with
  | nil =>
      simp only [List.head?_nil, Reading.step, List.length_drop, pure,
        Option.some.injEq, Except.ok.injEq, LexStep.finished.injEq]
      omega
  | cons byte tail =>
      have behind : input.drop (start + skipped.length) = byte :: tail := by
        rw [← List.drop_drop, left]
      have nobody : Leaders none (Contest.mk none 0).best := .none
      obtain ⟨winner, tried, leaders⟩ := tryTerminals_eq grammar.terminals
        (max start (start + skipped.examined))
        (show start + skipped.length ≤ input.length by omega) nobody
      rw [behind] at tried leaders
      have reached : max (max start (start + skipped.examined))
          (start + skipped.length + 0) =
            max start (start + skipped.examined) := by omega
      rw [reached] at tried
      simp only [List.head?_cons, tried, Option.bind_eq_bind,
        Option.bind_some]
      rw [← contest] at leaders ⊢
      generalize contest grammar.terminals (byte :: tail) = won at leaders ⊢
      rcases won with ⟨best, looked⟩
      cases leaders with
      | none => rfl
      | @some found best represents =>
          simp only [Reading.step, Lexeme.token, Lexeme.extent, pure,
            Option.some.injEq, Except.ok.injEq, LexStep.token.injEq,
            Token.mk.injEq, Span.mk.injEq, represents.symbol,
            represents.length, true_and]
          omega

/-- A text is read in loops as it is read by recursion. -/
theorem tokenizeLoop_eq {rest : List UInt8} {position : Nat}
    {tokens : Array Token} (inside : position ≤ input.length)
    (left : rest = input.drop position) :
    grammar.tokenizeLoop input position tokens =
      some (grammar.tokensFrom rest position tokens) := by
  fun_induction grammar.tokensFrom rest position tokens with
  | case1 rest position tokens lexeme reading induction =>
      have within := (extent_bounds reading).2
      rw [left, List.length_drop] at within
      rw [tokenizeLoop, lexLoop_eq inside, ← left, reading]
      exact induction (by omega) (by rw [left, List.drop_drop])
  | case2 rest position tokens examined reading =>
      have length : position + rest.length = input.length := by
        rw [left, List.length_drop]
        omega
      rw [tokenizeLoop, lexLoop_eq inside, ← left, reading, length]
      rfl
  | case3 rest position tokens offset byte reading =>
      rw [tokenizeLoop, lexLoop_eq inside, ← left, reading]
      rfl

/-- Reading a text in loops comes to an end. -/
theorem tokenizeLoop_eq_tokenize (grammar : Grammar) (input : List UInt8) :
    grammar.tokenizeLoop input 0 #[] = some (grammar.tokenize input) :=
  tokenizeLoop_eq (Nat.zero_le _) List.drop_zero.symm

end Grammar

end Reparse
