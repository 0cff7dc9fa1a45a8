import Reparse.Proofs.Token.Loop
import Reparse.Token.Munch

/-!
# Reading is maximal munch

The extras that are skipped are the greedy chain of extras, and the candidate
that wins the contest is the match of the terminal to take.  Both are found by
one pass over a list of patterns: what is known of the patterns passed so far
goes on to hold with the next one.  So each reading is what the description of
the tokens allows, and it allows nothing else.
-/

namespace Reparse

open Lexeme

namespace Pattern

variable {pattern : Pattern} {rest : List UInt8} {length : Nat}

theorem progresses_iff :
    pattern.Progresses rest length ↔
      (pattern.scan rest).progress = some length :=
  progress_eq_some.symm

theorem stalls_iff :
    pattern.Stalls rest ↔ (pattern.scan rest).progress = none := by
  simp only [Stalls, progresses_iff, Option.eq_none_iff_forall_ne_some, ne_eq]

theorem Progresses.length_le (progresses : pattern.Progresses rest length) :
    length ≤ rest.length :=
  length_le_of_scan progresses.1

theorem Progresses.unique {other : Nat}
    (progresses : pattern.Progresses rest length)
    (progressesOther : pattern.Progresses rest other) : length = other :=
  Option.some.inj (progresses.1.symm.trans progressesOther.1)

end Pattern

/-! ## The chain of extras -/

section

variable {extras : List Pattern} {rest : List UInt8} {length gap : Nat}

theorem leadingExtra_eq_none_iff :
    (leadingExtra extras rest).1 = none ↔
      ∀ extra ∈ extras, extra.Stalls rest := by
  induction extras with
  | nil => exact ⟨fun _ => List.forall_mem_nil _, fun _ => rfl⟩
  | cons extra extras induction =>
      rw [List.forall_mem_cons, Pattern.stalls_iff, leadingExtra, ← induction]
      cases (extra.scan rest).progress <;> simp

theorem leadingExtra_of_first {before : List Pattern} {extra : Pattern}
    (after : List Pattern) (stalls : ∀ earlier ∈ before, earlier.Stalls rest)
    (progresses : extra.Progresses rest length) :
    (leadingExtra (before ++ extra :: after) rest).1 = some length := by
  induction before with
  | nil =>
      rw [List.nil_append, leadingExtra,
        Pattern.progresses_iff.mp progresses]
  | cons earlier before induction =>
      rw [List.forall_mem_cons] at stalls
      rw [List.cons_append, leadingExtra, Pattern.stalls_iff.mp stalls.1]
      exact induction stalls.2

theorem first_of_leadingExtra
    (found : (leadingExtra extras rest).1 = some length) :
    ∃ before extra after, extras = before ++ extra :: after ∧
      (∀ earlier ∈ before, earlier.Stalls rest) ∧
        extra.Progresses rest length := by
  induction extras with
  | nil => cases found
  | cons extra extras induction =>
      rw [leadingExtra] at found
      cases progress : (extra.scan rest).progress with
      | some other =>
          simp only [progress, Option.some.injEq] at found
          subst found
          exact ⟨[], extra, extras, rfl, List.forall_mem_nil _,
            Pattern.progresses_iff.mpr progress⟩
      | none =>
          simp only [progress] at found
          obtain ⟨before, first, after, rfl, stalls, progresses⟩ :=
            induction found
          refine ⟨extra :: before, first, after, rfl, ?_, progresses⟩
          rw [List.forall_mem_cons]
          exact ⟨Pattern.stalls_iff.mpr progress, stalls⟩

theorem extraChain_skipExtras (extras : List Pattern) (rest : List UInt8) :
    ExtraChain extras rest (skipExtras extras rest).length := by
  induction rest using skipExtras.induct extras with
  | case1 rest looked leading =>
      rw [skipExtras_of_none leading]
      exact .done (leadingExtra_eq_none_iff.mp (congrArg Prod.fst leading))
  | case2 rest length looked leading induction =>
      obtain ⟨before, extra, after, declared, stalls, progresses⟩ :=
        first_of_leadingExtra (congrArg Prod.fst leading)
      rw [skipExtras_of_some leading]
      exact .step declared stalls progresses induction

namespace ExtraChain

theorem length_skipExtras (chain : ExtraChain extras rest gap) :
    (skipExtras extras rest).length = gap := by
  induction chain with
  | done stalls =>
      have leading := leadingExtra_eq_none_iff.mpr stalls
      rw [skipExtras_of_none (Prod.ext leading rfl)]
  | @step _ after _ _ _ _ declared stalls progresses _ induction =>
      have leading := leadingExtra_of_first after stalls progresses
      rw [← declared] at leading
      rw [skipExtras_of_some (Prod.ext leading rfl), induction]

/-- There is only one chain. -/
theorem unique {other : Nat} (chain : ExtraChain extras rest gap)
    (chainOther : ExtraChain extras rest other) : gap = other :=
  chain.length_skipExtras.symm.trans chainOther.length_skipExtras

/-- Behind the chain no extra makes progress. -/
theorem stalls (chain : ExtraChain extras rest gap) :
    ∀ extra ∈ extras, extra.Stalls (rest.drop gap) := by
  induction chain with
  | done stalls => rwa [List.drop_zero]
  | step _ _ _ _ induction => rwa [← List.drop_drop]

end ExtraChain

end

/-! ## The terminal to take -/

section

variable {terminals : List Terminal} {rest : List UInt8} {index length : Nat}
  {terminal leader : Terminal}

theorem getElem?_concat {next : Terminal}
    (found : (terminals ++ [terminal])[index]? = some next) :
    terminals[index]? = some next ∨
      index = terminals.length ∧ next = terminal := by
  rw [List.getElem?_append] at found
  split at found
  · exact .inl found
  · next past =>
      obtain ⟨inside, same⟩ := List.getElem?_eq_some_iff.mp found
      rw [List.length_singleton] at inside
      rw [List.getElem_singleton] at same
      exact .inr ⟨by omega, same.symm⟩

namespace Wins

/-- The terminal to take stays the same if the next one is not preferred. -/
theorem keep (wins : Wins terminals rest index length leader)
    (behind : ∀ other, terminal.pattern.Progresses rest other →
      other < length ∨ other = length ∧
        (terminal.pattern.isLiteral = true →
          leader.pattern.isLiteral = true)) :
    Wins (terminals ++ [terminal]) rest index length leader := by
  have inside := (List.getElem?_eq_some_iff.mp wins.declared).1
  have last (progresses : terminal.pattern.Progresses rest length)
      (literal : terminal.pattern.isLiteral = true) :
      leader.pattern.isLiteral = true := by
    rcases behind length progresses with shorter | ⟨_, preferred⟩
    · exact absurd shorter (Nat.lt_irrefl length)
    · exact preferred literal
  refine ⟨?_, wins.progresses, ?_, ?_, ?_⟩
  · rw [List.getElem?_append_left inside]
    exact wins.declared
  · rw [List.forall_mem_append, List.forall_mem_singleton]
    refine ⟨wins.longest, fun other progresses => ?_⟩
    rcases behind other progresses with shorter | ⟨rfl, _⟩
    · exact Nat.le_of_lt shorter
    · exact Nat.le_refl _
  · intro otherIndex other found progresses literal
    rcases getElem?_concat found with earlier | ⟨rfl, rfl⟩
    · exact wins.first_literal otherIndex other earlier progresses literal
    · exact ⟨last progresses literal, Nat.le_of_lt inside⟩
  · intro otherIndex other found progresses plain
    rcases getElem?_concat found with earlier | ⟨rfl, rfl⟩
    · exact wins.first_of_all otherIndex other earlier progresses plain
    · exact Nat.le_of_lt inside

/-- The next terminal is the one to take if it is preferred to all before. -/
theorem last (progresses : terminal.pattern.Progresses rest length)
    (ahead : ∀ earlier ∈ terminals, ∀ other,
      earlier.pattern.Progresses rest other →
        other < length ∨ other = length ∧
          earlier.pattern.isLiteral = false ∧
            terminal.pattern.isLiteral = true) :
    Wins (terminals ++ [terminal]) rest terminals.length length terminal := by
  have preferred : ∀ earlier ∈ terminals,
      earlier.pattern.Progresses rest length →
        earlier.pattern.isLiteral = false ∧
          terminal.pattern.isLiteral = true := by
    intro earlier member equal
    rcases ahead earlier member length equal with shorter | ⟨_, literal⟩
    · exact absurd shorter (Nat.lt_irrefl length)
    · exact literal
  refine ⟨List.getElem?_concat_length, progresses, ?_, ?_, ?_⟩
  · rw [List.forall_mem_append, List.forall_mem_singleton]
    refine ⟨fun earlier member other found => ?_, fun other found => ?_⟩
    · rcases ahead earlier member other found with shorter | ⟨rfl, _⟩
      · exact Nat.le_of_lt shorter
      · exact Nat.le_refl _
    · exact Nat.le_of_eq (found.unique progresses)
  · intro otherIndex other found equal literal
    rcases getElem?_concat found with earlier | ⟨rfl, rfl⟩
    · have plain :=
        (preferred other (List.mem_of_getElem? earlier) equal).1
      rw [literal] at plain
      cases plain
    · exact ⟨literal, Nat.le_refl _⟩
  · intro otherIndex other found equal plain
    rcases getElem?_concat found with earlier | ⟨rfl, rfl⟩
    · have literal :=
        (preferred other (List.mem_of_getElem? earlier) equal).2
      rw [literal] at plain
      cases plain
    · exact Nat.le_refl _

/-- The next terminal is taken instead if its match is longer, or as long and
the only one of both that is a literal's. -/
theorem beaten {longer : Nat}
    (wins : Wins terminals rest index length leader)
    (progresses : terminal.pattern.Progresses rest longer)
    (beats : length < longer ∨ longer = length ∧
      terminal.pattern.isLiteral = true ∧ leader.pattern.isLiteral = false) :
    Wins (terminals ++ [terminal]) rest terminals.length longer terminal := by
  apply last progresses
  intro earlier member other found
  have bound := wins.longest earlier member other found
  rcases beats with shorter | ⟨rfl, literal, plain⟩
  · exact .inl (Nat.lt_of_le_of_lt bound shorter)
  · rcases Nat.lt_or_eq_of_le bound with shorter | rfl
    · exact .inl shorter
    · right
      refine ⟨rfl, ?_, literal⟩
      -- A literal among those before would have been taken already.
      cases earlierLiteral : earlier.pattern.isLiteral with
      | false => rfl
      | true =>
          obtain ⟨place, here⟩ := List.getElem?_of_mem member
          have taken := (wins.first_literal place earlier here found
            earlierLiteral).1
          rw [plain] at taken
          cases taken

theorem unbeaten {other : Nat}
    (wins : Wins terminals rest index length leader)
    (progresses : terminal.pattern.Progresses rest other)
    (fails : ¬(length < other ∨ other = length ∧
      terminal.pattern.isLiteral = true ∧ leader.pattern.isLiteral = false)) :
    Wins (terminals ++ [terminal]) rest index length leader := by
  apply wins.keep
  intro found foundProgresses
  obtain rfl := foundProgresses.unique progresses
  simp only [not_or, not_and, Bool.not_eq_false] at fails
  rcases Nat.lt_or_eq_of_le (Nat.le_of_not_lt fails.1) with shorter | same
  · exact .inl shorter
  · exact .inr ⟨same, fails.2 same⟩

/-- There is no more than one terminal to take. -/
theorem unique {otherIndex otherLength : Nat} {other : Terminal}
    (wins : Wins terminals rest index length terminal)
    (winsOther : Wins terminals rest otherIndex otherLength other) :
    length = otherLength ∧ terminal = other := by
  have member := List.mem_of_getElem? wins.declared
  have memberOther := List.mem_of_getElem? winsOther.declared
  have sameLength : length = otherLength :=
    Nat.le_antisymm
      (winsOther.longest terminal member length wins.progresses)
      (wins.longest other memberOther otherLength winsOther.progresses)
  subst sameLength
  have sameIndex : index = otherIndex := by
    cases literal : terminal.pattern.isLiteral with
    | true =>
        obtain ⟨literalOther, least⟩ :=
          winsOther.first_literal index terminal wins.declared
            wins.progresses literal
        obtain ⟨_, leastOther⟩ :=
          wins.first_literal otherIndex other winsOther.declared
            winsOther.progresses literalOther
        exact Nat.le_antisymm leastOther least
    | false =>
        cases literalOther : other.pattern.isLiteral with
        | true =>
            have preferred := (wins.first_literal otherIndex other
              winsOther.declared winsOther.progresses literalOther).1
            rw [literal] at preferred
            cases preferred
        | false =>
            exact Nat.le_antisymm
              (wins.first_of_all otherIndex other winsOther.declared
                winsOther.progresses literal)
              (winsOther.first_of_all index terminal wins.declared
                wins.progresses literalOther)
  subst sameIndex
  exact ⟨rfl, Option.some.inj (wins.declared.symm.trans winsOther.declared)⟩

end Wins

/-- Without a candidate no terminal passed so far makes progress, and the best
candidate is the match of the one to take. -/
structure Lexeme.Contest.Won (terminals : List Terminal) (rest : List UInt8)
    (tried : Contest) : Prop where
  stalled : tried.best = none →
    ∀ terminal ∈ terminals, terminal.pattern.Stalls rest
  won : ∀ best, tried.best = some best →
    ∃ index terminal, Wins terminals rest index best.length terminal ∧
      best.Represents best.length terminal

theorem beats_iff {candidate best : Candidate} {terminal leader : Terminal}
    {length bestLength : Nat}
    (represents : candidate.Represents length terminal)
    (leads : best.Represents bestLength leader) :
    candidate.beats best = true ↔
      bestLength < length ∨ length = bestLength ∧
        terminal.pattern.isLiteral = true ∧
          leader.pattern.isLiteral = false := by
  rw [Candidate.beats, represents.length, represents.isLiteral, leads.length,
    leads.isLiteral]
  simp [and_assoc]

/-- The next terminal takes part in the contest. -/
theorem won_enter {tried : Contest} (won : tried.Won terminals rest)
    (terminal : Terminal) :
    (tried.enter rest terminal).Won (terminals ++ [terminal]) rest := by
  cases progress : (terminal.pattern.scan rest).progress with
  | none =>
      have stalls := Pattern.stalls_iff.mpr progress
      have same : (tried.enter rest terminal).best = tried.best := by
        rw [Contest.enter, Candidate.ofScan?_of_stalled terminal progress]
        exact Candidate.better_none tried.best
      constructor
      · rw [same, List.forall_mem_append, List.forall_mem_singleton]
        exact fun none => ⟨won.stalled none, stalls⟩
      · rw [same]
        intro best leads
        obtain ⟨index, leader, wins, represents⟩ := won.won best leads
        exact ⟨index, leader,
          wins.keep fun other found => absurd found (stalls other),
          represents⟩
  | some length =>
      have progresses := Pattern.progresses_iff.mpr progress
      obtain ⟨candidate, offered, represents⟩ :=
        Candidate.ofScan?_of_progress terminal progress
      obtain rfl := represents.length
      have entered : (tried.enter rest terminal).best =
          Candidate.better tried.best (some candidate) := by
        rw [Contest.enter, offered]
      refine ⟨fun none => ?_, fun best leads => ?_⟩
      · rw [entered] at none
        cases (better_eq_none none).2
      · rw [entered] at leads
        cases before : tried.best with
        | none =>
            have stalled := won.stalled before
            rw [before] at leads
            cases leads
            refine ⟨terminals.length, terminal, .last progresses ?_,
              represents⟩
            intro earlier member other found
            exact absurd found (stalled earlier member other)
        | some leader =>
            obtain ⟨index, first, wins, leaderRepresents⟩ :=
              won.won leader before
            rw [before, Candidate.better] at leads
            split at leads
            · next beats =>
                cases leads
                exact ⟨terminals.length, terminal, wins.beaten progresses
                  ((beats_iff represents leaderRepresents).mp beats),
                  represents⟩
            · next fails =>
                cases leads
                rw [beats_iff represents leaderRepresents] at fails
                exact ⟨index, first, wins.unbeaten progresses fails,
                  leaderRepresents⟩

theorem won_contest (terminals : List Terminal) (rest : List UInt8) :
    (contest terminals rest).Won terminals rest := by
  have run : ∀ later earlier : List Terminal, ∀ tried : Contest,
      tried.Won earlier rest →
        (later.foldl (Contest.enter rest) tried).Won (earlier ++ later)
          rest := by
    intro later
    induction later with
    | nil =>
        intro earlier tried won
        rw [List.append_nil]
        exact won
    | cons terminal later induction =>
        intro earlier tried won
        have entered := induction _ _ (won_enter won terminal)
        rw [List.append_assoc, List.singleton_append] at entered
        exact entered
  refine run terminals [] ⟨none, 0⟩ ⟨fun _ => List.forall_mem_nil _, ?_⟩
  intro best same
  cases same

end

/-! ## One reading -/

section

variable {terminals : List Terminal} {extras : List Pattern}
  {rest : List UInt8}

/-- A lexeme is the match of the terminal to take, behind the extras. -/
theorem wins_of_read {lexeme : Lexeme}
    (found : read terminals extras rest = .lexeme lexeme) :
    ExtraChain extras rest lexeme.gap ∧
      ∃ index terminal,
        Wins terminals (rest.drop lexeme.gap) index lexeme.length terminal ∧
          lexeme.symbol = terminal.symbol := by
  obtain ⟨best, leads, rfl⟩ := read_eq_lexeme found
  obtain ⟨index, terminal, wins, represents⟩ :=
    (won_contest terminals _).won best leads
  exact ⟨extraChain_skipExtras extras rest, index, terminal, wins,
    represents.symbol⟩

/-- At the end the extras cover what is left, and the end has been looked at. -/
theorem chain_of_finished {examined : Nat}
    (found : read terminals extras rest = .finished examined) :
    ExtraChain extras rest rest.length ∧ examined = rest.length + 1 := by
  obtain ⟨within, looked⟩ := skipExtras_bounds extras rest
  simp only [Lexeme.read] at found
  split at found
  · next nothing =>
      cases found
      have all := List.drop_eq_nil_iff.mp nothing
      have chain := extraChain_skipExtras extras rest
      rw [Nat.le_antisymm within all] at chain
      exact ⟨chain, Nat.max_eq_right looked⟩
  · split at found <;> cases found

/-- Reading is stuck at a byte at which no terminal makes progress. -/
theorem stalls_of_stuck {offset : Nat} {byte : UInt8}
    (found : read terminals extras rest = .stuck offset byte) :
    ExtraChain extras rest offset ∧ rest[offset]? = some byte ∧
      ∀ terminal ∈ terminals, terminal.pattern.Stalls (rest.drop offset) := by
  simp only [Lexeme.read] at found
  split at found
  · cases found
  · next first tail left =>
      split at found
      · cases found
      · next none =>
          cases found
          rw [← left] at none
          refine ⟨extraChain_skipExtras extras rest, ?_,
            (won_contest terminals _).stalled none⟩
          rw [← List.head?_drop, left]
          rfl

/-- Where a terminal is to be taken behind the extras, it is read. -/
theorem read_of_wins {gap index length : Nat} {terminal : Terminal}
    (chain : ExtraChain extras rest gap)
    (wins : Wins terminals (rest.drop gap) index length terminal) :
    ∃ lexeme : Lexeme, read terminals extras rest = .lexeme lexeme ∧
      lexeme.gap = gap ∧ lexeme.length = length ∧
        lexeme.symbol = terminal.symbol := by
  cases found : read terminals extras rest with
  | lexeme lexeme =>
      obtain ⟨chainFound, _, _, winsFound, symbol⟩ := wins_of_read found
      have sameGap := chainFound.unique chain
      rw [sameGap] at winsFound
      obtain ⟨sameLength, rfl⟩ := winsFound.unique wins
      exact ⟨lexeme, rfl, sameGap, sameLength, symbol⟩
  | finished examined =>
      have all := chain.unique (chain_of_finished found).1
      obtain ⟨_, positive⟩ := wins.progresses
      have within := wins.progresses.length_le
      rw [List.length_drop] at within
      omega
  | stuck offset byte =>
      obtain ⟨chainFound, _, stalls⟩ := stalls_of_stuck found
      have sameGap := chainFound.unique chain
      rw [sameGap] at stalls
      exact absurd wins.progresses
        (stalls terminal (List.mem_of_getElem? wins.declared) length)

/-- Where no terminal makes progress behind the extras, reading is stuck. -/
theorem read_of_stalls {gap : Nat} {byte : UInt8}
    (chain : ExtraChain extras rest gap) (here : rest[gap]? = some byte)
    (stalls : ∀ terminal ∈ terminals,
      terminal.pattern.Stalls (rest.drop gap)) :
    read terminals extras rest = .stuck gap byte := by
  cases found : read terminals extras rest with
  | lexeme lexeme =>
      obtain ⟨chainFound, _, terminal, wins, _⟩ := wins_of_read found
      have sameGap := chainFound.unique chain
      rw [sameGap] at wins
      exact absurd wins.progresses
        (stalls terminal (List.mem_of_getElem? wins.declared) lexeme.length)
  | finished examined =>
      have all := chain.unique (chain_of_finished found).1
      have inside := (List.getElem?_eq_some_iff.mp here).1
      omega
  | stuck offset other =>
      obtain ⟨chainFound, hereFound, _⟩ := stalls_of_stuck found
      have sameGap := chainFound.unique chain
      rw [sameGap, here] at hereFound
      rw [sameGap, Option.some.inj hereFound]

/-- Where the extras cover what is left, the end is found. -/
theorem read_of_covered (chain : ExtraChain extras rest rest.length) :
    read terminals extras rest = .finished (rest.length + 1) := by
  have looked := (skipExtras_bounds extras rest).2
  rw [Lexeme.read, chain.length_skipExtras, List.drop_length]
  simp only [Nat.max_eq_right looked]

end

/-! ## A whole text -/

namespace Grammar

variable {grammar : Grammar} {input rest : List UInt8} {position : Nat}

/-- Reading on from what has been read of a text finds the rest of the tokens,
or the byte at which it is stuck. -/
theorem munch_of_tokensFrom {tokens : Array Token}
    (left : rest = input.drop position) (inside : position ≤ input.length)
    (munch : Munch grammar input tokens.toList position) :
    (∀ list, grammar.tokensFrom rest position tokens = .ok list →
        Munched grammar input list.tokens.toList ∧
          list.sourceLength = input.length ∧
            list.endExamined = input.length + 1) ∧
      ∀ error, grammar.tokensFrom rest position tokens = .error error →
        StuckAt grammar input error := by
  have length : position + rest.length = input.length := by
    rw [left, List.length_drop]
    omega
  fun_induction grammar.tokensFrom rest position tokens with
  | case1 rest position tokens lexeme reading induction =>
      obtain ⟨chain, index, terminal, wins, symbol⟩ := wins_of_read reading
      have within := (extent_bounds reading).2
      rw [left] at chain wins
      rw [List.drop_drop] at wins
      have next : Munch grammar input
          (tokens.push (lexeme.token position)).toList
          (position + lexeme.extent) := by
        rw [Array.toList_push, Lexeme.token, Lexeme.extent, symbol,
          ← Nat.add_assoc]
        exact .token munch chain wins
      apply induction
      · rw [left, List.drop_drop]
      · omega
      · exact next
      · rw [List.length_drop]
        omega
  | case2 rest position tokens examined reading =>
      obtain ⟨chain, looked⟩ := chain_of_finished reading
      constructor
      · rintro _ ⟨⟩
        rw [left] at chain
        refine ⟨⟨position, _, munch, chain, left ▸ length⟩, length, ?_⟩
        simp only
        omega
      · intro error impossible
        cases impossible
  | case3 rest position tokens offset byte reading =>
      obtain ⟨chain, here, stalls⟩ := stalls_of_stuck reading
      constructor
      · intro list impossible
        cases impossible
      · rintro _ ⟨⟩
        have extrasStall := chain.stalls
        rw [left] at chain here stalls extrasStall
        rw [List.getElem?_drop] at here
        rw [List.drop_drop] at stalls extrasStall
        exact ⟨tokens.toList, position, offset, munch, chain, rfl, here,
          extrasStall, stalls⟩

/-- What has been read of a text is what reading finds first. -/
theorem tokenize_of_munch {tokens : List Token}
    (munch : Munch grammar input tokens position) :
    position ≤ input.length ∧ ∃ read : Array Token,
      grammar.tokenize input =
          grammar.tokensFrom (input.drop position) position read ∧
        read.toList.map Token.place = tokens.map Token.place := by
  induction munch with
  | start => exact ⟨Nat.zero_le _, #[], rfl, rfl⟩
  | @token tokens position gap index length terminal examinedEnd _ chain wins
      induction =>
      obtain ⟨inside, read, same, places⟩ := induction
      rw [← List.drop_drop] at wins
      obtain ⟨lexeme, reading, rfl, rfl, symbol⟩ := read_of_wins chain wins
      have within := (extent_bounds reading).2
      rw [List.length_drop, Lexeme.extent] at within
      refine ⟨by omega, read.push (lexeme.token position), ?_, ?_⟩
      · rw [same, tokensFrom_of_lexeme reading, List.drop_drop, Lexeme.extent,
          Nat.add_assoc]
      · rw [Array.toList_push, List.map_append, List.map_append, places]
        simp only [List.map_cons, List.map_nil, Token.place, Lexeme.token,
          Lexeme.extent, symbol, Nat.add_assoc]

theorem tokensFrom_of_stuck {offset : Nat} {byte : UInt8}
    (reading : Lexeme.read grammar.terminals grammar.extras rest =
      .stuck offset byte) (position : Nat) (tokens : Array Token) :
    grammar.tokensFrom rest position tokens =
      .error ⟨position + offset, byte⟩ := by
  rw [tokensFrom]
  split <;> simp_all

/-- Tokens that cover a text are its tokens. -/
theorem tokenize_of_munched {tokens : List Token}
    (munched : Munched grammar input tokens) :
    ∃ list, grammar.tokenize input = .ok list ∧
      list.tokens.toList.map Token.place = tokens.map Token.place := by
  obtain ⟨position, gap, munch, chain, covered⟩ := munched
  obtain ⟨inside, read, same, places⟩ := tokenize_of_munch munch
  have all : gap = (input.drop position).length := by
    rw [List.length_drop]
    omega
  rw [same, tokensFrom_of_finished (read_of_covered (all ▸ chain))]
  exact ⟨_, rfl, places⟩

theorem tokenize_of_stuckAt {error : LexError}
    (stuck : StuckAt grammar input error) :
    grammar.tokenize input = .error error := by
  obtain ⟨tokens, position, gap, munch, chain, offset, here, _, stalls⟩ := stuck
  obtain ⟨inside, read, same, _⟩ := tokenize_of_munch munch
  rw [offset] at here stalls
  rw [← List.getElem?_drop] at here
  rw [← List.drop_drop] at stalls
  have reading := read_of_stalls chain here stalls
  rw [same, tokensFrom_of_stuck reading, ← offset]

section

variable {list : TokenList}

/-- At the start of a token no extra makes progress, and the token is the match
of the terminal to take there. -/
theorem wins_of_get? (found : grammar.tokenize input = .ok list) {index : Nat}
    {token : Token} (here : list.get? index = some token) :
    (∀ extra ∈ grammar.extras, extra.Stalls (input.drop token.span.start)) ∧
      ∃ which terminal,
        Wins grammar.terminals (input.drop token.span.start) which
            (token.span.stop - token.span.start) terminal ∧
          token.symbol = terminal.symbol := by
  obtain ⟨lexeme, reading, rfl⟩ := lexeme_of_get? found here
  obtain ⟨chain, which, terminal, wins, symbol⟩ := wins_of_read reading
  have stalls := chain.stalls
  have length : list.edge index + lexeme.extent -
      (list.edge index + lexeme.gap) = lexeme.length := by
    rw [Lexeme.extent]
    omega
  rw [List.drop_drop] at wins stalls
  rw [← length] at wins
  exact ⟨stalls, which, terminal, wins, symbol⟩

/-- No token begins before the end of one before it. -/
theorem stop_le_start (found : grammar.tokenize input = .ok list)
    {earlier later : Nat} {first second : Token} (ordered : earlier < later)
    (firstFound : list.get? earlier = some first)
    (secondFound : list.get? later = some second) :
    first.span.stop ≤ second.span.start := by
  have inside := Nat.le_of_lt (TokenList.lt_size_of_get? secondFound)
  have edges := edge_le_edge found (Nat.succ_le_of_lt ordered) inside
  rw [TokenList.edge_succ firstFound] at edges
  exact Nat.le_trans edges (span_bounds found secondFound).1

end

/-- Reading a text comes to an end.  Its tokens and the greedy chains of extras
before, between and behind them cover the text; each token begins where no extra
makes progress and is the match of the terminal to take; the tokens are not
empty, lie one behind the other inside the text, and are examined no further
than its end, which is looked at in the end; and the index behind a token is
found by where it stops.  There is an error exactly where reading is stuck. -/
theorem tokenize_munches (grammar : Grammar) (input : List UInt8) :
    grammar.tokenizeLoop input 0 #[] = some (grammar.tokenize input) ∧
      (∀ list, grammar.tokenize input = .ok list →
        Munched grammar input list.tokens.toList ∧
        list.sourceLength = input.length ∧
        list.endExamined = input.length + 1 ∧
        (∀ index token, list.get? index = some token →
          (token.span.start < token.span.stop ∧
            token.span.stop ≤ input.length ∧
            token.span.stop ≤ token.examinedEnd ∧
            token.examinedEnd ≤ input.length + 1) ∧
          (∀ extra ∈ grammar.extras,
            extra.Stalls (input.drop token.span.start)) ∧
          ∃ which terminal,
            Wins grammar.terminals (input.drop token.span.start) which
                (token.span.stop - token.span.start) terminal ∧
              token.symbol = terminal.symbol) ∧
        (∀ earlier later first second, earlier < later →
          list.get? earlier = some first → list.get? later = some second →
            first.span.stop ≤ second.span.start) ∧
        ∀ stop next, list.indexAfter? stop = some next ↔
          ∃ index token, next = index + 1 ∧ list.get? index = some token ∧
            token.span.stop = stop) ∧
      (∀ tokens, Munched grammar input tokens →
        ∃ list, grammar.tokenize input = .ok list ∧
          list.tokens.toList.map Token.place = tokens.map Token.place) ∧
      ∀ error, grammar.tokenize input = .error error ↔
        StuckAt grammar input error := by
  have nothing : Munch grammar input (#[] : Array Token).toList 0 := .start
  obtain ⟨covers, sticks⟩ := munch_of_tokensFrom List.drop_zero.symm
    (Nat.zero_le _) nothing
  refine ⟨tokenizeLoop_eq_tokenize grammar input, ?_,
    fun tokens => tokenize_of_munched, fun error =>
      ⟨sticks error, tokenize_of_stuckAt⟩⟩
  intro list found
  obtain ⟨munched, length, looked⟩ := covers list found
  refine ⟨munched, length, looked, ?_, ?_, ?_⟩
  · intro index token here
    obtain ⟨_, filled, within, examined⟩ := span_bounds found here
    have bound := examinedEnd_le_endExamined found index
    rw [TokenList.examinedEnd_of_get? here, looked] at bound
    exact ⟨⟨filled, within, examined, bound⟩, wins_of_get? found here⟩
  · intro earlier later first second ordered
    exact stop_le_start found ordered
  · intro stop next
    exact TokenList.indexAfter?_eq_some_iff (increasing_of_tokenize found)

/-- Names between blanks, and a keyword declared behind them. -/
def keyword : Grammar where
  name := "keyword"
  symbols := #[⟨"name", .token⟩, ⟨"if", .literal⟩]
  ids := {("name", ⟨0⟩), ("if", ⟨1⟩)}
  rules := #[none, none]
  terminals := [⟨⟨0⟩, .identifier⟩, ⟨⟨1⟩, .literal [105, 102]⟩]
  extras := [.whitespace]
  root := ⟨0⟩
  ranks := #[0, 0]

/-- In ` if` the keyword is taken although the name is declared first, and the
digit in `i 0` is an error. -/
theorem keyword_munches :
    (∃ list, keyword.tokenize [32, 105, 102] = .ok list ∧
      Munched keyword [32, 105, 102] list.tokens.toList ∧
      (∃ which, Wins keyword.terminals [105, 102] which 2
        ⟨⟨1⟩, .literal [105, 102]⟩) ∧
      list.indexAfter? 3 = some 1) ∧
    StuckAt keyword [105, 32, 48] ⟨2, 48⟩ := by
  have taken : Lexeme.read keyword.terminals keyword.extras [32, 105, 102] =
      .lexeme ⟨⟨1⟩, 1, 2, 4, Nat.two_pos⟩ := by
    cbv
  have ended : Lexeme.read keyword.terminals keyword.extras [] =
      .finished 1 := by
    cbv
  have name : Lexeme.read keyword.terminals keyword.extras [105, 32, 48] =
      .lexeme ⟨⟨0⟩, 0, 1, 2, Nat.one_pos⟩ := by
    cbv
  have digit : Lexeme.read keyword.terminals keyword.extras [32, 48] =
      .stuck 1 48 := by
    cbv
  have read : keyword.tokenize [32, 105, 102] =
      .ok ⟨#[⟨⟨1⟩, ⟨1, 3⟩, 4⟩], 4, 3⟩ := by
    rw [tokenize, tokensFrom_of_lexeme taken]
    exact tokensFrom_of_finished ended _ _
  have failed : keyword.tokenize [105, 32, 48] = .error ⟨2, 48⟩ := by
    rw [tokenize, tokensFrom_of_lexeme name]
    exact tokensFrom_of_stuck digit _ _
  obtain ⟨_, covered, _, _⟩ := tokenize_munches keyword [32, 105, 102]
  obtain ⟨munched, _, _, tokens, _, indices⟩ := covered _ read
  obtain ⟨_, _, which, terminal, wins, symbol⟩ := tokens 0 _ rfl
  have isKeyword : terminal = ⟨⟨1⟩, .literal [105, 102]⟩ := by
    have member := List.mem_of_getElem? wins.declared
    simp only [keyword, List.mem_cons, List.not_mem_nil, or_false] at member
    rcases member with rfl | rfl
    · cases symbol
    · rfl
  refine ⟨⟨_, read, munched, ⟨which, isKeyword ▸ wins⟩, ?_⟩, ?_⟩
  · exact (indices 3 1).mpr ⟨0, _, rfl, rfl, rfl⟩
  · obtain ⟨_, _, _, errors⟩ := tokenize_munches keyword [105, 32, 48]
    exact (errors _).mp failed

end Grammar

end Reparse
