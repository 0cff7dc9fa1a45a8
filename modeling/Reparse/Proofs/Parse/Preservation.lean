import Mathlib.Data.List.InsertIdx
import Reparse.Proofs.Parse.Recovery

/-!
# What derivations keep

A derivation changes its state by a few moves: it examines bytes, takes nodes
off the stack, matches a token, acts on an outcome that it remembers, takes a
node over, closes the run of a rule, and wraps tokens that fit nowhere.  What
each of these moves keeps is kept by every evaluation and by the loop over the
tokens.
-/

namespace Reparse

/-- The node of the outcome, if it has one, is good. -/
def Outcome.Holds (good : Placed Node → Prop) (outcome : Outcome) : Prop :=
  ∀ next examined placed, outcome = .matched next examined (some placed) →
    good placed

namespace Outcome

variable {good : Placed Node → Prop}

theorem holds_failed (examined : Nat) : (failed examined).Holds good := by
  intro next further placed same
  cases same

theorem holds_nothing (next examined : Nat) :
    (matched next examined none).Holds good := by
  intro other further placed same
  cases same

theorem holds_node {next examined : Nat} {placed : Placed Node}
    (isGood : good placed) :
    (matched next examined (some placed)).Holds good := by
  intro other further node same
  cases same
  exact isGood

end Outcome

namespace DerivationState

/-- All nodes on the stack and in the memory are good. -/
structure Holds (good : Placed Node → Prop) (state : DerivationState) :
    Prop where
  scratch : ∀ placed ∈ state.scratch.toList, good placed
  memo : ∀ (symbol : Symbol) (position : Nat) (outcome : Outcome),
    state.memo[(symbol, position)]? = some outcome → outcome.Holds good

section

variable {good better : Placed Node → Prop} {state : DerivationState}

theorem holds_initial (supply : Nat) : (initial supply).Holds good := by
  constructor
  · intro placed member
    cases member
  · intro symbol position outcome found
    simp [initial] at found

theorem Holds.mono (holds : state.Holds good)
    (improves : ∀ placed, good placed → better placed) :
    state.Holds better := by
  constructor
  · intro placed member
    exact improves placed (holds.scratch placed member)
  · intro symbol position outcome found next examined placed same
    exact improves placed (holds.memo symbol position outcome found next
      examined placed same)

theorem Holds.truncate (holds : state.Holds good) (mark : Nat) :
    (state.truncate mark).Holds good := by
  refine ⟨?_, holds.memo⟩
  intro placed member
  apply holds.scratch
  rw [DerivationState.truncate, Array.toList_shrink] at member
  exact List.mem_of_mem_take member

theorem Holds.above (holds : state.Holds good) (mark : Nat) :
    ∀ placed ∈ state.above mark, good placed := by
  intro placed member
  apply holds.scratch
  rw [DerivationState.above, Array.toList_extract, List.extract] at member
  exact List.mem_of_mem_drop (List.mem_of_mem_take member)

theorem Holds.push {placed : Placed Node} (holds : state.Holds good)
    (isGood : good placed) : (state.push placed).Holds good := by
  refine ⟨?_, holds.memo⟩
  intro other member
  rw [DerivationState.push, Array.toList_push] at member
  rcases List.mem_append.mp member with before | last
  · exact holds.scratch other before
  · cases List.mem_singleton.mp last
    exact isGood

theorem Holds.insert {placed : Placed Node} {mark : Nat}
    (holds : state.Holds good) (isGood : good placed) :
    ({ state with
      scratch := state.scratch.insertIdxIfInBounds mark placed } :
        DerivationState).Holds good := by
  refine ⟨?_, holds.memo⟩
  intro other member
  simp only [Array.insertIdxIfInBounds] at member
  split at member
  · rw [Array.toList_insertIdx] at member
    rcases List.eq_or_mem_of_mem_insertIdx member with rfl | before
    · exact isGood
    · exact holds.scratch other before
  · exact holds.scratch other member

theorem Holds.remember {outcome : Outcome} (holds : state.Holds good)
    (isGood : outcome.Holds good) (memoize : Bool) (symbol : Symbol)
    (position : Nat) :
    (state.remember memoize symbol position outcome).Holds good := by
  unfold DerivationState.remember
  split
  · refine ⟨holds.scratch, ?_⟩
    intro other place remembered found
    simp only [Std.HashMap.getElem?_insert] at found
    split at found
    · cases found
      exact isGood
    · exact holds.memo other place remembered found
  · exact holds

theorem Holds.of_remembered? {memoize : Bool} {symbol : Symbol}
    {position : Nat} {outcome : Outcome} (holds : state.Holds good)
    (found : state.remembered? memoize symbol position = some outcome) :
    outcome.Holds good := by
  unfold remembered? at found
  split at found
  · exact holds.memo symbol position outcome found
  · cases found

theorem Holds.apply {outcome : Outcome} (holds : state.Holds good)
    (isGood : outcome.Holds good) : (state.apply outcome).2.Holds good := by
  cases outcome with
  | failed examined => exact ⟨holds.scratch, holds.memo⟩
  | matched next examined node =>
      have examinedToo : (state.examine examined).Holds good :=
        ⟨holds.scratch, holds.memo⟩
      cases node with
      | none => exact examinedToo
      | some placed =>
          exact examinedToo.push (isGood next examined placed rfl)

theorem Holds.remember_apply {outcome : Outcome} (holds : state.Holds good)
    (isGood : outcome.Holds good) (memoize : Bool) (symbol : Symbol)
    (position : Nat) :
    ((state.remember memoize symbol position outcome).apply
      outcome).2.Holds good :=
  (holds.remember isGood memoize symbol position).apply isGood

/-- Remembering an outcome and acting on it changes only the stack, the memory
and what was examined. -/
theorem remember_apply_eq (memoize : Bool) (symbol : Symbol) (position : Nat)
    (outcome : Outcome) :
    ((state.remember memoize symbol position outcome).apply
        outcome).2.supply = state.supply ∧
      ((state.remember memoize symbol position outcome).apply
        outcome).2.reused = state.reused := by
  have remembered :
      (state.remember memoize symbol position outcome).supply = state.supply ∧
        (state.remember memoize symbol position outcome).reused =
          state.reused := by
    unfold DerivationState.remember
    split <;> exact ⟨rfl, rfl⟩
  cases outcome with
  | failed => exact remembered
  | matched next examined node => cases node <;> exact remembered

end

end DerivationState

namespace Setting

/-- The property of states is kept by every move. -/
structure Keeps (setting : Setting) (supply : Nat)
    (holds : DerivationState → Prop) : Prop where
  examined : ∀ {state : DerivationState}, holds state →
    ∀ examined, holds { state with examined := examined }
  truncated : ∀ {state : DerivationState}, holds state →
    ∀ mark, holds (state.truncate mark)
  terminal : ∀ {state : DerivationState}, holds state →
    ∀ symbol position, holds (setting.terminal symbol position state).2
  remembered : ∀ {state : DerivationState} {symbol : Symbol} {position : Nat}
    {outcome : Outcome}, holds state →
      state.remembered? setting.memoize symbol position = some outcome →
      holds (state.apply outcome).2
  taken : ∀ {state : DerivationState} {symbol : Symbol} {position : Nat}
    {node : Node} {outcome : Outcome}, holds state →
      setting.reusable? symbol position = some (node, outcome) →
      holds (((state.reuse node).remember setting.memoize symbol position
        outcome).apply outcome).2
  /-- What lies above the mark are the nodes of a match. -/
  closed : ∀ {state closed : DerivationState} {symbol : Symbol}
    {position mark outer : Nat} {next? : Option Nat} {outcome : Outcome},
      holds state →
      (∀ next, next? = some next → ∃ rule examined,
        setting.Runs supply rule position (some ⟨next, state.above mark⟩)
          examined) →
      setting.close symbol position mark outer next? state =
        (outcome, closed) →
      holds ((closed.remember setting.memoize symbol position
        outcome).apply outcome).2
  flushed : ∀ {state : DerivationState} {first? : Option Nat}
    {mark stop : Nat}, holds state →
      (∀ first, first? = some first → first < stop) →
      stop ≤ setting.tokens.size →
      holds (setting.flushErrors mark first? stop state)

section

variable {setting : Setting} {supply : Nat}
  {holds : DerivationState → Prop} (keeps : setting.Keeps supply holds)
  (regular : setting.grammar.Regular) (onward : setting.Onward)

include keeps regular onward

/-- Every evaluation keeps what the moves keep, one statement for each of the
functions that call each other. -/
theorem keeps_all :
    (∀ rule position bound state,
        setting.Trusted supply state → setting.Admits bound rule →
          holds state → holds (setting.eval rule position bound state).2) ∧
      (∀ item position bound mark state,
          setting.Trusted supply state → setting.Admits bound item →
            holds state →
              holds (setting.evalStar item position bound mark state).2) ∧
        (∀ alternatives position bound state,
            setting.Trusted supply state →
            setting.Admits bound (.choice alternatives) → holds state →
              holds (setting.evalChoice alternatives position bound state).2) ∧
          (∀ items position bound mark state,
              setting.Trusted supply state →
              setting.Admits bound (.seq items) → holds state →
                holds (setting.evalSeq items position bound mark state).2) ∧
            (∀ symbol position bound state,
                setting.Trusted supply state →
                setting.Admits bound (.symbol symbol) → holds state →
                  holds (setting.invoke symbol position bound state).2) ∧
              (∀ symbol rule position bound mark outer state,
                  setting.Trusted supply state → setting.Admits bound rule →
                  mark = state.scratch.size → holds state →
                    holds (setting.derive symbol rule position bound mark outer
                      state).2) := by
  apply Setting.eval.mutual_induct
  · intro position bound state name induction trusted admits kept
    rw [eval]
    exact induction trusted admits kept
  · intro position bound state items induction trusted admits kept
    rw [eval]
    exact induction trusted admits kept
  · intro position bound state alternatives induction trusted admits kept
    rw [eval]
    exact induction trusted admits kept
  · intro position bound state item induction trusted admits kept
    rw [eval]
    exact induction trusted (fun called call => admits called (.star call)) kept
  · intro position bound state item after found induction trusted admits kept
    have inner := induction trusted
      (fun called call => admits called (.opt call)) kept
    rw [found] at inner
    rw [eval, found]
    exact inner
  · intro position bound state item next after found induction trusted admits
      kept
    have inner := induction trusted
      (fun called call => admits called (.opt call)) kept
    rw [found] at inner
    rw [eval, found]
    exact inner
  -- A round of a repetition fails, consumes a token, or consumes none.
  · intro item position bound mark state after found induction trusted admits
      kept
    have round := induction trusted admits kept
    rw [found] at round
    rw [evalStar, found]
    exact round
  · intro item position bound mark state next after found moved induction
      laterInduction trusted admits kept
    have round := induction trusted admits kept
    have delivers := delivers_eval regular onward position trusted admits
    rw [found] at round delivers
    rw [evalStar, found]
    simp only [moved, and_self, dite_true]
    exact laterInduction delivers.trusted (admits_anyRank regular item) round
  · intro item position bound mark state next after found stuck induction
      trusted admits kept
    have round := induction trusted admits kept
    rw [found] at round
    rw [evalStar, found]
    simp only [stuck, dite_false]
    exact keeps.truncated round mark
  -- The first alternative of a choice fails or matches.
  · intro position bound state trusted admits kept
    rw [evalChoice]
    exact kept
  · intro position bound state item rest after found induction laterInduction
      trusted admits kept
    have inner := fun called call =>
      admits called (.choice List.mem_cons_self call)
    have first := induction trusted inner kept
    have delivers := delivers_eval regular onward position trusted inner
    rw [found] at first delivers
    rw [evalChoice, found]
    exact laterInduction delivers.trusted admits.tail first
  · intro position bound state item rest next after found induction trusted
      admits kept
    have first := induction trusted
      (fun called call => admits called (.choice List.mem_cons_self call)) kept
    rw [found] at first
    rw [evalChoice, found]
    exact first
  -- The first item of a sequence fails, consumes a token, or consumes none.
  · intro position bound mark state trusted admits kept
    rw [evalSeq]
    exact kept
  · intro position bound mark state item rest after found induction trusted
      admits kept
    have first := induction trusted admits.first kept
    rw [found] at first
    rw [evalSeq, found]
    exact keeps.truncated first mark
  · intro position bound mark state item rest next after found moved induction
      laterInduction trusted admits kept
    have first := induction trusted admits.first kept
    have delivers := delivers_eval regular onward position trusted admits.first
    rw [found] at first delivers
    rw [evalSeq, found]
    simp only [moved, and_self, dite_true]
    exact laterInduction delivers.trusted (admits_anyRank regular _) first
  · intro position bound mark state item rest next after found stuck induction
      laterInduction trusted admits kept
    have first := induction trusted admits.first kept
    have delivers := delivers_eval regular onward position trusted admits.first
    rw [found] at first delivers
    obtain ⟨rfl, nullable⟩ := delivers.idle onward stuck
    rw [evalSeq, found]
    simp only [stuck, dite_false]
    exact laterInduction delivers.trusted (admits.rest nullable) first
  -- The outcome of a symbol is remembered, taken over or derived.
  · intro symbol position bound state isTerminal trusted admits kept
    rw [invoke, if_pos isTerminal]
    exact keeps.terminal kept symbol position
  · intro symbol position bound state notTerminal noRule trusted admits kept
    rw [invoke, if_neg notTerminal, noRule]
    exact kept
  · intro symbol position bound state notTerminal rule known ranked isHidden
      induction trusted admits kept
    rw [invoke, if_neg notTerminal, known]
    simp only [ranked, isHidden, if_true, dite_true]
    exact induction trusted (admits_rule regular known) kept
  · intro symbol position bound state notTerminal rule known ranked visible
      outcome remembered trusted admits kept
    rw [invoke, if_neg notTerminal, known]
    simp only [ranked, visible, remembered, dite_true, Bool.false_eq_true,
      if_false]
    exact keeps.remembered kept remembered
  · intro symbol position bound state notTerminal rule known ranked visible
      notRemembered node outcome offered trusted admits kept
    rw [invoke, if_neg notTerminal, known]
    simp only [ranked, visible, notRemembered, offered, dite_true,
      Bool.false_eq_true, if_false]
    exact keeps.taken kept offered
  · intro symbol position bound state notTerminal rule known ranked visible
      notRemembered refused induction trusted admits kept
    rw [invoke, if_neg notTerminal, known]
    simp only [ranked, visible, notRemembered, refused, dite_true]
    exact induction trusted (admits_rule regular known) rfl kept
  · intro symbol position bound state notTerminal rule known unranked trusted
      admits kept
    rw [invoke, if_neg notTerminal, known]
    simp only [unranked, dite_false]
    exact kept
  · intro symbol rule position bound mark outer state result derived found
      outcome closed closedFound induction trusted admits atTop kept
    have trustedInside : setting.Trusted supply { state with examined := 0 } :=
      ⟨trusted.fresh, trusted.memo⟩
    have inner := induction trustedInside admits (keeps.examined kept 0)
    have delivers :=
      delivers_eval regular onward position trustedInside admits
    rw [found] at inner delivers
    rw [derive, found]
    simp only [closedFound]
    refine keeps.closed inner ?_ closedFound
    rintro next rfl
    cases delivers with
    | matched runs _ scratch _ =>
        have above := (above_of_append scratch
          (atTop.trans Array.length_toList.symm)).1
        rw [above]
        exact ⟨rule, _, runs⟩

theorem keeps_eval {rule : Rule Symbol} {position : Nat} {next? : Option Nat}
    {state after : DerivationState} (trusted : setting.Trusted supply state)
    (kept : holds state)
    (found : setting.eval rule position setting.anyRank state =
      (next?, after)) :
    setting.Delivers supply rule position state.scratch.toList state
        (next?, after) ∧
      holds after := by
  have admits := admits_anyRank regular rule
  have delivers := delivers_eval regular onward position trusted admits
  have later := (keeps_all keeps regular onward).1 rule position
    setting.anyRank state trusted admits kept
  rw [found] at delivers later
  exact ⟨delivers, later⟩

end

/-- The loop over the tokens keeps what the moves keep. -/
theorem keeps_deriveItems {setting : Setting} {supply : Nat}
    {holds : DerivationState → Prop} (keeps : setting.Keeps supply holds)
    (regular : setting.grammar.Regular) {text : List UInt8}
    (read : setting.grammar.tokenize text = .ok setting.tokens)
    {item : Rule Symbol} {position mark : Nat} {first? : Option Nat}
    {state : DerivationState} (within : position ≤ setting.tokens.size)
    (waiting : ∀ first, first? = some first → first < position)
    (trusted : setting.Trusted supply state) (kept : holds state) :
    holds (setting.deriveItems item position first? mark state) := by
  have onward := onward_of_tokenize read
  fun_induction setting.deriveItems item position first? mark state with
  | case1 position first? mark state inside next after found moved flushed
      induction =>
      obtain ⟨delivers, later⟩ :=
        keeps_eval keeps regular onward trusted kept found
      exact induction (delivers.next_le onward moved) waiting_none
        (trusted_flushErrors delivers.trusted)
        (keeps.flushed later waiting within)
  | case2 position first? mark state inside next after found stuck induction
  | case3 position first? mark state inside after found induction =>
      obtain ⟨delivers, later⟩ :=
        keeps_eval keeps regular onward trusted kept found
      exact induction inside (waiting_getD waiting)
        (trusted_truncate delivers.trusted mark) (keeps.truncated later mark)
  | case4 position first? mark state outside =>
      have atEnd := Nat.le_antisymm within (Nat.le_of_not_lt outside)
      exact keeps.flushed kept (atEnd ▸ waiting) (Nat.le_refl _)

end Setting

end Reparse
