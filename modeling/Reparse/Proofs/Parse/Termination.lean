import Mathlib.Logic.Relation
import Reparse.Parse.Recursion
import Reparse.Proofs.Language.Words
import Reparse.Proofs.Parse.Recovery

/-!
# Derivations come to an end

Without ranks nothing bounds the calls of a derivation but the grammar.  A call
at the same token leads to a symbol of a smaller rank, and what is behind a
match that consumed nothing may call no more than the whole rule may.  So the
functions without ranks do what those with ranks do, and no symbol is run at a
token while it is under way there.
-/

namespace Reparse

namespace Setting

section

variable {setting : Setting} {supply : Nat}
  (regular : setting.grammar.Regular) (onward : setting.Onward)

include regular onward

/-- No rank is ever too high, one statement for each of the functions that
call each other. -/
theorem run_all :
    (∀ rule position bound state,
        setting.Trusted supply state → setting.Admits bound rule →
          setting.run rule position state =
            some (setting.eval rule position bound state)) ∧
      (∀ item position bound mark state,
          setting.Trusted supply state → setting.Admits bound item →
          mark = state.scratch.size →
            setting.runStar item position state =
              some (setting.evalStar item position bound mark state)) ∧
        (∀ alternatives position bound state,
            setting.Trusted supply state →
            setting.Admits bound (.choice alternatives) →
              setting.runChoice alternatives position state =
                some (setting.evalChoice alternatives position bound state)) ∧
          (∀ items position bound mark state,
              setting.Trusted supply state →
              setting.Admits bound (.seq items) →
                setting.runSeq items position mark state =
                  some (setting.evalSeq items position bound mark state)) ∧
            (∀ symbol position bound state,
                setting.Trusted supply state →
                setting.Admits bound (.symbol symbol) →
                  setting.runSymbol symbol position state =
                    some (setting.invoke symbol position bound state)) ∧
              (∀ symbol rule position bound mark outer state,
                  setting.Trusted supply state → setting.Admits bound rule →
                  mark = state.scratch.size → outer = state.examined →
                    (do
                      let (result, derived) ←
                        setting.run rule position { state with examined := 0 }
                      let (outcome, closed) := setting.close symbol position
                        mark outer result derived
                      return (closed.remember setting.memoize symbol position
                        outcome).apply outcome) =
                      some (setting.derive symbol rule position bound mark
                        outer state)) := by
  apply Setting.eval.mutual_induct
  · intro position bound state name induction trusted admits
    rw [run, eval]
    exact induction trusted admits
  · intro position bound state items induction trusted admits
    rw [run, eval]
    exact induction trusted admits
  · intro position bound state alternatives induction trusted admits
    rw [run, eval]
    exact induction trusted admits
  · intro position bound state item induction trusted admits
    rw [run, eval]
    exact induction trusted (fun called call => admits called (.star call)) rfl
  · intro position bound state item after found induction trusted admits
    have inner := induction trusted
      fun called call => admits called (.opt call)
    rw [run, eval, inner, found]
    rfl
  · intro position bound state item next after found induction trusted admits
    have inner := induction trusted
      fun called call => admits called (.opt call)
    rw [run, eval, inner, found]
    rfl
  -- A round of a repetition fails, consumes a token, or consumes none.
  · intro item position bound mark state after found induction trusted admits
      atTop
    rw [runStar, evalStar, induction trusted admits, found]
    rfl
  · intro item position bound mark state next after found moved induction
      laterInduction trusted admits atTop
    have round := delivers_eval regular onward position trusted admits
    rw [found] at round
    have later := laterInduction round.trusted (admits_anyRank regular item) rfl
    rw [runStar, evalStar, induction trusted admits, found]
    simp only [moved, and_self, dite_true]
    exact (if_pos moved.1).trans later
  · intro item position bound mark state next after found stuck induction
      trusted admits atTop
    have round := delivers_eval regular onward position trusted admits
    rw [found] at round
    obtain ⟨rfl, _⟩ := round.idle onward stuck
    rw [runStar, evalStar, induction trusted admits, found, atTop]
    simp only [stuck, dite_false]
    exact if_neg (Nat.lt_irrefl _)
  -- The first alternative of a choice fails or matches.
  · intro position bound state trusted admits
    rw [runChoice, evalChoice]
  · intro position bound state item rest after found induction laterInduction
      trusted admits
    have inner := fun called call =>
      admits called (.choice List.mem_cons_self call)
    have first := delivers_eval regular onward position trusted inner
    rw [found] at first
    rw [runChoice, evalChoice, induction trusted inner, found]
    exact laterInduction first.trusted admits.tail
  · intro position bound state item rest next after found induction trusted
      admits
    have inner := fun called call =>
      admits called (.choice List.mem_cons_self call)
    rw [runChoice, evalChoice, induction trusted inner, found]
    rfl
  -- Behind an item that consumed nothing the ranks that the sequence may call
  -- are those that its rest may call.
  · intro position bound mark state trusted admits
    rw [runSeq, evalSeq]
  · intro position bound mark state item rest after found induction trusted
      admits
    rw [runSeq, evalSeq, induction trusted admits.first, found]
    rfl
  · intro position bound mark state item rest next after found moved induction
      laterInduction trusted admits
    have first := delivers_eval regular onward position trusted admits.first
    rw [found] at first
    rw [runSeq, evalSeq, induction trusted admits.first, found]
    simp only [moved, and_self, dite_true]
    exact laterInduction first.trusted (admits_anyRank regular _)
  · intro position bound mark state item rest next after found stuck induction
      laterInduction trusted admits
    have first := delivers_eval regular onward position trusted admits.first
    rw [found] at first
    obtain ⟨rfl, nullable⟩ := first.idle onward stuck
    rw [runSeq, evalSeq, induction trusted admits.first, found]
    simp only [stuck, dite_false]
    exact laterInduction first.trusted (admits.rest nullable)
  -- The rank of a symbol that may be called is never too high.
  · intro symbol position bound state isTerminal trusted admits
    rw [runSymbol, invoke, if_pos isTerminal, if_pos isTerminal]
  · intro symbol position bound state notTerminal noRule trusted admits
    rw [runSymbol, invoke, if_neg notTerminal, if_neg notTerminal, noRule]
  · intro symbol position bound state notTerminal rule known ranked isHidden
      induction trusted admits
    rw [runSymbol, invoke, if_neg notTerminal, if_neg notTerminal, known]
    simp only [ranked, isHidden, if_true, dite_true]
    exact induction trusted (admits_rule regular known)
  · intro symbol position bound state notTerminal rule known ranked visible
      outcome remembered trusted admits
    rw [runSymbol, invoke, if_neg notTerminal, if_neg notTerminal, known]
    simp only [ranked, visible, remembered, dite_true, Bool.false_eq_true,
      if_false]
  · intro symbol position bound state notTerminal rule known ranked visible
      notRemembered node outcome offered trusted admits
    rw [runSymbol, invoke, if_neg notTerminal, if_neg notTerminal, known]
    simp only [ranked, visible, notRemembered, offered, dite_true,
      Bool.false_eq_true, if_false]
  · intro symbol position bound state notTerminal rule known ranked visible
      notRemembered refused induction trusted admits
    rw [runSymbol, invoke, if_neg notTerminal, if_neg notTerminal, known]
    simp only [ranked, visible, notRemembered, refused, dite_true]
    exact induction trusted (admits_rule regular known) rfl rfl
  · intro symbol position bound state notTerminal rule known unranked trusted
      admits
    refine absurd (admits symbol (.symbol ?_)) unranked
    rw [RuleTable.hasRule, Option.isSome_iff_exists]
    exact ⟨rule, known⟩
  · intro symbol rule position bound mark outer state result derived found
      outcome closed closedFound induction trusted admits atTop outside
    rw [induction ⟨trusted.fresh, trusted.memo⟩ admits, derive, found]
    rfl

/-- Evaluating a rule comes to an end, and ranks make no difference. -/
theorem run_eq_eval (rule : Rule Symbol) (position : Nat)
    {state : DerivationState} (trusted : setting.Trusted supply state) :
    setting.run rule position state =
      some (setting.eval rule position setting.anyRank state) :=
  (run_all regular onward).1 rule position setting.anyRank state trusted
    (admits_anyRank regular rule)

theorem delivers_run {rule : Rule Symbol} {position : Nat}
    {state : DerivationState} {result : Option Nat × DerivationState}
    (trusted : setting.Trusted supply state)
    (found : setting.run rule position state = some result) :
    setting.Delivers supply rule position state.scratch.toList state
      result := by
  rw [run_eq_eval regular onward rule position trusted] at found
  cases found
  exact delivers_eval regular onward position trusted
    (admits_anyRank regular rule)

theorem runItems_eq_deriveItems {item : Rule Symbol} {position mark : Nat}
    {first? : Option Nat} {state : DerivationState}
    (trusted : setting.Trusted supply state)
    (atTop : mark = state.scratch.size) :
    setting.runItems item position first? state =
      some (setting.deriveItems item position first? mark state) := by
  have attempt := fun position state trusted =>
    @run_eq_eval setting supply regular onward item position state trusted
  fun_induction setting.deriveItems item position first? mark state with
  | case1 position first? mark state inside next after found moved flushed
      induction =>
      have delivers := delivers_eval regular onward position trusted
        (admits_anyRank regular item)
      rw [found] at delivers
      rw [runItems, if_pos inside, attempt position state trusted, found]
      refine (if_pos moved).trans ?_
      rw [← atTop]
      exact induction (trusted_flushErrors delivers.trusted) rfl
  | case2 position first? mark state inside next after found stuck induction =>
      have delivers := delivers_eval regular onward position trusted
        (admits_anyRank regular item)
      rw [found] at delivers
      obtain ⟨trustedAfter, kept, _⟩ := delivers.stuck onward
        (fun other moved => Option.some.inj moved ▸ stuck) atTop
      rw [runItems, if_pos inside, attempt position state trusted, found]
      refine (if_neg stuck).trans ?_
      rw [← atTop]
      exact induction trustedAfter (size_of_toList kept atTop)
  | case3 position first? mark state inside after found induction =>
      have delivers := delivers_eval regular onward position trusted
        (admits_anyRank regular item)
      rw [found] at delivers
      obtain ⟨trustedAfter, kept, _⟩ := delivers.stuck onward
        (fun other moved => absurd moved (Option.some_ne_none other).symm) atTop
      rw [runItems, if_pos inside, attempt position state trusted, found]
      rw [← atTop]
      exact induction trustedAfter (size_of_toList kept atTop)
  | case4 position first? mark state outside =>
      rw [runItems, if_neg outside, atTop]
      rfl

end

section

variable {setting : Setting} {supply : Nat} {item : Rule Symbol}
  {start : DerivationState} {activation : Activation}
  (regular : setting.grammar.Regular) (onward : setting.Onward)

include regular onward

theorem Activates.trusted {first second : Activation}
    (activates : setting.Activates first second)
    (trusted : setting.Trusted supply first.state) :
    setting.Trusted supply second.state := by
  cases activates with
  | visible => exact ⟨trusted.fresh, trusted.memo⟩
  | seqRest found => exact (delivers_run regular onward trusted found).trusted
  | choiceRest found =>
      exact (delivers_run regular onward trusted found).trusted
  | starRest found =>
      exact (delivers_run regular onward trusted found).trusted
  | _ => exact trusted

theorem Reaches.trusted {position : Nat} {first? : Option Nat}
    {state : DerivationState}
    (reaches : setting.Reaches item start position first? state)
    (trusted : setting.Trusted supply start) :
    setting.Trusted supply state := by
  induction reaches with
  | start => exact trusted
  | item _ _ found _ induction =>
      have delivers := delivers_run regular onward induction found
      exact trusted_flushErrors delivers.trusted
  | skip _ _ found _ induction =>
      have delivers := delivers_run regular onward induction found
      exact trusted_truncate delivers.trusted _

/-- In the course of the loop rules are run in no other states. -/
theorem Undertakes.trusted
    (undertakes : setting.Undertakes item start activation)
    (trusted : setting.Trusted supply start) :
    setting.Trusted supply activation.state := by
  induction undertakes with
  | round reaches _ => exact reaches.trusted regular onward trusted
  | inner _ activates induction =>
      exact activates.trusted regular onward induction

end

/-- What is handed over to from a symbol at a token while ranks below that of
the symbol suffice there. -/
structure Beneath (setting : Setting) (supply : Nat) (symbol : Symbol)
    (position : Nat) (activation : Activation) : Prop where
  trusted : setting.Trusted supply activation.state
  onward : position ≤ activation.position
  admits : activation.position = position →
    setting.Admits (setting.grammar.rank symbol) activation.rule

section

variable {setting : Setting} {supply : Nat} {symbol : Symbol} {position : Nat}
  (regular : setting.grammar.Regular) (onward : setting.Onward)

theorem Beneath.later {first second : Activation}
    (beneath : setting.Beneath supply symbol position first)
    (trusted : setting.Trusted supply second.state)
    (moved : first.position < second.position) :
    setting.Beneath supply symbol position second := by
  have later := Nat.lt_of_le_of_lt beneath.onward moved
  refine ⟨trusted, Nat.le_of_lt later, ?_⟩
  intro same
  exact absurd same (Nat.ne_of_gt later)

include regular

theorem beneath_of_rule {rule : Rule Symbol} {state : DerivationState}
    (trusted : setting.Trusted supply state)
    (known : setting.grammar.rule? symbol = some rule) :
    setting.Beneath supply symbol position ⟨rule, position, state⟩ := by
  refine ⟨trusted, Nat.le_refl _, ?_⟩
  intro _
  exact admits_rule regular known

theorem Beneath.rule {called : Symbol} {rule : Rule Symbol} {place : Nat}
    {state before : DerivationState}
    (beneath : setting.Beneath supply symbol position
      ⟨.symbol called, place, before⟩)
    (trusted : setting.Trusted supply state)
    (known : setting.grammar.rule? called = some rule) :
    setting.Beneath supply symbol position ⟨rule, place, state⟩ := by
  refine ⟨trusted, beneath.onward, ?_⟩
  intro same other call
  have ranked := beneath.admits same called
    (.symbol (Option.isSome_iff_exists.mpr ⟨rule, known⟩))
  exact Nat.lt_trans (admits_rule regular known other call) ranked

include onward

/-- Handing over never leads out of what is run beneath a symbol. -/
theorem Activates.beneath {first second : Activation}
    (activates : setting.Activates first second)
    (beneath : setting.Beneath supply symbol position first) :
    setting.Beneath supply symbol position second := by
  cases activates with
  | hidden _ known => exact beneath.rule regular beneath.trusted known
  | visible _ known =>
      have trusted := beneath.trusted
      exact beneath.rule regular ⟨trusted.fresh, trusted.memo⟩ known
  | seqFirst =>
      exact ⟨beneath.trusted, beneath.onward,
        fun same => (beneath.admits same).first⟩
  | @seqRest item rest place next state after found =>
      have delivers := delivers_run regular onward beneath.trusted found
      by_cases moved : place < next ∧ next ≤ setting.tokens.size
      · exact beneath.later delivers.trusted moved.1
      -- The item matched nothing, so the rest may call no more than the whole.
      · obtain ⟨rfl, nullable⟩ := delivers.idle onward moved
        exact ⟨delivers.trusted, beneath.onward,
          fun same => (beneath.admits same).rest nullable⟩
  | choiceFirst =>
      refine ⟨beneath.trusted, beneath.onward, ?_⟩
      intro same called call
      exact beneath.admits same called (.choice List.mem_cons_self call)
  | choiceRest found =>
      have delivers := delivers_run regular onward beneath.trusted found
      exact ⟨delivers.trusted, beneath.onward,
        fun same => (beneath.admits same).tail⟩
  | starFirst =>
      refine ⟨beneath.trusted, beneath.onward, ?_⟩
      intro same called call
      exact beneath.admits same called (.star call)
  | starRest found moved =>
      have delivers := delivers_run regular onward beneath.trusted found
      exact beneath.later delivers.trusted moved
  | opt =>
      refine ⟨beneath.trusted, beneath.onward, ?_⟩
      intro same called call
      exact beneath.admits same called (.opt call)

/-- A symbol hands over to nothing but what is run beneath it, and only if it
has a rule. -/
theorem beneath_of_transGen {state : DerivationState} {later : Activation}
    (trusted : setting.Trusted supply state)
    (chain : Relation.TransGen setting.Activates
      ⟨.symbol symbol, position, state⟩ later) :
    setting.grammar.rules.hasRule symbol = true ∧
      setting.Beneath supply symbol position later := by
  induction chain with
  | single activates =>
      cases activates with
      | hidden _ known =>
          exact ⟨Option.isSome_iff_exists.mpr ⟨_, known⟩,
            beneath_of_rule regular trusted known⟩
      | visible _ known =>
          exact ⟨Option.isSome_iff_exists.mpr ⟨_, known⟩,
            beneath_of_rule regular ⟨trusted.fresh, trusted.memo⟩ known⟩
  | tail _ activates induction =>
      exact ⟨induction.1, activates.beneath regular onward induction.2⟩

/-- While a symbol is run at a token it is not run there again. -/
theorem not_transGen_activates {state later : DerivationState}
    (trusted : setting.Trusted supply state) :
    ¬Relation.TransGen setting.Activates ⟨.symbol symbol, position, state⟩
      ⟨.symbol symbol, position, later⟩ := by
  intro chain
  obtain ⟨hasRule, beneath⟩ :=
    beneath_of_transGen regular onward trusted chain
  -- The rank of the symbol would be below itself.
  exact Nat.lt_irrefl _ (beneath.admits rfl symbol (.symbol hasRule))

end

end Setting

/-- From whichever symbol a grammar is read, it may be relied on. -/
theorem Grammar.Regular.withRoot {grammar : Grammar}
    (regular : grammar.Regular) (root : Symbol) :
    (grammar.withRoot root).Regular :=
  ⟨regular.rank_lt, regular.rank_called, regular.unruled, regular.terminal⟩

/-- With an accepted grammar, read from any symbol, everything comes to an end:
any rule at any token, from any state that remembers only outcomes, and the
loop over the tokens.  What comes out is what ranks make sure of, and while a
symbol is run at a token it is not run there again. -/
theorem Setting.run_terminates {name : String}
    {declarations : List Declaration} {grammar : Grammar} {root : Symbol}
    {setting : Setting}
    (accepted : Grammar.ofDeclarations name declarations = .ok grammar)
    (derivesWith : setting.grammar = grammar.withRoot root)
    (ordered : setting.tokens.InOrder) :
    (∀ rule position supply state, setting.Trusted supply state →
      setting.run rule position state =
        some (setting.eval rule position setting.anyRank state)) ∧
      (∀ item supply,
        setting.runItems item 0 none (DerivationState.initial supply) =
          some (setting.deriveItems item 0 none 0
            (DerivationState.initial supply))) ∧
        ∀ symbol position supply state later, setting.Trusted supply state →
          ¬Relation.TransGen setting.Activates
            ⟨.symbol symbol, position, state⟩
            ⟨.symbol symbol, position, later⟩ := by
  have regular : setting.grammar.Regular := by
    rw [derivesWith]
    exact (Grammar.regular_of_ofDeclarations accepted).withRoot root
  have onward := onward_of_inOrder ordered
  refine ⟨?_, ?_, ?_⟩
  · intro rule position supply state trusted
    exact run_eq_eval regular onward rule position trusted
  · intro item supply
    exact runItems_eq_deriveItems regular onward
      (trusted_initial setting supply)
      rfl
  · intro symbol position supply state later trusted
    exact not_transGen_activates regular onward trusted

/-- A letter behind a blank, derived from words as the root. -/
theorem Words.run_terminates_from_word :
    ∃ grammar : Grammar,
      Grammar.ofDeclarations "words" declarations = .ok grammar ∧
        ∃ setting : Setting, setting.grammar = grammar.withRoot ⟨2⟩ ∧
          grammar.tokenize [32, 97] = .ok setting.tokens ∧
            (∃ last, setting.runItems (.symbol ⟨0⟩) 0 none
              (DerivationState.initial 0) = some last) ∧
              ∀ later, ¬Relation.TransGen setting.Activates
                ⟨.symbol ⟨2⟩, 0, DerivationState.initial 0⟩
                ⟨.symbol ⟨2⟩, 0, later⟩ := by
  obtain ⟨grammar, accepted, describes⟩ := exists_grammar
  have read := (tokenize_letter describes).2
  let setting : Setting :=
    ⟨grammar.withRoot ⟨2⟩, tokens 1, none, Catalogue.ofNode? none, true⟩
  obtain ⟨_, loop, chain⟩ := @Setting.run_terminates "words" declarations
    grammar ⟨2⟩ setting accepted rfl (TokenList.inOrder_of_tokenize read)
  refine ⟨grammar, accepted, setting, rfl, read, ⟨_, loop _ 0⟩, ?_⟩
  intro later
  exact chain ⟨2⟩ 0 0 _ later (Setting.trusted_initial setting 0)

end Reparse
