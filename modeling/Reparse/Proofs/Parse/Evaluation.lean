import Reparse.Proofs.Grammar.Accepted
import Reparse.Proofs.Parse.Takeover

/-!
# What a derivation computes

Evaluating a rule has one of the outcomes that `Setting.Runs` allows.  The
scratch stack grows by the nodes of the match, the examined bytes grow by those
that the outcome depends on, and the table of outcomes never holds anything but
outcomes.
-/

namespace Reparse

namespace Setting

/-- The outcome is one of the symbol at the token. -/
inductive Settles (setting : Setting) (supply : Nat) (symbol : Symbol)
    (position : Nat) : Outcome → Prop where
  | failed {examined : Nat} :
      setting.Runs supply (.symbol symbol) position none examined →
      Settles setting supply symbol position (.failed examined)
  | nothing {next examined : Nat} :
      setting.Runs supply (.symbol symbol) position (some ⟨next, []⟩) examined →
      Settles setting supply symbol position (.matched next examined none)
  | node {next examined : Nat} {placed : Placed Node} :
      setting.Runs supply (.symbol symbol) position (some ⟨next, [placed]⟩)
        examined →
      Settles setting supply symbol position
        (.matched next examined (some placed))

/-- No stamp below `supply` is left to give, and every outcome remembered is
one. -/
structure Trusted (setting : Setting) (supply : Nat)
    (state : DerivationState) : Prop where
  fresh : supply ≤ state.supply
  memo : ∀ symbol position outcome,
    state.memo[(symbol, position)]? = some outcome →
      setting.Settles supply symbol position outcome

theorem trusted_initial (setting : Setting) (supply : Nat) :
    setting.Trusted supply (DerivationState.initial supply) := by
  refine ⟨Nat.le_refl _, ?_⟩
  intro symbol position outcome found
  simp [DerivationState.initial] at found

/-- Where the evaluation of a rule leads from a state.  A failure leaves `kept`
on the stack. -/
inductive Delivers (setting : Setting) (supply : Nat) (rule : Rule Symbol)
    (position : Nat) (kept : List (Placed Node)) (before : DerivationState) :
    Option Nat × DerivationState → Prop where
  | failed {examined : Nat} {after : DerivationState} :
      setting.Runs supply rule position none examined →
      setting.Trusted supply after →
      after.scratch.toList = kept →
      after.examined = max before.examined examined →
      Delivers setting supply rule position kept before (none, after)
  | matched {next examined : Nat} {nodes : List (Placed Node)}
      {after : DerivationState} :
      setting.Runs supply rule position (some ⟨next, nodes⟩) examined →
      setting.Trusted supply after →
      after.scratch.toList = before.scratch.toList ++ nodes →
      after.examined = max before.examined examined →
      Delivers setting supply rule position kept before (some next, after)

/-- The ranks allowed at a token suffice for all symbols that the rule may call
there. -/
def Admits (setting : Setting) (bound : Nat) (rule : Rule Symbol) : Prop :=
  ∀ called, setting.grammar.rules.LeadingCall rule called →
    setting.grammar.rank called < bound

section

variable {setting : Setting} {supply : Nat} {symbol : Symbol}
  {rule item : Rule Symbol} {position : Nat} {state : DerivationState}

theorem admits_anyRank (regular : setting.grammar.Regular)
    (rule : Rule Symbol) : setting.Admits setting.anyRank rule := by
  intro called call
  have known : setting.grammar.rules.hasRule called = true := by
    induction call with
    | symbol known => exact known
    | seq _ _ induction => exact induction
    | choice _ _ induction => exact induction
    | star _ induction => exact induction
    | opt _ induction => exact induction
  obtain ⟨rule, found⟩ := Option.isSome_iff_exists.mp known
  exact regular.rank_lt called rule found

theorem Admits.first {bound : Nat} {items : List (Rule Symbol)}
    (admits : setting.Admits bound (.seq (item :: items))) :
    setting.Admits bound item := by
  intro called call
  apply admits called
  rw [← List.nil_append (item :: items)]
  exact .seq (fun _ member => nomatch member) call

/-- After an item that matched nothing the ranks suffice for the rest of the
sequence. -/
theorem Admits.rest {bound : Nat} {items : List (Rule Symbol)}
    (admits : setting.Admits bound (.seq (item :: items)))
    (empty : setting.grammar.rules.Nullable item) :
    setting.Admits bound (.seq items) := by
  intro called call
  cases call with
  | @seq before after middle _ skipped call =>
      apply admits called
      rw [← List.cons_append]
      refine .seq ?_ call
      intro earlier member
      rcases List.mem_cons.mp member with rfl | inside
      · exact empty
      · exact skipped earlier inside

theorem Admits.tail {bound : Nat} {alternatives : List (Rule Symbol)}
    (admits : setting.Admits bound (.choice (item :: alternatives))) :
    setting.Admits bound (.choice alternatives) := by
  intro called call
  cases call with
  | choice member call =>
      exact admits called (.choice (List.mem_cons_of_mem _ member) call)

/-- The rank of a symbol suffices for its rule. -/
theorem admits_rule (regular : setting.grammar.Regular)
    (known : setting.grammar.rule? symbol = some rule) :
    setting.Admits (setting.grammar.rank symbol) rule :=
  fun called call => regular.rank_called symbol called ⟨rule, known, call⟩

theorem trusted_examine (trusted : setting.Trusted supply state) (stop : Nat) :
    setting.Trusted supply (state.examine stop) :=
  ⟨trusted.fresh, trusted.memo⟩

theorem trusted_push (trusted : setting.Trusted supply state)
    (placed : Placed Node) : setting.Trusted supply (state.push placed) :=
  ⟨trusted.fresh, trusted.memo⟩

theorem trusted_truncate (trusted : setting.Trusted supply state)
    (mark : Nat) : setting.Trusted supply (state.truncate mark) :=
  ⟨trusted.fresh, trusted.memo⟩

theorem trusted_reuse (trusted : setting.Trusted supply state) (node : Node) :
    setting.Trusted supply (state.reuse node) :=
  ⟨trusted.fresh, trusted.memo⟩

theorem trusted_remember {outcome : Outcome}
    (trusted : setting.Trusted supply state)
    (settles : setting.Settles supply symbol position outcome)
    (memoize : Bool) :
    setting.Trusted supply
      (state.remember memoize symbol position outcome) := by
  unfold DerivationState.remember
  split
  · refine ⟨trusted.fresh, ?_⟩
    intro other place found known
    simp only [Std.HashMap.getElem?_insert] at known
    split at known
    · next same =>
        obtain ⟨rfl, rfl⟩ := Prod.mk.inj (eq_of_beq same)
        cases known
        exact settles
    · exact trusted.memo other place found known
  · exact trusted

/-- A remembered outcome is one of the symbol. -/
theorem settles_of_remembered? {memoize : Bool} {outcome : Outcome}
    (trusted : setting.Trusted supply state)
    (found : state.remembered? memoize symbol position = some outcome) :
    setting.Settles supply symbol position outcome := by
  unfold DerivationState.remembered? at found
  split at found
  · exact trusted.memo symbol position outcome found
  · cases found

theorem scratch_remember (memoize : Bool) (outcome : Outcome) :
    (state.remember memoize symbol position outcome).scratch =
        state.scratch ∧
      (state.remember memoize symbol position outcome).examined =
        state.examined := by
  unfold DerivationState.remember
  split <;> exact ⟨rfl, rfl⟩

/-- Acting on an outcome delivers it.  The state before may differ in anything
but its stack and what had been examined. -/
theorem delivers_apply {outcome : Outcome} {closed : DerivationState}
    (trusted : setting.Trusted supply closed)
    (settles : setting.Settles supply symbol position outcome)
    (scratch : closed.scratch.toList = state.scratch.toList)
    (examined : closed.examined = state.examined) :
    setting.Delivers supply (.symbol symbol) position state.scratch.toList
      state (closed.apply outcome) := by
  cases settles with
  | @failed further runs =>
      refine .failed runs (trusted_examine trusted _) scratch ?_
      rw [← examined]
      rfl
  | @nothing next further runs =>
      refine .matched runs (trusted_examine trusted _) ?_ ?_
      · rw [List.append_nil]
        exact scratch
      · rw [← examined]
        rfl
  | @node next further placed runs =>
      refine .matched runs (trusted_push (trusted_examine trusted _) _) ?_ ?_
      · rw [← scratch]
        exact Array.toList_push ..
      · rw [← examined]
        rfl

/-- Remembering an outcome and acting on it delivers it. -/
theorem delivers_remember {outcome : Outcome} {closed : DerivationState}
    (trusted : setting.Trusted supply closed)
    (settles : setting.Settles supply symbol position outcome)
    (scratch : closed.scratch.toList = state.scratch.toList)
    (examined : closed.examined = state.examined) (memoize : Bool) :
    setting.Delivers supply (.symbol symbol) position state.scratch.toList
      state
      ((closed.remember memoize symbol position outcome).apply outcome) := by
  obtain ⟨sameScratch, sameExamined⟩ :=
    @scratch_remember symbol position closed memoize outcome
  refine delivers_apply (trusted_remember trusted settles memoize) settles ?_
    (sameExamined.trans examined)
  rw [sameScratch]
  exact scratch

/-- The leaf of a token is one that may stand for it. -/
theorem leafFor_leaf (trusted : setting.Trusted supply state)
    (token : Token) :
    setting.LeafFor supply token (setting.leaf token state).1 ∧
      setting.Trusted supply (setting.leaf token state).2 ∧
        (setting.leaf token state).2.scratch = state.scratch ∧
          (setting.leaf token state).2.examined = state.examined := by
  have new : setting.Trusted supply (state.newLeaf token).2 :=
    ⟨Nat.le_succ_of_le trusted.fresh, trusted.memo⟩
  unfold leaf
  split
  · next node found =>
      split
      · next sameLength =>
          exact ⟨.taken found sameLength, trusted_reuse trusted node, rfl, rfl⟩
      · next otherLength =>
          refine ⟨.built trusted.fresh ?_, new, rfl, rfl⟩
          intro other foundToo
          rw [found] at foundToo
          cases foundToo
          exact otherLength
  · next notFound =>
      refine ⟨.built trusted.fresh ?_, new, rfl, rfl⟩
      intro other found
      rw [notFound] at found
      cases found

/-- Matching one token delivers what the token allows. -/
theorem delivers_terminal (trusted : setting.Trusted supply state)
    (isTerminal : setting.grammar.isTerminal symbol = true) :
    setting.Delivers supply (.symbol symbol) position state.scratch.toList
      state (setting.terminal symbol position state) := by
  unfold terminal
  cases here : setting.tokens.get? position with
  | none =>
      refine .failed (.otherToken isTerminal ?_) (trusted_examine trusted _)
        rfl rfl
      intro token found
      rw [here] at found
      cases found
  | some token =>
      simp only
      split
      · next same =>
          obtain ⟨leafFor, trustedAfter, scratch, examined⟩ :=
            leafFor_leaf
              (trusted_examine trusted (setting.tokens.examinedEnd position))
              token
          refine .matched (.token isTerminal here same leafFor)
            (trusted_push trustedAfter _) ?_ ?_
          · rw [DerivationState.push, scratch]
            exact Array.toList_push ..
          · rw [DerivationState.push, examined, DerivationState.examine,
              TokenList.examinedEnd, here]
      · next different =>
          refine .failed (.otherToken isTerminal ?_)
            (trusted_examine trusted _) rfl rfl
          intro other found
          rw [here] at found
          cases found
          exact different

theorem size_of_append {after : DerivationState} {nodes : List (Placed Node)}
    (scratch : after.scratch.toList = state.scratch.toList ++ nodes) :
    after.scratch.size = state.scratch.size + nodes.length := by
  rw [← Array.length_toList, scratch, List.length_append, Array.length_toList]

/-- The nodes above a mark are those pushed since. -/
theorem above_of_append {mark : Nat} {before nodes : List (Placed Node)}
    (scratch : state.scratch.toList = before ++ nodes)
    (same : mark = before.length) :
    state.above mark = nodes ∧
      (state.truncate mark).scratch.toList = before := by
  have size : state.scratch.size - before.length = nodes.length := by
    rw [← Array.length_toList, scratch, List.length_append]
    omega
  constructor
  · simp [DerivationState.above, scratch, same, size]
  · simp [DerivationState.truncate, scratch, same]

/-- Closing the run of a visible rule settles its symbol. -/
theorem delivers_derive {bound : Nat}
    (notTerminal : setting.grammar.isTerminal symbol = false)
    (known : setting.grammar.rule? symbol = some rule)
    (visible : setting.grammar.isHidden symbol = false)
    (refused : setting.reusable? symbol position = none)
    (delivers : setting.Delivers supply rule position state.scratch.toList
      { state with examined := 0 }
      (setting.eval rule position bound { state with examined := 0 })) :
    setting.Delivers supply (.symbol symbol) position state.scratch.toList
      state
      (derive setting symbol rule position bound state.scratch.size
        state.examined state) := by
  unfold derive
  generalize setting.eval rule position bound { state with examined := 0 } =
    run at delivers
  cases delivers with
  | @failed examined after runs trustedAfter scratch examinedAfter =>
      rw [Nat.zero_max] at examinedAfter
      simp only [close, examinedAfter]
      refine delivers_remember ?_
        (.failed (.visibleFail notTerminal known visible refused runs)) ?_ ?_
        setting.memoize
      · exact ⟨trustedAfter.fresh, trustedAfter.memo⟩
      · exact scratch
      · rfl
  | @matched next nodes examined after runs trustedAfter scratch
      examinedAfter =>
      rw [Nat.zero_max] at examinedAfter
      obtain ⟨above, kept⟩ := above_of_append scratch Array.length_toList.symm
      simp only [close, examinedAfter]
      split
      · next same =>
          subst same
          refine delivers_remember ?_
            (.nothing (.visibleEmpty notTerminal known visible refused runs))
            ?_ ?_ setting.memoize
          · exact ⟨trustedAfter.fresh, trustedAfter.memo⟩
          · exact kept
          · rfl
      · next different =>
          have settles := Settles.node (.visible notTerminal known visible
            refused different trustedAfter.fresh runs)
          simp only [TokenList.encloseAs, ← above] at settles
          refine delivers_remember ?_ settles ?_ ?_ setting.memoize
          · exact ⟨Nat.le_succ_of_le trustedAfter.fresh, trustedAfter.memo⟩
          · exact kept
          · rfl

/-- A node at hand is delivered as it is. -/
theorem delivers_reuse {node : Node} {outcome : Outcome}
    (trusted : setting.Trusted supply state)
    (notTerminal : setting.grammar.isTerminal symbol = false)
    (known : setting.grammar.rule? symbol = some rule)
    (visible : setting.grammar.isHidden symbol = false)
    (offered : setting.reusable? symbol position = some (node, outcome)) :
    setting.Delivers supply (.symbol symbol) position state.scratch.toList
      state
      (((state.reuse node).remember setting.memoize symbol position
        outcome).apply outcome) := by
  refine delivers_remember (trusted_reuse trusted node) ?_ ?_ ?_
    setting.memoize
  · obtain ⟨token, next, here, found, boundary, rfl⟩ :=
      reusable?_eq_some offered
    exact .node (.taken notTerminal known visible offered)
  · rfl
  · rfl

/-- A hidden symbol delivers what its rule does. -/
theorem Delivers.hidden {kept : List (Placed Node)}
    {result : Option Nat × DerivationState}
    (delivers : setting.Delivers supply rule position kept state result)
    (notTerminal : setting.grammar.isTerminal symbol = false)
    (known : setting.grammar.rule? symbol = some rule)
    (isHidden : setting.grammar.isHidden symbol = true) :
    setting.Delivers supply (.symbol symbol) position kept state result := by
  cases delivers with
  | failed runs trusted scratch examined =>
      exact .failed (.hidden notTerminal known isHidden runs) trusted scratch
        examined
  | matched runs trusted scratch examined =>
      exact .matched (.hidden notTerminal known isHidden runs) trusted scratch
        examined

theorem Delivers.trusted {kept : List (Placed Node)}
    {result : Option Nat × DerivationState}
    (delivers : setting.Delivers supply rule position kept state result) :
    setting.Trusted supply result.2 := by
  cases delivers with
  | failed _ trusted => exact trusted
  | matched _ trusted => exact trusted

theorem Delivers.size_le {kept : List (Placed Node)} {next : Nat}
    {after : DerivationState}
    (delivers : setting.Delivers supply rule position kept state
      (some next, after)) :
    state.scratch.size ≤ after.scratch.size := by
  cases delivers with
  | matched _ _ scratch =>
      rw [size_of_append scratch]
      exact Nat.le_add_right _ _

theorem Delivers.optional_none {after : DerivationState}
    (delivers : setting.Delivers supply item position state.scratch.toList
      state (none, after)) :
    setting.Delivers supply (.opt item) position state.scratch.toList state
      (some position, after) := by
  cases delivers with
  | failed runs trusted scratch examined =>
      refine .matched (.optNone runs) trusted ?_ examined
      rw [List.append_nil]
      exact scratch

theorem Delivers.optional_some {next : Nat} {after : DerivationState}
    (delivers : setting.Delivers supply item position state.scratch.toList
      state (some next, after)) :
    setting.Delivers supply (.opt item) position state.scratch.toList state
      (some next, after) := by
  cases delivers with
  | matched runs trusted scratch examined =>
      exact .matched (.optSome runs) trusted scratch examined

/-- A repetition never fails. -/
theorem Runs.not_star_none {examined : Nat} :
    ¬setting.Runs supply (.star item) position none examined := by
  intro runs
  cases runs

theorem Delivers.star_none {after : DerivationState}
    (delivers : setting.Delivers supply item position state.scratch.toList
      state (none, after)) :
    setting.Delivers supply (.star item) position state.scratch.toList state
      (some position, after) := by
  cases delivers with
  | failed runs trusted scratch examined =>
      refine .matched (.starFail runs) trusted ?_ examined
      rw [List.append_nil]
      exact scratch

/-- A round that consumed nothing ends the repetition, and what the round put
on the stack is dropped. -/
theorem Delivers.star_idle {mark : Nat} {after : DerivationState}
    (delivers : setting.Delivers supply item position state.scratch.toList
      state (some position, after))
    (atTop : mark = state.scratch.size) :
    setting.Delivers supply (.star item) position state.scratch.toList state
      (some position, after.truncate mark) := by
  cases delivers with
  | matched runs trusted scratch examined =>
      obtain ⟨_, kept⟩ := above_of_append scratch
        (atTop.trans Array.length_toList.symm)
      refine .matched (.starEmpty runs) (trusted_truncate trusted mark) ?_
        examined
      rw [List.append_nil]
      exact kept

/-- What a repetition delivers after a round that consumed something. -/
theorem Delivers.star_some {next : Nat} {after : DerivationState}
    {result : Option Nat × DerivationState}
    (round : setting.Delivers supply item position state.scratch.toList state
      (some next, after))
    (moved : next ≠ position)
    (delivers : setting.Delivers supply (.star item) next
      after.scratch.toList after result) :
    setting.Delivers supply (.star item) position state.scratch.toList state
      result := by
  cases round with
  | matched runs _ scratch recorded =>
      cases delivers with
      | failed later => exact absurd later Runs.not_star_none
      | matched later trusted scratchLater recordedLater =>
          refine .matched (.starStep moved runs later) trusted ?_ ?_
          · rw [scratchLater, scratch, List.append_assoc]
          · rw [recordedLater, recorded, Nat.max_assoc]

theorem Delivers.choice_some {alternatives : List (Rule Symbol)} {next : Nat}
    {after : DerivationState}
    (delivers : setting.Delivers supply item position state.scratch.toList
      state (some next, after)) :
    setting.Delivers supply (.choice (item :: alternatives)) position
      state.scratch.toList state (some next, after) := by
  cases delivers with
  | matched runs trusted scratch examined =>
      exact .matched (.choiceHead runs) trusted scratch examined

/-- What a choice delivers after an alternative that failed. -/
theorem Delivers.choice_none {alternatives : List (Rule Symbol)}
    {after : DerivationState} {result : Option Nat × DerivationState}
    (first : setting.Delivers supply item position state.scratch.toList state
      (none, after))
    (delivers : setting.Delivers supply (.choice alternatives) position
      after.scratch.toList after result) :
    setting.Delivers supply (.choice (item :: alternatives)) position
      state.scratch.toList state result := by
  cases first with
  | failed runs _ scratch recorded =>
      cases delivers with
      | failed later trusted kept recordedLater =>
          refine .failed (.choiceTail runs later) trusted
            (kept.trans scratch) ?_
          rw [recordedLater, recorded, Nat.max_assoc]
      | matched later trusted scratchLater recordedLater =>
          refine .matched (.choiceTail runs later) trusted ?_ ?_
          · rw [scratchLater, scratch]
          · rw [recordedLater, recorded, Nat.max_assoc]

/-- The first item of a sequence fails, and the stack is cut back to where the
sequence began. -/
theorem Delivers.seq_none {items : List (Rule Symbol)} {mark : Nat}
    {after : DerivationState}
    (delivers : setting.Delivers supply item position state.scratch.toList
      state (none, after)) :
    setting.Delivers supply (.seq (item :: items)) position
      (state.scratch.toList.take mark) state (none, after.truncate mark) := by
  cases delivers with
  | failed runs trusted scratch examined =>
      refine .failed (.seqFail runs) (trusted_truncate trusted mark) ?_
        examined
      simp [DerivationState.truncate, scratch]

/-- What a sequence delivers after its first item. -/
theorem Delivers.seq_some {items : List (Rule Symbol)} {next mark : Nat}
    {after : DerivationState} {result : Option Nat × DerivationState}
    (first : setting.Delivers supply item position state.scratch.toList state
      (some next, after))
    (below : mark ≤ state.scratch.size)
    (delivers : setting.Delivers supply (.seq items) next
      (after.scratch.toList.take mark) after result) :
    setting.Delivers supply (.seq (item :: items)) position
      (state.scratch.toList.take mark) state result := by
  cases first with
  | matched runs _ scratch recorded =>
      rw [← Array.length_toList] at below
      rw [scratch, List.take_append_of_le_length below] at delivers
      cases delivers with
      | failed later trusted kept recordedLater =>
          refine .failed (.seqFailLater runs later) trusted kept ?_
          rw [recordedLater, recorded, Nat.max_assoc]
      | matched later trusted scratchLater recordedLater =>
          refine .matched (.seqCons runs later) trusted ?_ ?_
          · rw [scratchLater, scratch, List.append_assoc]
          · rw [recordedLater, recorded, Nat.max_assoc]

end

section

variable {setting : Setting} {supply : Nat}
  (regular : setting.grammar.Regular) (onward : setting.Onward)

include onward

/-- A match that gets no further than where it began matched nothing. -/
theorem Delivers.idle {rule : Rule Symbol} {position next : Nat}
    {kept : List (Placed Node)} {state after : DerivationState}
    (delivers : setting.Delivers supply rule position kept state
      (some next, after))
    (stuck : ¬(position < next ∧ next ≤ setting.tokens.size)) :
    next = position ∧ setting.grammar.rules.Nullable rule := by
  cases delivers with
  | matched runs =>
      obtain ⟨same, _, nullable⟩ :=
        (runs.advances onward rfl).resolve_right stuck
      exact ⟨same, nullable⟩

/-- A match that gets further ends within the tokens. -/
theorem Delivers.next_le {rule : Rule Symbol} {position next : Nat}
    {kept : List (Placed Node)} {state after : DerivationState}
    (delivers : setting.Delivers supply rule position kept state
      (some next, after))
    (moved : position < next) : next ≤ setting.tokens.size := by
  by_cases inside : position < next ∧ next ≤ setting.tokens.size
  · exact inside.2
  · obtain ⟨same, _⟩ := delivers.idle onward inside
    exact absurd same (Nat.ne_of_gt moved)

include regular

/-- Every evaluation delivers, one statement for each of the functions that
call each other. -/
theorem delivers_all :
    (∀ rule position bound state,
        setting.Trusted supply state → setting.Admits bound rule →
          setting.Delivers supply rule position state.scratch.toList state
            (setting.eval rule position bound state)) ∧
      (∀ item position bound mark state,
          setting.Trusted supply state → setting.Admits bound item →
          mark = state.scratch.size →
            setting.Delivers supply (.star item) position state.scratch.toList
              state (setting.evalStar item position bound mark state)) ∧
        (∀ alternatives position bound state,
            setting.Trusted supply state →
            setting.Admits bound (.choice alternatives) →
              setting.Delivers supply (.choice alternatives) position
                state.scratch.toList state
                (setting.evalChoice alternatives position bound state)) ∧
          (∀ items position bound mark state,
              setting.Trusted supply state →
              setting.Admits bound (.seq items) → mark ≤ state.scratch.size →
                setting.Delivers supply (.seq items) position
                  (state.scratch.toList.take mark) state
                  (setting.evalSeq items position bound mark state)) ∧
            (∀ symbol position bound state,
                setting.Trusted supply state →
                setting.Admits bound (.symbol symbol) →
                  setting.Delivers supply (.symbol symbol) position
                    state.scratch.toList state
                    (setting.invoke symbol position bound state)) ∧
              (∀ symbol rule position bound mark outer state,
                  setting.Trusted supply state →
                  setting.Admits bound rule →
                  setting.grammar.isTerminal symbol = false →
                  setting.grammar.rule? symbol = some rule →
                  setting.grammar.isHidden symbol = false →
                  setting.reusable? symbol position = none →
                  mark = state.scratch.size → outer = state.examined →
                    setting.Delivers supply (.symbol symbol) position
                      state.scratch.toList state
                      (derive setting symbol rule position bound mark outer
                        state)) := by
  apply Setting.eval.mutual_induct
  -- A rule does what the function for its kind does.
  · intro position bound state name induction trusted admits
    unfold eval
    exact induction trusted admits
  · intro position bound state items induction trusted admits
    unfold eval
    have delivers := induction trusted admits (Nat.le_refl _)
    rwa [← Array.length_toList, List.take_length] at delivers
  · intro position bound state alternatives induction trusted admits
    unfold eval
    exact induction trusted admits
  · intro position bound state item induction trusted admits
    unfold eval
    exact induction trusted
      (fun called call => admits called (.star call)) rfl
  · intro position bound state item after found induction trusted admits
    unfold eval
    have delivers := induction trusted
      fun called call => admits called (.opt call)
    rw [found] at delivers ⊢
    exact delivers.optional_none
  · intro position bound state item next after found induction trusted
      admits
    unfold eval
    have delivers := induction trusted
      fun called call => admits called (.opt call)
    rw [found] at delivers ⊢
    exact delivers.optional_some
  -- A round of a repetition fails, consumes a token, or consumes none.
  · intro item position bound mark state after found induction trusted
      admits atTop
    unfold evalStar
    have round := induction trusted admits
    rw [found] at round ⊢
    exact round.star_none
  · intro item position bound mark state next after found moved induction
      laterInduction trusted admits atTop
    unfold evalStar
    have round := induction trusted admits
    rw [found] at round ⊢
    simp only [moved, and_self, dite_true]
    have later := laterInduction round.trusted
      (admits_anyRank regular item) rfl
    exact round.star_some (Nat.ne_of_gt moved.1) later
  · intro item position bound mark state next after found stuck induction
      trusted admits atTop
    unfold evalStar
    have round := induction trusted admits
    rw [found] at round ⊢
    simp only [stuck, dite_false]
    obtain ⟨rfl, _⟩ := round.idle onward stuck
    exact round.star_idle atTop
  -- The first alternative of a choice fails or matches.
  · intro position bound state trusted admits
    unfold evalChoice
    exact .failed .choiceNil trusted rfl (Nat.max_zero _).symm
  · intro position bound state item rest after found induction laterInduction
      trusted admits
    unfold evalChoice
    have first := induction trusted
      fun called call => admits called (.choice List.mem_cons_self call)
    rw [found] at first ⊢
    exact first.choice_none (laterInduction first.trusted admits.tail)
  · intro position bound state item rest next after found
      induction trusted admits
    unfold evalChoice
    have first := induction trusted
      fun called call => admits called (.choice List.mem_cons_self call)
    rw [found] at first ⊢
    exact first.choice_some
  -- Behind an item that consumes a token all ranks are allowed again; behind
  -- one that consumes none only those that the whole sequence may call.
  · intro position bound mark state trusted admits below
    unfold evalSeq
    exact .matched .seqNil trusted (List.append_nil _).symm
      (Nat.max_zero _).symm
  · intro position bound mark state item rest after found induction trusted
      admits below
    unfold evalSeq
    have first := induction trusted admits.first
    rw [found] at first ⊢
    exact first.seq_none
  · intro position bound mark state item rest next after found moved induction
      laterInduction trusted admits below
    unfold evalSeq
    have first := induction trusted admits.first
    rw [found] at first ⊢
    simp only [moved, and_self, dite_true]
    have later := laterInduction first.trusted
      (admits_anyRank regular _) (Nat.le_trans below first.size_le)
    exact first.seq_some below later
  · intro position bound mark state item rest next after found stuck induction
      laterInduction trusted admits below
    unfold evalSeq
    have first := induction trusted admits.first
    rw [found] at first ⊢
    simp only [stuck, dite_false]
    obtain ⟨rfl, nullable⟩ := first.idle onward stuck
    have later := laterInduction first.trusted (admits.rest nullable)
      (Nat.le_trans below first.size_le)
    exact first.seq_some below later
  -- The outcome of a symbol is remembered, taken over or derived; its rank is
  -- never too high.
  · intro symbol position bound state isTerminal trusted admits
    unfold invoke
    simp only [isTerminal, if_true]
    exact delivers_terminal trusted isTerminal
  · intro symbol position bound state notTerminal noRule trusted admits
    unfold invoke
    simp only [notTerminal, noRule]
    exact .failed (.noRule (Bool.eq_false_iff.mpr notTerminal) noRule) trusted
      rfl (Nat.max_zero _).symm
  · intro symbol position bound state notTerminal rule known ranked isHidden
      induction trusted admits
    unfold invoke
    simp only [notTerminal, known, ranked, isHidden, if_true, dite_true]
    have delivers := induction trusted (admits_rule regular known)
    exact delivers.hidden (Bool.eq_false_iff.mpr notTerminal) known isHidden
  · intro symbol position bound state notTerminal rule known ranked visible
      outcome remembered trusted admits
    unfold invoke
    simp only [notTerminal, known, ranked, visible, remembered, dite_true]
    exact delivers_apply trusted (settles_of_remembered? trusted remembered)
      rfl rfl
  · intro symbol position bound state notTerminal rule known ranked visible
      notRemembered node outcome offered trusted admits
    unfold invoke
    simp only [notTerminal, known, ranked, visible, notRemembered, offered,
      dite_true, Bool.false_eq_true, if_false]
    exact delivers_reuse trusted (Bool.eq_false_iff.mpr notTerminal) known
      (Bool.eq_false_iff.mpr visible) offered
  · intro symbol position bound state notTerminal rule known ranked visible
      notRemembered refused induction trusted admits
    unfold invoke
    simp only [notTerminal, known, ranked, visible, notRemembered, refused,
      dite_true]
    exact induction trusted (admits_rule regular known)
      (Bool.eq_false_iff.mpr notTerminal) known
      (Bool.eq_false_iff.mpr visible) refused rfl rfl
  · intro symbol position bound state notTerminal rule known unranked
      trusted admits
    refine absurd (admits symbol (.symbol ?_)) unranked
    rw [RuleTable.hasRule, Option.isSome_iff_exists]
    exact ⟨rule, known⟩
  · intro symbol rule position bound mark outer state result derived found
      outcome closed closedFound induction trusted admits notTerminal
      known visible refused atTop outside
    subst atTop outside
    exact delivers_derive notTerminal known visible refused
      (induction ⟨trusted.fresh, trusted.memo⟩ admits)

/-- Evaluating a rule delivers one of its outcomes. -/
theorem delivers_eval {rule : Rule Symbol} (position : Nat) {bound : Nat}
    {state : DerivationState} (trusted : setting.Trusted supply state)
    (admits : setting.Admits bound rule) :
    setting.Delivers supply rule position state.scratch.toList state
      (setting.eval rule position bound state) :=
  (delivers_all regular onward).1 rule position bound state trusted admits

/-- Every rule has an outcome at every token. -/
theorem exists_runs (supply : Nat) (rule : Rule Symbol) (position : Nat) :
    ∃ outcome examined, setting.Runs supply rule position outcome examined := by
  have delivers := delivers_eval regular onward position
    (trusted_initial setting supply) (admits_anyRank regular rule)
  generalize setting.eval rule position setting.anyRank
    (DerivationState.initial supply) = result at delivers
  cases delivers with
  | failed runs => exact ⟨_, _, runs⟩
  | matched runs => exact ⟨_, _, runs⟩

end

end Setting

end Reparse
