import Reparse.Grammar.Nullability
import Reparse.Proofs.Outcome

/-!
# Ranks fall along calls

Whatever a rule may call before it consumes a token is met by the search for
left recursion.  A symbol is left only after everything it may call, so that a
search that ends without a cycle ranks it above all of that.
-/

namespace Reparse

namespace Rule

variable {nullable hasRule : Symbol → Bool}

theorem allNullable_iff {items : List (Rule Symbol)} :
    allNullable nullable items = true ↔
      ∀ item ∈ items, item.isNullable nullable = true := by
  induction items with
  | nil => simp [allNullable]
  | cons item items induction => simp [allNullable, induction]

theorem anyNullable_iff {alternatives : List (Rule Symbol)} :
    anyNullable nullable alternatives = true ↔
      ∃ alternative ∈ alternatives, alternative.isNullable nullable = true := by
  induction alternatives with
  | nil => simp [anyNullable]
  | cons alternative alternatives induction => simp [anyNullable, induction]

theorem mem_leadingCallsSeq {before after : List (Rule Symbol)}
    {item : Rule Symbol} {called : Symbol}
    (skipped : ∀ earlier ∈ before, earlier.isNullable nullable = true)
    (member : called ∈ item.leadingCalls nullable hasRule) :
    called ∈ leadingCallsSeq nullable hasRule (before ++ item :: after) := by
  induction before with
  | nil => exact List.mem_append_left _ member
  | cons first before induction =>
      have rest := induction fun earlier inside =>
        skipped earlier (List.mem_cons_of_mem _ inside)
      simp only [List.cons_append, leadingCallsSeq,
        skipped first List.mem_cons_self, if_true]
      exact List.mem_append_right _ rest

theorem mem_leadingCallsChoice {alternatives : List (Rule Symbol)}
    {alternative : Rule Symbol} {called : Symbol}
    (inside : alternative ∈ alternatives)
    (member : called ∈ alternative.leadingCalls nullable hasRule) :
    called ∈ leadingCallsChoice nullable hasRule alternatives := by
  induction alternatives with
  | nil => cases inside
  | cons first alternatives induction =>
      rcases List.mem_cons.mp inside with rfl | later
      · exact List.mem_append_left _ member
      · exact List.mem_append_right _ (induction later)

mutual

/-- Only symbols with rules count as called. -/
theorem hasRule_of_mem_leadingCalls {called : Symbol} :
    ∀ rule : Rule Symbol, called ∈ rule.leadingCalls nullable hasRule →
      hasRule called = true
  | .symbol name => by
      intro member
      simp only [leadingCalls] at member
      split at member
      · next known =>
          rw [List.mem_singleton.mp member]
          exact known
      · cases member
  | .seq items => hasRule_of_mem_leadingCallsSeq items
  | .choice alternatives => hasRule_of_mem_leadingCallsChoice alternatives
  | .star item => hasRule_of_mem_leadingCalls item
  | .opt item => hasRule_of_mem_leadingCalls item

theorem hasRule_of_mem_leadingCallsSeq {called : Symbol} :
    ∀ items : List (Rule Symbol),
      called ∈ leadingCallsSeq nullable hasRule items → hasRule called = true
  | [] => fun member => nomatch member
  | item :: items => by
      intro member
      simp only [leadingCallsSeq] at member
      rcases List.mem_append.mp member with first | later
      · exact hasRule_of_mem_leadingCalls item first
      · split at later
        · exact hasRule_of_mem_leadingCallsSeq items later
        · cases later

theorem hasRule_of_mem_leadingCallsChoice {called : Symbol} :
    ∀ alternatives : List (Rule Symbol),
      called ∈ leadingCallsChoice nullable hasRule alternatives →
        hasRule called = true
  | [] => fun member => nomatch member
  | alternative :: alternatives => by
      intro member
      simp only [leadingCallsChoice] at member
      rcases List.mem_append.mp member with first | later
      · exact hasRule_of_mem_leadingCalls alternative first
      · exact hasRule_of_mem_leadingCallsChoice alternatives later

end

end Rule

/-- Raising flags leaves no more of them down. -/
theorem count_false_le {before after : List Bool}
    (sameLength : after.length = before.length)
    (raised : ∀ index : Nat,
      before[index]? = some true → after[index]? = some true) :
    after.count false ≤ before.count false := by
  induction before generalizing after with
  | nil =>
      have same : after = [] := List.length_eq_zero_iff.mp sameLength
      exact Nat.le_of_eq (congrArg (List.count false) same)
  | cons flag before induction =>
      cases after with
      | nil => cases sameLength
      | cons other after =>
          have rest := induction (Nat.succ.inj sameLength)
            fun index => raised (index + 1)
          have first := raised 0
          cases flag <;> cases other <;> simp at first <;>
            simp only [List.count_cons] <;> simp <;> omega

/-- Flags that were only raised, and of which no fewer are down, are the
same. -/
theorem eq_of_count_false_le {before after : List Bool}
    (sameLength : after.length = before.length)
    (raised : ∀ index : Nat,
      before[index]? = some true → after[index]? = some true)
    (noFewer : before.count false ≤ after.count false) : after = before := by
  induction before generalizing after with
  | nil => exact List.length_eq_zero_iff.mp sameLength
  | cons flag before induction =>
      cases after with
      | nil => cases sameLength
      | cons other after =>
          have sameRest := Nat.succ.inj sameLength
          have raisedRest : ∀ index : Nat,
              before[index]? = some true → after[index]? = some true :=
            fun index => raised (index + 1)
          have first := raised 0
          have rest := count_false_le sameRest raisedRest
          simp only [List.count_cons] at noFewer
          have equal : other = flag := by
            cases flag <;> cases other <;> simp at first noFewer ⊢
            omega
          subst equal
          rw [induction sameRest raisedRest (by omega)]

namespace RuleTable

variable {rules : RuleTable}

/-- Every rule that matches without a token, given the flags, has its own flag
raised. -/
def ClosedUnder (rules : RuleTable) (flags : Array Bool) : Prop :=
  ∀ symbol rule, rules.rule? symbol = some rule →
    rule.isNullable (fun called => flags.getD called.id false) = true →
      flags.getD symbol.id false = true

theorem lt_size_of_rule? {symbol : Symbol} {rule : Rule Symbol}
    (known : rules.rule? symbol = some rule) : symbol.id < rules.size := by
  apply Classical.byContradiction
  intro outside
  rw [rule?, Array.getElem?_eq_none (by omega)] at known
  cases known

theorem getElem?_nullableRound (flags : Array Bool) (index : Nat) :
    (rules.nullableRound flags)[index]? =
      flags[index]?.map fun known =>
        known ||
          match rules.rule? ⟨index⟩ with
          | some rule =>
              rule.isNullable fun called => flags.getD called.id false
          | none => false :=
  Array.getElem?_mapIdx

theorem closedUnder_nullableFrom {flags : Array Bool}
    (size : flags.size = rules.size) :
    rules.ClosedUnder (rules.nullableFrom flags) := by
  fun_induction rules.nullableFrom flags with
  | case1 flags next fewer induction =>
      exact induction (by simp [next, nullableRound, size])
  | case2 flags next notFewer =>
      intro symbol rule known holds
      have inside : symbol.id < flags.size := by
        rw [size]
        exact lt_size_of_rule? known
      have same : next.toList = flags.toList := by
        apply eq_of_count_false_le (by simp [next, nullableRound])
        · intro index raised
          rw [Array.getElem?_toList] at raised ⊢
          simp only [next, getElem?_nullableRound, raised, Option.map_some,
            Bool.true_or]
        · rw [Array.count_toList, Array.count_toList]
          omega
      have flagged : next[symbol.id]? = some true := by
        simp only [next, getElem?_nullableRound, known, holds, Bool.or_true,
          Array.getElem?_eq_getElem inside, Option.map_some]
      rw [Array.getD_eq_getD_getElem?, ← Array.getElem?_toList, ← same,
        Array.getElem?_toList, flagged]
      rfl

theorem closedUnder_nullable : rules.ClosedUnder rules.nullable :=
  closedUnder_nullableFrom Array.size_replicate

/-- What can match without a token can be empty, given flags that miss no
symbol. -/
theorem isNullable_of_closedUnder {flags : Array Bool} {rule : Rule Symbol}
    (closed : rules.ClosedUnder flags) (holds : rules.Nullable rule) :
    rule.isNullable (fun called => flags.getD called.id false) = true := by
  induction holds with
  | symbol known _ induction => exact closed _ _ known induction
  | seq _ induction => exact Rule.allNullable_iff.mpr induction
  | choice member _ induction =>
      exact Rule.anyNullable_iff.mpr ⟨_, member, induction⟩
  | star => rfl
  | opt => rfl

theorem isNullable_of_nullable {rule : Rule Symbol}
    (holds : rules.Nullable rule) :
    rule.isNullable (fun called => rules.nullable.getD called.id false) =
      true :=
  isNullable_of_closedUnder closedUnder_nullable holds

theorem mem_leadingCalls {rule : Rule Symbol} {called : Symbol}
    (call : rules.LeadingCall rule called) :
    called ∈ rule.leadingCalls
      (fun symbol => rules.nullable.getD symbol.id false) rules.hasRule := by
  induction call with
  | symbol known => simp [Rule.leadingCalls, known]
  | seq skipped _ induction =>
      exact Rule.mem_leadingCallsSeq
        (fun earlier member => isNullable_of_nullable (skipped earlier member))
        induction
  | choice member _ induction =>
      exact Rule.mem_leadingCallsChoice member induction
  | star _ induction => exact induction
  | opt _ induction => exact induction

/-- The symbols a symbol may call before it consumes a token. -/
def callsOf (rules : RuleTable) (symbol : Symbol) : List Symbol :=
  rules.calls.getD symbol.id []

theorem mem_callsOf {caller called : Symbol}
    (call : rules.Calls caller called) : called ∈ rules.callsOf caller := by
  obtain ⟨rule, known, leading⟩ := call
  have inside := lt_size_of_rule? known
  have entry : rules[caller.id]? = some (some rule) := by
    rw [rule?, Array.getElem?_eq_getElem inside] at known
    rw [Array.getElem?_eq_getElem inside]
    exact congrArg some known
  have member := mem_leadingCalls leading
  simpa [callsOf, calls, entry] using member

theorem inside_of_mem_callsOf {caller called : Symbol}
    (member : called ∈ rules.callsOf caller) : called.id < rules.size := by
  simp only [callsOf, calls, Array.getD_eq_getD_getElem?, Array.getElem?_map]
    at member
  cases entry : rules[caller.id]? with
  | none =>
      rw [entry] at member
      cases member
  | some rule? =>
      rw [entry] at member
      cases rule? with
      | none => cases member
      | some rule =>
          have known := Rule.hasRule_of_mem_leadingCalls rule member
          obtain ⟨rule, known⟩ := Option.isSome_iff_exists.mp known
          exact lt_size_of_rule? known

end RuleTable

namespace LeftRecursion

/-- Whether the symbol was left. -/
def Mark.isFinished : Mark → Bool
  | .finished _ => true
  | _ => false

namespace Survey

variable {survey : Survey} {symbol other : Symbol}

theorem mark_enter (inside : symbol.id < survey.marks.size) :
    (survey.enter symbol).mark other =
      if other = symbol then .pending else survey.mark other := by
  cases symbol with
  | mk id =>
      cases other with
      | mk otherId =>
          simp only [mark, enter, Array.getD_eq_getD_getElem?,
            Array.getElem?_setIfInBounds, Symbol.mk.injEq] at inside ⊢
          by_cases same : otherId = id
          · simp [same, inside]
          · simp [same, Ne.symm same]

theorem mark_leave (inside : symbol.id < survey.marks.size) :
    (survey.leave symbol).mark other =
      if other = symbol then .finished survey.next else survey.mark other := by
  cases symbol with
  | mk id =>
      cases other with
      | mk otherId =>
          simp only [mark, leave, Array.getD_eq_getD_getElem?,
            Array.getElem?_setIfInBounds, Symbol.mk.injEq] at inside ⊢
          by_cases same : otherId = id
          · simp [same, inside]
          · simp [same, Ne.symm same]

theorem inside_of_mark
    (unfinished : ∀ rank, survey.mark symbol ≠ .finished rank) :
    symbol.id < survey.marks.size := by
  apply Classical.byContradiction
  intro outside
  apply unfinished 0
  simp [mark, Array.getD, outside]

theorem inside_of_unseen (new : survey.mark symbol = .unseen) :
    symbol.id < survey.marks.size := by
  apply inside_of_mark
  intro rank finished
  rw [new] at finished
  cases finished

/-- Entering a symbol finishes none. -/
theorem finished_enter_iff (new : survey.mark symbol = .unseen) {rank : Nat} :
    (survey.enter symbol).mark other = .finished rank ↔
      survey.mark other = .finished rank := by
  rw [mark_enter (inside_of_unseen new)]
  split
  · next same =>
      rw [same, new]
      constructor <;> intro finished <;> cases finished
  · rfl

/-- Leaving a symbol keeps the ranks given before. -/
theorem finished_leave (inside : symbol.id < survey.marks.size)
    (pending : survey.mark symbol = .pending) {rank : Nat}
    (finished : survey.mark other = .finished rank) :
    (survey.leave symbol).mark other = .finished rank := by
  rw [mark_leave inside, if_neg]
  · exact finished
  · rintro rfl
    rw [pending] at finished
    cases finished

theorem met_enter (inside : symbol.id < survey.marks.size)
    (met : survey.mark other ≠ .unseen) :
    (survey.enter symbol).mark other ≠ .unseen := by
  rw [mark_enter inside]
  split
  · intro finished
    cases finished
  · exact met

theorem met_leave (inside : symbol.id < survey.marks.size)
    (met : survey.mark other ≠ .unseen) :
    (survey.leave symbol).mark other ≠ .unseen := by
  rw [mark_leave inside]
  split
  · intro finished
    cases finished
  · exact met

theorem getElem_of_mark (inside : symbol.id < survey.marks.size) :
    survey.marks[symbol.id] = survey.mark symbol := by
  simp [mark, Array.getD, inside]

/-- A symbol being followed has only calls that are still to follow, are
finished, or are followed by the frame above it. -/
def Trail (callsOf : Symbol → List Symbol) (survey : Survey) :
    Option Symbol → List Frame → Prop
  | _, [] => True
  | above, frame :: frames =>
      (∀ target ∈ callsOf frame.symbol, target ∈ frame.calls ∨
          (∃ rank, survey.mark target = .finished rank) ∨
            above = some target) ∧
        Trail callsOf survey (some frame.symbol) frames

/-- What holds of the survey while the frames are followed and `above` is the
call taken up next. -/
structure Sound (callsOf : Symbol → List Symbol) (above : Option Symbol)
    (frames : List Frame) (survey : Survey) : Prop where
  /-- Only symbols of the table are called. -/
  within : ∀ caller, ∀ target ∈ callsOf caller,
    target.id < survey.marks.size
  /-- A finished symbol is ranked above everything it may call. -/
  ranked : ∀ caller rank, survey.mark caller = .finished rank →
    ∀ target ∈ callsOf caller,
      ∃ lower, survey.mark target = .finished lower ∧ lower < rank
  /-- Ranks are numbers already given. -/
  given : ∀ symbol rank, symbol.id < survey.marks.size →
    survey.mark symbol = .finished rank → rank < survey.next
  /-- As many ranks were given as symbols were left. -/
  counted : survey.next = survey.marks.countP Mark.isFinished
  /-- The pending symbols are those of the frames, each in one frame. -/
  pending : ∀ symbol, survey.mark symbol = .pending ↔
    symbol ∈ frames.map Frame.symbol
  distinct : (frames.map Frame.symbol).Nodup
  trail : Trail callsOf survey above frames

variable {callsOf : Symbol → List Symbol} {frames : List Frame}

theorem Trail.mono {above aboveLater : Option Symbol} {later : Survey}
    (finished : ∀ target, (∃ rank, survey.mark target = .finished rank) →
      ∃ rank, later.mark target = .finished rank)
    (left : ∀ target, above = some target →
      (∃ rank, later.mark target = .finished rank) ∨
        aboveLater = some target)
    (trail : Trail callsOf survey above frames) :
    Trail callsOf later aboveLater frames := by
  induction frames generalizing above aboveLater with
  | nil => trivial
  | cons frame frames induction =>
      refine ⟨?_, induction (fun _ same => .inr same) trail.2⟩
      intro target member
      rcases trail.1 target member with toFollow | known | active
      · exact .inl toFollow
      · exact .inr (.inl (finished target known))
      · exact .inr (left target active)

theorem Sound.inside {above : Option Symbol} {frame : Frame}
    (sound : Sound callsOf above (frame :: frames) survey) :
    frame.symbol.id < survey.marks.size ∧
      survey.mark frame.symbol = .pending := by
  have pending := (sound.pending frame.symbol).mpr List.mem_cons_self
  refine ⟨inside_of_mark ?_, pending⟩
  intro rank finished
  rw [pending] at finished
  cases finished

theorem size_enter : (survey.enter symbol).marks.size = survey.marks.size :=
  Array.size_setIfInBounds

theorem size_leave : (survey.leave symbol).marks.size = survey.marks.size :=
  Array.size_setIfInBounds

theorem countP_enter (new : survey.mark symbol = .unseen) :
    (survey.enter symbol).marks.countP Mark.isFinished =
      survey.marks.countP Mark.isFinished := by
  have inside := inside_of_unseen new
  simp [enter, Array.setIfInBounds, inside, Array.countP_set,
    getElem_of_mark inside, new, Mark.isFinished]

theorem countP_leave (inside : symbol.id < survey.marks.size)
    (pending : survey.mark symbol = .pending) :
    (survey.leave symbol).marks.countP Mark.isFinished =
      survey.marks.countP Mark.isFinished + 1 := by
  simp [leave, Array.setIfInBounds, inside, Array.countP_set,
    getElem_of_mark inside, pending, Mark.isFinished]

/-- A symbol whose calls were all followed is left. -/
theorem Sound.leave
    (sound : Sound callsOf none (⟨symbol, []⟩ :: frames) survey) :
    Sound callsOf none frames (survey.leave symbol) := by
  obtain ⟨inside, pending⟩ := sound.inside
  simp only at inside pending
  have kept : ∀ {target rank}, survey.mark target = .finished rank →
      (survey.leave symbol).mark target = .finished rank :=
    finished_leave inside pending
  have left : (survey.leave symbol).mark symbol = .finished survey.next := by
    rw [mark_leave inside, if_pos rfl]
  obtain ⟨fresh, distinct⟩ := List.nodup_cons.mp sound.distinct
  refine ⟨?_, ?_, ?_, ?_, ?_, distinct, ?_⟩
  · intro caller target member
    rw [size_leave]
    exact sound.within caller target member
  · intro caller rank finished target member
    rw [mark_leave inside] at finished
    split at finished
    · next same =>
        -- Nothing is left to follow and no frame is above, so every call is
        -- finished already.
        cases finished
        rw [same] at member
        rcases sound.trail.1 target member with none | ⟨lower, known⟩ | none
        · cases none
        · exact ⟨lower, kept known, sound.given target lower
            (sound.within symbol target member) known⟩
        · cases none
    · obtain ⟨lower, known, below⟩ :=
        sound.ranked caller rank finished target member
      exact ⟨lower, kept known, below⟩
  · intro other rank within finished
    rw [size_leave] at within
    rw [mark_leave inside] at finished
    split at finished
    · cases finished
      exact Nat.lt_succ_self _
    · exact Nat.lt_succ_of_lt (sound.given other rank within finished)
  · rw [countP_leave inside pending, ← sound.counted]
    rfl
  · intro other
    rw [mark_leave inside]
    split
    · next same =>
        subst same
        refine ⟨fun pending => ?_, fun member => absurd member fresh⟩
        cases pending
    · next different =>
        rw [sound.pending other, List.map_cons, List.mem_cons]
        exact or_iff_right different
  · refine sound.trail.2.mono (fun _ known => ?_) (fun _ active => ?_)
    · obtain ⟨rank, known⟩ := known
      exact ⟨rank, kept known⟩
    · cases active
      exact .inl ⟨_, left⟩

/-- The next call of the innermost symbol is taken up. -/
theorem Sound.next {target : Symbol} {rest : List Symbol}
    (sound : Sound callsOf none (⟨symbol, target :: rest⟩ :: frames) survey) :
    Sound callsOf (some target) (⟨symbol, rest⟩ :: frames) survey := by
  refine { sound with trail := ⟨?_, sound.trail.2⟩ }
  intro called member
  rcases sound.trail.1 called member with toFollow | known | active
  · rcases List.mem_cons.mp toFollow with rfl | later
    · exact .inr (.inr rfl)
    · exact .inl later
  · exact .inr (.inl known)
  · cases active

/-- A call of a symbol that was left is passed over. -/
theorem Sound.pass {target : Symbol} {rank : Nat}
    (sound : Sound callsOf (some target) frames survey)
    (finished : survey.mark target = .finished rank) :
    Sound callsOf none frames survey := by
  refine { sound with trail := sound.trail.mono (fun _ known => known) ?_ }
  intro called active
  cases active
  exact .inl ⟨rank, finished⟩

/-- A call of a symbol that was not met before is followed. -/
theorem Sound.enter {target : Symbol}
    (sound : Sound callsOf (some target) frames survey)
    (new : survey.mark target = .unseen) :
    Sound callsOf none (⟨target, callsOf target⟩ :: frames)
      (survey.enter target) := by
  have before : ∀ {other rank},
      (survey.enter target).mark other = .finished rank →
        survey.mark other = .finished rank :=
    (finished_enter_iff new).mp
  refine ⟨?_, ?_, ?_, ?_, ?_, ?_, ?_, ?_⟩
  · intro caller called member
    rw [size_enter]
    exact sound.within caller called member
  · intro caller rank finished called member
    obtain ⟨lower, known, below⟩ :=
      sound.ranked caller rank (before finished) called member
    exact ⟨lower, (finished_enter_iff new).mpr known, below⟩
  · intro other rank within finished
    rw [size_enter] at within
    exact sound.given other rank within (before finished)
  · rw [countP_enter new, ← sound.counted]
    rfl
  · intro other
    rw [mark_enter (inside_of_unseen new), List.map_cons, List.mem_cons]
    split
    · next same => exact ⟨fun _ => .inl same, fun _ => rfl⟩
    · next different =>
        rw [sound.pending other]
        exact (or_iff_right different).symm
  · rw [List.map_cons, List.nodup_cons]
    refine ⟨fun member => ?_, sound.distinct⟩
    have pending := (sound.pending target).mpr member
    rw [new] at pending
    cases pending
  · intro called member
    exact .inl member
  · refine sound.trail.mono (fun _ known => ?_) (fun _ active => .inr active)
    obtain ⟨rank, known⟩ := known
    exact ⟨rank, (finished_enter_iff new).mpr known⟩

theorem sound_initial {rules : RuleTable} :
    Sound rules.callsOf none [] (initial rules.size) := by
  have unseen : ∀ {symbol : Symbol}, symbol.id < rules.size →
      (initial rules.size).mark symbol = .unseen := by
    intro symbol inside
    simp [mark, initial, inside]
  have size : (initial rules.size).marks.size = rules.size :=
    Array.size_replicate
  refine ⟨?_, ?_, ?_, ?_, ?_, .nil, trivial⟩
  · intro caller target member
    rw [size]
    exact RuleTable.inside_of_mem_callsOf member
  · intro caller rank finished target member
    by_cases inside : caller.id < rules.size
    · rw [unseen inside] at finished
      cases finished
    · have none : rules.callsOf caller = [] := by
        simp [RuleTable.callsOf, RuleTable.calls, inside]
      rw [none] at member
      cases member
  · intro symbol rank inside finished
    rw [size] at inside
    rw [unseen inside] at finished
    cases finished
  · simp [initial, Array.countP_replicate, Mark.isFinished]
  · intro symbol
    constructor
    · intro pending
      by_cases inside : symbol.id < rules.size
      · rw [unseen inside] at pending
        cases pending
      · simp [mark, initial, inside] at pending
    · intro member
      cases member

end Survey

/-- Following frames to the end finishes all of them and forgets nothing. -/
theorem sound_follow {calls : Array (List Symbol)} {frames : List Frame}
    {survey last : Survey} (followed : follow calls frames survey = .ok last)
    (sound : Survey.Sound (fun symbol => calls.getD symbol.id []) none frames
      survey) :
    Survey.Sound (fun symbol => calls.getD symbol.id []) none [] last ∧
      last.marks.size = survey.marks.size ∧
        ∀ symbol, survey.mark symbol ≠ .unseen →
          last.mark symbol ≠ .unseen := by
  fun_induction follow calls frames survey with
  | case1 survey =>
      cases followed
      exact ⟨sound, rfl, fun _ met => met⟩
  | case2 symbol frames survey induction =>
      obtain ⟨soundLast, size, met⟩ := induction followed sound.leave
      exact ⟨soundLast, size.trans Survey.size_leave, fun other metBefore =>
        met other (Survey.met_leave sound.inside.1 metBefore)⟩
  | case3 symbol target rest frames survey new induction =>
      obtain ⟨soundLast, size, met⟩ :=
        induction followed (sound.next.enter new)
      exact ⟨soundLast, size.trans Survey.size_enter, fun other metBefore =>
        met other (Survey.met_enter (Survey.inside_of_unseen new) metBefore)⟩
  | case4 => cases followed
  | case5 symbol target rest frames survey rank finished induction =>
      exact induction followed (sound.next.pass finished)

/-- The search at one symbol finishes it and forgets nothing. -/
theorem sound_start {rules : RuleTable} {survey last : Survey} {index : Nat}
    (sound : Survey.Sound rules.callsOf none [] survey)
    (started : start rules.calls survey index = .ok last) :
    Survey.Sound rules.callsOf none [] last ∧
      last.marks.size = survey.marks.size ∧
        (∀ symbol, survey.mark symbol ≠ .unseen →
          last.mark symbol ≠ .unseen) ∧
          last.mark ⟨index⟩ ≠ .unseen := by
  simp only [start] at started
  split at started
  · next new =>
      have inside := Survey.inside_of_unseen new
      have entered : Survey.Sound rules.callsOf none
          [⟨⟨index⟩, rules.callsOf ⟨index⟩⟩] (survey.enter ⟨index⟩) :=
        Survey.Sound.enter { sound with trail := trivial } new
      obtain ⟨soundLast, size, met⟩ := sound_follow started entered
      refine ⟨soundLast, size.trans Survey.size_enter, ?_, ?_⟩
      · intro symbol metBefore
        exact met symbol (Survey.met_enter inside metBefore)
      · apply met
        rw [Survey.mark_enter inside, if_pos rfl]
        intro finished
        cases finished
  · next met =>
      cases started
      exact ⟨sound, rfl, fun _ metBefore => metBefore, met⟩

/-- What is known once the search was started at the symbols before `count`. -/
theorem sound_starts {rules : RuleTable} {count : Nat} {last : Survey}
    (followed : (List.range count).foldlM (start rules.calls)
      (Survey.initial rules.size) = .ok last) :
    Survey.Sound rules.callsOf none [] last ∧
      last.marks.size = rules.size ∧
        ∀ index, index < count → last.mark ⟨index⟩ ≠ .unseen := by
  induction count generalizing last with
  | zero =>
      cases followed
      exact ⟨Survey.sound_initial, Array.size_replicate,
        fun _ below => absurd below (Nat.not_lt_zero _)⟩
  | succ count induction =>
      rw [List.range_succ, List.foldlM_append] at followed
      obtain ⟨survey, before, after⟩ := bind_eq_ok.mp followed
      obtain ⟨sound, size, met⟩ := induction before
      obtain ⟨final, after, same⟩ := bind_eq_ok.mp after
      cases same
      obtain ⟨soundFinal, sizeFinal, metFinal, metLast⟩ :=
        sound_start sound after
      refine ⟨soundFinal, sizeFinal.trans size, fun index below => ?_⟩
      rcases Nat.lt_or_eq_of_le (Nat.le_of_lt_succ below) with earlier | rfl
      · exact metFinal _ (met index earlier)
      · exact metLast

/-- Ranks fall along calls, and there are no more of them than symbols. -/
theorem rank_of_ranks {rules : RuleTable} {found : Array Nat}
    (ranked : ranks rules = .ok found) :
    found.size = rules.size ∧
      (∀ symbol rule, rules.rule? symbol = some rule →
        found.getD symbol.id 0 < rules.size) ∧
        ∀ caller called, rules.Calls caller called →
          found.getD called.id 0 < found.getD caller.id 0 := by
  obtain ⟨survey, followed, same⟩ := bind_eq_ok.mp ranked
  cases same
  obtain ⟨sound, size, met⟩ := sound_starts followed
  have finished : ∀ symbol : Symbol, symbol.id < rules.size →
      ∃ rank, survey.mark symbol = .finished rank := by
    intro symbol inside
    cases mark : survey.mark symbol with
    | unseen => exact absurd mark (met symbol.id inside)
    | pending => cases (sound.pending symbol).mp mark
    | finished rank => exact ⟨rank, rfl⟩
  have ranks : ∀ {symbol : Symbol} {rank}, symbol.id < rules.size →
      survey.mark symbol = .finished rank →
        (survey.marks.map Mark.rank).getD symbol.id 0 = rank := by
    intro symbol rank inside mark
    have entry := Survey.getElem_of_mark (size ▸ inside)
    rw [mark] at entry
    simp [size ▸ inside, entry, Mark.rank]
  refine ⟨by rw [Array.size_map, size], ?_, ?_⟩
  · intro symbol rule known
    have inside := RuleTable.lt_size_of_rule? known
    obtain ⟨rank, mark⟩ := finished symbol inside
    rw [ranks inside mark]
    have given := sound.given symbol rank (size ▸ inside) mark
    rw [sound.counted] at given
    have bound : survey.marks.countP Mark.isFinished ≤ survey.marks.size :=
      Array.countP_le_size
    omega
  · intro caller called call
    have member := RuleTable.mem_callsOf call
    have insideCalled := RuleTable.inside_of_mem_callsOf member
    obtain ⟨rule, known, _⟩ := call
    have inside := RuleTable.lt_size_of_rule? known
    obtain ⟨rank, mark⟩ := finished caller inside
    obtain ⟨lower, markCalled, below⟩ :=
      sound.ranked caller rank mark called member
    rw [ranks inside mark, ranks insideCalled markCalled]
    exact below

end LeftRecursion

end Reparse
