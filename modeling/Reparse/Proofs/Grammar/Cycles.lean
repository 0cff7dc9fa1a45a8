import Reparse.Proofs.Grammar.Ranking

/-!
# Cycles are met

The flags and the calls that the search for left recursion works with say no
more than the relations they compute.  The symbols being followed call one
another, from the outermost to the innermost, so that a call of a symbol among
them closes a cycle.
-/

namespace Reparse

namespace RuleTable

variable {rules : RuleTable} {flags : Array Bool}

/-- A flag is raised only for a symbol that can match without a token. -/
def Justified (rules : RuleTable) (flags : Array Bool) : Prop :=
  ∀ symbol : Symbol, flags.getD symbol.id false = true →
    rules.Nullable (.symbol symbol)

mutual

/-- A rule that can be empty, given justified flags, can match without a
token. -/
theorem nullable_of_isNullable (justified : rules.Justified flags) :
    ∀ rule : Rule Symbol,
      rule.isNullable (fun symbol => flags.getD symbol.id false) = true →
        rules.Nullable rule
  | .symbol called => justified called
  | .seq items => fun holds =>
      .seq (nullable_of_allNullable justified items holds)
  | .choice alternatives => fun holds => by
      obtain ⟨alternative, member, nullable⟩ :=
        nullable_of_anyNullable justified alternatives holds
      exact .choice member nullable
  | .star item => fun _ => .star item
  | .opt item => fun _ => .opt item

theorem nullable_of_allNullable (justified : rules.Justified flags) :
    ∀ items : List (Rule Symbol),
      Rule.allNullable (fun symbol => flags.getD symbol.id false) items =
          true →
        ∀ item ∈ items, rules.Nullable item
  | [] => fun _ => List.forall_mem_nil _
  | item :: items => by
      intro holds
      obtain ⟨first, rest⟩ := Bool.and_eq_true_iff.mp holds
      exact List.forall_mem_cons.mpr
        ⟨nullable_of_isNullable justified item first,
          nullable_of_allNullable justified items rest⟩

theorem nullable_of_anyNullable (justified : rules.Justified flags) :
    ∀ alternatives : List (Rule Symbol),
      Rule.anyNullable (fun symbol => flags.getD symbol.id false)
          alternatives = true →
        ∃ alternative ∈ alternatives, rules.Nullable alternative
  | [] => fun holds => nomatch holds
  | alternative :: alternatives => by
      intro holds
      rcases Bool.or_eq_true_iff.mp holds with first | later
      · exact ⟨alternative, List.mem_cons_self,
          nullable_of_isNullable justified alternative first⟩
      · obtain ⟨other, member, nullable⟩ :=
          nullable_of_anyNullable justified alternatives later
        exact ⟨other, List.mem_cons_of_mem _ member, nullable⟩

end

/-- Flags that are all down are justified. -/
theorem justified_replicate {count : Nat} :
    rules.Justified (Array.replicate count false) := by
  intro symbol raised
  rw [Array.getD_eq_getD_getElem?, Array.getElem?_replicate] at raised
  split at raised <;> cases raised

theorem justified_nullableRound (justified : rules.Justified flags) :
    rules.Justified (rules.nullableRound flags) := by
  intro symbol raised
  rw [Array.getD_eq_getD_getElem?, getElem?_nullableRound] at raised
  cases entry : flags[symbol.id]? with
  | none =>
      rw [entry] at raised
      cases raised
  | some known =>
      rw [entry] at raised
      rcases Bool.or_eq_true_iff.mp raised with before | found
      · apply justified
        rw [Array.getD_eq_getD_getElem?, entry]
        exact before
      · split at found
        · next rule isRule =>
            exact .symbol isRule (nullable_of_isNullable justified rule found)
        · cases found

theorem justified_nullable : rules.Justified rules.nullable := by
  suffices settled : ∀ flags, rules.Justified flags →
      rules.Justified (rules.nullableFrom flags) from
    settled _ justified_replicate
  intro flags
  fun_induction rules.nullableFrom flags with
  | case1 flags next _ induction =>
      intro justified
      exact induction (justified_nullableRound justified)
  | case2 => exact id

mutual

/-- Whatever counts as called at the start of a rule is. -/
theorem leadingCall_of_mem {called : Symbol} :
    ∀ rule : Rule Symbol,
      called ∈ rule.leadingCalls
          (fun symbol => rules.nullable.getD symbol.id false) rules.hasRule →
        rules.LeadingCall rule called
  | .symbol name => by
      intro member
      simp only [Rule.leadingCalls] at member
      split at member
      · next known =>
          rw [List.mem_singleton.mp member]
          exact .symbol known
      · cases member
  | .seq items => by
      intro member
      obtain ⟨before, item, after, rfl, skipped, call⟩ :=
        leadingCall_of_mem_seq items member
      exact .seq skipped call
  | .choice alternatives => by
      intro member
      obtain ⟨alternative, inside, call⟩ :=
        leadingCall_of_mem_choice alternatives member
      exact .choice inside call
  | .star item => fun member => .star (leadingCall_of_mem item member)
  | .opt item => fun member => .opt (leadingCall_of_mem item member)

theorem leadingCall_of_mem_seq {called : Symbol} :
    ∀ items : List (Rule Symbol),
      called ∈ Rule.leadingCallsSeq
          (fun symbol => rules.nullable.getD symbol.id false) rules.hasRule
          items →
        ∃ before item after, items = before ++ item :: after ∧
          (∀ earlier ∈ before, rules.Nullable earlier) ∧
            rules.LeadingCall item called
  | [] => fun member => nomatch member
  | item :: items => by
      intro member
      simp only [Rule.leadingCallsSeq] at member
      rcases List.mem_append.mp member with first | later
      · exact ⟨[], item, items, rfl, List.forall_mem_nil _,
          leadingCall_of_mem item first⟩
      · split at later
        · next holds =>
            obtain ⟨before, other, after, rfl, skipped, call⟩ :=
              leadingCall_of_mem_seq items later
            have nullable :=
              nullable_of_isNullable justified_nullable item holds
            exact ⟨item :: before, other, after, rfl,
              List.forall_mem_cons.mpr ⟨nullable, skipped⟩, call⟩
        · cases later

theorem leadingCall_of_mem_choice {called : Symbol} :
    ∀ alternatives : List (Rule Symbol),
      called ∈ Rule.leadingCallsChoice
          (fun symbol => rules.nullable.getD symbol.id false) rules.hasRule
          alternatives →
        ∃ alternative ∈ alternatives, rules.LeadingCall alternative called
  | [] => fun member => nomatch member
  | alternative :: alternatives => by
      intro member
      simp only [Rule.leadingCallsChoice] at member
      rcases List.mem_append.mp member with first | later
      · exact ⟨alternative, List.mem_cons_self,
          leadingCall_of_mem alternative first⟩
      · obtain ⟨other, inside, call⟩ :=
          leadingCall_of_mem_choice alternatives later
        exact ⟨other, List.mem_cons_of_mem _ inside, call⟩

end

/-- The calls that are followed are those of the rules. -/
theorem mem_callsOf_iff {caller called : Symbol} :
    called ∈ rules.callsOf caller ↔ rules.Calls caller called := by
  refine ⟨fun member => ?_, mem_callsOf⟩
  rw [callsOf, Array.getD_eq_getD_getElem?] at member
  simp only [calls, Array.getElem?_map] at member
  cases entry : rules[caller.id]? with
  | none =>
      rw [entry] at member
      cases member
  | some rule? =>
      rw [entry] at member
      cases rule? with
      | none => cases member
      | some rule =>
          have known : rules.rule? caller = some rule := by
            rw [RuleTable.rule?, entry]
            rfl
          exact ⟨rule, known, leadingCall_of_mem rule member⟩

end RuleTable

namespace LeftRecursion

variable {rules : RuleTable}

/-- Every symbol being followed was taken up from a call of the one below it,
and has only calls of its own to follow. -/
def Linked (rules : RuleTable) : List Frame → Prop
  | [] => True
  | frame :: frames =>
      (∀ target ∈ frame.calls, rules.Calls frame.symbol target) ∧
        (∀ below ∈ frames.head?, rules.Calls below.symbol frame.symbol) ∧
          Linked rules frames

/-- Every symbol being followed leads to the innermost one. -/
theorem Linked.leads {frame : Frame} {frames : List Frame}
    (linked : Linked rules (frame :: frames)) {symbol : Symbol}
    (member : symbol ∈ frames.map Frame.symbol) :
    rules.Leads symbol frame.symbol := by
  induction frames generalizing frame with
  | nil => cases member
  | cons below frames induction =>
      obtain ⟨_, call, linkedBelow⟩ := linked
      have last : rules.Leads below.symbol frame.symbol :=
        .single (call below rfl)
      rcases List.mem_cons.mp member with rfl | further
      · exact last
      · exact (induction linkedBelow further).trans last

/-- A call of a symbol being followed closes a cycle. -/
theorem Linked.leftRecursive {symbol target : Symbol} {rest : List Symbol}
    {frames : List Frame}
    (linked : Linked rules (⟨symbol, target :: rest⟩ :: frames))
    (member : target ∈ symbol :: frames.map Frame.symbol) :
    rules.LeftRecursive target := by
  have call : rules.Calls symbol target :=
    linked.1 target List.mem_cons_self
  rcases List.mem_cons.mp member with rfl | further
  · exact .single call
  · exact (linked.leads further).trans (.single call)

theorem Linked.next {symbol target : Symbol} {rest : List Symbol}
    {frames : List Frame}
    (linked : Linked rules (⟨symbol, target :: rest⟩ :: frames)) :
    Linked rules (⟨symbol, rest⟩ :: frames) :=
  ⟨fun other member => linked.1 other (List.mem_cons_of_mem _ member),
    linked.2⟩

theorem Linked.enter {symbol target : Symbol} {rest : List Symbol}
    {frames : List Frame}
    (linked : Linked rules (⟨symbol, target :: rest⟩ :: frames)) :
    Linked rules
      (⟨target, rules.callsOf target⟩ :: ⟨symbol, rest⟩ :: frames) := by
  refine ⟨fun other => RuleTable.mem_callsOf_iff.mp, ?_, linked.next⟩
  rintro below same
  cases same
  exact linked.1 target List.mem_cons_self

/-- A symbol that is reported comes back to itself. -/
theorem leftRecursive_of_follow {frames : List Frame} {survey : Survey}
    {reported : Symbol}
    (refused : follow rules.calls frames survey = .error reported)
    (sound : Survey.Sound rules.callsOf none frames survey)
    (linked : Linked rules frames) : rules.LeftRecursive reported := by
  fun_induction follow rules.calls frames survey with
  | case1 => cases refused
  | case2 symbol frames survey induction =>
      exact induction refused sound.leave linked.2.2
  | case3 symbol target rest frames survey new induction =>
      exact induction refused (sound.next.enter new) linked.enter
  | case4 symbol target rest frames survey pending =>
      cases refused
      exact linked.leftRecursive ((sound.pending _).mp pending)
  | case5 symbol target rest frames survey rank finished induction =>
      exact induction refused (sound.next.pass finished) linked.next

theorem leftRecursive_of_start {survey : Survey} {index : Nat}
    {reported : Symbol}
    (refused : start rules.calls survey index = .error reported)
    (sound : Survey.Sound rules.callsOf none [] survey) :
    rules.LeftRecursive reported := by
  simp only [start] at refused
  split at refused
  · next new =>
      apply leftRecursive_of_follow refused
      · exact Survey.Sound.enter { sound with trail := trivial } new
      · refine ⟨fun other => RuleTable.mem_callsOf_iff.mp, ?_, trivial⟩
        intro below member
        cases member
  · cases refused

/-- The symbol that refuses a table lies on a cycle of calls. -/
theorem leftRecursive_of_ranks {reported : Symbol}
    (refused : ranks rules = .error reported) :
    rules.LeftRecursive reported := by
  rcases bind_eq_error.mp refused with searched | ⟨_, _, same⟩
  · obtain ⟨index, _, survey, sound, stopped⟩ :=
      foldlM_refused searched Survey.sound_initial
        fun _ _ _ _ sound started => (sound_start sound started).1
    exact leftRecursive_of_start stopped sound
  · cases same

/-- Along calls ranks only fall, so a ranked table has no cycle of calls. -/
theorem rank_lt_of_leads {found : Array Nat} {first last : Symbol}
    (ranked : ranks rules = .ok found) (leads : rules.Leads first last) :
    found.getD last.id 0 < found.getD first.id 0 := by
  obtain ⟨_, _, falls⟩ := rank_of_ranks ranked
  induction leads with
  | single call => exact falls _ _ call
  | step call _ induction => exact Nat.lt_trans induction (falls _ _ call)

/-- A table is refused exactly when calls lead some symbol back to itself. -/
theorem ranks_eq_error_iff :
    (∃ reported, ranks rules = .error reported) ↔
      ∃ symbol, rules.LeftRecursive symbol := by
  constructor
  · rintro ⟨reported, refused⟩
    exact ⟨reported, leftRecursive_of_ranks refused⟩
  · rintro ⟨symbol, cycle⟩
    cases ranked : ranks rules with
    | error reported => exact ⟨reported, rfl⟩
    | ok found => exact absurd (rank_lt_of_leads ranked cycle) (Nat.lt_irrefl _)

end LeftRecursion

end Reparse
