import Reparse.Grammar.Rule

/-!
# Left recursion

A rule that can come back to itself before it consumes a token would never end.
Whether a rule can match without a token is found by rounds that add symbols
until none is added; the calls a rule makes at its start are then followed depth
first.  Meeting a symbol that is still being followed means a cycle.  Without a
cycle every symbol is ranked by when it was left, so that the calls at the start
of a rule lead to symbols of smaller rank.
-/

namespace Reparse

/-- The rules of a grammar by symbol number; tokens have none. -/
abbrev RuleTable := Array (Option (Rule Symbol))

namespace Rule

mutual

def isNullable (nullable : Symbol → Bool) : Rule Symbol → Bool
  | .symbol called => nullable called
  | .seq items => allNullable nullable items
  | .choice alternatives => anyNullable nullable alternatives
  | .star _ => true
  | .opt _ => true

def allNullable (nullable : Symbol → Bool) : List (Rule Symbol) → Bool
  | [] => true
  | rule :: rules => rule.isNullable nullable && allNullable nullable rules

def anyNullable (nullable : Symbol → Bool) : List (Rule Symbol) → Bool
  | [] => false
  | rule :: rules => rule.isNullable nullable || anyNullable nullable rules

end

mutual

/-- The symbols with rules that the rule may call before it consumes a token. -/
def leadingCalls (nullable hasRule : Symbol → Bool) : Rule Symbol → List Symbol
  | .symbol called => if hasRule called then [called] else []
  | .seq items => leadingCallsSeq nullable hasRule items
  | .choice alternatives => leadingCallsChoice nullable hasRule alternatives
  | .star item => item.leadingCalls nullable hasRule
  | .opt item => item.leadingCalls nullable hasRule

def leadingCallsSeq (nullable hasRule : Symbol → Bool) :
    List (Rule Symbol) → List Symbol
  | [] => []
  | rule :: rules =>
      rule.leadingCalls nullable hasRule ++
        if rule.isNullable nullable then leadingCallsSeq nullable hasRule rules
        else []

def leadingCallsChoice (nullable hasRule : Symbol → Bool) :
    List (Rule Symbol) → List Symbol
  | [] => []
  | rule :: rules =>
      rule.leadingCalls nullable hasRule ++
        leadingCallsChoice nullable hasRule rules

end

end Rule

namespace RuleTable

def rule? (rules : RuleTable) (symbol : Symbol) : Option (Rule Symbol) :=
  rules[symbol.id]?.join

def hasRule (rules : RuleTable) (symbol : Symbol) : Bool :=
  (rules.rule? symbol).isSome

/-- Adds the symbols whose rules can be empty once the symbols known so far
can. -/
def nullableRound (rules : RuleTable) (nullable : Array Bool) : Array Bool :=
  nullable.mapIdx fun index known =>
    known ||
      match rules.rule? ⟨index⟩ with
      | some rule => rule.isNullable fun symbol => nullable.getD symbol.id false
      | none => false

/-- Repeats the rounds as long as a round finds another symbol. -/
def nullableFrom (rules : RuleTable) (nullable : Array Bool) : Array Bool :=
  let next := rules.nullableRound nullable
  if next.count false < nullable.count false then rules.nullableFrom next
  else nullable
termination_by nullable.count false

/-- The symbols that can match without a token. -/
def nullable (rules : RuleTable) : Array Bool :=
  rules.nullableFrom (Array.replicate rules.size false)

/-- The symbols that each symbol may call before it consumes a token. -/
def calls (rules : RuleTable) : Array (List Symbol) :=
  let nullable := rules.nullable
  rules.map fun rule? =>
    match rule? with
    | some rule =>
        rule.leadingCalls (fun symbol => nullable.getD symbol.id false)
          rules.hasRule
    | none => []

end RuleTable

namespace LeftRecursion

/-- How far the search has got with a symbol. -/
inductive Mark where
  | unseen
  | pending
  /-- Left, as the symbol of this rank. -/
  | finished (rank : Nat)
deriving DecidableEq

/-- The marks of all symbols and the next rank to give. -/
structure Survey where
  marks : Array Mark
  next : Nat

/-- A symbol being followed and the calls of it still to follow. -/
structure Frame where
  symbol : Symbol
  calls : List Symbol

namespace Survey

def initial (count : Nat) : Survey := ⟨Array.replicate count .unseen, 0⟩

/-- The mark of a symbol; a number outside the table needs no search. -/
def mark (survey : Survey) (symbol : Symbol) : Mark :=
  survey.marks.getD symbol.id (.finished 0)

def enter (survey : Survey) (symbol : Symbol) : Survey :=
  { survey with marks := survey.marks.setIfInBounds symbol.id .pending }

/-- Leaves a symbol and ranks it after all symbols left before. -/
def leave (survey : Survey) (symbol : Symbol) : Survey :=
  ⟨survey.marks.setIfInBounds symbol.id (.finished survey.next),
    survey.next + 1⟩

def unseen (survey : Survey) : Nat := survey.marks.count .unseen

theorem unseen_enter_lt {survey : Survey} {symbol : Symbol}
    (new : survey.mark symbol = .unseen) :
    (survey.enter symbol).unseen < survey.unseen := by
  have inside : symbol.id < survey.marks.size := by
    apply Classical.byContradiction
    intro outside
    simp [mark, Array.getD, outside] at new
  have found : survey.marks[symbol.id] = .unseen := by
    simpa [mark, Array.getD, inside] using new
  have positive : 0 < survey.marks.count .unseen :=
    Array.count_pos_iff.mpr (found ▸ Array.getElem_mem inside)
  have counted :
      (survey.enter symbol).unseen = survey.marks.count .unseen - 1 := by
    simp [unseen, enter, Array.setIfInBounds, inside, Array.count_set, found]
  rw [counted]
  exact Nat.sub_lt positive Nat.one_pos

theorem unseen_leave_le (survey : Survey) (symbol : Symbol) :
    (survey.leave symbol).unseen ≤ survey.unseen := by
  by_cases inside : symbol.id < survey.marks.size
  · simp [unseen, leave, Array.setIfInBounds, inside, Array.count_set]
  · simp [unseen, leave, Array.setIfInBounds, inside]

end Survey

/-- Work left in the frames: every call to follow and every symbol to leave. -/
def pendingWork : List Frame → Nat
  | [] => 0
  | frame :: frames => frame.calls.length + 1 + pendingWork frames

/-- Follows the calls of the innermost symbol until all symbols are left.  A
call of a symbol that is being followed closes a cycle, which is reported by
that symbol. -/
def follow (calls : Array (List Symbol)) :
    List Frame → Survey → Except Symbol Survey
  | [], survey => .ok survey
  | ⟨symbol, []⟩ :: frames, survey => follow calls frames (survey.leave symbol)
  | ⟨symbol, target :: rest⟩ :: frames, survey =>
      match _ : survey.mark target with
      | .unseen =>
          follow calls
            (⟨target, calls.getD target.id []⟩ :: ⟨symbol, rest⟩ :: frames)
            (survey.enter target)
      | .pending => .error target
      | .finished _ => follow calls (⟨symbol, rest⟩ :: frames) survey
termination_by frames survey => (survey.unseen, pendingWork frames)
decreasing_by
  · have bound := survey.unseen_leave_le symbol
    rcases Nat.lt_or_eq_of_le bound with less | same
    · exact Prod.Lex.left _ _ less
    · rw [same]
      exact Prod.Lex.right _ (by simp [pendingWork])
  · exact Prod.Lex.left _ _ (Survey.unseen_enter_lt ‹_›)
  · exact Prod.Lex.right _ (by simp [pendingWork])

def start (calls : Array (List Symbol)) (survey : Survey) (index : Nat) :
    Except Symbol Survey :=
  match survey.mark ⟨index⟩ with
  | .unseen =>
      follow calls [⟨⟨index⟩, calls.getD index []⟩] (survey.enter ⟨index⟩)
  | _ => .ok survey

def Mark.rank : Mark → Nat
  | .finished rank => rank
  | _ => 0

/-- Ranks every symbol above those its rule may call before it consumes a token,
or reports a symbol that lies on a cycle of such calls. -/
def ranks (rules : RuleTable) : Except Symbol (Array Nat) := do
  let survey ← (List.range rules.size).foldlM (start rules.calls)
    (Survey.initial rules.size)
  return survey.marks.map Mark.rank

end LeftRecursion

end Reparse
