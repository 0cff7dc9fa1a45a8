import Mathlib.Data.List.Forall2
import Reparse.Grammar.Coloring
import Reparse.Proofs.Grammar.Cycles

/-!
# Sweeps and colors come to an end

Flags raised in place are justified at every point and miss no symbol once a
sweep changes nothing, so that the sweeps settle on the same symbols as rounds
do; each sweep before the last one leaves fewer flags down.  The search by
colors makes the steps of the search by marks, which comes to an end.
-/

namespace Reparse

namespace RuleTable

variable {rules : RuleTable} {flags : Array Bool}

/-- The flag of the symbol is raised if its rule can be empty, given the
flags. -/
def Covers (rules : RuleTable) (flags : Array Bool) (index : Nat) : Prop :=
  ∀ rule, rules.rule? ⟨index⟩ = some rule →
    rule.isNullable (fun called => flags.getD called.id false) = true →
      flags.getD index false = true

/-- A sweep passes over a symbol or raises its flag. -/
theorem sweepAt_cases (rules : RuleTable) (sweep : Sweep) (index : Nat) :
    (rules.sweepAt sweep index = sweep ∧ rules.Covers sweep.flags index) ∨
      ∃ rule, rules.rule? ⟨index⟩ = some rule ∧
        rule.isNullable (fun called => sweep.flags.getD called.id false) =
            true ∧
          sweep.flags.getD index false = false ∧
            rules.sweepAt sweep index =
              ⟨sweep.flags.setIfInBounds index true, true⟩ := by
  unfold sweepAt
  split
  · next rule known =>
      split
      · next raises =>
          obtain ⟨down, holds⟩ := Bool.and_eq_true_iff.mp raises
          exact .inr ⟨rule, known, holds, (Bool.not_eq_true' _).mp down, rfl⟩
      · next passes =>
          refine .inl ⟨rfl, fun other same holds => ?_⟩
          cases known.symm.trans same
          cases flag : sweep.flags.getD index false with
          | true => rfl
          | false => exact absurd (by rw [flag, holds]; rfl) passes
  · next none => exact .inl ⟨rfl, fun _ same => nomatch none.symm.trans same⟩

/-- Raising the flag of a symbol that can match without a token keeps flags
justified. -/
theorem Justified.raise {index : Nat} (justified : rules.Justified flags)
    (nullable : rules.Nullable (.symbol ⟨index⟩)) :
    rules.Justified (flags.setIfInBounds index true) := by
  intro symbol raised
  by_cases same : symbol.id = index
  · cases same
    exact nullable
  · apply justified
    rw [Array.getD_eq_getD_getElem?,
      Array.getElem?_setIfInBounds_ne (Ne.symm same)] at raised
    rw [Array.getD_eq_getD_getElem?]
    exact raised

/-- Raising a flag that is down leaves fewer of them down. -/
theorem count_raise_lt {index : Nat} (inside : index < flags.size)
    (down : flags.getD index false = false) :
    (flags.setIfInBounds index true).count false < flags.count false := by
  have entry : flags[index] = false := by
    simpa [Array.getD, inside] using down
  have positive : 0 < flags.count false :=
    Array.count_pos_iff.mpr (entry ▸ Array.getElem_mem inside)
  have counted : (flags.setIfInBounds index true).count false =
      flags.count false - 1 := by
    simp [Array.setIfInBounds, inside, Array.count_set, entry]
  omega

/-- What holds all along a sweep over a table: there is a flag for every symbol,
each raised flag is justified, and fewer are down once one was raised. -/
structure Sweep.Fair (rules : RuleTable) (flags : Array Bool) (sweep : Sweep) :
    Prop where
  size : sweep.flags.size = rules.size
  justified : rules.Justified sweep.flags
  fewer : sweep.flags.count false ≤ flags.count false
  changed : sweep.changed = true →
    sweep.flags.count false < flags.count false

theorem Sweep.Fair.sweepAt {sweep : Sweep} (fair : sweep.Fair rules flags)
    (index : Nat) : (rules.sweepAt sweep index).Fair rules flags := by
  rcases rules.sweepAt_cases sweep index with
    ⟨same, _⟩ | ⟨rule, known, holds, down, same⟩
  · rw [same]
    exact fair
  · have nullable : rules.Nullable (.symbol ⟨index⟩) :=
      .symbol known (nullable_of_isNullable fair.justified rule holds)
    have inside : index < sweep.flags.size := by
      rw [fair.size]
      exact lt_size_of_rule? known
    have less := Nat.lt_of_lt_of_le (count_raise_lt inside down) fair.fewer
    rw [same]
    constructor
    · exact Array.size_setIfInBounds.trans fair.size
    · exact fair.justified.raise nullable
    · exact Nat.le_of_lt less
    · exact fun _ => less

theorem fair_sweep (size : flags.size = rules.size)
    (justified : rules.Justified flags) :
    (rules.sweep flags).Fair rules flags := by
  unfold sweep
  apply List.foldlRecOn
  · exact ⟨size, justified, Nat.le_refl _, fun changed => nomatch changed⟩
  · intro sweep fair index _
    exact fair.sweepAt index

/-- A sweep that changes nothing missed no symbol. -/
theorem covers_of_unchanged {indices : List Nat} {sweep : Sweep}
    (unchanged : (indices.foldl rules.sweepAt sweep).changed = false) :
    indices.foldl rules.sweepAt sweep = sweep ∧
      ∀ index ∈ indices, rules.Covers sweep.flags index := by
  induction indices generalizing sweep with
  | nil => exact ⟨rfl, List.forall_mem_nil _⟩
  | cons index indices induction =>
      obtain ⟨same, covered⟩ := induction unchanged
      rcases rules.sweepAt_cases sweep index with
        ⟨passed, covers⟩ | ⟨_, _, _, _, raised⟩
      · rw [passed] at same covered
        rw [List.foldl_cons, passed]
        exact ⟨same, List.forall_mem_cons.mpr ⟨covers, covered⟩⟩
      · rw [List.foldl_cons, same, raised] at unchanged
        cases unchanged

theorem closedUnder_of_unchanged
    (unchanged : (rules.sweep flags).changed = false) :
    (rules.sweep flags).flags = flags ∧ rules.ClosedUnder flags := by
  obtain ⟨same, covered⟩ := covers_of_unchanged unchanged
  refine ⟨congrArg Sweep.flags same, fun symbol rule known => ?_⟩
  exact covered symbol.id (List.mem_range.mpr (lt_size_of_rule? known)) rule
    known

theorem size_nullable : rules.nullable.size = rules.size := by
  suffices kept : ∀ flags, (rules.nullableFrom flags).size = flags.size by
    rw [nullable, kept, Array.size_replicate]
  intro flags
  fun_induction rules.nullableFrom flags with
  | case1 flags next _ induction =>
      rw [induction]
      exact Array.size_mapIdx
  | case2 => rfl

/-- There is only one way to flag all symbols that can match without a token and
no others. -/
theorem eq_nullable (size : flags.size = rules.size)
    (justified : rules.Justified flags) (closed : rules.ClosedUnder flags) :
    flags = rules.nullable := by
  have among : ∀ {one other : Array Bool}, rules.Justified one →
      rules.ClosedUnder other → ∀ index : Nat,
        one.getD index false = true → other.getD index false = true :=
    fun justified closed index raised =>
      isNullable_of_closedUnder closed (justified ⟨index⟩ raised)
  apply Array.ext (size.trans size_nullable.symm)
  intro index inside insideOther
  have forth := among justified closedUnder_nullable index
  have back := among justified_nullable closed index
  simp only [Array.getD, inside, insideOther, dif_pos] at forth back
  exact Bool.eq_iff_iff.mpr ⟨forth, back⟩

/-- Sweeps settle on the symbols that can match without a token. -/
theorem settle_eq (size : flags.size = rules.size)
    (justified : rules.Justified flags) :
    rules.settle flags = some rules.nullable := by
  induction down : flags.count false using Nat.strongRecOn
    generalizing flags with
  | ind count induction =>
      have fair := fair_sweep size justified
      rw [settle]
      cases changed : (rules.sweep flags).changed with
      | true =>
          rw [if_pos rfl]
          exact induction _ (down ▸ fair.changed changed) fair.size
            fair.justified rfl
      | false =>
          obtain ⟨same, closed⟩ := closedUnder_of_unchanged changed
          rw [if_neg Bool.false_ne_true, same]
          exact congrArg some (eq_nullable size justified closed)

end RuleTable

namespace LeftRecursion

/-- The color that stands for a mark. -/
def Mark.color : Mark → Color
  | .unseen => .unvisited
  | .pending => .onStack
  | .finished _ => .done

/-- The colors that stand for the marks of a survey. -/
def Survey.colors (survey : Survey) : Array Color := survey.marks.map Mark.color

theorem color_colors (survey : Survey) (symbol : Symbol) :
    color survey.colors symbol = (survey.mark symbol).color := by
  rw [color, Survey.colors, Survey.mark, Array.getD_eq_getD_getElem?,
    Array.getD_eq_getD_getElem?, Array.getElem?_map]
  cases survey.marks[symbol.id]? <;> rfl

theorem colors_enter (survey : Survey) (symbol : Symbol) :
    (survey.enter symbol).colors =
      survey.colors.setIfInBounds symbol.id .onStack :=
  Array.map_setIfInBounds

theorem colors_leave (survey : Survey) (symbol : Symbol) :
    (survey.leave symbol).colors =
      survey.colors.setIfInBounds symbol.id .done :=
  Array.map_setIfInBounds

/-- A symbol on the stack and one being followed are the same symbol, and the
calls from the index on are those still to follow. -/
structure Visit.Follows (edges : Edges) (visit : Visit)
    (frame : Frame) : Prop where
  symbol : visit.symbol = frame.symbol
  calls : (edges.getD visit.symbol.id []).drop visit.edge = frame.calls

theorem next_of_drop {calls rest : List Symbol} {target : Symbol} {edge : Nat}
    (dropped : calls.drop edge = target :: rest) :
    calls[edge]? = some target ∧ calls.drop (edge + 1) = rest := by
  constructor
  · rw [← List.head?_drop, dropped]
    rfl
  · rw [← List.tail_drop, dropped]
    rfl

theorem exists_visit_of_frame {edges : Edges}
    {stack : List Visit} {symbol : Symbol} {calls : List Symbol}
    {frames : List Frame}
    (follows : List.Forall₂ (Visit.Follows edges) stack
      (⟨symbol, calls⟩ :: frames)) :
    ∃ edge below, stack = ⟨symbol, edge⟩ :: below ∧
      (edges.getD symbol.id []).drop edge = calls ∧
        List.Forall₂ (Visit.Follows edges) below frames := by
  obtain ⟨⟨other, edge⟩, below, ⟨same, dropped⟩, rest, rfl⟩ :=
    List.forall₂_cons_right_iff.mp follows
  cases same
  exact ⟨edge, below, rfl, dropped, rest⟩

/-- The search by colors ends as the search by marks does. -/
theorem search_eq {edges : Edges} {stack : List Visit}
    {frames : List Frame} {survey : Survey}
    (follows : List.Forall₂ (Visit.Follows edges) stack frames) :
    (edges.search stack survey.colors).run =
      some ((follow edges frames survey).map Survey.colors) := by
  fun_induction follow edges frames survey generalizing stack with
  | case1 survey =>
      cases follows
      rw [Edges.search]
      rfl
  | case2 symbol frames survey induction =>
      obtain ⟨edge, below, rfl, dropped, rest⟩ := exists_visit_of_frame follows
      have none : (edges.getD symbol.id [])[edge]? = none :=
        List.getElem?_eq_none (List.drop_eq_nil_iff.mp dropped)
      rw [Edges.search]
      simp only [none]
      rw [← colors_leave]
      exact induction rest
  | case3 symbol target others frames survey new induction =>
      obtain ⟨edge, below, rfl, dropped, rest⟩ := exists_visit_of_frame follows
      obtain ⟨found, later⟩ := next_of_drop dropped
      rw [Edges.search]
      simp only [found, color_colors, new, Mark.color]
      rw [← colors_enter]
      exact induction (.cons ⟨rfl, rfl⟩ (.cons ⟨rfl, later⟩ rest))
  | case4 symbol target others frames survey pending =>
      obtain ⟨edge, below, rfl, dropped, rest⟩ := exists_visit_of_frame follows
      obtain ⟨found, _⟩ := next_of_drop dropped
      rw [Edges.search]
      simp only [found, color_colors, pending, Mark.color]
      rfl
  | case5 symbol target others frames survey rank finished induction =>
      obtain ⟨edge, below, rfl, dropped, rest⟩ := exists_visit_of_frame follows
      obtain ⟨found, later⟩ := next_of_drop dropped
      rw [Edges.search]
      simp only [found, color_colors, finished, Mark.color]
      exact induction (.cons ⟨rfl, later⟩ rest)

theorem searchFrom_eq (edges : Edges) (survey : Survey)
    (index : Nat) :
    (edges.searchFrom survey.colors index).run =
      some ((start edges survey index).map Survey.colors) := by
  rw [Edges.searchFrom, start, color_colors]
  cases mark : survey.mark ⟨index⟩ with
  | unseen =>
      simp only [Mark.color, if_true]
      rw [← colors_enter survey ⟨index⟩]
      exact search_eq (.cons ⟨rfl, rfl⟩ .nil)
  | pending => rfl
  | finished rank => rfl

theorem foldlM_searchFrom_eq (edges : Edges) (survey : Survey)
    (indices : List Nat) :
    (indices.foldlM edges.searchFrom survey.colors).run =
      some ((indices.foldlM (start edges) survey).map Survey.colors) := by
  induction indices generalizing survey with
  | nil => rfl
  | cons index indices induction =>
      rw [List.foldlM_cons, List.foldlM_cons, ExceptT.run_bind, searchFrom_eq]
      cases start edges survey index with
      | error reported => rfl
      | ok next => exact induction next

/-- The loops of the check come to an end, with the answer of the ranking. -/
theorem check_eq (rules : RuleTable) :
    (check rules).run = some ((ranks rules).map fun _ => ()) := by
  have settled : rules.settle (Array.replicate rules.size false) =
      some rules.nullable :=
    RuleTable.settle_eq Array.size_replicate RuleTable.justified_replicate
  have unvisited : Array.replicate rules.size Color.unvisited =
      (Survey.initial rules.size).colors := by
    rw [Survey.colors, Survey.initial, Array.map_replicate]
    rfl
  have searched := foldlM_searchFrom_eq rules.calls
    (Survey.initial rules.size) (List.range rules.size)
  rw [← unvisited] at searched
  rw [check, settled, ranks]
  change ExceptT.run
    ((List.range rules.size).foldlM (Edges.searchFrom rules.calls)
      (Array.replicate rules.size Color.unvisited) >>= fun _ => pure ()) = _
  rw [ExceptT.run_bind, searched]
  cases (List.range rules.size).foldlM (start rules.calls)
    (Survey.initial rules.size) <;> rfl

end LeftRecursion

end Reparse
