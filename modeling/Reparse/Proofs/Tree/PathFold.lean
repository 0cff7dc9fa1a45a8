import Reparse.Proofs.Tree.CursorPaths
import Reparse.Tree.FoldRun

/-!
# A path fold is a cached fold

The values that a fold keeps are those of the nodes on its path, as far as they
were computed since the nodes were entered, and with a node's value those of all
nodes above it are kept.  Every move keeps that, and so does asking for a value.
So the value of the current node is the fold along the path, and what is
computed for it are exactly the missing values, from the root downwards.
-/

namespace Reparse

/-! ## The way from the root -/

namespace Cursor

/-- The cursors above a cursor, from the one at the parent to the one at the
root: each of them is entered to get to the one before. -/
inductive Way (root : Cursor) : Cursor → List Cursor → Prop where
  | root : Way root root []
  | enter {cursor : Cursor} {above : List Cursor} {index : Nat}
      {child : Placed Node} :
      Way root cursor above → cursor.node.child? index = some child →
      Way root (cursor.enter index child) (cursor :: above)

theorem Way.eq_root {root cursor : Cursor} (way : Way root cursor []) :
    cursor = root := by
  cases way
  rfl

theorem path_enter (cursor : Cursor) (index : Nat) (child : Placed Node) :
    (cursor.enter index child).path = cursor.path ++ [index] := by
  simp [path, enter, TrailStep.into]

/-- One step above a child is the node that it was entered from. -/
theorem ancestor_enter_succ {cursor : Cursor} {index distance : Nat}
    {child : Placed Node} (within : distance ≤ cursor.trail.length) :
    (cursor.enter index child).ancestor (distance + 1) =
      cursor.ancestor distance := by
  cases distance with
  | zero => rfl
  | succ distance =>
      obtain ⟨step, above, trail⟩ :=
        List.exists_cons_of_length_pos (l := cursor.trail.drop distance) (by
          rw [List.length_drop]
          omega)
      simp only [ancestor, enter, List.drop_succ_cons, trail]

section

variable {root cursor : Cursor} {above : List Cursor}
  (way : Way root cursor above)

include way

theorem Way.exhausted : cursor.exhausted = root.exhausted := by
  induction way with
  | root => rfl
  | enter _ _ induction => exact induction

/-- Further up the paths are shorter. -/
theorem Way.path_lt :
    ∀ here ∈ above, here.path.length < cursor.path.length := by
  induction way with
  | root => exact List.forall_mem_nil _
  | @enter parent rest index child _ _ induction =>
      intro here member
      rw [path_enter, List.length_append, List.length_singleton]
      cases member with
      | head => exact Nat.lt_succ_self _
      | tail _ further => exact Nat.lt_succ_of_lt (induction here further)

variable (top : root.trail = [])

include top

theorem Way.length : above.length = cursor.trail.length := by
  induction way with
  | root => exact (congrArg List.length top).symm
  | enter _ _ induction => exact congrArg Nat.succ induction

/-- The way goes on behind the first step of the trail. -/
theorem Way.behind {step : TrailStep} {steps : List TrailStep}
    (trail : cursor.trail = step :: steps) :
    ∃ rest, above = cursor.behind step steps :: rest ∧
      Way root (cursor.behind step steps) rest := by
  cases way with
  | root =>
      rw [top] at trail
      cases trail
  | @enter parent rest index child way _ =>
      cases trail
      exact ⟨rest, rfl, way⟩

/-- Along the path of a cursor the way is walked from the root. -/
theorem Way.along_append (further : List Nat) :
    root.along (cursor.path ++ further) =
      above.reverse ++ cursor.along further := by
  induction way generalizing further with
  | root =>
      have start : root.path = [] := by simp [path, top]
      rw [start, List.nil_append, List.reverse_nil, List.nil_append]
  | @enter parent rest index child _ here induction =>
      rw [path_enter, List.append_assoc, induction, List.singleton_append,
        along, here, List.reverse_cons, List.append_assoc]
      rfl

theorem Way.along_path :
    root.along cursor.path = (cursor :: above).reverse := by
  have walked := way.along_append top []
  rw [List.append_nil] at walked
  rw [walked, List.reverse_cons]
  rfl

/-- The ancestors of a cursor are met on its way. -/
theorem Way.ancestor_eq {distance : Nat} {here : Cursor}
    (met : (cursor :: above)[distance]? = some here) :
    cursor.ancestor distance = here := by
  induction way generalizing distance with
  | root =>
      cases distance with
      | zero => exact Option.some.inj met
      | succ distance => cases met
  | @enter parent rest index child way _ induction =>
      cases distance with
      | zero => exact Option.some.inj met
      | succ distance =>
          have within := (List.getElem?_eq_some_iff.mp met).1
          rw [List.length_cons, List.length_cons, way.length top] at within
          rw [ancestor_enter_succ (by omega)]
          exact induction met

end

end Cursor

/-! ## Moves of the cursor -/

namespace Cursor

variable {cursor moved : Cursor}

theorem down_eq_some (found : cursor.down = some moved) :
    cursor.exhausted = false ∧ ∃ child, cursor.node.child? 0 = some child ∧
      moved = cursor.enter 0 child := by
  rw [down] at found
  split at found
  · cases found
  · next active =>
      obtain ⟨child, here, same⟩ := Option.map_eq_some_iff.mp found
      exact ⟨Bool.eq_false_iff.mpr active, child, here, same.symm⟩

theorem up_eq_some (found : cursor.up = some moved) :
    cursor.exhausted = false ∧ ∃ step steps, cursor.trail = step :: steps ∧
      moved = cursor.behind step steps := by
  rw [up] at found
  split at found
  · cases found
  · next active =>
      split at found
      · cases found
      · next step steps trail =>
          cases found
          exact ⟨Bool.eq_false_iff.mpr active, step, steps, trail, rfl⟩

theorem sibling_eq_some {move : Nat → Option Nat}
    (found : cursor.sibling move = some moved) :
    cursor.exhausted = false ∧ ∃ step steps index child,
      cursor.trail = step :: steps ∧ step.parent.child? index = some child ∧
        moved = (cursor.behind step steps).enter index child := by
  by_cases spent : cursor.exhausted = true
  · rw [sibling, if_pos spent] at found
    cases found
  · have active := Bool.eq_false_iff.mpr spent
    cases trail : cursor.trail with
    | nil =>
        rw [sibling_of_top trail] at found
        cases found
    | cons step steps =>
        rw [sibling_of_trail active trail] at found
        obtain ⟨index, _, moves⟩ := Option.bind_eq_some_iff.mp found
        obtain ⟨child, here, same⟩ := Option.map_eq_some_iff.mp moves
        exact ⟨active, step, steps, index, child, rfl, here, same.symm⟩

theorem exhaust_of_top (top : cursor.trail = []) :
    cursor.exhaust = { cursor with exhausted := true } := by
  rw [exhaust, top]
  rfl

/-- The last step of a trail says where the root is. -/
theorem exhaust_of_trail {step : TrailStep} {steps : List TrailStep}
    (trail : cursor.trail = step :: steps) :
    cursor.exhaust = (cursor.behind step steps).exhaust := by
  rw [exhaust, exhaust, trail, behind]
  cases steps with
  | nil => rfl
  | cons next rest => rw [List.getLast?_cons_cons, List.getLast?_cons]

end Cursor

/-! ## Kept values -/

namespace PathFold

section

variable {α : Type} {seed : α} {step : α → Cursor → α}
  {waiting : List Nat → Bool} {cursors : List Cursor}
  {values : List (Option α)}

/-- The value of the first of some cursors, each at a child of the next one. -/
def worth (seed : α) (step : α → Cursor → α) (cursors : List Cursor) : α :=
  cursors.foldr (fun here value => step value here) seed

/-- Beside each cursor the value of its node is kept, or none if the node is
pending; above a node that is not pending none is. -/
inductive Kept (seed : α) (step : α → Cursor → α)
    (waiting : List Nat → Bool) : List Cursor → List (Option α) → Prop where
  | nil : Kept seed step waiting [] []
  | pending {here : Cursor} {above : List Cursor} {values : List (Option α)} :
      waiting here.path = true → Kept seed step waiting above values →
      Kept seed step waiting (here :: above) (none :: values)
  | known {here : Cursor} {above : List Cursor} {values : List (Option α)} :
      (∀ cursor ∈ here :: above, waiting cursor.path = false) →
      Kept seed step waiting above values →
      Kept seed step waiting (here :: above)
        (some (worth seed step (here :: above)) :: values)

theorem Kept.congr {waitingToo : List Nat → Bool}
    (kept : Kept seed step waiting cursors values)
    (same : ∀ here ∈ cursors, waitingToo here.path = waiting here.path) :
    Kept seed step waitingToo cursors values := by
  induction kept with
  | nil => exact .nil
  | pending isPending _ induction =>
      obtain ⟨here, above⟩ := List.forall_mem_cons.mp same
      exact .pending (here.trans isPending) (induction above)
  | known settled _ induction =>
      refine .known ?_ (induction (List.forall_mem_cons.mp same).2)
      intro cursor member
      exact (same cursor member).trans (settled cursor member)

theorem Kept.tail {here : Cursor}
    (kept : Kept seed step waiting (here :: cursors) values) :
    Kept seed step waiting cursors values.tail := by
  cases kept with
  | pending _ above => exact above
  | known _ above => exact above

/-- Asking for a value computes what is pending, and then all values are
kept. -/
theorem Kept.valueAbove_eq {cursor : Cursor} {distance : Nat}
    (kept : Kept seed step waiting cursors values)
    (met : ∀ (further : Nat) (here : Cursor), cursors[further]? = some here →
      cursor.ancestor (distance + further) = here) :
    ∃ known,
      valueAbove cursor seed step values distance =
          (worth seed step cursors, known,
            cursors.filter fun here => waiting here.path) ∧
        Kept seed step (fun _ => false) cursors known := by
  induction kept generalizing distance with
  | nil => exact ⟨[], rfl, .nil⟩
  | @pending here above values isPending _ induction =>
      obtain ⟨known, asked, keptAbove⟩ := @induction (distance + 1)
        fun further cursor found => by
          rw [Nat.add_assoc, Nat.add_comm 1]
          exact met (further + 1) cursor found
      have first : cursor.ancestor distance = here := met 0 here rfl
      have asWell : (here :: above).filter (fun here => waiting here.path) =
          here :: above.filter fun here => waiting here.path :=
        List.filter_cons_of_pos isPending
      refine ⟨_, ?_, .known (fun _ _ => rfl) keptAbove⟩
      rw [valueAbove, asked, first, asWell]
      rfl
  | @known here above values settled kept induction =>
      refine ⟨_, ?_, .known (fun _ _ => rfl)
        (kept.congr fun cursor member =>
          (settled cursor (List.mem_cons_of_mem _ member)).symm)⟩
      have none : (here :: above).filter (fun here => waiting here.path) =
          [] := by
        apply List.filter_eq_nil_iff.mpr
        intro cursor member
        rw [settled cursor member]
        exact Bool.false_ne_true
      rw [valueAbove, none]

end

/-! ## Moves of the fold -/

section

variable {α : Type} {fold : PathFold α}

/-- Where no move is left, the cursor is at its root. -/
def SpentAtTop (cursor : Cursor) : Prop :=
  cursor.exhausted = true → cursor.trail = []

theorem trail_of_up {cursor : Cursor} (spent : SpentAtTop cursor)
    (none : cursor.up = none) : cursor.trail = [] := by
  by_cases active : cursor.exhausted = true
  · exact spent active
  · cases trail : cursor.trail with
    | nil => rfl
    | cons step steps =>
        rw [Cursor.up_of_trail (Bool.eq_false_iff.mpr active) trail] at none
        cases none

theorem rightOrAbove_follows (spent : SpentAtTop fold.cursor) :
    fold.rightOrAbove.1 = fold.cursor.rightOrAbove.isSome ∧
      fold.rightOrAbove.2.cursor =
          fold.cursor.rightOrAbove.getD fold.cursor.exhaust ∧
        fold.rightOrAbove.2.evaluated = fold.evaluated := by
  fun_induction PathFold.rightOrAbove fold with
  | case1 fold moved right =>
      rw [PathFold.right, Option.map_eq_some_iff] at right
      obtain ⟨cursor, found, rfl⟩ := right
      rw [Cursor.rightOrAbove_eq, found]
      exact ⟨rfl, rfl, rfl⟩
  | case2 fold none parent up induction =>
      rw [PathFold.right, Option.map_eq_none_iff] at none
      rw [PathFold.up, Option.map_eq_some_iff] at up
      obtain ⟨cursor, found, rfl⟩ := up
      obtain ⟨active, step, steps, trail, same⟩ := Cursor.up_eq_some found
      have unspent : SpentAtTop cursor := by
        intro spent
        rw [same, Cursor.behind, active] at spent
        cases spent
      rw [Cursor.rightOrAbove_eq, none, found, Option.none_or,
        Option.bind_some, Cursor.exhaust_of_trail trail, ← same]
      exact induction unspent
  | case3 fold none top =>
      rw [PathFold.right, Option.map_eq_none_iff] at none
      rw [PathFold.up, Option.map_eq_none_iff] at top
      have atRoot := trail_of_up spent top
      rw [Cursor.rightOrAbove_eq, none, top, Cursor.exhaust_of_top atRoot]
      exact ⟨rfl, rfl, rfl⟩

/-- A fold moves where its cursor moves, and computes nothing for it. -/
theorem go_follows (spent : SpentAtTop fold.cursor) (move : PathMove) :
    (fold.go move).1 = (fold.cursor.go move).1 ∧
      (fold.go move).2.cursor = (fold.cursor.go move).2 ∧
        (fold.go move).2.evaluated = fold.evaluated := by
  have stays {change : Cursor → PathFold α} (moved : Option Cursor)
      (leads : ∀ cursor, (change cursor).cursor = cursor ∧
        (change cursor).evaluated = fold.evaluated) :
      (fold.orRemain (moved.map change)).1 = (fold.cursor.orRemain moved).1 ∧
        (fold.orRemain (moved.map change)).2.cursor =
            (fold.cursor.orRemain moved).2 ∧
          (fold.orRemain (moved.map change)).2.evaluated =
            fold.evaluated := by
    cases moved with
    | none => exact ⟨rfl, rfl, rfl⟩
    | some cursor => exact ⟨rfl, leads cursor⟩
  cases move with
  | down => exact stays _ fun _ => ⟨rfl, rfl⟩
  | right => exact stays _ fun _ => ⟨rfl, rfl⟩
  | left => exact stays _ fun _ => ⟨rfl, rfl⟩
  | up => exact stays _ fun _ => ⟨rfl, rfl⟩
  | next =>
      simp only [PathFold.go, Cursor.go, PathFold.next, Cursor.next,
        Cursor.forward, PathFold.down]
      cases fold.cursor.down with
      | some cursor => exact ⟨rfl, rfl, rfl⟩
      | none =>
          obtain ⟨success, leads, evaluated⟩ := rightOrAbove_follows spent
          simp only [Option.map_none, success, leads]
          refine ⟨?_, ?_, evaluated⟩
          · cases fold.cursor.rightOrAbove <;> rfl
          · cases fold.cursor.rightOrAbove <;> rfl

end

/-! ## What is kept on the way -/

/-- Pending are the node at the path, which is entered, and what was pending
before. -/
def entering (path : List Nat) (waiting : List Nat → Bool) : List Nat → Bool :=
  fun other => other == path || waiting other

section

variable {α : Type} {origin : Cursor} {seed : α} {reducer : α → View → α}
  {waiting : List Nat → Bool} {fold moved : PathFold α} {above : List Cursor}

/-- The cursor of the fold stands below some others on its way from the root,
and the values of the nodes there are kept. -/
structure AlignedOn (origin : Cursor) (seed : α) (reducer : α → View → α)
    (waiting : List Nat → Bool) (fold : PathFold α) (above : List Cursor) :
    Prop where
  seeded : fold.seed = seed
  stepped : fold.step = fun value here => reducer value here.view
  way : Cursor.Way { origin with exhausted := fold.cursor.exhausted }
    fold.cursor above
  spent : fold.cursor.exhausted = true → above = []
  kept : Kept seed (fun value here => reducer value here.view) waiting
    (fold.cursor :: above) fold.values

theorem AlignedOn.spentAtTop (top : origin.trail = [])
    (aligned : fold.AlignedOn origin seed reducer waiting above) :
    SpentAtTop fold.cursor := by
  intro spent
  have length := aligned.way.length top
  rw [aligned.spent spent] at length
  exact List.length_eq_zero_iff.mp length.symm

/-- A node that is entered is pending, and nothing else changes. -/
theorem alignedOn_enter {parent : Cursor} {index : Nat} {child : Placed Node}
    {values : List (Option α)} (seeded : fold.seed = seed)
    (stepped : fold.step = fun value here => reducer value here.view)
    (way : Cursor.Way { origin with exhausted := false } parent above)
    (kept : Kept seed (fun value here => reducer value here.view) waiting
      (parent :: above) values)
    (here : parent.node.child? index = some child) :
    ({ fold with
        cursor := parent.enter index child
        values := none :: values } : PathFold α).AlignedOn origin seed reducer
      (entering (parent.enter index child).path waiting) (parent :: above) := by
  have active : (parent.enter index child).exhausted = false := way.exhausted
  have further := way.enter here
  refine ⟨seeded, stepped, ?_, ?_, .pending ?_ (kept.congr ?_)⟩
  · rw [active]
    exact further
  · intro spent
    rw [active] at spent
    cases spent
  · rw [entering, beq_self_eq_true, Bool.true_or]
  · intro other member
    have shorter := further.path_lt other member
    have differs : (other.path == (parent.enter index child).path) = false := by
      rw [beq_eq_false_iff_ne]
      intro same
      rw [same] at shorter
      exact Nat.lt_irrefl _ shorter
    rw [entering, differs, Bool.false_or]

variable (top : origin.trail = [])
  (aligned : fold.AlignedOn origin seed reducer waiting above)

include top aligned

omit top in
theorem AlignedOn.down (found : fold.down = some moved) :
    ∃ rest, moved.AlignedOn origin seed reducer
      (entering moved.cursor.path waiting) rest := by
  obtain ⟨cursor, steps, rfl⟩ := Option.map_eq_some_iff.mp found
  obtain ⟨active, child, here, rfl⟩ := Cursor.down_eq_some steps
  have way := aligned.way
  rw [active] at way
  exact ⟨_, alignedOn_enter aligned.seeded aligned.stepped way aligned.kept
    here⟩

/-- A sibling is entered from the parent. -/
theorem AlignedOn.replaceLast {cursor : Cursor} {move : Nat → Option Nat}
    (found : fold.cursor.sibling move = some cursor) :
    ∃ rest, (fold.replaceLast cursor).AlignedOn origin seed reducer
      (entering cursor.path waiting) rest := by
  obtain ⟨active, step, steps, index, child, trail, here, rfl⟩ :=
    Cursor.sibling_eq_some found
  have way := aligned.way
  rw [active] at way
  obtain ⟨rest, rfl, further⟩ := way.behind top trail
  exact ⟨_, alignedOn_enter aligned.seeded aligned.stepped further
    aligned.kept.tail here⟩

theorem AlignedOn.right (found : fold.right = some moved) :
    ∃ rest, moved.AlignedOn origin seed reducer
      (entering moved.cursor.path waiting) rest := by
  obtain ⟨cursor, steps, rfl⟩ := Option.map_eq_some_iff.mp found
  rw [Cursor.right_eq_sibling] at steps
  exact aligned.replaceLast top steps

theorem AlignedOn.left (found : fold.left = some moved) :
    ∃ rest, moved.AlignedOn origin seed reducer
      (entering moved.cursor.path waiting) rest := by
  obtain ⟨cursor, steps, rfl⟩ := Option.map_eq_some_iff.mp found
  exact aligned.replaceLast top steps

theorem AlignedOn.up (found : fold.up = some moved) :
    ∃ rest, moved.AlignedOn origin seed reducer waiting rest := by
  obtain ⟨cursor, steps, rfl⟩ := Option.map_eq_some_iff.mp found
  obtain ⟨active, step, steps, trail, rfl⟩ := Cursor.up_eq_some steps
  obtain ⟨rest, rfl, further⟩ := aligned.way.behind top trail
  refine ⟨rest, aligned.seeded, aligned.stepped, further, ?_, aligned.kept.tail⟩
  intro spent
  rw [Cursor.behind, active] at spent
  cases spent

/-- At the root a fold can be exhausted. -/
theorem AlignedOn.exhaust (atRoot : fold.cursor.trail = []) :
    ({ fold with
        cursor := { fold.cursor with exhausted := true } } :
      PathFold α).AlignedOn origin seed reducer waiting [] := by
  have length := aligned.way.length top
  rw [atRoot, List.length_nil, List.length_eq_zero_iff] at length
  subst length
  have same := congrArg
    (fun cursor : Cursor => { cursor with exhausted := true })
    aligned.way.eq_root
  refine ⟨aligned.seeded, aligned.stepped, ?_, fun _ => rfl, ?_⟩
  · simp only at same ⊢
    rw [same]
    exact .root
  -- A reducer cannot see whether the cursor is exhausted.
  · have kept := aligned.kept
    simp only
    generalize fold.values = values at kept ⊢
    cases kept with
    | pending isPending above => exact .pending isPending above
    | known settled above =>
        refine .known ?_ above
        intro cursor member
        cases List.mem_singleton.mp member
        exact settled fold.cursor List.mem_cons_self

/-- Stepping past the descendants goes up some nodes and then enters the next
one of a parent's children. -/
theorem AlignedOn.rightOrAbove :
    ∃ rest, fold.rightOrAbove.2.AlignedOn origin seed reducer
      (if fold.rightOrAbove.1 then
        entering fold.rightOrAbove.2.cursor.path waiting
      else waiting) rest := by
  fun_induction PathFold.rightOrAbove fold generalizing above with
  | case1 fold moved right => exact aligned.right top right
  | case2 fold none parent up induction =>
      obtain ⟨rest, alignedParent⟩ := aligned.up top up
      exact induction alignedParent
  | case3 fold none stuck =>
      have atRoot := trail_of_up (aligned.spentAtTop top)
        (Option.map_eq_none_iff.mp stuck)
      exact ⟨[], aligned.exhaust top atRoot⟩

/-- A move keeps the fold aligned; what it enters is pending. -/
theorem AlignedOn.go (move : PathMove) :
    ∃ rest, (fold.go move).2.AlignedOn origin seed reducer
      (if (fold.go move).1 && move.enters then
        entering (fold.go move).2.cursor.path waiting
      else waiting) rest := by
  have stays {moved : Option (PathFold α)} {success : Bool}
      (leads : ∀ other, moved = some other → ∃ rest,
        other.AlignedOn origin seed reducer
          (if success then entering other.cursor.path waiting else waiting)
          rest) :
      ∃ rest, (fold.orRemain moved).2.AlignedOn origin seed reducer
        (if (fold.orRemain moved).1 && success then
          entering (fold.orRemain moved).2.cursor.path waiting
        else waiting) rest := by
    cases moved with
    | none => exact ⟨above, aligned⟩
    | some other => exact leads other rfl
  cases move with
  | down => exact stays fun _ => aligned.down
  | right => exact stays fun _ => aligned.right top
  | left => exact stays fun _ => aligned.left top
  | up => exact stays fun _ => aligned.up top
  | next =>
      rw [PathFold.go, PathFold.next]
      split
      · next child down => exact aligned.down down
      · simp only [PathMove.enters, Bool.and_true]
        exact aligned.rightOrAbove top

/-- The value is the fold along the way, and what is computed for it is what is
pending there. -/
theorem AlignedOn.value {settled : List Nat → Bool}
    (settles : ∀ path, settled path =
      (waiting path && !(fold.computed.map Cursor.path).contains path)) :
    fold.value.1 =
        worth seed (fun value here => reducer value here.view)
          (fold.cursor :: above) ∧
      fold.computed =
          (fold.cursor :: above).filter (fun here => waiting here.path) ∧
        fold.value.2.AlignedOn origin seed reducer settled above := by
  have met (further : Nat) (here : Cursor)
      (found : (fold.cursor :: above)[further]? = some here) :
      fold.cursor.ancestor (0 + further) = here := by
    rw [Nat.zero_add]
    exact aligned.way.ancestor_eq top found
  obtain ⟨known, asked, kept⟩ := aligned.kept.valueAbove_eq met
  rw [← aligned.seeded, ← aligned.stepped] at asked
  have computed : fold.computed =
      (fold.cursor :: above).filter fun here => waiting here.path :=
    congrArg (fun found => found.2.2) asked
  have values : fold.value.2.values = known :=
    congrArg (fun found => found.2.1) asked
  refine ⟨?_, computed, aligned.seeded, aligned.stepped, aligned.way,
    aligned.spent, ?_⟩
  · rw [← aligned.seeded, ← aligned.stepped]
    exact congrArg Prod.fst asked
  · rw [values]
    apply kept.congr
    intro here member
    rw [settles, computed]
    by_cases isWaiting : waiting here.path = true
    · have listed : here.path ∈ ((fold.cursor :: above).filter
          fun here => waiting here.path).map Cursor.path :=
        List.mem_map_of_mem (List.mem_filter.mpr ⟨member, isWaiting⟩)
      rw [List.contains_iff_mem.mpr listed, isWaiting]
      rfl
    · rw [Bool.eq_false_iff.mpr isWaiting, Bool.false_and]

end

end PathFold

/-! ## Runs -/

namespace FoldEvent

theorem isPending_entered (events : List FoldEvent) (path : List Nat) :
    isPending (.entered path :: events) =
      PathFold.entering path (isPending events) := by
  funext other
  by_cases same : other = path
  · subst same
    simp [isPending, PathFold.entering]
  · have differs : (FoldEvent.entered path != .entered other) = true := by
      simp [Ne.symm same]
    simp [isPending, PathFold.entering, differs, same]

theorem isPending_evaluated (events : List FoldEvent)
    (paths : List (List Nat)) (path : List Nat) :
    isPending (paths.map .evaluated ++ events) path =
      (isPending events path && !paths.contains path) := by
  induction paths with
  | nil => simp
  | cons first paths induction =>
      have passes : isPending
          (.evaluated first :: (paths.map .evaluated ++ events)) path =
            (isPending (paths.map .evaluated ++ events) path &&
              !(path == first)) := by
        by_cases same : path = first
        · simp [isPending, same]
        · simp [isPending, same]
      rw [List.map_cons, List.cons_append, passes, induction,
        List.contains_cons, Bool.not_or, Bool.and_assoc,
        Bool.and_comm (!paths.contains path)]

end FoldEvent

namespace FoldRun

section

variable {α : Type} {cursor : Cursor} {seed : α} {reducer : α → View → α}
  {run : FoldRun α}

/-- The fold of a run and its plain cursor stand at one place, and the fold is
aligned with what was noted. -/
structure Tracked (cursor : Cursor) (seed : α) (reducer : α → View → α)
    (run : FoldRun α) : Prop where
  cursor_eq : run.fold.cursor = run.plain
  aligned : ∃ above, run.fold.AlignedOn cursor.subtree seed reducer
    (FoldEvent.isPending run.events) above

theorem tracked_start :
    (start cursor seed reducer).Tracked cursor seed reducer := by
  refine ⟨rfl, [], rfl, rfl, .root, fun _ => rfl, .pending rfl .nil⟩

theorem Tracked.move (tracked : run.Tracked cursor seed reducer)
    (move : PathMove) :
    (run.step (.move move)).Tracked cursor seed reducer := by
  obtain ⟨above, aligned⟩ := tracked.aligned
  have spent := aligned.spentAtTop rfl
  have leads := (PathFold.go_follows spent move).2.1
  rw [tracked.cursor_eq] at leads
  refine ⟨leads, ?_⟩
  obtain ⟨rest, moved⟩ := aligned.go rfl move
  refine ⟨rest, ?_⟩
  simp only [FoldRun.step]
  split
  · next entered =>
      rw [if_pos entered] at moved
      rw [FoldEvent.isPending_entered]
      exact moved
  · next stays =>
      rw [if_neg stays] at moved
      exact moved

theorem Tracked.value (tracked : run.Tracked cursor seed reducer) :
    (run.step .value).Tracked cursor seed reducer := by
  obtain ⟨above, aligned⟩ := tracked.aligned
  refine ⟨tracked.cursor_eq, above, ?_⟩
  refine (aligned.value rfl fun path => ?_).2.2
  have noted := FoldEvent.isPending_evaluated run.events
    (run.fold.computed.map Cursor.path) path
  rw [List.map_map] at noted
  exact noted

theorem Tracked.step (tracked : run.Tracked cursor seed reducer)
    (step : FoldStep) : (run.step step).Tracked cursor seed reducer := by
  cases step with
  | move move => exact tracked.move move
  | value => exact tracked.value

theorem Tracked.stepAll (tracked : run.Tracked cursor seed reducer)
    (steps : List FoldStep) :
    (run.stepAll steps).Tracked cursor seed reducer := by
  induction steps generalizing run with
  | nil => exact tracked
  | cons step steps induction => exact induction (tracked.step step)

end

/-- Whatever a path fold was asked to do, every move leads it where it leads a
plain cursor and computes nothing.  Its value is the fold of the reducer along
the path from its root to the current node.  To give it the reducer runs, from
the root downwards, for the nodes on the path that were not evaluated since they
were last entered, and for no other ones. -/
theorem value_cached {α : Type} (cursor : Cursor) (seed : α)
    (reducer : α → View → α) (steps : List FoldStep) :
    let run := (start cursor seed reducer).stepAll steps
    let path := run.onPath cursor
    run.fold.cursor = run.plain ∧
      (∀ move, (run.fold.go move).1 = (run.plain.go move).1 ∧
        (run.fold.go move).2.cursor = (run.plain.go move).2 ∧
          (run.fold.go move).2.evaluated = run.fold.evaluated) ∧
        path.getLast? = some run.plain ∧
          path.length = run.plain.depth + 1 ∧
            run.fold.value.1 =
                path.foldl (fun value here => reducer value here.view) seed ∧
              run.fold.value.2.cursor = run.plain ∧
                run.fold.value.2.evaluated =
                  (path.filter fun here =>
                    FoldEvent.isPending run.events here.path).reverse ++
                      run.fold.evaluated := by
  intro run path
  have tracked : run.Tracked cursor seed reducer := tracked_start.stepAll steps
  obtain ⟨above, aligned⟩ := tracked.aligned
  have spent := aligned.spentAtTop rfl
  have same := tracked.cursor_eq
  have walked : path = (run.plain :: above).reverse := by
    have way := aligned.way
    rw [same] at way
    exact way.along_path rfl
  obtain ⟨value, computed, _⟩ := aligned.value rfl fun _ => rfl
  rw [same] at value computed
  refine ⟨same, ?_, ?_, ?_, ?_, same, ?_⟩
  · intro move
    obtain ⟨success, leads, evaluated⟩ := PathFold.go_follows spent move
    rw [same] at success leads
    exact ⟨success, leads, evaluated⟩
  · rw [walked, List.getLast?_reverse, List.head?_cons]
  · have length := aligned.way.length rfl
    rw [same] at length
    rw [walked, List.length_reverse, List.length_cons, length]
    rfl
  · rw [value, walked, List.foldl_reverse]
    rfl
  · rw [PathFold.evaluated_value, computed, walked, List.filter_reverse,
      List.reverse_reverse]

end FoldRun

end Reparse
