import Reparse.Parse.Exhaustive
import Reparse.Proofs.Tree.CursorPaths
import Reparse.Proofs.Tree.Order

/-!
# A search misses nothing

In a well-formed tree at most one child lies around a position, and halving the
list of children finds it.  Every node with bytes that starts at the position is
that child or lies below it, so the candidates of a node are the candidates of
one child, behind the child itself if it is one.  The search follows this
decomposition step by step and ends as a search of all nodes does.
-/

namespace Reparse

namespace Node

/-- A child ends before any later child starts. -/
theorem InOrder.stop_le_offset {limit origin earlier later : Nat}
    {children : List (Placed Node)} {first second : Placed Node}
    (ordered : InOrder limit origin children) (before : earlier < later)
    (foundFirst : children[earlier]? = some first)
    (foundSecond : children[later]? = some second) :
    first.stop ≤ second.offset := by
  induction children generalizing origin earlier later with
  | nil => simp at foundFirst
  | cons child rest induction =>
      obtain ⟨late, same⟩ : ∃ late, later = late + 1 :=
        Nat.exists_eq_succ_of_ne_zero (by omega)
      subst same
      rw [List.getElem?_cons_succ] at foundSecond
      cases earlier with
      | zero =>
          cases foundFirst
          apply ordered.2.le_offset
          exact List.mem_of_getElem? foundSecond
      | succ early =>
          rw [List.getElem?_cons_succ] at foundFirst
          apply induction ordered.2 _ foundFirst foundSecond
          exact Nat.lt_of_succ_lt_succ before

theorem exists_child? {root : Node} {index : Nat}
    (inside : index < root.childCount) :
    ∃ child, root.child? index = some child :=
  ⟨_, List.getElem?_eq_getElem inside⟩

section

variable {root : Node} (wellFormed : root.WellFormed)

include wellFormed

theorem WellFormed.stop_le_offset {earlier later : Nat}
    {first second : Placed Node} (before : earlier < later)
    (foundFirst : root.child? earlier = some first)
    (foundSecond : root.child? later = some second) :
    first.stop ≤ second.offset :=
  (everywhere_iff.mp wellFormed).1.stop_le_offset before foundFirst foundSecond

/-- Only one child lies around a position. -/
theorem WellFormed.index_eq_of_covers {left right position : Nat}
    {first second : Placed Node} (foundFirst : root.child? left = some first)
    (afterFirst : first.offset ≤ position) (beforeFirst : position < first.stop)
    (foundSecond : root.child? right = some second)
    (afterSecond : second.offset ≤ position)
    (beforeSecond : position < second.stop) : left = right := by
  rcases Nat.lt_trichotomy left right with earlier | same | later
  · have apart := wellFormed.stop_le_offset earlier foundFirst foundSecond
    omega
  · exact same
  · have apart := wellFormed.stop_le_offset later foundSecond foundFirst
    omega

theorem WellFormed.child {index : Nat} {child : Placed Node}
    (found : root.child? index = some child) : child.item.WellFormed :=
  (everywhere_iff.mp wellFormed).2 child (List.mem_of_getElem? found)

/-- Children are sorted by their ends, so that halving can divide them. -/
theorem holdsFirst_endsBy (position : Nat) :
    HoldsFirst (root.endsBy position) root.childCount := by
  intro earlier later ordered inside holds
  rcases Nat.lt_or_eq_of_le ordered with before | same
  · obtain ⟨second, foundSecond⟩ := exists_child? inside
    obtain ⟨first, foundFirst⟩ := exists_child? (Nat.lt_trans before inside)
    have apart := wellFormed.stop_le_offset before foundFirst foundSecond
    have further : second.offset ≤ second.stop := Nat.le_add_right _ _
    simp only [endsBy, foundFirst, foundSecond, decide_eq_true_eq] at holds ⊢
    omega
  · rw [same]
    exact holds

/-- Halving the children finds the one that a walk through them finds. -/
theorem childHalving?_eq (position : Nat) :
    root.childHalving? position = root.childCovering? position := by
  have divided := holdsFirst_endsBy wellFormed position
  rw [childHalving?]
  cases found :
      root.child? (bisect (root.endsBy position) 0 root.childCount) with
  | none =>
      have all : root.childCount ≤
          bisect (root.endsBy position) 0 root.childCount :=
        List.getElem?_eq_none_iff.mp found
      symm
      rw [childCovering?, List.find?_eq_none]
      intro child member
      obtain ⟨index, here⟩ := List.mem_iff_getElem?.mp member
      have inside : index < root.childCount :=
        (List.getElem?_eq_some_iff.mp here).1
      have ends := test_of_lt_bisect divided (Nat.zero_le index)
        (Nat.lt_of_lt_of_le inside all)
      simp only [endsBy, child?, here, decide_eq_true_eq] at ends
      simp only [decide_eq_true_eq]
      omega
  | some child =>
      obtain ⟨inside, here⟩ := List.getElem?_eq_some_iff.mp found
      symm
      rw [childCovering?, List.find?_eq_some_iff_getElem]
      refine ⟨?_, _, inside, here, ?_⟩
      · have behind := test_of_bisect_le divided (Nat.le_refl _) inside
        simp only [endsBy, found, decide_eq_false_iff_not] at behind
        simp only [decide_eq_true_eq]
        omega
      · intro earlier before
        have ends := test_of_lt_bisect divided (Nat.zero_le earlier) before
        simp only [endsBy, child?, decide_eq_true_eq,
          List.getElem?_eq_getElem (Nat.lt_trans before inside)] at ends
        simp only [Bool.not_eq_true', decide_eq_false_iff_not]
        omega

end

section

variable {root : Node} {symbol : Symbol} {position : Nat}

theorem searchHalving_of_none (none : root.childHalving? position = none) :
    root.searchHalving symbol position = ⟨.none, 0, 0⟩ := by
  rw [searchHalving]
  split
  · rfl
  · next child found =>
      rw [none] at found
      cases found

theorem searchHalving_of_some {child : Placed Node}
    (found : root.childHalving? position = some child) :
    root.searchHalving symbol position =
      if position < child.offset then ⟨none, 0, 0⟩
      else
        let candidate := position == child.offset && child.item.symbol == symbol
        if candidate && !child.item.damaged then ⟨some child.item, 0, 0⟩
        else
          let below := child.item.searchHalving symbol (position - child.offset)
          ⟨below.found, below.skipped + 1,
            below.intersected + candidate.toNat⟩ := by
  rw [searchHalving]
  split
  · next none =>
      rw [found] at none
      cases none
  · next other same =>
      rw [found] at same
      cases same
      rfl

end

/-- The search that halves the children is the one that walks through them. -/
theorem searchHalving_eq {root : Node} (wellFormed : root.WellFormed)
    (symbol : Symbol) (position : Nat) :
    root.searchHalving symbol position = root.search symbol position := by
  have same := childHalving?_eq wellFormed position
  fun_induction root.search symbol position with
  | case1 root position uncovered =>
      apply searchHalving_of_none
      exact same.trans uncovered
  | case2 root position child covered before =>
      rw [searchHalving_of_some (same.trans covered), if_pos before]
  | case3 root position child covered after candidate hit =>
      rw [searchHalving_of_some (same.trans covered), if_neg after]
      exact if_pos hit
  | case4 root position child covered after candidate miss below induction =>
      have member := List.mem_of_find?_eq_some covered
      have inner := (everywhere_iff.mp wellFormed).2 child member
      have deeper := induction inner (childHalving?_eq inner _)
      rw [searchHalving_of_some (same.trans covered), if_neg after, deeper]
      exact if_neg miss

/-! ## The candidates of a node -/

theorem bounds_of_mem_pathsList {children : List (Placed Node)} {first : Nat}
    {path : List Nat} (member : path ∈ pathsList first children) :
    ∃ index below, path = index :: below ∧ first ≤ index ∧
      index < first + children.length := by
  obtain ⟨index, child, below, found, rfl, _⟩ :=
    exists_child_of_mem_pathsList member
  have inside := (List.getElem?_eq_some_iff.mp found).1
  exact ⟨first + index, below, rfl, Nat.le_add_right _ _,
    Nat.add_lt_add_left inside first⟩

section

variable {root : Node} {symbol : Symbol} {position : Nat} {damaged : Bool}

/-- A candidate makes the child that the path goes through lie around the
position. -/
theorem covers_of_isCandidate (nested : root.Nested) {index : Nat}
    {path : List Nat}
    (candidate : root.isCandidate symbol position damaged (index :: path)) :
    ∃ child, root.child? index = some child ∧ child.offset ≤ position ∧
      position < child.stop := by
  rw [isCandidate] at candidate
  split at candidate
  · next placed found =>
      simp only [Bool.and_eq_true, beq_iff_eq, Bool.not_eq_true', isEmpty,
        beq_eq_false_iff_ne] at candidate
      obtain ⟨⟨⟨starts, _⟩, _⟩, filled⟩ := candidate
      obtain ⟨around, above⟩ :=
        exists_locate?_of_prefix (List.prefix_append [index] path) found
      obtain ⟨after, before⟩ :=
        locate?_around nested (List.prefix_append [index] path) above found
      rw [locate?_cons, Option.bind_eq_some_iff] at above
      obtain ⟨child, here, same⟩ := above
      cases same
      simp only [Placed.stop] at before
      simp only at after
      refine ⟨child, here, ?_, ?_⟩
      · omega
      · simp only [Placed.stop]
        omega
  · cases candidate

/-- A path through a child leads to a candidate of the root if the rest of it
leads to one of the child. -/
theorem isCandidate_cons {index : Nat} {child : Placed Node}
    (here : root.child? index = some child) (after : child.offset ≤ position)
    (path : List Nat) :
    root.isCandidate symbol position damaged (index :: path) =
      child.item.isCandidate symbol (position - child.offset) damaged path := by
  rw [isCandidate, isCandidate, locate?_cons, here, Option.bind_some,
    locate?_eq_map]
  cases child.item.locate? 0 path with
  | none => rfl
  | some placed =>
      have same : (position == 0 + child.offset + placed.offset) =
          (position - child.offset == placed.offset) := by
        rw [Bool.eq_iff_iff, beq_iff_eq, beq_iff_eq]
        omega
      simp only [Option.map_some, same]

/-- A child that is not empty is a candidate if it has what is asked for. -/
theorem isCandidate_child {index : Nat} {child : Placed Node}
    (here : root.child? index = some child) (filled : child.item.length ≠ 0) :
    root.isCandidate symbol position damaged [index] =
      (position == child.offset && child.item.symbol == symbol &&
        child.item.damaged == damaged) := by
  have nonempty : child.item.isEmpty = false := beq_eq_false_iff_ne.mpr filled
  rw [isCandidate, locate?_cons, here, Option.bind_some, locate?]
  simp only [nonempty, Nat.zero_add, Bool.not_false, Bool.and_true]

theorem candidates_eq (root : Node) (symbol : Symbol) (position : Nat)
    (damaged : Bool) :
    root.candidates symbol position damaged =
      (pathsList 0 root.children).filter
        (root.isCandidate symbol position damaged) := by
  rw [candidates, paths_eq, List.tail_cons]

/-- There are no candidates where no child lies around the position. -/
theorem candidates_eq_nil (nested : root.Nested)
    (uncovered : ∀ index child, root.child? index = some child →
      child.offset ≤ position → ¬ position < child.stop) :
    root.candidates symbol position damaged = [] := by
  rw [candidates_eq, List.filter_eq_nil_iff]
  intro path member candidate
  obtain ⟨index, below, rfl, _⟩ := bounds_of_mem_pathsList member
  obtain ⟨child, here, after, before⟩ := covers_of_isCandidate nested candidate
  exact uncovered index child here after before

/-- Where one child lies around the position, the candidates are that child, if
it is one, and its own candidates. -/
theorem candidates_of_child (wellFormed : root.WellFormed) {index : Nat}
    {child : Placed Node} (here : root.child? index = some child)
    (after : child.offset ≤ position) (before : position < child.stop) :
    root.candidates symbol position damaged =
      (if position == child.offset && child.item.symbol == symbol &&
          child.item.damaged == damaged then [[index]] else []) ++
        (child.item.candidates symbol (position - child.offset) damaged).map
          (index :: ·) := by
  -- Candidates behind another child would make it lie around the position too.
  have only : ∀ other path,
      root.isCandidate symbol position damaged (other :: path) →
        other = index := by
    intro other path candidate
    obtain ⟨otherChild, otherHere, otherAfter, otherBefore⟩ :=
      covers_of_isCandidate (nested_of_wellFormed wellFormed) candidate
    exact wellFormed.index_eq_of_covers otherHere otherAfter otherBefore here
      after before
  have earlier : (pathsList 0 (root.children.take index)).filter
      (root.isCandidate symbol position damaged) = [] := by
    rw [List.filter_eq_nil_iff]
    intro path member candidate
    obtain ⟨other, below, rfl, _, bound⟩ := bounds_of_mem_pathsList member
    have same := only other below candidate
    rw [List.length_take] at bound
    omega
  have later : (pathsList (index + 1) (root.children.drop (index + 1))).filter
      (root.isCandidate symbol position damaged) = [] := by
    rw [List.filter_eq_nil_iff]
    intro path member candidate
    obtain ⟨other, below, rfl, bound, _⟩ := bounds_of_mem_pathsList member
    have same := only other below candidate
    omega
  have filled : child.item.length ≠ 0 := by
    simp only [Placed.stop] at before
    omega
  have inner : (root.isCandidate symbol position damaged ∘ (index :: ·)) =
      child.item.isCandidate symbol (position - child.offset) damaged :=
    funext fun path => isCandidate_cons here after path
  rw [candidates_eq, pathsList_eq_of_getElem? here, Nat.zero_add,
    List.filter_append, List.filter_append, earlier, later, List.nil_append,
    List.append_nil, paths_eq, List.map_cons, List.filter_cons,
    isCandidate_child here filled, List.filter_map, inner, ← candidates_eq]
  split <;> rfl

end

/-! ## The search follows the candidates -/

theorem leadsAbove_cons (index : Nat) (path : List Nat)
    (other? : Option (List Nat)) :
    leadsAbove (index :: path) (other?.map (index :: ·)) =
      leadsAbove path other? := by
  cases other? with
  | none => rfl
  | some other => simp [leadsAbove]

theorem leadsAbove_child (index : Nat) (other? : Option (List Nat)) :
    leadsAbove [index] (other?.map (index :: ·)) = true := by
  cases other? with
  | none => rfl
  | some other => simp [leadsAbove]

section

variable {root : Node} {symbol : Symbol} {position : Nat} {damaged : Bool}
  (wellFormed : root.WellFormed)

include wellFormed

theorem candidates_of_none (uncovered : root.childCovering? position = none) :
    root.candidates symbol position damaged = [] := by
  apply candidates_eq_nil (nested_of_wellFormed wellFormed)
  intro index child here _ before
  have ends := List.find?_eq_none.mp uncovered child (List.mem_of_getElem? here)
  simp only [decide_eq_true_eq] at ends
  exact ends before

/-- In a gap between children nothing starts. -/
theorem candidates_of_gap {child : Placed Node}
    (covered : root.childCovering? position = some child)
    (gap : position < child.offset) :
    root.candidates symbol position damaged = [] := by
  obtain ⟨_, index, inside, here, ended⟩ :=
    List.find?_eq_some_iff_getElem.mp covered
  have found : root.child? index = some child :=
    List.getElem?_eq_some_iff.mpr ⟨inside, here⟩
  apply candidates_eq_nil (nested_of_wellFormed wellFormed)
  intro other otherChild otherFound after before
  rcases Nat.lt_trichotomy other index with earlier | rfl | later
  · have ends := ended other earlier
    obtain ⟨_, same⟩ := List.getElem?_eq_some_iff.mp otherFound
    simp only [same, before, decide_true, Bool.not_true] at ends
    cases ends
  · rw [found] at otherFound
    cases otherFound
    omega
  · have apart := wellFormed.stop_le_offset later found otherFound
    simp only [Placed.stop] at apart
    omega

end

section

variable {root : Node} {symbol : Symbol} {position : Nat}
  (wellFormed : root.WellFormed) {index : Nat} {child : Placed Node}
  (here : root.child? index = some child) (after : child.offset ≤ position)
  (before : position < child.stop)

include wellFormed here after before

/-- A child that is an intact candidate is the first one. -/
theorem firstIntact?_of_hit
    (hit : (position == child.offset && child.item.symbol == symbol &&
      !child.item.damaged) = true) :
    root.firstIntact? symbol position = some [index] := by
  rw [firstIntact?, candidates_of_child wellFormed here after before, beq_false,
    if_pos hit]
  rfl

theorem firstIntact?_of_miss
    (miss : ¬ (position == child.offset && child.item.symbol == symbol &&
      !child.item.damaged) = true) :
    root.firstIntact? symbol position =
      (child.item.firstIntact? symbol (position - child.offset)).map
        (index :: ·) := by
  rw [firstIntact?, candidates_of_child wellFormed here after before, beq_false,
    if_neg miss, List.nil_append, List.head?_map, ← firstIntact?]

/-- No damaged candidate lies above a child that is an intact one. -/
theorem damagedAbove_of_hit
    (hit : (position == child.offset && child.item.symbol == symbol &&
      !child.item.damaged) = true) :
    root.damagedAbove symbol position = [] := by
  obtain ⟨_, intact⟩ := Bool.and_eq_true_iff.mp hit
  rw [Bool.not_eq_true'] at intact
  rw [damagedAbove, firstIntact?_of_hit wellFormed here after before hit,
    candidates_of_child wellFormed here after before, intact,
    List.filter_eq_nil_iff]
  intro path member above
  simp only [Bool.false_beq, Bool.not_true, Bool.and_false, if_false,
    List.nil_append, Bool.false_eq_true] at member
  obtain ⟨inner, memberInner, rfl⟩ := List.mem_map.mp member
  rw [candidates_eq] at memberInner
  obtain ⟨next, below, rfl, _⟩ :=
    bounds_of_mem_pathsList (List.mem_filter.mp memberInner).1
  simp [leadsAbove] at above

/-- The damaged candidates above the first intact one are those of the child
and, if it is one, the child. -/
theorem length_damagedAbove_of_miss
    (miss : ¬ (position == child.offset && child.item.symbol == symbol &&
      !child.item.damaged) = true) :
    (root.damagedAbove symbol position).length =
      (child.item.damagedAbove symbol (position - child.offset)).length +
        (position == child.offset && child.item.symbol == symbol).toNat := by
  have inner : ((fun path => leadsAbove path
        ((child.item.firstIntact? symbol (position - child.offset)).map
          (index :: ·))) ∘ (index :: ·)) =
      fun path => leadsAbove path
        (child.item.firstIntact? symbol (position - child.offset)) :=
    funext fun path => leadsAbove_cons index path _
  rw [damagedAbove, firstIntact?_of_miss wellFormed here after before miss,
    candidates_of_child wellFormed here after before, List.filter_append,
    List.length_append, List.filter_map, List.length_map, inner,
    ← damagedAbove, Nat.add_comm]
  congr 1
  by_cases candidate :
      (position == child.offset && child.item.symbol == symbol) = true
  · have broken : child.item.damaged = true := by
      simpa [candidate] using miss
    rw [candidate, broken]
    simp only [Bool.true_and, beq_self_eq_true, if_true, List.filter_cons,
      leadsAbove_child, List.filter_nil]
    rfl
  · rw [Bool.not_eq_true] at candidate
    rw [candidate]
    rfl

end

/-- What is found is what the first path to an intact node leads to; what is met
on the way are the damaged candidates above it. -/
theorem search_follows {root : Node} (wellFormed : root.WellFormed)
    (symbol : Symbol) (position : Nat) :
    (root.search symbol position).found =
        (root.firstIntact? symbol position).bind (fun path =>
          (root.locate? 0 path).map Placed.item) ∧
      (root.search symbol position).intersected =
        (root.damagedAbove symbol position).length := by
  fun_induction root.search symbol position with
  | case1 root position uncovered =>
      rw [firstIntact?, damagedAbove, candidates_of_none wellFormed uncovered,
        candidates_of_none wellFormed uncovered]
      exact ⟨rfl, rfl⟩
  | case2 root position child covered before =>
      rw [firstIntact?, damagedAbove,
        candidates_of_gap wellFormed covered before,
        candidates_of_gap wellFormed covered before]
      exact ⟨rfl, rfl⟩
  | case3 root position child covered after candidate hit =>
      obtain ⟨index, here⟩ :=
        List.mem_iff_getElem?.mp (List.mem_of_find?_eq_some covered)
      have before : position < child.stop := by
        simpa using List.find?_some covered
      have starts := Nat.le_of_not_lt after
      rw [firstIntact?_of_hit wellFormed here starts before hit,
        damagedAbove_of_hit wellFormed here starts before hit,
        Option.bind_some, locate?_cons, child?, here]
      exact ⟨rfl, rfl⟩
  | case4 root position child covered after candidate miss below induction =>
      obtain ⟨index, here⟩ :=
        List.mem_iff_getElem?.mp (List.mem_of_find?_eq_some covered)
      have before : position < child.stop := by
        simpa using List.find?_some covered
      have starts := Nat.le_of_not_lt after
      obtain ⟨found, intersected⟩ := induction (wellFormed.child here)
      have moved := locate?_eq_map child.item (0 + child.offset)
      rw [firstIntact?_of_miss wellFormed here starts before miss,
        length_damagedAbove_of_miss wellFormed here starts before miss, found,
        intersected]
      refine ⟨?_, rfl⟩
      cases child.item.firstIntact? symbol (position - child.offset) with
      | none => rfl
      | some path =>
          rw [Option.map_some, Option.bind_some, Option.bind_some, locate?_cons,
            child?, here, Option.bind_some, moved, Option.map_map]
          rfl

/-- The path to the first intact node leads to a node. -/
theorem exists_of_firstIntact? {root : Node} {symbol : Symbol} {position : Nat}
    {path : List Nat} (first : root.firstIntact? symbol position = some path) :
    ∃ placed, root.locate? 0 path = some placed := by
  have member := List.mem_of_head? first
  have candidate := (List.mem_filter.mp member).2
  rw [isCandidate] at candidate
  split at candidate
  · next placed found => exact ⟨placed, found⟩
  · cases candidate

end Node

namespace Shell

/-- A search of a well-formed shell comes to the first intact node that a search
of all nodes finds, or to nothing if that finds none.  It counts as a hit when
there is such a node, and the damaged nodes that it counts are those above the
node that it comes to. -/
theorem search_exhaustive {shell : Shell} (wellFormed : shell.root.WellFormed)
    (symbol : Symbol) (position : Nat) (statistics : SearchStatistics) :
    shell.root.searchHalving symbol position = shell.search symbol position ∧
      (shell.search symbol position).found =
        (shell.root.firstIntact? symbol position).bind (fun path =>
          (shell.root.locate? 0 path).map Placed.item) ∧
      (statistics.add (shell.search symbol position)).hits =
        statistics.hits +
          (shell.root.firstIntact? symbol position).isSome.toNat ∧
      (statistics.add (shell.search symbol position)).intersected =
        statistics.intersected +
          (shell.root.damagedAbove symbol position).length := by
  obtain ⟨found, intersected⟩ :=
    Node.search_follows wellFormed symbol position
  refine ⟨Node.searchHalving_eq wellFormed symbol position, found, ?_, ?_⟩
  · have success : (shell.search symbol position).found.isSome =
        (shell.root.firstIntact? symbol position).isSome := by
      rw [Shell.search, found]
      cases first : shell.root.firstIntact? symbol position with
      | none => rfl
      | some path =>
          obtain ⟨placed, leads⟩ := Node.exists_of_firstIntact? first
          rw [Option.bind_some, leads]
          rfl
    rw [SearchStatistics.add, success]
  · rw [SearchStatistics.add, Shell.search, intersected]

/-- The letter is found behind one without bytes, in a damaged node of its own
symbol, which is counted. -/
theorem search_exhaustive_nested :
    ∃ shell : Shell,
      (shell.root.WellFormed ∧
        (shell.root.locate? 0 [1]).map (fun placed =>
          (placed.offset, placed.item.symbol, placed.item.damaged)) =
            some (1, ⟨0⟩, true)) ∧
      (shell.root.searchHalving ⟨0⟩ 1).found = some (.leaf 2 ⟨0⟩ 2 1) ∧
      (SearchStatistics.initial.add (shell.search ⟨0⟩ 1)).hits = 1 ∧
      (SearchStatistics.initial.add (shell.search ⟨0⟩ 1)).intersected = 1 := by
  let inner : Node :=
    ⟨3, ⟨0⟩, 3, 1, true, [⟨0, .leaf 1 ⟨0⟩ 0 1⟩, ⟨0, .leaf 2 ⟨0⟩ 2 1⟩]⟩
  let shell : Shell :=
    ⟨Tree.letters, ⟨4, ⟨1⟩, 5, 1, true, [⟨0, .leaf 0 ⟨0⟩ 0 1⟩, ⟨1, inner⟩]⟩, []⟩
  have wellFormed : shell.root.WellFormed := by
    simp [shell, inner, Node.WellFormed, Node.Everywhere, Node.EverywhereList,
      Node.InOrder, Node.leaf, Placed.stop]
  have first : shell.root.firstIntact? ⟨0⟩ 1 = some [1, 1] := rfl
  obtain ⟨same, found, hits, intersected⟩ :=
    search_exhaustive wellFormed ⟨0⟩ 1 SearchStatistics.initial
  rw [first] at found hits
  exact ⟨shell, ⟨wellFormed, rfl⟩, same ▸ found, hits, intersected⟩

end Shell

end Reparse
