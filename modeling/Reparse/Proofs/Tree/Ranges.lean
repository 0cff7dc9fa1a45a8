import Reparse.Proofs.Tree.Difference
import Reparse.Proofs.Tree.Survival

/-!
# Changed ranges

Ranges in order, with a byte between one and the next, are determined by the
bytes they cover.  Joining sorted spans leads to such ranges and covers what the
spans do, so it makes no difference how spans with one start were sorted.
-/

namespace Reparse

namespace Difference

/-- The ranges are not empty, and each ends before the next one starts. -/
structure Separated (ranges : List Span) : Prop where
  filled : ∀ range ∈ ranges, range.start < range.stop
  apart : ranges.Pairwise fun left right => left.stop < right.start

/-- The spans are not empty and sorted by their starts. -/
structure Sorted (spans : List Span) : Prop where
  filled : ∀ span ∈ spans, span.start < span.stop
  ordered : spans.Pairwise fun left right => left.start ≤ right.start

/-- Joins sorted spans that overlap or touch. -/
def join : List Span → List Span
  | [] => []
  | first :: rest => joinFrom first rest

theorem contains_iff {span : Span} {offset : Nat} :
    span.contains offset = true ↔ span.start ≤ offset ∧ offset < span.stop := by
  rw [Span.contains, Bool.and_eq_true, decide_eq_true_eq, decide_eq_true_eq]

theorem covers_iff {spans : List Span} {offset : Nat} :
    covers spans offset = true ↔
      ∃ span ∈ spans, span.start ≤ offset ∧ offset < span.stop := by
  simp only [covers, List.any_eq_true, contains_iff]

theorem covers_cons (span : Span) (spans : List Span) (offset : Nat) :
    covers (span :: spans) offset =
      (span.contains offset || covers spans offset) :=
  List.any_cons

theorem covers_perm {left right : List Span} (perm : left.Perm right)
    (offset : Nat) : covers left offset = covers right offset :=
  perm.any_eq

theorem Sorted.tail {span : Span} {spans : List Span}
    (sorted : Sorted (span :: spans)) : Sorted spans :=
  ⟨(List.forall_mem_cons.mp sorted.filled).2,
    (List.pairwise_cons.mp sorted.ordered).2⟩

/-- A span that starts within the first one or right behind it can be joined to
it. -/
theorem Sorted.joined {current next : Span} {rest : List Span}
    (sorted : Sorted (current :: next :: rest)) :
    Sorted (⟨current.start, max current.stop next.stop⟩ :: rest) := by
  obtain ⟨first, later⟩ := List.forall_mem_cons.mp sorted.filled
  obtain ⟨before, ordered⟩ := List.pairwise_cons.mp sorted.ordered
  constructor
  · refine List.forall_mem_cons.mpr ⟨?_, (List.forall_mem_cons.mp later).2⟩
    exact Nat.lt_of_lt_of_le first (Nat.le_max_left _ _)
  · exact List.pairwise_cons.mpr
      ⟨(List.forall_mem_cons.mp before).2, (List.pairwise_cons.mp ordered).2⟩

theorem contains_joined {current next : Span} (offset : Nat)
    (ordered : current.start ≤ next.start)
    (touches : next.start ≤ current.stop) :
    (⟨current.start, max current.stop next.stop⟩ : Span).contains offset =
      (current.contains offset || next.contains offset) := by
  apply Bool.eq_iff_iff.mpr
  simp only [Bool.or_eq_true, contains_iff]
  omega

theorem covers_joinFrom {current : Span} {rest : List Span}
    (sorted : Sorted (current :: rest)) (offset : Nat) :
    covers (joinFrom current rest) offset =
      covers (current :: rest) offset := by
  induction rest generalizing current with
  | nil => rfl
  | cons next rest induction =>
      rw [joinFrom]
      split
      · next touches =>
          have ordered := (List.forall_mem_cons.mp
            (List.pairwise_cons.mp sorted.ordered).1).1
          rw [induction sorted.joined, covers_cons, covers_cons, covers_cons,
            contains_joined offset ordered touches, Bool.or_assoc]
      · rw [covers_cons, induction sorted.tail, covers_cons current]

theorem start_le_of_mem_joinFrom {current range : Span} {rest : List Span}
    (sorted : Sorted (current :: rest))
    (member : range ∈ joinFrom current rest) :
    current.start ≤ range.start := by
  induction rest generalizing current with
  | nil =>
      cases List.mem_singleton.mp member
      exact Nat.le_refl _
  | cons next rest induction =>
      rw [joinFrom] at member
      split at member
      · have start := induction sorted.joined member
        exact start
      · have ordered := (List.forall_mem_cons.mp
          (List.pairwise_cons.mp sorted.ordered).1).1
        rcases List.mem_cons.mp member with rfl | later
        · exact Nat.le_refl _
        · exact Nat.le_trans ordered (induction sorted.tail later)

theorem separated_joinFrom {current : Span} {rest : List Span}
    (sorted : Sorted (current :: rest)) :
    Separated (joinFrom current rest) := by
  induction rest generalizing current with
  | nil => exact ⟨sorted.filled, List.pairwise_singleton _ _⟩
  | cons next rest induction =>
      rw [joinFrom]
      split
      · exact induction sorted.joined
      · next gap =>
          have later := induction sorted.tail
          constructor
          · exact List.forall_mem_cons.mpr
              ⟨(List.forall_mem_cons.mp sorted.filled).1, later.filled⟩
          · refine List.pairwise_cons.mpr ⟨?_, later.apart⟩
            intro range member
            have behind := start_le_of_mem_joinFrom sorted.tail member
            omega

section

variable {spans : List Span} (sorted : Sorted spans)

include sorted

theorem separated_join : Separated (join spans) := by
  cases spans with
  | nil => exact ⟨List.forall_mem_nil _, .nil⟩
  | cons first rest => exact separated_joinFrom sorted

theorem covers_join (offset : Nat) :
    covers (join spans) offset = covers spans offset := by
  cases spans with
  | nil => rfl
  | cons first rest => exact covers_joinFrom sorted offset

end

section

variable {first : Span} {rest : List Span}
  (separated : Separated (first :: rest))

include separated

theorem Separated.tail : Separated rest :=
  ⟨(List.forall_mem_cons.mp separated.filled).2,
    (List.pairwise_cons.mp separated.apart).2⟩

/-- The byte where the first range ends is not in the others. -/
theorem Separated.stop_lt_of_covers {offset : Nat}
    (covered : covers rest offset = true) : first.stop < offset := by
  obtain ⟨range, member, starts, _⟩ := covers_iff.mp covered
  have apart := (List.pairwise_cons.mp separated.apart).1 range member
  exact Nat.lt_of_lt_of_le apart starts

theorem Separated.covers_start : covers (first :: rest) first.start = true := by
  have filled := separated.filled first List.mem_cons_self
  exact covers_iff.mpr
    ⟨first, List.mem_cons_self, Nat.le_refl _, filled⟩

theorem Separated.start_le_of_covers {offset : Nat}
    (covered : covers (first :: rest) offset = true) :
    first.start ≤ offset := by
  have filled := separated.filled first List.mem_cons_self
  rw [covers_cons, Bool.or_eq_true] at covered
  cases covered with
  | inl here => exact (contains_iff.mp here).1
  | inr later =>
      have behind := separated.stop_lt_of_covers later
      omega

/-- The first range goes on as long as its bytes are covered. -/
theorem Separated.lt_stop_of_covers {offset : Nat}
    (covered : covers (first :: rest) offset = true)
    (before : offset ≤ first.stop) : offset < first.stop := by
  rw [covers_cons, Bool.or_eq_true] at covered
  cases covered with
  | inl here => exact (contains_iff.mp here).2
  | inr later =>
      have behind := separated.stop_lt_of_covers later
      omega

theorem Separated.covers_tail (offset : Nat) :
    covers rest offset =
      (decide (first.stop < offset) && covers (first :: rest) offset) := by
  apply Bool.eq_iff_iff.mpr
  rw [covers_cons, Bool.and_eq_true, Bool.or_eq_true, decide_eq_true_eq,
    contains_iff]
  constructor
  · intro covered
    exact ⟨separated.stop_lt_of_covers covered, .inr covered⟩
  · rintro ⟨behind, here | later⟩
    · omega
    · exact later

end

theorem Separated.stop_le_of_covers {left right : Span}
    {lefts rights : List Span} (separated : Separated (right :: rights))
    (start : left.start = right.start)
    (same : ∀ offset,
      covers (left :: lefts) offset = covers (right :: rights) offset) :
    left.stop ≤ right.stop := by
  apply Nat.le_of_not_lt
  intro longer
  have filled := separated.filled right List.mem_cons_self
  have covered : covers (left :: lefts) right.stop = true :=
    covers_iff.mpr ⟨left, List.mem_cons_self, by omega, longer⟩
  rw [same] at covered
  have inside := separated.lt_stop_of_covers covered (Nat.le_refl _)
  omega

/-- Separated ranges are determined by what they cover. -/
theorem Separated.eq_of_covers {lefts rights : List Span}
    (separated : Separated lefts) (separatedToo : Separated rights)
    (same : ∀ offset, covers lefts offset = covers rights offset) :
    lefts = rights := by
  induction lefts generalizing rights with
  | nil =>
      cases rights with
      | nil => rfl
      | cons right rights =>
          have covered := separatedToo.covers_start
          rw [← same] at covered
          cases covered
  | cons left lefts induction =>
      cases rights with
      | nil =>
          have covered := separated.covers_start
          rw [same] at covered
          cases covered
      | cons right rights =>
          have covered := separated.covers_start
          have coveredToo := separatedToo.covers_start
          rw [same] at covered
          rw [← same] at coveredToo
          have starts : left.start = right.start :=
            Nat.le_antisymm (separated.start_le_of_covers coveredToo)
              (separatedToo.start_le_of_covers covered)
          have stops : left.stop = right.stop :=
            Nat.le_antisymm
              (separatedToo.stop_le_of_covers starts same)
              (separated.stop_le_of_covers starts.symm
                fun offset => (same offset).symm)
          have rests := induction separated.tail separatedToo.tail
            fun offset => by
              rw [separated.covers_tail, separatedToo.covers_tail, same, stops]
          have firsts : left = right := by
            cases left
            cases right
            simp only at starts stops
            rw [starts, stops]
          rw [firsts, rests]

/-- Spans without bytes cover nothing. -/
theorem covers_filled (spans : List Span) (offset : Nat) :
    covers (spans.filter fun span => !span.isEmpty) offset =
      covers spans offset := by
  apply Bool.eq_iff_iff.mpr
  rw [covers_iff, covers_iff]
  constructor
  · intro ⟨span, member, inside⟩
    exact ⟨span, (List.mem_filter.mp member).1, inside⟩
  · intro ⟨span, member, inside⟩
    refine ⟨span, List.mem_filter.mpr ⟨member, ?_⟩, inside⟩
    rw [Span.isEmpty, Bool.not_eq_true', beq_eq_false_iff_ne]
    omega

section

variable {spans : List Span} (ordered : ∀ span ∈ spans, span.start ≤ span.stop)

include ordered

theorem sorted_of_perm {sorted : List Span}
    (perm : sorted.Perm (spans.filter fun span => !span.isEmpty))
    (starts : sorted.Pairwise fun left right => left.start ≤ right.start) :
    Sorted sorted := by
  refine ⟨?_, starts⟩
  intro span member
  obtain ⟨reported, filled⟩ := List.mem_filter.mp (perm.mem_iff.mp member)
  have order := ordered span reported
  rw [Span.isEmpty, Bool.not_eq_true', beq_eq_false_iff_ne] at filled
  omega

theorem sorted_mergeSort :
    Sorted ((spans.filter fun span => !span.isEmpty).mergeSort
      fun left right => decide (left.start ≤ right.start)) :=
  sorted_of_perm ordered (List.mergeSort_perm _ _) (pairwise_mergeSort_start _)

theorem separated_normalize : Separated (normalize spans) :=
  separated_join (sorted_mergeSort ordered)

theorem covers_normalize (offset : Nat) :
    covers (normalize spans) offset = covers spans offset := by
  have joined := covers_join (sorted_mergeSort ordered) offset
  rw [covers_perm (List.mergeSort_perm _ _), covers_filled] at joined
  exact joined

/-- It makes no difference how spans with the same start are sorted. -/
theorem join_eq_normalize {sorted : List Span}
    (perm : sorted.Perm (spans.filter fun span => !span.isEmpty))
    (starts : sorted.Pairwise fun left right => left.start ≤ right.start) :
    join sorted = normalize spans := by
  have arranged := sorted_of_perm ordered perm starts
  apply (separated_join arranged).eq_of_covers (separated_normalize ordered)
  intro offset
  rw [covers_join arranged, covers_perm perm, covers_filled,
    covers_normalize ordered]

end

end Difference

namespace PlacedPair

section

variable {old new : Tree} {pair found : PlacedPair}

theorem differsInShape_iff :
    pair.differsInShape = true ↔
      pair.old.symbol ≠ pair.new.symbol ∨
        pair.old.childCount ≠ pair.new.childCount := by
  rw [differsInShape, Bool.or_eq_true, bne_iff_ne, bne_iff_ne]

theorem differsInText_iff :
    pair.differsInText old new = true ↔
      pair.old.length ≠ pair.new.length ∨
        old.text? pair.oldSpan ≠ new.text? pair.newSpan := by
  rw [differsInText, Bool.or_eq_true, bne_iff_ne, bne_iff_ne]

/-- Every span that a comparison reports is the one of a pair it reports. -/
theorem exists_reports {span : Span}
    (member : span ∈ pair.reported old new) :
    ∃ found, pair.Reports old new found ∧ found.newSpan = span := by
  induction pair using induction_on_children with
  | step pair induction =>
      rw [reported_eq] at member
      split at member
      · cases member
      · next different =>
          have stamps : pair.old.stamp ≠ pair.new.stamp :=
            fun same => different (beq_iff_eq.mpr same)
          split at member
          · next shape =>
              cases List.mem_singleton.mp member
              exact ⟨pair, .shape stamps (differsInShape_iff.mp shape), rfl⟩
          · next shape =>
              rw [differsInShape_iff, not_or, not_not, not_not] at shape
              obtain ⟨symbols, childCounts⟩ := shape
              split at member
              · next leaf =>
                  have oldLeaf : pair.old.childCount = 0 :=
                    List.isEmpty_iff_length_eq_zero.mp leaf
                  split at member
                  · next differs =>
                      cases List.mem_singleton.mp member
                      exact ⟨pair, .text stamps symbols oldLeaf
                        (childCounts.symm.trans oldLeaf)
                        (differsInText_iff.mp differs), rfl⟩
                  · cases member
              · obtain ⟨child, memberChild, inside⟩ :=
                  List.mem_flatMap.mp member
                obtain ⟨found, reports, rfl⟩ :=
                  induction child memberChild inside
                obtain ⟨index, left, right, leftHere, rightHere, rfl⟩ :=
                  mem_children memberChild
                exact ⟨found, .child stamps symbols childCounts leftHere
                  rightHere reports, rfl⟩

/-- The span of a pair that a comparison reports is reported. -/
theorem Reports.newSpan_mem (reports : pair.Reports old new found) :
    found.newSpan ∈ pair.reported old new := by
  induction reports with
  | @shape pair stamps shape =>
      have different : ¬pair.old.identical pair.new = true :=
        fun same => stamps (beq_iff_eq.mp same)
      rw [reported_eq, if_neg different, if_pos (differsInShape_iff.mpr shape)]
      exact List.mem_singleton_self _
  | @text pair stamps symbols oldLeaf newLeaf differs =>
      have different : ¬pair.old.identical pair.new = true :=
        fun same => stamps (beq_iff_eq.mp same)
      have sameShape : ¬pair.differsInShape = true := by
        simp [differsInShape, symbols, oldLeaf, newLeaf]
      have leaf : pair.old.isLeaf = true :=
        List.isEmpty_iff_length_eq_zero.mpr oldLeaf
      rw [reported_eq, if_neg different, if_neg sameShape, if_pos leaf,
        if_pos (differsInText_iff.mpr differs)]
      exact List.mem_singleton_self _
  | @child pair found index left right stamps symbols childCounts leftHere
      rightHere _ induction =>
      have different : ¬pair.old.identical pair.new = true :=
        fun same => stamps (beq_iff_eq.mp same)
      have sameShape : ¬pair.differsInShape = true := by
        simp [differsInShape, symbols, childCounts]
      have inner : ¬pair.old.isLeaf = true := by
        intro leaf
        rw [Node.child?, List.isEmpty_iff.mp leaf] at leftHere
        cases leftHere
      rw [reported_eq, if_neg different, if_neg sameShape, if_neg inner]
      exact List.mem_flatMap.mpr
        ⟨_, children_of_child? leftHere rightHere, induction⟩

/-- In a new node that holds its children the reported spans lie within it. -/
theorem Reports.within (reports : pair.Reports old new found)
    (nested : pair.new.Nested) :
    pair.newStart ≤ found.newSpan.start ∧
      found.newSpan.stop ≤ pair.newSpan.stop := by
  induction reports with
  | shape => exact ⟨Nat.le_refl _, Nat.le_refl _⟩
  | text => exact ⟨Nat.le_refl _, Nat.le_refl _⟩
  | @child pair found index left right _ _ _ _ rightHere _ induction =>
      obtain ⟨inside, nestedChildren⟩ := Node.nested_iff.mp nested
      have member := List.mem_of_getElem? rightHere
      have bound := inside right member
      have within := induction (nestedChildren right member)
      simp only [newSpan, Placed.stop] at bound within ⊢
      omega

end

end PlacedPair

namespace Tree

open Difference

section

variable {old new : Tree}

theorem mem_changedSpans_iff {span : Span} :
    span ∈ changedSpans old new [⟨old.root, new.root, 0, 0⟩] ↔
      ∃ found,
        (⟨old.root, new.root, 0, 0⟩ : PlacedPair).Reports old new found ∧
          found.newSpan = span := by
  rw [changedSpans_eq, List.flatMap_singleton]
  constructor
  · exact PlacedPair.exists_reports
  · intro ⟨found, reports, place⟩
    rw [← place]
    exact reports.newSpan_mem

theorem ordered_of_mem_changedSpans {span : Span}
    (member : span ∈ changedSpans old new [⟨old.root, new.root, 0, 0⟩]) :
    span.start ≤ span.stop := by
  obtain ⟨found, _, rfl⟩ := mem_changedSpans_iff.mp member
  exact Nat.le_add_right _ _

theorem covers_changedSpans_iff {offset : Nat} :
    covers (changedSpans old new [⟨old.root, new.root, 0, 0⟩]) offset = true ↔
      ∃ found,
        (⟨old.root, new.root, 0, 0⟩ : PlacedPair).Reports old new found ∧
          found.newSpan.contains offset = true := by
  simp only [covers, List.any_eq_true, mem_changedSpans_iff]
  constructor
  · intro ⟨span, ⟨found, reports, place⟩, inside⟩
    exact ⟨found, reports, place ▸ inside⟩
  · intro ⟨found, reports, inside⟩
    exact ⟨_, ⟨found, reports, rfl⟩, inside⟩

/-- The changed ranges are not empty, lie in the new text, and each of them ends
before the next one starts.  A byte is in one of them exactly if it is in the
new node of a pair that the comparison reports.  It makes no difference to them
in which order the reported spans with one start were sorted. -/
theorem changedRanges_normalized (same : old.sameGrammar new = true)
    (wellFormed : new.root.WellFormed) :
    (∀ range ∈ old.changedRanges new,
      range.start < range.stop ∧ range.stop ≤ new.length) ∧
    ((old.changedRanges new).Pairwise fun left right =>
      left.stop < right.start) ∧
    (∀ offset, covers (old.changedRanges new) offset = true ↔
      ∃ found,
        (⟨old.root, new.root, 0, 0⟩ : PlacedPair).Reports old new found ∧
          found.newSpan.contains offset = true) ∧
    ∀ sorted : List Span,
      sorted.Perm
        ((changedSpans old new [⟨old.root, new.root, 0, 0⟩]).filter
          fun span => !span.isEmpty) →
      (sorted.Pairwise fun left right => left.start ≤ right.start) →
      join sorted = old.changedRanges new := by
  have ranges : old.changedRanges new =
      normalize (changedSpans old new [⟨old.root, new.root, 0, 0⟩]) :=
    if_pos same
  have ordered : ∀ span ∈ changedSpans old new [⟨old.root, new.root, 0, 0⟩],
      span.start ≤ span.stop := fun _ => ordered_of_mem_changedSpans
  have separated := separated_normalize ordered
  have covered (offset : Nat) := covers_normalize ordered offset
  rw [← ranges] at separated covered
  refine ⟨?_, separated.apart, ?_, ?_⟩
  · intro range member
    have filled := separated.filled range member
    -- The last byte of the range is in a node, which ends within the root.
    have last : covers (old.changedRanges new) (range.stop - 1) = true :=
      covers_iff.mpr ⟨range, member, by omega, by omega⟩
    rw [covered, covers_changedSpans_iff] at last
    obtain ⟨found, reports, inside⟩ := last
    have nested := Node.nested_of_wellFormed wellFormed
    have within := (reports.within nested).2
    have before := (contains_iff.mp inside).2
    simp only [PlacedPair.newSpan, Nat.zero_add] at within before
    exact ⟨filled, by simp only [length]; omega⟩
  · intro offset
    rw [covered, covers_changedSpans_iff]
  · intro sorted perm starts
    rw [ranges]
    exact join_eq_normalize ordered perm starts

end

/-- Both letters are other ones, and nothing lies between them any more. -/
def relettered : Tree :=
  { letters with
    root := ⟨5, ⟨1⟩, 2, 1, false, [⟨0, .leaf 3 ⟨0⟩ 1 1⟩, ⟨1, .leaf 4 ⟨0⟩ 1 1⟩]⟩
    source := ⟨1, #[99, 100]⟩
    version := 1 }

/-- The spans of the two new letters touch, so they are one range. -/
theorem relettered_normalized :
    (letters.sameGrammar relettered = true ∧ relettered.root.WellFormed) ∧
      letters.changedRanges relettered = [⟨0, 2⟩] := by
  have wellFormed : relettered.root.WellFormed := by
    simp [relettered, Node.WellFormed, Node.Everywhere, Node.EverywhereList,
      Node.InOrder, Node.leaf, Placed.stop]
  obtain ⟨_, _, _, joined⟩ :=
    @changedRanges_normalized letters relettered rfl wellFormed
  have reported : changedSpans letters relettered
      [⟨letters.root, relettered.root, 0, 0⟩] = [⟨0, 1⟩, ⟨1, 2⟩] := by
    rw [changedSpans_eq]
    rfl
  refine ⟨⟨rfl, wellFormed⟩, (joined [⟨0, 1⟩, ⟨1, 2⟩] ?_ ?_).symm⟩
  · rw [reported]
    exact .refl _
  · decide

end Tree

end Reparse
