import Mathlib.Data.List.Basic
import Reparse.Proofs.Token.Locality
import Reparse.Proofs.Tree.Damage
import Reparse.Tree.Comparison
import Reparse.Tree.Path
import Reparse.Tree.Shape

/-!
# What a difference reports

The comparison with a list of waiting pairs reports what the comparison by
recursion does.  It passes over pairs of one and the same node.  Where such a
node lies over the same bytes in both texts nothing is lost by that: a
comparison of all pairs reports the same.  And where that one reports nothing,
both trees agree.
-/

namespace Reparse

namespace PlacedPair

/-- What the comparison reports at or below the pair. -/
def reported (old new : Tree) (pair : PlacedPair) : List Span :=
  Difference.reported old new pair.oldStart pair.newStart pair.old pair.new

/-- The pairs of some children. -/
def paired (oldStart newStart : Nat) (olds news : List (Placed Node)) :
    List PlacedPair :=
  olds.zipWith (fun left right =>
    ⟨left.item, right.item, oldStart + left.offset, newStart + right.offset⟩)
    news

theorem paired_cons (oldStart newStart : Nat) (left right : Placed Node)
    (olds news : List (Placed Node)) :
    paired oldStart newStart (left :: olds) (right :: news) =
      ⟨left.item, right.item, oldStart + left.offset,
        newStart + right.offset⟩ :: paired oldStart newStart olds news :=
  rfl

theorem children_eq (pair : PlacedPair) :
    pair.children = paired pair.oldStart pair.newStart pair.old.children
      pair.new.children :=
  rfl

theorem mem_children {pair child : PlacedPair}
    (member : child ∈ pair.children) :
    ∃ index left right, pair.old.child? index = some left ∧
      pair.new.child? index = some right ∧
        child = ⟨left.item, right.item, pair.oldStart + left.offset,
          pair.newStart + right.offset⟩ := by
  obtain ⟨index, inside, rfl⟩ := List.getElem_of_mem member
  simp only [children, List.length_zipWith] at inside
  have first : index < pair.old.children.length := by omega
  have second : index < pair.new.children.length := by omega
  refine ⟨index, pair.old.children[index], pair.new.children[index],
    List.getElem?_eq_getElem first, List.getElem?_eq_getElem second, ?_⟩
  simp only [children, List.getElem_zipWith]

theorem children_of_child? {pair : PlacedPair} {index : Nat}
    {left right : Placed Node} (leftHere : pair.old.child? index = some left)
    (rightHere : pair.new.child? index = some right) :
    (⟨left.item, right.item, pair.oldStart + left.offset,
      pair.newStart + right.offset⟩ : PlacedPair) ∈ pair.children := by
  apply List.mem_of_getElem?
  rw [children, List.getElem?_zipWith]
  rw [Node.child?] at leftHere rightHere
  rw [leftHere, rightHere]

theorem count_lt_of_mem_children {pair child : PlacedPair}
    (member : child ∈ pair.children) : child.old.count < pair.old.count := by
  obtain ⟨index, left, right, leftHere, _, rfl⟩ := mem_children member
  exact Node.count_lt_of_mem (List.mem_of_getElem? leftHere)

/-- What holds of a pair as soon as it holds of its pairs of children holds of
every pair. -/
theorem induction_on_children {motive : PlacedPair → Prop}
    (step : ∀ pair, (∀ child ∈ pair.children, motive child) → motive pair)
    (pair : PlacedPair) : motive pair :=
  step pair fun child _ => induction_on_children step child
termination_by pair.old.count
decreasing_by exact count_lt_of_mem_children ‹_›

/-- What a comparison reports at or below the pair if it passes no pair over. -/
def compared (old new : Tree) (pair : PlacedPair) : List Span :=
  if pair.differsInShape then [pair.newSpan]
  else if pair.old.isLeaf then
    if pair.differsInText old new then [pair.newSpan] else []
  else pair.children.attach.flatMap fun child => child.1.compared old new
termination_by pair.old.count
decreasing_by exact count_lt_of_mem_children child.2

section

variable {old new : Tree} {pair : PlacedPair}

theorem compared_eq :
    pair.compared old new =
      if pair.differsInShape then [pair.newSpan]
      else if pair.old.isLeaf then
        if pair.differsInText old new then [pair.newSpan] else []
      else pair.children.flatMap fun child => child.compared old new := by
  rw [compared]
  simp only [List.flatMap_subtype, List.unattach_attach]

theorem reportedList_eq (oldStart newStart : Nat)
    (olds news : List (Placed Node)) :
    Difference.reportedList old new oldStart newStart olds news =
      (paired oldStart newStart olds news).flatMap fun child =>
        child.reported old new := by
  induction olds generalizing news with
  | nil =>
      simp only [Difference.reportedList, paired, List.zipWith_nil_left,
        List.flatMap_nil]
  | cons left olds induction =>
      cases news with
      | nil =>
          simp only [Difference.reportedList, paired, List.zipWith_nil_right,
            List.flatMap_nil]
      | cons right news =>
          rw [Difference.reportedList, induction, paired_cons,
            List.flatMap_cons]
          rfl

theorem reported_eq :
    pair.reported old new =
      if pair.old.identical pair.new then []
      else if pair.differsInShape then [pair.newSpan]
      else if pair.old.isLeaf then
        if pair.differsInText old new then [pair.newSpan] else []
      else pair.children.flatMap fun child => child.reported old new := by
  obtain ⟨⟨stamp, symbol, length, lookahead, damaged, olds⟩, right, oldStart,
    newStart⟩ := pair
  simp only [reported, Difference.reported, reportedList_eq, children_eq]

end

end PlacedPair

namespace Difference

/-- The comparison with waiting pairs reports what the recursion does. -/
theorem changedSpans_eq (old new : Tree) (pairs : List PlacedPair) :
    changedSpans old new pairs =
      pairs.flatMap fun pair => pair.reported old new := by
  fun_induction changedSpans old new pairs with
  | case1 => rfl
  | case2 pair waiting identical induction =>
      rw [List.flatMap_cons, PlacedPair.reported_eq, if_pos identical,
        List.nil_append, induction]
  | case3 pair waiting different shape induction =>
      rw [List.flatMap_cons, PlacedPair.reported_eq, if_neg different,
        if_pos shape, induction]
      rfl
  | case4 pair waiting different sameShape leaf text induction =>
      rw [List.flatMap_cons, PlacedPair.reported_eq, if_neg different,
        if_neg sameShape, if_pos leaf, if_pos text, induction]
      rfl
  | case5 pair waiting different sameShape leaf sameText induction =>
      rw [List.flatMap_cons, PlacedPair.reported_eq, if_neg different,
        if_neg sameShape, if_pos leaf, if_neg sameText, List.nil_append,
        induction]
  | case6 pair waiting different sameShape inner induction =>
      rw [List.flatMap_cons, PlacedPair.reported_eq, if_neg different,
        if_neg sameShape, if_neg inner, induction, List.flatMap_append]

end Difference

namespace Node

theorem of_shape {left right : Node} (same : left.shape = right.shape) :
    left.symbol = right.symbol ∧ left.length = right.length ∧
      shapeList left.children = shapeList right.children := by
  cases left
  cases right
  simp only [shape, Node.mk.injEq, true_and] at same
  exact ⟨same.1, same.2.1, same.2.2.2⟩

theorem length_shapeList (children : List (Placed Node)) :
    (shapeList children).length = children.length := by
  induction children with
  | nil => rfl
  | cons _ _ induction =>
      rw [shapeList, List.length_cons, induction, List.length_cons]

theorem childCount_of_shape {left right : Node}
    (same : left.shape = right.shape) : left.childCount = right.childCount := by
  have lengths := congrArg List.length (of_shape same).2.2
  rwa [length_shapeList, length_shapeList] at lengths

end Node

namespace Tree

theorem text?_of_inside {tree : Tree} {start length : Nat}
    (inside : start + length ≤ tree.bytes.length) :
    tree.text? ⟨start, start + length⟩ =
      some ((tree.bytes.drop start).take length) := by
  rw [text?_eq, if_pos ⟨Nat.le_add_right _ _, inside⟩, Span.length,
    Nat.add_sub_cancel_left]

theorem length_of_text? {tree : Tree} {span : Span} {bytes : List UInt8}
    (found : tree.text? span = some bytes) : bytes.length = span.length := by
  rw [text?_eq] at found
  split at found
  · next inside =>
      cases found
      rw [List.length_take, List.length_drop, Span.length]
      omega
  · cases found

/-- A node lies in both texts, over the same bytes. -/
structure Shares (old new : Tree) (oldStart newStart : Nat) (node : Node) :
    Prop where
  nested : node.Nested
  oldInside : oldStart + node.length ≤ old.bytes.length
  newInside : newStart + node.length ≤ new.bytes.length
  agree : AgreeFor node.length (old.bytes.drop oldStart)
    (new.bytes.drop newStart)

section

variable {old new : Tree} {oldStart newStart : Nat} {node : Node}
  (shares : old.Shares new oldStart newStart node)

include shares

theorem Shares.child {child : Placed Node} (member : child ∈ node.children) :
    old.Shares new (oldStart + child.offset) (newStart + child.offset)
      child.item := by
  obtain ⟨inside, nestedChildren⟩ := Node.nested_iff.mp shares.nested
  have within := inside child member
  have oldInside := shares.oldInside
  have newInside := shares.newInside
  have agree := shares.agree.drop child.offset
  rw [List.drop_drop, List.drop_drop] at agree
  simp only [Placed.stop] at within
  exact ⟨nestedChildren child member, by omega, by omega,
    agree.mono (by omega)⟩

theorem Shares.text?_eq :
    old.text? ⟨oldStart, oldStart + node.length⟩ =
      new.text? ⟨newStart, newStart + node.length⟩ := by
  rw [text?_of_inside shares.oldInside, text?_of_inside shares.newInside,
    shares.agree.take_eq]

end

end Tree

namespace PlacedPair

/-- Nodes of one stamp, at the pair or below it, are the same node over the same
bytes. -/
structure Akin (old new : Tree) (pair : PlacedPair) : Prop where
  top : pair.old.stamp = pair.new.stamp →
    pair.old = pair.new ∧
      old.Shares new pair.oldStart pair.newStart pair.old
  below : ∀ {place offset : Nat} {node twin : Node},
    pair.old.Below place node → pair.new.Below offset twin →
    node.stamp = twin.stamp →
    node = twin ∧
      old.Shares new (pair.oldStart + place) (pair.newStart + offset) node

section

variable {old new : Tree} {pair : PlacedPair}

theorem Akin.child (akin : pair.Akin old new) {child : PlacedPair}
    (member : child ∈ pair.children) : child.Akin old new := by
  obtain ⟨index, left, right, leftHere, rightHere, rfl⟩ := mem_children member
  have memberLeft := List.mem_of_getElem? leftHere
  have memberRight := List.mem_of_getElem? rightHere
  constructor
  · exact akin.below (.child memberLeft) (.child memberRight)
  · intro place offset node twin below belowTwin same
    simp only [Nat.add_assoc]
    exact akin.below (.deeper memberLeft below) (.deeper memberRight belowTwin)
      same

/-- A node over the same bytes is compared to itself without a difference. -/
theorem compared_self (same : pair.old = pair.new)
    (shares : old.Shares new pair.oldStart pair.newStart pair.old) :
    pair.compared old new = [] := by
  induction pair using induction_on_children with
  | step pair induction =>
      have sameShape : ¬pair.differsInShape = true := by
        simp [differsInShape, same]
      have sameText : ¬pair.differsInText old new = true := by
        have texts := shares.text?_eq
        simp only [differsInText, oldSpan, newSpan, ← same, texts]
        simp
      rw [compared_eq, if_neg sameShape, if_neg sameText, ite_eq_left_iff,
        List.flatMap_eq_nil_iff]
      intro _ child member
      obtain ⟨index, left, right, leftHere, rightHere, rfl⟩ :=
        mem_children member
      rw [← same, leftHere] at rightHere
      cases rightHere
      exact induction _ member rfl
        (shares.child (List.mem_of_getElem? leftHere))

/-- Nothing is lost where pairs are passed over. -/
theorem reported_eq_compared (akin : pair.Akin old new) :
    pair.reported old new = pair.compared old new := by
  induction pair using induction_on_children with
  | step pair induction =>
      by_cases identical : pair.old.identical pair.new = true
      · have stamps := eq_of_beq identical
        obtain ⟨same, shares⟩ := akin.top stamps
        rw [reported_eq, if_pos identical, compared_self same shares]
      · have children : (pair.children.flatMap fun child =>
            child.reported old new) =
            pair.children.flatMap fun child => child.compared old new :=
          List.flatMap_congr fun child member =>
            induction child member (akin.child member)
        rw [reported_eq, if_neg identical, children, compared_eq]

theorem flatMap_paired_congr {other : Tree} {oldStart newStart : Nat}
    {olds news others : List (Placed Node)}
    (shapes : Node.shapeList news = Node.shapeList others)
    (alike : ∀ child ∈ paired oldStart newStart olds news, ∀ node,
      child.new.shape = node.shape →
      child.compared old new =
        ({ child with new := node } : PlacedPair).compared old other) :
    (paired oldStart newStart olds news).flatMap
        (fun child => child.compared old new) =
      (paired oldStart newStart olds others).flatMap
        fun child => child.compared old other := by
  induction olds generalizing news others with
  | nil => rfl
  | cons left olds induction =>
      cases news with
      | nil =>
          cases others with
          | nil => rfl
          | cons => cases shapes
      | cons right news =>
          cases others with
          | nil => cases shapes
          | cons twin others =>
              simp only [Node.shapeList, List.cons.injEq, Placed.mk.injEq]
                at shapes
              obtain ⟨⟨offset, shape⟩, rest⟩ := shapes
              rw [paired_cons] at alike
              obtain ⟨first, later⟩ := List.forall_mem_cons.mp alike
              rw [paired_cons, paired_cons, List.flatMap_cons,
                List.flatMap_cons, first twin.item shape,
                induction rest later, offset]

/-- Comparing all pairs depends on the shape of the new tree and on its bytes
only. -/
theorem compared_congr {other : Tree} (bytes : new.bytes = other.bytes)
    {node : Node} (shape : pair.new.shape = node.shape) :
    pair.compared old new =
      ({ pair with new := node } : PlacedPair).compared old other := by
  induction pair using induction_on_children generalizing node with
  | step pair induction =>
      obtain ⟨symbol, length, shapes⟩ := Node.of_shape shape
      have childCount := Node.childCount_of_shape shape
      have children := @flatMap_paired_congr old new other pair.oldStart
        pair.newStart pair.old.children _ _ shapes induction
      rw [compared_eq, compared_eq, children_eq, children_eq, children]
      simp only [differsInShape, differsInText, newSpan, symbol, length,
        childCount, Tree.text?_eq, bytes]
      rfl

/-- What is reported are spans of the new node and of nodes below it. -/
theorem mem_compared {span : Span} (member : span ∈ pair.compared old new) :
    span = pair.newSpan ∨
      ∃ offset node, pair.new.Below offset node ∧
        span = (⟨pair.newStart + offset, node⟩ : Placed Node).span := by
  induction pair using induction_on_children with
  | step pair induction =>
      rw [compared_eq] at member
      split at member
      · exact .inl (List.mem_singleton.mp member)
      · split at member
        · split at member
          · exact .inl (List.mem_singleton.mp member)
          · cases member
        · obtain ⟨child, memberChild, inside⟩ := List.mem_flatMap.mp member
          have found := induction child memberChild inside
          obtain ⟨index, left, right, _, rightHere, rfl⟩ :=
            mem_children memberChild
          have memberRight := List.mem_of_getElem? rightHere
          rcases found with rfl | ⟨offset, node, below, rfl⟩
          · exact .inr ⟨right.offset, right.item, .child memberRight, rfl⟩
          · refine .inr ⟨right.offset + offset, node,
              .deeper memberRight below, ?_⟩
            rw [Nat.add_assoc]

end

end PlacedPair

namespace Difference

/-- Joining spans loses none of them. -/
theorem exists_joined {current span : Span} {rest : List Span}
    (sorted : (current :: rest).Pairwise fun left right =>
      left.start ≤ right.start)
    (member : span ∈ current :: rest) :
    ∃ range ∈ joinFrom current rest,
      range.start ≤ span.start ∧ span.stop ≤ range.stop := by
  induction rest generalizing current span with
  | nil =>
      cases List.mem_singleton.mp member
      exact ⟨current, List.mem_cons_self, Nat.le_refl _, Nat.le_refl _⟩
  | cons next rest induction =>
      obtain ⟨before, sortedRest⟩ := List.pairwise_cons.mp sorted
      obtain ⟨nextBefore, sortedLater⟩ := List.pairwise_cons.mp sortedRest
      obtain ⟨first, later⟩ := List.forall_mem_cons.mp before
      rw [joinFrom]
      split
      -- The joined span takes in both, and it starts where the first one does.
      · have sortedJoined :
            ((⟨current.start, max current.stop next.stop⟩ : Span) ::
              rest).Pairwise fun left right => left.start ≤ right.start :=
          List.pairwise_cons.mpr ⟨later, sortedLater⟩
        obtain ⟨range, memberRange, starts, stops⟩ :=
          induction sortedJoined List.mem_cons_self
        simp only at starts stops
        rcases List.mem_cons.mp member with rfl | inside
        · exact ⟨range, memberRange, starts, by omega⟩
        · rcases List.mem_cons.mp inside with rfl | behind
          · exact ⟨range, memberRange, by omega, by omega⟩
          · exact induction sortedJoined (List.mem_cons_of_mem _ behind)
      · rcases List.mem_cons.mp member with rfl | inside
        · exact ⟨span, List.mem_cons_self, Nat.le_refl _, Nat.le_refl _⟩
        · obtain ⟨range, memberRange, bounds⟩ := induction sortedRest inside
          exact ⟨range, List.mem_cons_of_mem _ memberRange, bounds⟩

theorem pairwise_mergeSort_start (spans : List Span) :
    (spans.mergeSort fun left right =>
      decide (left.start ≤ right.start)).Pairwise fun left right =>
        left.start ≤ right.start := by
  have sorted := @List.pairwise_mergeSort _
    (fun left right : Span => decide (left.start ≤ right.start))
    (fun first second third before after => by
      rw [decide_eq_true_eq] at before after ⊢
      exact Nat.le_trans before after)
    (fun first second => by
      rw [Bool.or_eq_true, decide_eq_true_eq, decide_eq_true_eq]
      exact Nat.le_total _ _) spans
  refine sorted.imp fun {left right} before => ?_
  exact of_decide_eq_true before

/-- A span that is not empty lies within one of the normalized ranges. -/
theorem exists_range {spans : List Span} {span : Span} (member : span ∈ spans)
    (filled : span.isEmpty = false) :
    ∃ range ∈ normalize spans,
      range.start ≤ span.start ∧ span.stop ≤ range.stop := by
  have sorted := pairwise_mergeSort_start
    (spans.filter fun span => !span.isEmpty)
  have inside : span ∈ (spans.filter fun span => !span.isEmpty).mergeSort
      fun left right => decide (left.start ≤ right.start) := by
    rw [List.mem_mergeSort, List.mem_filter, filled]
    exact ⟨member, rfl⟩
  simp only [normalize]
  split
  · next none =>
      rw [none] at inside
      cases inside
  · next first rest found =>
      rw [found] at sorted inside
      exact exists_joined sorted inside

theorem normalize_eq_nil {spans : List Span}
    (empty : ∀ span ∈ spans, span.isEmpty = true) : normalize spans = [] := by
  have none : (spans.filter fun span => !span.isEmpty) = [] := by
    rw [List.filter_eq_nil_iff]
    intro span member
    rw [empty span member]
    exact Bool.false_ne_true
  rw [normalize, none, List.mergeSort_nil]

end Difference

end Reparse
