import Reparse.Tree.Basic

/-!
# Differences between trees

Two versions of a tree are compared child by child from the root.  A pair that
is one and the same node is passed over.  Where symbols or numbers of children
differ, or two leaves differ in their bytes, the new node's span has changed.
The changed spans are given in the order of the new text, without empty ones,
and joined where they overlap or touch.
-/

namespace Reparse

/-- Two nodes to compare and where they start in their texts. -/
structure PlacedPair where
  old : Node
  new : Node
  oldStart : Nat
  newStart : Nat

namespace PlacedPair

def oldSpan (pair : PlacedPair) : Span :=
  ⟨pair.oldStart, pair.oldStart + pair.old.length⟩

def newSpan (pair : PlacedPair) : Span :=
  ⟨pair.newStart, pair.newStart + pair.new.length⟩

/-- Whether the nodes cannot be compared child by child. -/
def differsInShape (pair : PlacedPair) : Bool :=
  pair.old.symbol != pair.new.symbol ||
    pair.old.childCount != pair.new.childCount

def differsInText (old new : Tree) (pair : PlacedPair) : Bool :=
  pair.old.length != pair.new.length ||
    old.text? pair.oldSpan != new.text? pair.newSpan

def children (pair : PlacedPair) : List PlacedPair :=
  pair.old.children.zipWith
    (fun old new =>
      ⟨old.item, new.item, pair.oldStart + old.offset,
        pair.newStart + new.offset⟩)
    pair.new.children

end PlacedPair

namespace Difference

def work : List PlacedPair → Nat
  | [] => 0
  | pair :: pairs => pair.old.count + work pairs

theorem work_append (pairs others : List PlacedPair) :
    work (pairs ++ others) = work pairs + work others := by
  induction pairs with
  | nil => rw [List.nil_append, work, Nat.zero_add]
  | cons pair pairs induction =>
      rw [List.cons_append, work, work, induction, Nat.add_assoc]

theorem work_zipWith (oldStart newStart : Nat)
    (olds news : List (Placed Node)) :
    work
        (olds.zipWith
          (fun old new =>
            ⟨old.item, new.item, oldStart + old.offset, newStart + new.offset⟩)
          news) ≤
      Node.countList olds := by
  induction olds generalizing news with
  | nil => simp [work]
  | cons old olds induction =>
      cases news with
      | nil => simp [work]
      | cons new news =>
          have := induction news
          cases old
          simp only [work, Node.countList, List.zipWith_cons_cons] at this ⊢
          omega

theorem work_children_lt (pair : PlacedPair) :
    work pair.children < pair.old.count := by
  have :=
    work_zipWith pair.oldStart pair.newStart pair.old.children pair.new.children
  have := pair.old.count_eq
  simp only [PlacedPair.children]
  omega

/-- The new spans of the pairs that differ, in the order in which the pairs are
met. -/
def changedSpans (old new : Tree) : List PlacedPair → List Span
  | [] => []
  | pair :: waiting =>
      if pair.old.identical pair.new then changedSpans old new waiting
      else if pair.differsInShape then
        pair.newSpan :: changedSpans old new waiting
      else if pair.old.isLeaf then
        if pair.differsInText old new then
          pair.newSpan :: changedSpans old new waiting
        else changedSpans old new waiting
      else changedSpans old new (pair.children ++ waiting)
termination_by pairs => work pairs
decreasing_by
  all_goals
    have := pair.old.count_pos
    have := work_children_lt pair
    simp only [work, work_append]
    omega

/-- Joins spans, sorted by their starts, to a first one as long as they overlap
or touch it. -/
def joinFrom (current : Span) : List Span → List Span
  | [] => [current]
  | span :: rest =>
      if span.start ≤ current.stop then
        joinFrom ⟨current.start, max current.stop span.stop⟩ rest
      else current :: joinFrom span rest

/-- Drops empty spans, sorts the others by their starts, and joins those that
overlap or touch. -/
def normalize (spans : List Span) : List Span :=
  let sorted :=
    (spans.filter fun span => !span.isEmpty).mergeSort fun left right =>
      decide (left.start ≤ right.start)
  match sorted with
  | [] => []
  | first :: rest => joinFrom first rest

end Difference

/-- The spans of the new tree whose structure differs from the old one.  Trees
of different grammars differ in everything. -/
def Tree.changedRanges (old new : Tree) : List Span :=
  if old.sameGrammar new then
    Difference.normalize
      (Difference.changedSpans old new [⟨old.root, new.root, 0, 0⟩])
  else Difference.normalize [⟨0, max old.length new.length⟩]

end Reparse
