import Reparse.Tree.Difference

/-!
# Comparison by recursion

The comparison of two nodes, child by child, said by recursion on the old one.
It reports the same pairs as the comparison with a list of waiting pairs, but
without an order of its own.
-/

namespace Reparse

namespace Difference

mutual

/-- The new spans of the pairs that differ at or below a pair of nodes. -/
def reported (old new : Tree) (oldStart newStart : Nat) :
    Node → Node → List Span
  | oldNode@⟨_, _, _, _, _, oldChildren⟩, newNode =>
      let pair : PlacedPair := ⟨oldNode, newNode, oldStart, newStart⟩
      if oldNode.identical newNode then []
      else if pair.differsInShape then [pair.newSpan]
      else if oldNode.isLeaf then
        if pair.differsInText old new then [pair.newSpan] else []
      else reportedList old new oldStart newStart oldChildren newNode.children

/-- List counterpart of `Difference.reported`, for children compared one by
one. -/
def reportedList (old new : Tree) (oldStart newStart : Nat) :
    List (Placed Node) → List (Placed Node) → List Span
  | ⟨oldOffset, oldNode⟩ :: olds, newChild :: news =>
      reported old new (oldStart + oldOffset) (newStart + newChild.offset)
          oldNode newChild.item ++
        reportedList old new oldStart newStart olds news
  | _, _ => []

end

def covers (spans : List Span) (offset : Nat) : Bool :=
  spans.any fun span => span.contains offset

end Difference

/-- A comparison of the first pair, child by child, reports the second one: it
is met below pairs that agree in symbol and number of children, and it differs
in one of the two or, without children, in length or bytes.  A pair of one and
the same node is passed over. -/
inductive PlacedPair.Reports (old new : Tree) :
    PlacedPair → PlacedPair → Prop where
  | shape {pair : PlacedPair} :
      pair.old.stamp ≠ pair.new.stamp →
      (pair.old.symbol ≠ pair.new.symbol ∨
        pair.old.childCount ≠ pair.new.childCount) →
      Reports old new pair pair
  | text {pair : PlacedPair} :
      pair.old.stamp ≠ pair.new.stamp → pair.old.symbol = pair.new.symbol →
      pair.old.childCount = 0 → pair.new.childCount = 0 →
      (pair.old.length ≠ pair.new.length ∨
        old.text? pair.oldSpan ≠ new.text? pair.newSpan) →
      Reports old new pair pair
  | child {pair reported : PlacedPair} {index : Nat}
      {left right : Placed Node} :
      pair.old.stamp ≠ pair.new.stamp → pair.old.symbol = pair.new.symbol →
      pair.old.childCount = pair.new.childCount →
      pair.old.child? index = some left → pair.new.child? index = some right →
      Reports old new
        ⟨left.item, right.item, pair.oldStart + left.offset,
          pair.newStart + right.offset⟩
        reported →
      Reports old new pair reported

def Placed.span (placed : Placed Node) : Span := ⟨placed.offset, placed.stop⟩

/-- Two nodes, each at its place in its tree, have the same symbol and the same
number of children, and if they have no children, the same bytes. -/
structure Tree.Corresponds (old new : Tree) (left right : Placed Node) :
    Prop where
  symbol : left.item.symbol = right.item.symbol
  childCount : left.item.childCount = right.item.childCount
  bytes : left.item.isLeaf = true →
    ∃ bytes, old.text? left.span = some bytes ∧
      new.text? right.span = some bytes

end Reparse
