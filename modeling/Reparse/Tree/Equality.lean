import Reparse.Tree.Node

/-!
# Structural equality

Two nodes are structurally equal when they agree in everything but identity, and
so do their children one by one.  The comparison keeps a list of pairs still to
compare; a pair that is one and the same node is passed over.
-/

namespace Reparse

namespace Node

structure Pair where
  left : Node
  right : Node

/-- Whether two nodes agree apart from identity and what lies below them. -/
def agrees (left right : Node) : Bool :=
  left.symbol == right.symbol && left.length == right.length &&
    left.lookahead == right.lookahead && left.damaged == right.damaged &&
    left.children.length == right.children.length

/-- The pairs of children, the last one first, in front of the pairs that wait
already; nothing when two children begin at different offsets. -/
def pairChildren :
    List (Placed Node) → List (Placed Node) → List Pair → Option (List Pair)
  | left :: lefts, right :: rights, waiting =>
      if left.offset = right.offset then
        pairChildren lefts rights (⟨left.item, right.item⟩ :: waiting)
      else none
  | _, _, waiting => some waiting

def pairWork : List Pair → Nat
  | [] => 0
  | pair :: pairs => pair.left.count + pairWork pairs

theorem pairWork_pairChildren {lefts rights : List (Placed Node)}
    {waiting pairs : List Pair}
    (paired : pairChildren lefts rights waiting = some pairs) :
    pairWork pairs ≤ countList lefts + pairWork waiting := by
  induction lefts generalizing rights waiting with
  | nil =>
      simp only [pairChildren, Option.some.injEq] at paired
      rw [← paired]
      omega
  | cons left lefts induction =>
      cases rights with
      | nil =>
          simp only [pairChildren, Option.some.injEq] at paired
          rw [← paired]
          omega
      | cons right rights =>
          simp only [pairChildren] at paired
          split at paired
          · have := induction paired
            cases left
            simp only [pairWork] at this
            simp only [countList]
            omega
          · simp at paired

/-- Compares all pairs, the first one first. -/
def equalPairs : List Pair → Bool
  | [] => true
  | ⟨left, right⟩ :: waiting =>
      if left.identical right then equalPairs waiting
      else if left.agrees right then
        match _ : pairChildren left.children right.children waiting with
        | some pairs => equalPairs pairs
        | none => false
      else false
termination_by pairs => pairWork pairs
decreasing_by
  · have := left.count_pos
    simp only [pairWork]
    omega
  · have bound := pairWork_pairChildren ‹_›
    have := left.count_eq
    simp only [pairWork]
    omega

/-- Whether two nodes agree in everything but identity, down to the leaves. -/
def equal (left right : Node) : Bool := equalPairs [⟨left, right⟩]

end Node

end Reparse
