import Reparse.Proofs.Tree.Below
import Reparse.Tree.Equality
import Reparse.Tree.Shape
import Reparse.Tree.Sharing

/-!
# Equal contents

Nodes of the same content pass the comparison of nodes, whatever their stamps
are.  The other way around a pair that is passed over has to be one node in
fact, so there the stamps matter: no stamp may stand for two nodes.
-/

namespace Reparse

namespace Node

theorem length_contentList (children : List (Placed Node)) :
    (contentList children).length = children.length := by
  induction children with
  | nil => rfl
  | cons _ _ induction =>
      rw [contentList, List.length_cons, induction, List.length_cons]

theorem map_symbol_contentList (children : List (Placed Node)) :
    (contentList children).map (fun placed => placed.item.symbol) =
      children.map fun placed => placed.item.symbol := by
  induction children with
  | nil => rfl
  | cons child rest induction =>
      obtain ⟨offset, node⟩ := child
      cases node
      rw [contentList, List.map_cons, induction, List.map_cons]
      rfl

theorem agrees_of_content {left right : Node}
    (same : left.content = right.content) : left.agrees right = true := by
  cases left
  cases right
  simp only [content, Node.mk.injEq, true_and] at same
  obtain ⟨rfl, rfl, rfl, rfl, contents⟩ := same
  have lengths := congrArg List.length contents
  rw [length_contentList, length_contentList] at lengths
  simp [agrees, lengths]

theorem childCount_of_agrees {left right : Node}
    (agrees : left.agrees right = true) :
    left.children.length = right.children.length := by
  simp only [Node.agrees, Bool.and_eq_true, beq_iff_eq] at agrees
  exact agrees.2

theorem contentList_of_content {left right : Node}
    (same : left.content = right.content) :
    contentList left.children = contentList right.children := by
  cases left
  cases right
  simp only [content, Node.mk.injEq] at same
  exact same.2.2.2.2.2

/-- Children of the same contents are paired one by one. -/
theorem pairChildren_of_content {lefts rights : List (Placed Node)}
    {waiting : List Pair} (same : contentList lefts = contentList rights)
    (alike : ∀ pair ∈ waiting, pair.left.content = pair.right.content) :
    ∃ pairs, pairChildren lefts rights waiting = some pairs ∧
      ∀ pair ∈ pairs, pair.left.content = pair.right.content := by
  induction lefts generalizing rights waiting with
  | nil => exact ⟨waiting, rfl, alike⟩
  | cons left lefts induction =>
      cases rights with
      | nil => cases same
      | cons right rights =>
          simp only [contentList, List.cons.injEq, Placed.mk.injEq] at same
          obtain ⟨⟨offset, first⟩, rest⟩ := same
          rw [pairChildren, if_pos offset]
          exact induction rest (List.forall_mem_cons.mpr ⟨first, alike⟩)

theorem equalPairs_of_content {pairs : List Pair}
    (alike : ∀ pair ∈ pairs, pair.left.content = pair.right.content) :
    equalPairs pairs = true := by
  fun_induction equalPairs pairs with
  | case1 => rfl
  | case2 left right waiting identical induction =>
      exact induction (List.forall_mem_cons.mp alike).2
  | case3 left right waiting different agrees pairs paired induction =>
      obtain ⟨first, rest⟩ := List.forall_mem_cons.mp alike
      obtain ⟨others, found, alikeOthers⟩ :=
        pairChildren_of_content (contentList_of_content first) rest
      rw [paired] at found
      cases found
      exact induction alikeOthers
  | case4 left right waiting different agrees unpaired =>
      obtain ⟨first, rest⟩ := List.forall_mem_cons.mp alike
      obtain ⟨others, found, _⟩ :=
        pairChildren_of_content (contentList_of_content first) rest
      rw [unpaired] at found
      cases found
  | case5 left right waiting different disagrees =>
      exact absurd
        (agrees_of_content (List.forall_mem_cons.mp alike).1) disagrees

/-- Nodes of the same content are equal. -/
theorem equal_of_content {left right : Node}
    (same : left.content = right.content) : left.equal right = true := by
  apply equalPairs_of_content
  intro pair member
  cases List.mem_singleton.mp member
  exact same

/-! ## Nodes that pass -/

/-- Everything below two nodes is as unambiguous as the nodes are. -/
theorem Unambiguous.child {left right : Node}
    (unambiguous : left.Unambiguous right) {first second : Placed Node}
    (member : first ∈ left.children) (memberToo : second ∈ right.children) :
    first.item.Unambiguous second.item := by
  have below := (everywhere_iff.mp unambiguous).2 first member
  obtain ⟨here, deeper⟩ := everywhere_iff_below.mp below
  apply everywhere_iff_below.mpr
  constructor
  · exact (everywhere_iff.mp here).2 second memberToo
  · intro offset node inside
    have outside := deeper offset node inside
    exact (everywhere_iff.mp outside).2 second memberToo

/-- A pair that is passed over is one node. -/
theorem Unambiguous.eq {left right : Node}
    (unambiguous : left.Unambiguous right)
    (identical : left.identical right = true) : left = right := by
  have here := (everywhere_iff.mp unambiguous).1
  exact (everywhere_iff.mp here).1 identical

/-- What holds of all pairs of children and of the pairs that wait already holds
of the pairs that wait next. -/
theorem forall_pairChildren {holds : Node → Node → Prop}
    {lefts rights : List (Placed Node)} {waiting pairs : List Pair}
    (paired : pairChildren lefts rights waiting = some pairs)
    (children : ∀ left ∈ lefts, ∀ right ∈ rights, holds left.item right.item)
    (before : ∀ pair ∈ waiting, holds pair.left pair.right) :
    ∀ pair ∈ pairs, holds pair.left pair.right := by
  induction lefts generalizing rights waiting with
  | nil =>
      cases paired
      exact before
  | cons left lefts induction =>
      cases rights with
      | nil =>
          cases paired
          exact before
      | cons right rights =>
          rw [pairChildren] at paired
          split at paired
          · apply induction paired
            · intro later member other memberOther
              exact children later (List.mem_cons_of_mem _ member) other
                (List.mem_cons_of_mem _ memberOther)
            · have first :=
                children left List.mem_cons_self right List.mem_cons_self
              exact List.forall_mem_cons.mpr ⟨first, before⟩
          · cases paired

/-- Children whose pairs all agree have the same contents, and the pairs that
waited before them agree. -/
theorem contentList_of_pairChildren {lefts rights : List (Placed Node)}
    {waiting pairs : List Pair}
    (paired : pairChildren lefts rights waiting = some pairs)
    (lengths : lefts.length = rights.length)
    (alike : ∀ pair ∈ pairs, pair.left.content = pair.right.content) :
    contentList lefts = contentList rights ∧
      ∀ pair ∈ waiting, pair.left.content = pair.right.content := by
  induction lefts generalizing rights waiting with
  | nil =>
      cases List.length_eq_zero_iff.mp lengths.symm
      cases paired
      exact ⟨rfl, alike⟩
  | cons left lefts induction =>
      cases rights with
      | nil => cases lengths
      | cons right rights =>
          rw [pairChildren] at paired
          split at paired
          · next offset =>
              obtain ⟨rest, before⟩ :=
                induction paired (Nat.succ.inj lengths)
              obtain ⟨first, before⟩ := List.forall_mem_cons.mp before
              have item : left.item.content = right.item.content := first
              refine ⟨?_, before⟩
              rw [contentList, contentList, offset, item, rest]
          · cases paired

/-- Nodes that agree in themselves and in their children have the same
content. -/
theorem content_of_agrees {left right : Node}
    (agrees : left.agrees right = true)
    (children : contentList left.children = contentList right.children) :
    left.content = right.content := by
  cases left
  cases right
  simp only [Node.agrees, Bool.and_eq_true, beq_iff_eq] at agrees
  obtain ⟨⟨⟨⟨symbol, length⟩, lookahead⟩, damaged⟩, _⟩ := agrees
  rw [content, content, symbol, length, lookahead, damaged, children]

/-- Pairs that pass the comparison agree, those passed over as well. -/
theorem content_of_equalPairs {pairs : List Pair}
    (equal : equalPairs pairs = true)
    (unambiguous : ∀ pair ∈ pairs, pair.left.Unambiguous pair.right) :
    ∀ pair ∈ pairs, pair.left.content = pair.right.content := by
  fun_induction equalPairs pairs with
  | case1 => exact List.forall_mem_nil _
  | case2 left right waiting identical induction =>
      obtain ⟨here, later⟩ := List.forall_mem_cons.mp unambiguous
      have same : left = right := here.eq identical
      exact List.forall_mem_cons.mpr
        ⟨congrArg content same, induction equal later⟩
  | case3 left right waiting different agrees pairs paired induction =>
      obtain ⟨here, later⟩ := List.forall_mem_cons.mp unambiguous
      have next := forall_pairChildren paired
        (fun _ member _ memberToo => here.child member memberToo) later
      obtain ⟨children, before⟩ := contentList_of_pairChildren paired
        (childCount_of_agrees agrees) (induction equal next)
      exact List.forall_mem_cons.mpr
        ⟨content_of_agrees agrees children, before⟩
  | case4 => cases equal
  | case5 => cases equal

/-- The comparison decides whether two nodes have the same content. -/
theorem equal_iff_content {left right : Node}
    (unambiguous : left.Unambiguous right) :
    left.equal right = true ↔ left.content = right.content := by
  refine ⟨fun equal => ?_, equal_of_content⟩
  have all := content_of_equalPairs equal
    (List.forall_mem_cons.mpr ⟨unambiguous, List.forall_mem_nil _⟩)
  exact all _ List.mem_cons_self

/-- Among nodes held side by side, whatever is shared within them and between
them, the comparison decides whether two of them agree in everything but
identity, down to the leaves.  So it is an equivalence, and two trees that share
their parts in any other way compare as these do. -/
theorem equal_decides_content {held : Node → Prop}
    (unambiguous : ∀ left, held left → ∀ right, held right →
      left.Unambiguous right) :
    (∀ left, held left → ∀ right, held right →
        (left.equal right = true ↔ left.content = right.content)) ∧
      Equivalence (fun left right : { node // held node } =>
        left.val.equal right.val = true) ∧
      ∀ left, held left → ∀ right, held right →
        ∀ leftToo rightToo : Node, leftToo.Unambiguous rightToo →
          leftToo.content = left.content → rightToo.content = right.content →
            leftToo.equal rightToo = left.equal right := by
  have decides : ∀ left, held left → ∀ right, held right →
      (left.equal right = true ↔ left.content = right.content) :=
    fun left heldLeft right heldRight =>
      equal_iff_content (unambiguous left heldLeft right heldRight)
  refine ⟨decides, ⟨?_, ?_, ?_⟩, ?_⟩
  · intro node
    exact equal_of_content rfl
  · intro left right equal
    have same := (decides _ left.property _ right.property).mp equal
    exact equal_of_content same.symm
  · intro left middle right equal equalToo
    have same := (decides _ left.property _ middle.property).mp equal
    have sameToo := (decides _ middle.property _ right.property).mp equalToo
    exact equal_of_content (same.trans sameToo)
  · intro left heldLeft right heldRight leftToo rightToo separate same sameToo
    rw [Bool.eq_iff_iff, equal_iff_content separate, same, sameToo,
      decides left heldLeft right heldRight]

/-- A group of two letters with a byte between them. -/
def couple (stamp : Nat) (first second : Node) : Node :=
  ⟨stamp, ⟨1⟩, 3, 1, false, [⟨0, first⟩, ⟨2, second⟩]⟩

/-- A group that holds one letter twice equals a group of that letter and a copy
of it, but not one whose second letter was derived from more bytes.  With that
last one a group that shares nothing compares as the first one does. -/
theorem couples_compared :
    let letter := leaf 0 ⟨0⟩ 1 1
    let twice := couple 3 letter letter
    let copied := couple 4 letter (leaf 1 ⟨0⟩ 1 1)
    let longer := couple 5 letter (leaf 2 ⟨0⟩ 1 2)
    let apart := couple 8 (leaf 6 ⟨0⟩ 1 1) (leaf 7 ⟨0⟩ 1 1)
    (∀ left ∈ [twice, copied, longer], ∀ right ∈ [twice, copied, longer],
        left.Unambiguous right) ∧
      twice.equal copied = true ∧ twice.equal longer = false ∧
        apart.Unambiguous longer ∧ apart.equal longer = twice.equal longer := by
  intro letter twice copied longer apart
  have unambiguous : ∀ left ∈ [twice, copied, longer],
      ∀ right ∈ [twice, copied, longer], left.Unambiguous right := by
    simp [twice, copied, longer, letter, couple, leaf, Unambiguous, Everywhere,
      EverywhereList, identical]
  have separate : apart.Unambiguous longer := by
    simp [apart, longer, letter, couple, leaf, Unambiguous, Everywhere,
      EverywhereList, identical]
  obtain ⟨decides, _, alike⟩ := equal_decides_content unambiguous
  have first : twice ∈ [twice, copied, longer] := by simp
  have second : copied ∈ [twice, copied, longer] := by simp
  have third : longer ∈ [twice, copied, longer] := by simp
  have different : twice.content ≠ longer.content := by
    simp [twice, longer, letter, couple, leaf, content, contentList]
  refine ⟨unambiguous, (decides _ first _ second).mpr rfl, ?_, separate,
    alike _ first _ third apart longer separate rfl rfl⟩
  exact Bool.eq_false_iff.mpr fun equal =>
    different ((decides _ first _ third).mp equal)

end Node

end Reparse
