import Reparse.Proofs.Tree.Difference

/-!
# Trees without a difference

What a comparison of all pairs leaves out is the same in both trees.  A node
whose pair is not reported, nor any pair above it, has a counterpart at the end
of the same path; and nothing is reported exactly when all nodes have one.
-/

namespace Reparse

namespace Node

theorem locate?_cons (node : Node) (start index : Nat) (path : List Nat) :
    node.locate? start (index :: path) =
      (node.child? index).bind fun child =>
        child.item.locate? (start + child.offset) path := by
  rw [locate?]
  cases node.child? index <;> rfl

theorem locate?_append (node : Node) (start : Nat) (upper lower : List Nat) :
    node.locate? start (upper ++ lower) =
      (node.locate? start upper).bind fun placed =>
        placed.item.locate? placed.offset lower := by
  induction upper generalizing node start with
  | nil => rfl
  | cons index upper induction =>
      rw [List.cons_append, locate?_cons, locate?_cons]
      cases node.child? index with
      | none => rfl
      | some child => exact induction child.item (start + child.offset)

/-- What a path leads to is the same from every start, up to the distance. -/
theorem locate?_eq_map (node : Node) (start : Nat) (path : List Nat) :
    node.locate? start path =
      (node.locate? 0 path).map fun placed =>
        ⟨start + placed.offset, placed.item⟩ := by
  induction path generalizing node start with
  | nil => rfl
  | cons index path induction =>
      rw [locate?_cons, locate?_cons]
      cases node.child? index with
      | none => rfl
      | some child =>
          rw [Option.bind_some, Option.bind_some, induction,
            induction child.item (0 + child.offset), Option.map_map]
          apply Option.map_congr
          intro placed _
          simp only [Function.comp_apply, Placed.mk.injEq, and_true]
          omega

theorem exists_locate?_of_prefix {node : Node} {start : Nat}
    {upper path : List Nat} {placed : Placed Node} (before : upper <+: path)
    (found : node.locate? start path = some placed) :
    ∃ around, node.locate? start upper = some around := by
  obtain ⟨lower, rfl⟩ := before
  rw [locate?_append, Option.bind_eq_some_iff] at found
  obtain ⟨around, above, _⟩ := found
  exact ⟨around, above⟩

/-- A path that is not empty leads to a node below. -/
theorem below_of_locate? {node : Node} {start index : Nat} {path : List Nat}
    {placed : Placed Node}
    (found : node.locate? start (index :: path) = some placed) :
    ∃ offset, node.Below offset placed.item ∧
      placed.offset = start + offset := by
  induction path generalizing node start index with
  | nil =>
      rw [locate?_cons, Option.bind_eq_some_iff] at found
      obtain ⟨child, here, same⟩ := found
      cases same
      exact ⟨child.offset, .child (List.mem_of_getElem? here), rfl⟩
  | cons next path induction =>
      rw [locate?_cons, Option.bind_eq_some_iff] at found
      obtain ⟨child, here, inner⟩ := found
      obtain ⟨offset, below, same⟩ := induction inner
      refine ⟨child.offset + offset,
        .deeper (List.mem_of_getElem? here) below, ?_⟩
      rw [same, Nat.add_assoc]

/-- The nodes on the way to a node lie around it. -/
theorem locate?_around {node : Node} {start : Nat} {upper path : List Nat}
    {around placed : Placed Node} (nested : node.Nested)
    (before : upper <+: path) (above : node.locate? start upper = some around)
    (found : node.locate? start path = some placed) :
    around.offset ≤ placed.offset ∧ placed.stop ≤ around.stop := by
  obtain ⟨lower, rfl⟩ := before
  have nestedAround : around.item.Nested := by
    cases upper with
    | nil =>
        cases above
        exact nested
    | cons index upper =>
        obtain ⟨_, below, _⟩ := below_of_locate? above
        exact (below.within nested).2
  rw [locate?_append, above] at found
  cases lower with
  | nil =>
      cases found
      exact ⟨Nat.le_refl _, Nat.le_refl _⟩
  | cons index lower =>
      obtain ⟨offset, below, same⟩ := below_of_locate? found
      have inside := (below.within nestedAround).1
      simp only [Placed.stop]
      omega

end Node

theorem Tree.Corresponds.isLeaf {old new : Tree} {left right : Placed Node}
    (corresponds : old.Corresponds new left right)
    (isLeaf : right.item.isLeaf = true) : left.item.isLeaf = true := by
  rw [Node.isLeaf, List.isEmpty_iff_length_eq_zero] at isLeaf ⊢
  exact corresponds.childCount.trans isLeaf

namespace PlacedPair

section

variable {old new : Tree} {pair : PlacedPair}

theorem not_differsInShape_of_not_mem
    (unreported : pair.newSpan ∉ pair.compared old new) :
    ¬pair.differsInShape = true := by
  intro different
  apply unreported
  rw [compared_eq, if_pos different]
  exact List.mem_cons_self

theorem not_differsInShape_iff :
    ¬pair.differsInShape = true ↔
      pair.old.symbol = pair.new.symbol ∧
        pair.old.childCount = pair.new.childCount := by
  rw [Bool.not_eq_true, differsInShape, Bool.or_eq_false_iff,
    bne_eq_false_iff_eq, bne_eq_false_iff_eq]

theorem not_differsInText_iff :
    ¬pair.differsInText old new = true ↔
      pair.old.length = pair.new.length ∧
        old.text? pair.oldSpan = new.text? pair.newSpan := by
  rw [Bool.not_eq_true, differsInText, Bool.or_eq_false_iff,
    bne_eq_false_iff_eq, bne_eq_false_iff_eq]

theorem corresponds_of_not_mem
    (inside : pair.newStart + pair.new.length ≤ new.bytes.length)
    (unreported : pair.newSpan ∉ pair.compared old new) :
    old.Corresponds new ⟨pair.oldStart, pair.old⟩
      ⟨pair.newStart, pair.new⟩ := by
  have sameShape := not_differsInShape_of_not_mem unreported
  obtain ⟨symbol, childCount⟩ := not_differsInShape_iff.mp sameShape
  refine ⟨symbol, childCount, fun leaf => ?_⟩
  have sameText : ¬pair.differsInText old new = true := by
    intro different
    apply unreported
    rw [compared_eq, if_neg sameShape, if_pos leaf, if_pos different]
    exact List.mem_cons_self
  obtain ⟨_, texts⟩ := not_differsInText_iff.mp sameText
  have text := Tree.text?_of_inside inside
  exact ⟨_, texts.trans text, text⟩

/-- A pair whose nodes have equally many children has a pair of children at an
index, or none of its nodes has a child there. -/
theorem child?_cases
    (childCount : pair.old.childCount = pair.new.childCount) (index : Nat) :
    (pair.old.child? index = none ∧ pair.new.child? index = none) ∨
      ∃ left right, pair.old.child? index = some left ∧
        pair.new.child? index = some right := by
  rw [Node.childCount, Node.childCount] at childCount
  by_cases within : index < pair.new.children.length
  · right
    exact ⟨_, _, List.getElem?_eq_getElem (childCount ▸ within),
      List.getElem?_eq_getElem within⟩
  · left
    constructor
    · apply List.getElem?_eq_none
      omega
    · apply List.getElem?_eq_none
      omega

theorem mem_compared_of_child {child : PlacedPair} {span : Span}
    (sameShape : ¬pair.differsInShape = true) (member : child ∈ pair.children)
    (reported : span ∈ child.compared old new) :
    span ∈ pair.compared old new := by
  have inner : ¬pair.old.isLeaf = true := by
    intro leaf
    obtain ⟨index, left, _, leftHere, _, _⟩ := mem_children member
    have inside := List.mem_of_getElem? leftHere
    rw [List.isEmpty_iff.mp leaf] at inside
    cases inside
  rw [compared_eq, if_neg sameShape, if_neg inner]
  exact List.mem_flatMap.mpr ⟨child, member, reported⟩

/-- If neither the pair at the end of the path nor any on the way to it is
reported, the path leads to nodes that correspond, or nowhere in both trees. -/
theorem rel_locate? {path : List Nat}
    (inside : pair.newStart + pair.new.length ≤ new.bytes.length)
    (nested : pair.new.Nested)
    (unreported : ∀ upper, upper <+: path → ∀ placed,
      pair.new.locate? pair.newStart upper = some placed →
      placed.span ∉ pair.compared old new) :
    Option.Rel (old.Corresponds new) (pair.old.locate? pair.oldStart path)
      (pair.new.locate? pair.newStart path) := by
  induction path generalizing pair with
  | nil =>
      apply Option.Rel.some
      apply corresponds_of_not_mem inside
      exact unreported [] List.nil_prefix _ rfl
  | cons index path induction =>
      have top := unreported [] List.nil_prefix _ rfl
      have sameShape := not_differsInShape_of_not_mem top
      obtain ⟨_, childCount⟩ := not_differsInShape_iff.mp sameShape
      rw [Node.locate?_cons, Node.locate?_cons]
      rcases child?_cases childCount index with
        ⟨leftNone, rightNone⟩ | ⟨left, right, leftHere, rightHere⟩
      · rw [leftNone, rightNone]
        exact .none
      · rw [leftHere, rightHere]
        have member := children_of_child? leftHere rightHere
        have memberRight := List.mem_of_getElem? rightHere
        obtain ⟨within, nestedChildren⟩ := Node.nested_iff.mp nested
        have stop := within right memberRight
        simp only [Placed.stop] at stop
        apply @induction ⟨left.item, right.item, pair.oldStart + left.offset,
          pair.newStart + right.offset⟩
        · simp only
          omega
        · exact nestedChildren right memberRight
        · intro upper before placed found reported
          have prefixed := (List.prefix_cons_inj index).mpr before
          refine unreported (index :: upper) prefixed placed ?_
            (mem_compared_of_child sameShape member reported)
          rw [Node.locate?_cons, rightHere]
          exact found

/-- Nothing is reported if all nodes correspond. -/
theorem compared_eq_nil
    (correspond : ∀ path,
      Option.Rel (old.Corresponds new) (pair.old.locate? pair.oldStart path)
        (pair.new.locate? pair.newStart path)) :
    pair.compared old new = [] := by
  induction pair using induction_on_children with
  | step pair induction =>
      have top := correspond []
      cases top with
      | some corresponds =>
          obtain ⟨symbol, childCount, bytes⟩ := corresponds
          have sameShape := not_differsInShape_iff.mpr ⟨symbol, childCount⟩
          rw [compared_eq, if_neg sameShape]
          by_cases leaf : pair.old.isLeaf = true
          · obtain ⟨text, oldText, newText⟩ := bytes leaf
            have lengths := (Tree.length_of_text? oldText).symm.trans
              (Tree.length_of_text? newText)
            simp only [Placed.span, Placed.stop, Span.length,
              Nat.add_sub_cancel_left] at lengths
            have sameText : ¬pair.differsInText old new = true :=
              not_differsInText_iff.mpr ⟨lengths, oldText.trans newText.symm⟩
            rw [if_pos leaf, if_neg sameText]
          · rw [if_neg leaf]
            apply List.flatMap_eq_nil_iff.mpr
            intro child member
            apply induction child member
            intro path
            obtain ⟨index, left, right, leftHere, rightHere, rfl⟩ :=
              mem_children member
            have later := correspond (index :: path)
            rw [Node.locate?_cons, Node.locate?_cons, leftHere, rightHere]
              at later
            exact later

end

end PlacedPair

end Reparse
