import Reparse.Proofs.Outcome
import Reparse.Proofs.Text.Edits
import Reparse.Proofs.Tree.Below

/-!
# What edits leave undamaged

One edit copies the nodes it affects and shares every other one as it is.  A
node stays undamaged through a chain of edits exactly when none of them affects
it, and then its bytes are found again where the edits moved it.  What makes
this exact is that no node looked further than the nodes around it, and that
edits keep it so.
-/

namespace Reparse

namespace Node

/-- No child reaches past its parent. -/
def Nested (root : Node) : Prop :=
  root.Everywhere fun node =>
    ∀ child ∈ node.children, child.stop ≤ node.length

theorem nested_iff {root : Node} :
    root.Nested ↔
      (∀ child ∈ root.children, child.stop ≤ root.length) ∧
        ∀ child ∈ root.children, child.item.Nested :=
  everywhere_iff

theorem stop_le_of_inOrder {limit origin : Nat} {children : List (Placed Node)}
    (ordered : InOrder limit origin children) :
    origin ≤ limit ∧ ∀ child ∈ children, child.stop ≤ limit := by
  induction children generalizing origin with
  | nil => exact ⟨ordered, List.forall_mem_nil _⟩
  | cons first rest induction =>
      obtain ⟨after, later⟩ := ordered
      obtain ⟨within, inside⟩ := induction later
      have start : first.offset ≤ first.stop := Nat.le_add_right _ _
      refine ⟨by omega, ?_⟩
      intro child member
      rcases List.mem_cons.mp member with rfl | behind
      · exact within
      · exact inside child behind

theorem nested_of_wellFormed {root : Node} (wellFormed : root.WellFormed) :
    root.Nested := by
  induction root using induction_on_children with
  | step root induction =>
      obtain ⟨ordered, children⟩ := everywhere_iff.mp wellFormed
      exact nested_iff.mpr ⟨(stop_le_of_inOrder ordered).2,
        fun child member => induction child member (children child member)⟩

/-- What lies below a node lies within it. -/
theorem Below.within {root node : Node} {offset : Nat}
    (below : root.Below offset node) (nested : root.Nested) :
    offset + node.length ≤ root.length ∧ node.Nested := by
  induction below with
  | child member =>
      obtain ⟨inside, children⟩ := nested_iff.mp nested
      exact ⟨inside _ member, children _ member⟩
  | deeper member _ induction =>
      obtain ⟨inside, children⟩ := nested_iff.mp nested
      obtain ⟨within, nestedNode⟩ := induction (children _ member)
      have outer := inside _ member
      simp only [Placed.stop] at outer
      exact ⟨by omega, nestedNode⟩

/-- A child as the edit leaves it. -/
def copied (edit : Edit) (start newStart supply : Nat)
    (child : Placed Node) : Placed Node :=
  ⟨edit.adjust (start + child.offset) - newStart,
    if edit.affects ⟨start + child.offset,
        start + child.offset + child.item.length⟩ child.item.lookahead then
      (child.item.damage edit (start + child.offset)
        (edit.adjust (start + child.offset)) supply).1
    else child.item⟩

theorem exists_damageList_cons (edit : Edit) (start newStart supply : Nat)
    (child : Placed Node) (children : List (Placed Node)) :
    ∃ next, (damageList edit start newStart supply (child :: children)).1 =
      copied edit start newStart supply child ::
        (damageList edit start newStart next children).1 := by
  obtain ⟨offset, node⟩ := child
  simp only [damageList, copied]
  split <;> exact ⟨_, rfl⟩

theorem mem_damageList {edit : Edit} {start newStart supply : Nat}
    {children : List (Placed Node)} {copy : Placed Node}
    (member : copy ∈ (damageList edit start newStart supply children).1) :
    ∃ child ∈ children, ∃ next,
      copy = copied edit start newStart next child := by
  induction children generalizing supply with
  | nil => cases member
  | cons child children induction =>
      obtain ⟨next, same⟩ :=
        exists_damageList_cons edit start newStart supply child children
      rw [same] at member
      rcases List.mem_cons.mp member with rfl | later
      · exact ⟨child, List.mem_cons_self, supply, rfl⟩
      · obtain ⟨other, memberOther, copy⟩ := induction later
        exact ⟨other, List.mem_cons_of_mem _ memberOther, copy⟩

theorem copied_mem_damageList {edit : Edit} {start newStart : Nat}
    {children : List (Placed Node)} {child : Placed Node}
    (member : child ∈ children) (supply : Nat) :
    ∃ next, copied edit start newStart next child ∈
      (damageList edit start newStart supply children).1 := by
  induction children generalizing supply with
  | nil => cases member
  | cons first children induction =>
      obtain ⟨next, same⟩ :=
        exists_damageList_cons edit start newStart supply first children
      rw [same]
      rcases List.mem_cons.mp member with rfl | later
      · exact ⟨supply, List.mem_cons_self⟩
      · obtain ⟨last, inside⟩ := induction later next
        exact ⟨last, List.mem_cons_of_mem _ inside⟩

theorem damage_eq (edit : Edit) (start newStart supply : Nat) (node : Node) :
    (node.damage edit start newStart supply).1.children =
        (damageList edit start newStart supply node.children).1 ∧
      (node.damage edit start newStart supply).1.length =
          edit.adjust (start + node.length) - newStart ∧
        (node.damage edit start newStart supply).1.lookahead =
            node.lookahead ∧
          (node.damage edit start newStart supply).1.damaged = true := by
  cases node
  exact ⟨rfl, rfl, rfl, rfl⟩

/-- No tracked node below the root was derived from bytes that the nodes
around it, the root apart, do not account for. -/
def Guarded (tracked : Node → Prop) (root : Node) : Prop :=
  ∀ offset outer, root.Below offset outer →
    ∀ further inner, outer.Below further inner → inner.damaged = false →
      tracked inner →
        further + inner.length + inner.lookahead ≤
          outer.length + outer.lookahead

theorem Guarded.child {tracked : Node → Prop} {root : Node}
    {child : Placed Node} (guarded : root.Guarded tracked)
    (member : child ∈ root.children) : child.item.Guarded tracked :=
  fun _ outer below => guarded _ outer (.deeper member below)

/-- An undamaged node that an edit left is one that the edit does not affect, or
lies below one, and the edit has moved it with that one. -/
theorem exists_unaffected {edit : Edit} {root node : Node}
    {start newStart supply offset : Nat} {length : Nat}
    (fits : edit.Fits length)
    (below : (root.damage edit start newStart supply).1.Below offset node)
    (clean : node.damaged = false) (nested : root.Nested)
    (within : start + root.length ≤ length)
    (moved : newStart ≤ edit.adjust start) :
    ∃ origin outer depth, root.Below origin outer ∧
      edit.affects ⟨start + origin, start + origin + outer.length⟩
          outer.lookahead = false ∧
        newStart + offset = edit.adjust (start + origin) + depth ∧
          (depth = 0 ∧ node = outer ∨ outer.Below depth node) := by
  induction root using induction_on_children generalizing start newStart
    supply offset with
  | step root induction =>
      obtain ⟨inside, nestedChildren⟩ := nested_iff.mp nested
      obtain ⟨copy, memberCopy, place⟩ := below_iff.mp below
      rw [(damage_eq edit start newStart supply root).1] at memberCopy
      obtain ⟨child, member, next, rfl⟩ := mem_damageList memberCopy
      have childInside := inside child member
      simp only [Placed.stop] at childInside
      have childMoved : edit.adjust start ≤
          edit.adjust (start + child.offset) :=
        Edit.adjust_le_adjust fits (Nat.le_add_right _ _) (by omega)
      have position : newStart + (edit.adjust (start + child.offset) -
          newStart) = edit.adjust (start + child.offset) := by
        omega
      simp only [copied] at place
      split at place
      -- An affected child is damaged itself; the node is below it.
      · rcases place with ⟨_, rfl⟩ | ⟨inner, rfl, deeper⟩
        · rw [(damage_eq ..).2.2.2] at clean
          cases clean
        · obtain ⟨origin, outer, depth, belowChild, unaffected, same, rest⟩ :=
            induction child member deeper (nestedChildren child member)
              (by omega) (Nat.le_refl _)
          rw [← Nat.add_assoc, position, same, Nat.add_assoc start]
          rw [Nat.add_assoc start] at unaffected
          exact ⟨child.offset + origin, outer, depth,
            .deeper member belowChild, unaffected, rfl, rest⟩
      · next unaffected =>
          rw [Bool.not_eq_true] at unaffected
          rcases place with ⟨rfl, rfl⟩ | ⟨inner, rfl, deeper⟩
          · exact ⟨child.offset, child.item, 0, .child member, unaffected,
              position, .inl ⟨rfl, rfl⟩⟩
          · rw [← Nat.add_assoc, position]
            exact ⟨child.offset, child.item, inner, .child member, unaffected,
              rfl, .inr deeper⟩

section

variable {edit : Edit} {length : Nat} (fits : edit.Fits length)
  {tracked : Node → Prop}

include fits

/-- An undamaged node that an edit left is a node from before, moved as the edit
moves its start.  The edit does not affect it if it is tracked. -/
theorem below_of_below_damage {root node : Node}
    {start newStart supply offset : Nat}
    (below : (root.damage edit start newStart supply).1.Below offset node)
    (clean : node.damaged = false) (nested : root.Nested)
    (guarded : root.Guarded tracked)
    (within : start + root.length ≤ length)
    (moved : newStart ≤ edit.adjust start) :
    ∃ before, root.Below before node ∧
      (0 < node.length → newStart + offset = edit.adjust (start + before)) ∧
        (tracked node → edit.affects
          ⟨start + before, start + before + node.length⟩
          node.lookahead = false) := by
  obtain ⟨origin, outer, depth, belowRoot, unaffected, position,
    ⟨rfl, rfl⟩ | deeper⟩ :=
    exists_unaffected fits below clean nested within moved
  · exact ⟨origin, belowRoot, fun _ => position, fun _ => unaffected⟩
  · obtain ⟨outerWithin, nestedOuter⟩ := belowRoot.within nested
    have innerWithin := (deeper.within nestedOuter).1
    refine ⟨origin + depth, belowRoot.trans deeper, ?_, ?_⟩
    · intro filled
      rw [position, ← Nat.add_assoc]
      exact (Edit.adjust_add fits (by omega) unaffected (by omega)).symm
    -- What is looked at for the node is looked at for the one around it too.
    · intro isTracked
      have covered := guarded _ _ belowRoot _ _ deeper clean isTracked
      rw [Edit.affects_eq_false] at unaffected ⊢
      omega

/-- The bytes of an undamaged node that an edit left are those that it had. -/
theorem agreeFor_of_below_damage {root node : Node}
    {start newStart supply offset : Nat}
    (below : (root.damage edit start newStart supply).1.Below offset node)
    (clean : node.damaged = false) (filled : 0 < node.length)
    (nested : root.Nested) (within : start + root.length ≤ length)
    (moved : newStart ≤ edit.adjust start) {old new : List UInt8}
    (produces : edit.Produces old new) :
    ∃ before, root.Below before node ∧
      AgreeFor node.length (old.drop (start + before))
        (new.drop (newStart + offset)) := by
  obtain ⟨origin, outer, depth, belowRoot, unaffected, position, place⟩ :=
    exists_unaffected fits below clean nested within moved
  obtain ⟨outerWithin, nestedOuter⟩ := belowRoot.within nested
  rw [position]
  have innerWithin : depth + node.length ≤ outer.length := by
    rcases place with ⟨rfl, rfl⟩ | deeper
    · exact Nat.le_of_eq (Nat.zero_add _)
    · exact (deeper.within nestedOuter).1
  have agree := (Edit.agreeFor_of_produces fits (by omega) unaffected
    (by omega) produces).drop depth
  rw [List.drop_drop, List.drop_drop] at agree
  refine ⟨origin + depth, ?_, ?_⟩
  · rcases place with ⟨rfl, rfl⟩ | deeper
    · exact belowRoot
    · exact belowRoot.trans deeper
  · rw [← Nat.add_assoc]
    exact agree.mono (by omega)

/-- A node that the edit does not affect is left as it is, moved as the edit
moves its start. -/
theorem below_damage {root node : Node} {start newStart offset : Nat}
    (below : root.Below offset node) (filled : 0 < node.length)
    (nested : root.Nested) (within : start + root.length ≤ length)
    (moved : newStart ≤ edit.adjust start)
    (unaffected : edit.affects
      ⟨start + offset, start + offset + node.length⟩ node.lookahead = false)
    (supply : Nat) :
    (root.damage edit start newStart supply).1.Below
      (edit.adjust (start + offset) - newStart) node := by
  induction below generalizing start newStart supply with
  | @child root child member =>
      obtain ⟨next, memberCopy⟩ :=
        @copied_mem_damageList edit start newStart _ _ member supply
      rw [← (damage_eq edit start newStart supply root).1] at memberCopy
      have below := Below.child memberCopy
      simp only [copied, unaffected] at below
      exact below
  | @deeper root node child inner member deeper induction =>
      obtain ⟨inside, nestedChildren⟩ := nested_iff.mp nested
      have childInside := inside child member
      have innerWithin := (deeper.within (nestedChildren child member)).1
      simp only [Placed.stop] at childInside
      have childMoved : edit.adjust start ≤
          edit.adjust (start + child.offset) :=
        Edit.adjust_le_adjust fits (Nat.le_add_right _ _) (by omega)
      obtain ⟨next, memberCopy⟩ :=
        @copied_mem_damageList edit start newStart _ _ member supply
      rw [← (damage_eq edit start newStart supply root).1] at memberCopy
      rw [← Nat.add_assoc] at unaffected ⊢
      have innerMoved : edit.adjust (start + child.offset) ≤
          edit.adjust (start + child.offset + inner) :=
        Edit.adjust_le_adjust fits (Nat.le_add_right _ _) (by omega)
      by_cases affected : edit.affects ⟨start + child.offset,
          start + child.offset + child.item.length⟩ child.item.lookahead = true
      · have below := Below.deeper memberCopy (by
          simp only [copied, affected, if_true]
          exact induction filled (nestedChildren child member) (by omega)
            (Nat.le_refl _) unaffected next)
        simp only [copied] at below
        have same : edit.adjust (start + child.offset) - newStart +
            (edit.adjust (start + child.offset + inner) -
              edit.adjust (start + child.offset)) =
              edit.adjust (start + child.offset + inner) - newStart := by
          omega
        rw [← same]
        exact below
      · have below := Below.deeper memberCopy (by
          simp only [copied, affected]
          exact deeper)
        simp only [copied] at below
        rw [Bool.not_eq_true] at affected
        have kept : edit.adjust (start + child.offset + inner) =
            edit.adjust (start + child.offset) + inner :=
          Edit.adjust_add fits (by omega) affected (by omega)
        have same : edit.adjust (start + child.offset) - newStart + inner =
            edit.adjust (start + child.offset + inner) - newStart := by
          omega
        rw [← same]
        exact below

/-- A child ends no later than its end is moved to. -/
theorem stop_copied_le {child : Placed Node} {start newStart : Nat}
    (within : start + child.stop ≤ length)
    (moved : newStart ≤ edit.adjust start) (supply : Nat) :
    (copied edit start newStart supply child).stop ≤
      edit.adjust (start + child.stop) - newStart := by
  simp only [Placed.stop, ← Nat.add_assoc] at within ⊢
  have childMoved : edit.adjust start ≤ edit.adjust (start + child.offset) :=
    Edit.adjust_le_adjust fits (Nat.le_add_right _ _) (by omega)
  have lengthMoved : edit.adjust (start + child.offset) ≤
      edit.adjust (start + child.offset + child.item.length) :=
    Edit.adjust_le_adjust fits (Nat.le_add_right _ _) within
  simp only [copied]
  split
  · rw [(damage_eq ..).2.1]
    omega
  · next unaffected =>
      rw [Bool.not_eq_true] at unaffected
      have kept :=
        Edit.adjust_add_le fits within unaffected (Nat.le_add_right _ _)
      omega

/-- Nodes stay nested. -/
theorem nested_damage {root : Node} {start newStart : Nat}
    (nested : root.Nested) (within : start + root.length ≤ length)
    (moved : newStart ≤ edit.adjust start) (supply : Nat) :
    (root.damage edit start newStart supply).1.Nested := by
  induction root using induction_on_children generalizing start newStart
    supply with
  | step root induction =>
      obtain ⟨inside, nestedChildren⟩ := nested_iff.mp nested
      obtain ⟨children, rootLength, _, _⟩ :=
        damage_eq edit start newStart supply root
      rw [nested_iff, children, rootLength]
      constructor
      · intro copy memberCopy
        obtain ⟨child, member, next, rfl⟩ := mem_damageList memberCopy
        have childInside := inside child member
        apply Nat.le_trans (stop_copied_le fits (by omega) moved next)
        apply Nat.sub_le_sub_right
        exact Edit.adjust_le_adjust fits (by omega) within
      · intro copy memberCopy
        obtain ⟨child, member, next, rfl⟩ := mem_damageList memberCopy
        have childInside := inside child member
        simp only [Placed.stop] at childInside
        simp only [copied]
        split
        · exact induction child member (nestedChildren child member) (by omega)
            (Nat.le_refl _) next
        · exact nestedChildren child member

/-- Tracked nodes stay accounted for by the nodes around them. -/
theorem guarded_damage {root : Node} {start newStart : Nat}
    (filled : ∀ node, tracked node → 0 < node.length)
    (nested : root.Nested) (guarded : root.Guarded tracked)
    (within : start + root.length ≤ length)
    (moved : newStart ≤ edit.adjust start) (supply : Nat) :
    (root.damage edit start newStart supply).1.Guarded tracked := by
  induction root using induction_on_children generalizing start newStart
    supply with
  | step root induction =>
      obtain ⟨inside, nestedChildren⟩ := nested_iff.mp nested
      intro offset outer belowRoot further inner below clean isTracked
      obtain ⟨copy, memberCopy, place⟩ := below_iff.mp belowRoot
      rw [(damage_eq edit start newStart supply root).1] at memberCopy
      obtain ⟨child, member, next, rfl⟩ := mem_damageList memberCopy
      have childInside := inside child member
      simp only [Placed.stop] at childInside
      simp only [copied] at place
      split at place
      · have around := induction child member (nestedChildren child member)
          (guarded.child member) (by omega)
          (Nat.le_refl (edit.adjust (start + child.offset))) next
        rcases place with ⟨_, rfl⟩ | ⟨_, _, deeper⟩
        · obtain ⟨before, belowChild, position, unaffected⟩ :=
            below_of_below_damage fits below clean
              (nestedChildren child member) (guarded.child member) (by omega)
              (Nat.le_refl _)
          have innerFilled := filled inner isTracked
          have innerWithin :=
            (belowChild.within (nestedChildren child member)).1
          have covered := guarded _ _ (.child member) _ _ belowChild clean
            isTracked
          have kept : edit.adjust (start + child.offset + before) +
              (start + child.offset + before + inner.length -
                (start + child.offset + before)) + inner.lookahead ≤
              edit.adjust (start + child.offset + child.item.length) +
                child.item.lookahead :=
            Edit.adjust_covered fits (by omega) (unaffected isTracked)
              (by omega) (by omega) (by omega) (by omega)
          have place := position innerFilled
          rw [(damage_eq ..).2.1, (damage_eq ..).2.2.1]
          omega
        · exact around _ _ deeper _ _ below clean isTracked
      · rcases place with ⟨_, rfl⟩ | ⟨_, _, deeper⟩
        · exact guarded _ _ (.child member) _ _ below clean isTracked
        · exact guarded.child member _ _ deeper _ _ below clean isTracked

end

end Node

end Reparse
