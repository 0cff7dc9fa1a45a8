import Reparse.Parse.Statistics
import Reparse.Proofs.Tree.Below
import Reparse.Tree.Shape
import Reparse.Tree.Sharing

/-!
# Telling nodes apart

Two derivations give their new nodes different stamps.  What they have in common
is left when every stamp that is not known from before is forgotten: it fixes
the contents, the nodes taken over with their places, and the statistics.
-/

namespace Reparse

namespace Node

mutual

/-- The node with other stamps. -/
def restamp (change : Nat → Nat) : Node → Node
  | ⟨stamp, symbol, length, lookahead, damaged, children⟩ =>
      ⟨change stamp, symbol, length, lookahead, damaged,
        restampList change children⟩

/-- List counterpart of `Node.restamp`. -/
def restampList (change : Nat → Nat) : List (Placed Node) → List (Placed Node)
  | [] => []
  | ⟨offset, node⟩ :: rest =>
      ⟨offset, node.restamp change⟩ :: restampList change rest

end

theorem restampList_eq_map (change : Nat → Nat)
    (children : List (Placed Node)) :
    restampList change children =
      children.map fun placed =>
        ⟨placed.offset, placed.item.restamp change⟩ := by
  induction children with
  | nil => rfl
  | cons _ _ induction => rw [restampList, induction, List.map_cons]

theorem restampList_append (change : Nat → Nat)
    (left right : List (Placed Node)) :
    restampList change (left ++ right) =
      restampList change left ++ restampList change right := by
  rw [restampList_eq_map, restampList_eq_map, restampList_eq_map,
    List.map_append]

mutual

theorem restamp_zero : ∀ node : Node, node.restamp (fun _ => 0) = node.content
  | ⟨_, _, _, _, _, children⟩ => by
      rw [restamp, content, restampList_zero children]

theorem restampList_zero :
    ∀ children : List (Placed Node),
      restampList (fun _ => 0) children = contentList children
  | [] => rfl
  | ⟨_, node⟩ :: rest => by
      rw [restampList, contentList, restamp_zero node, restampList_zero rest]

end

mutual

theorem content_restamp (change : Nat → Nat) :
    ∀ node : Node, (node.restamp change).content = node.content
  | ⟨_, _, _, _, _, children⟩ => by
      rw [restamp, content, content, contentList_restampList change children]

theorem contentList_restampList (change : Nat → Nat) :
    ∀ children : List (Placed Node),
      contentList (restampList change children) = contentList children
  | [] => rfl
  | ⟨_, node⟩ :: rest => by
      rw [restampList, contentList, contentList, content_restamp change node,
        contentList_restampList change rest]

end

mutual

theorem preorder_restamp (change : Nat → Nat) (depth start : Nat) :
    ∀ node : Node, (node.restamp change).preorder depth start =
      (node.preorder depth start).map fun visit =>
        ⟨visit.depth, visit.start, visit.node.restamp change⟩
  | ⟨_, _, _, _, _, children⟩ => by
      rw [restamp, preorder, preorder, List.map_cons, restamp,
        preorderList_restampList change (depth + 1) start children]

theorem preorderList_restampList (change : Nat → Nat) (depth origin : Nat) :
    ∀ children : List (Placed Node),
      preorderList depth origin (restampList change children) =
        (preorderList depth origin children).map fun visit =>
          ⟨visit.depth, visit.start, visit.node.restamp change⟩
  | [] => rfl
  | ⟨offset, node⟩ :: rest => by
      rw [restampList, preorderList, preorderList, List.map_append,
        preorder_restamp change depth (origin + offset) node,
        preorderList_restampList change depth origin rest]

end

theorem visits_restamp (change : Nat → Nat) (root : Node) :
    (root.restamp change).visits =
      root.visits.map fun visit =>
        ⟨visit.depth, visit.start, visit.node.restamp change⟩ := by
  rw [visits_eq, visits_eq, preorder_restamp]

mutual

theorem ofNode_restamp (isReused : Nat → Bool) (change : Nat → Nat) :
    ∀ node : Node, Statistics.ofNode isReused (node.restamp change) =
      Statistics.ofNode (fun stamp => isReused (change stamp)) node
  | ⟨_, _, _, _, _, children⟩ => by
      rw [restamp, Statistics.ofNode, Statistics.ofNode,
        ofNodeList_restampList isReused change children]

theorem ofNodeList_restampList (isReused : Nat → Bool) (change : Nat → Nat) :
    ∀ children : List (Placed Node),
      Statistics.ofNodeList isReused (restampList change children) =
        Statistics.ofNodeList (fun stamp => isReused (change stamp)) children
  | [] => rfl
  | ⟨_, node⟩ :: rest => by
      rw [restampList, Statistics.ofNodeList, Statistics.ofNodeList,
        ofNode_restamp isReused change node,
        ofNodeList_restampList isReused change rest]

end

theorem hasStampList_of_mem {wanted : Nat} {placed : Placed Node}
    {children : List (Placed Node)} (member : placed ∈ children)
    (stamped : placed.item.hasStamp wanted = true) :
    hasStampList wanted children = true := by
  induction children with
  | nil => cases member
  | cons first rest induction =>
      rw [hasStampList, Bool.or_eq_true]
      rcases List.mem_cons.mp member with rfl | later
      · exact .inl stamped
      · exact .inr (induction later)

theorem hasStamp_self (node : Node) : node.hasStamp node.stamp = true := by
  cases node
  rw [hasStamp, beq_self_eq_true, Bool.true_or]

theorem hasStampList_eq_false {wanted : Nat} {children : List (Placed Node)}
    (different : ∀ placed ∈ children, placed.item.hasStamp wanted = false) :
    hasStampList wanted children = false := by
  induction children with
  | nil => rfl
  | cons first rest induction =>
      obtain ⟨here, later⟩ := List.forall_mem_cons.mp different
      rw [hasStampList, here, induction later, Bool.or_false]

theorem hasStamp_eq_false {wanted : Nat} {root : Node}
    (different : root.Everywhere fun node => node.stamp ≠ wanted) :
    root.hasStamp wanted = false := by
  induction root using induction_on_children with
  | step root induction =>
      obtain ⟨here, below⟩ := everywhere_iff.mp different
      have children := hasStampList_eq_false fun child member =>
        induction child member (below child member)
      cases root
      rw [hasStamp, children, Bool.or_false]
      exact beq_false_of_ne here

theorem hasStamp_of_below {root node : Node} {offset : Nat}
    (below : root.Below offset node) : root.hasStamp node.stamp = true := by
  induction below with
  | @child root placed member =>
      cases root
      rw [hasStamp, hasStampList_of_mem member (hasStamp_self _), Bool.or_true]
  | @deeper root node placed offset member _ induction =>
      cases root
      rw [hasStamp, hasStampList_of_mem member induction, Bool.or_true]

/-- A known stamp is kept, in such a way that it is not mistaken for the one
that takes the place of all others. -/
def keepKnown (known : Nat → Bool) (stamp : Nat) : Nat :=
  if known stamp then stamp + 1 else 0

/-- The node with all stamps forgotten that are not known. -/
def recognized (known : Nat → Bool) (node : Node) : Node :=
  node.restamp (keepKnown known)

section

variable {known : Nat → Bool} {left right : Node}

theorem stamp_recognized (known : Nat → Bool) (node : Node) :
    (node.recognized known).stamp = keepKnown known node.stamp := by
  cases node
  rfl

theorem content_of_recognized
    (same : left.recognized known = right.recognized known) :
    left.content = right.content := by
  have contents := congrArg content same
  rwa [recognized, recognized, content_restamp, content_restamp] at contents

/-- What is left of two trees tells which nodes of an older one are met. -/
theorem takenFrom_of_recognized {old : Node}
    (same : left.recognized (fun stamp => old.hasStamp stamp) =
      right.recognized fun stamp => old.hasStamp stamp) :
    old.takenFrom left = old.takenFrom right := by
  have readOff : ∀ root : Node, old.takenFrom root =
      (root.recognized fun stamp => old.hasStamp stamp).visits.map fun visit =>
        if visit.node.stamp = 0 then none else some (visit.node.stamp - 1) := by
    intro root
    rw [takenFrom, recognized, visits_restamp, List.map_map]
    apply List.map_congr_left
    intro visit _
    have stamp :=
      stamp_recognized (fun stamp => old.hasStamp stamp) visit.node
    rw [recognized] at stamp
    simp only [Function.comp_apply, stamp, keepKnown]
    split <;> rfl
  rw [readOff left, readOff right, same]

/-- Whether stamps are known decides the statistics. -/
theorem ofNode_of_recognized
    (same : left.recognized known = right.recognized known) :
    Statistics.ofNode known left = Statistics.ofNode known right := by
  have readOff : ∀ root : Node, Statistics.ofNode known root =
      Statistics.ofNode (fun stamp => stamp != 0) (root.recognized known) := by
    intro root
    rw [recognized, ofNode_restamp]
    congr
    funext stamp
    unfold keepKnown
    cases known stamp <;> rfl
  rw [readOff, readOff, same]

end

end Node

end Reparse
