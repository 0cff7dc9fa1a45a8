import Reparse.Tree.Node

/-!
# Well-formed nodes

Properties that hold of a node and of everything below it.  A node is well
formed when its children lie in order, without overlap and within it.  It is
covering when no child was derived from bytes that the node itself does not
account for.
-/

namespace Reparse

namespace Node

mutual

/-- The property holds of the node and of everything below it. -/
def Everywhere (holds : Node → Prop) : Node → Prop
  | node@⟨_, _, _, _, _, children⟩ => holds node ∧ EverywhereList holds children

def EverywhereList (holds : Node → Prop) : List (Placed Node) → Prop
  | [] => True
  | ⟨_, node⟩ :: rest => node.Everywhere holds ∧ EverywhereList holds rest

end

/-- Children that begin at `origin` or later, lie one after the other, and end
at `limit` or earlier. -/
def InOrder (limit : Nat) : Nat → List (Placed Node) → Prop
  | origin, [] => origin ≤ limit
  | origin, child :: rest =>
      origin ≤ child.offset ∧ InOrder limit child.stop rest

/-- The children of every node lie in order, without overlap and within the
node. -/
def WellFormed (root : Node) : Prop :=
  root.Everywhere fun node => InOrder node.length 0 node.children

def Undamaged (root : Node) : Prop :=
  root.Everywhere fun node => node.damaged = false

/-- Every node accounts for the bytes its children were derived from. -/
def Covering (root : Node) : Prop :=
  root.Everywhere fun node =>
    ∀ child ∈ node.children, child.stop + child.item.lookahead ≤
      node.length + node.lookahead

/-- Every node below the root covers at least one byte. -/
def FilledBelow (root : Node) : Prop :=
  root.Everywhere fun node => ∀ child ∈ node.children, 0 < child.item.length

def Unshared (root : Node) : Prop :=
  (root.visits.map fun visit => visit.node.stamp).Nodup

mutual

theorem forall_preorder_of_everywhere {holds : Node → Prop}
    (depth start : Nat) :
    ∀ node : Node, node.Everywhere holds →
      ∀ visit ∈ node.preorder depth start, holds visit.node
  | ⟨_, _, _, _, _, children⟩ => by
      intro everywhere visit member
      rcases List.mem_cons.mp member with same | later
      · rw [same]
        exact everywhere.1
      · exact forall_preorderList_of_everywhereList (depth + 1) start children
          everywhere.2
          visit later

theorem forall_preorderList_of_everywhereList {holds : Node → Prop}
    (depth origin : Nat) :
    ∀ children : List (Placed Node), EverywhereList holds children →
      ∀ visit ∈ preorderList depth origin children, holds visit.node
  | [] => by
      intro _ visit member
      cases member
  | ⟨offset, node⟩ :: rest => by
      intro everywhere visit member
      rcases List.mem_append.mp member with first | later
      · exact forall_preorder_of_everywhere depth (origin + offset) node
          everywhere.1 visit first
      · exact forall_preorderList_of_everywhereList depth origin rest
          everywhere.2 visit later

end

mutual

theorem everywhere_of_forall_preorder {holds : Node → Prop}
    (depth start : Nat) :
    ∀ node : Node, (∀ visit ∈ node.preorder depth start, holds visit.node) →
      node.Everywhere holds
  | ⟨_, _, _, _, _, children⟩ => by
      intro always
      refine ⟨always _ (List.mem_cons_self ..), ?_⟩
      apply everywhereList_of_forall_preorderList (depth + 1) start children
      intro visit member
      exact always visit (List.mem_cons_of_mem _ member)

theorem everywhereList_of_forall_preorderList {holds : Node → Prop}
    (depth origin : Nat) :
    ∀ children : List (Placed Node),
      (∀ visit ∈ preorderList depth origin children, holds visit.node) →
        EverywhereList holds children
  | [] => fun _ => trivial
  | ⟨offset, node⟩ :: rest => by
      intro always
      constructor
      · apply everywhere_of_forall_preorder depth (origin + offset) node
        intro visit member
        exact always visit (List.mem_append_left _ member)
      · apply everywhereList_of_forall_preorderList depth origin rest
        intro visit member
        exact always visit (List.mem_append_right _ member)

end

/-- A property holds everywhere exactly when it holds of every node met in the
order of the text. -/
theorem everywhere_iff_forall_visits {holds : Node → Prop} {root : Node} :
    root.Everywhere holds ↔ ∀ visit ∈ root.visits, holds visit.node := by
  rw [visits_eq]
  exact ⟨forall_preorder_of_everywhere 0 0 root,
    everywhere_of_forall_preorder 0 0 root⟩

end Node

end Reparse
