import Reparse.Proofs.Tree.CursorPaths
import Reparse.Proofs.Tree.Identity

/-!
# Statistics count paths

Counting stops at the nodes taken over.  Where everything below a known node is
known as well, no node is missed by that: the nodes built are all those that are
not known, and the nodes taken over are the known ones whose parent is not.
-/

namespace Reparse

namespace Node

/-- Whether the path leads to a known node. -/
def knownAt (known : Nat → Bool) (root : Node) (path : List Nat) : Bool :=
  (root.locate? 0 path).any fun placed => known placed.item.stamp

/-- Whether the path leads to a known node around which none is known. -/
def topmostAt (known : Nat → Bool) (root : Node) (path : List Nat) : Bool :=
  root.knownAt known path &&
    (path.isEmpty || !root.knownAt known path.dropLast)

/-- If the node is known, its children are. -/
def ClosedAt (known : Nat → Bool) (node : Node) : Prop :=
  known node.stamp = true →
    ∀ child ∈ node.children, known child.item.stamp = true

theorem cons_mem_paths {root : Node} {index : Nat} {child : Placed Node}
    (here : root.child? index = some child) {path : List Nat}
    (member : path ∈ child.item.paths) : index :: path ∈ root.paths := by
  rw [paths_eq, pathsList_eq_of_getElem? here, Nat.zero_add]
  apply List.mem_cons_of_mem
  apply List.mem_append_right
  apply List.mem_append_left
  exact List.mem_map_of_mem member

/-- With a path the one to its parent is listed. -/
theorem dropLast_mem_paths {root : Node} {path : List Nat}
    (member : path ∈ root.paths) : path.dropLast ∈ root.paths := by
  induction root using induction_on_children generalizing path with
  | step root induction =>
      have top : [] ∈ root.paths := by
        rw [paths_eq]
        exact List.mem_cons_self
      rw [paths_eq] at member
      cases member with
      | head => exact top
      | tail _ inside =>
          obtain ⟨index, child, below, here, rfl, memberBelow⟩ :=
            exists_child_of_mem_pathsList inside
          rw [Nat.zero_add]
          cases below with
          | nil => exact top
          | cons next below =>
              exact cons_mem_paths here
                (induction child (List.mem_of_getElem? here) memberBelow)

theorem locate?_cons_of_child? {root : Node} {index : Nat}
    {child : Placed Node} (here : root.child? index = some child)
    (start : Nat) (path : List Nat) :
    root.locate? start (index :: path) =
      child.item.locate? (start + child.offset) path := by
  rw [locate?_cons, here, Option.bind_some]

section

variable {known : Nat → Bool} {root : Node}

theorem knownAt_nil : root.knownAt known [] = known root.stamp := rfl

theorem topmostAt_nil : root.topmostAt known [] = known root.stamp :=
  Bool.and_true _

theorem knownAt_cons {index : Nat} {child : Placed Node}
    (here : root.child? index = some child) (path : List Nat) :
    root.knownAt known (index :: path) = child.item.knownAt known path := by
  rw [knownAt, locate?_cons_of_child? here, locate?_eq_map, Option.any_map]
  rfl

theorem topmostAt_cons {index : Nat} {child : Placed Node}
    (here : root.child? index = some child) (isNew : known root.stamp = false)
    (path : List Nat) :
    root.topmostAt known (index :: path) =
      child.item.topmostAt known path := by
  cases path with
  | nil =>
      rw [topmostAt, topmostAt, knownAt_cons here]
      simp [knownAt_nil, isNew]
  | cons next path =>
      rw [topmostAt, topmostAt, List.dropLast_cons_cons, knownAt_cons here,
        knownAt_cons here]
      rfl

/-- Below a known node everything is known. -/
theorem knownAt_of_known (closed : root.Everywhere (ClosedAt known))
    (isKnown : known root.stamp = true) {path : List Nat}
    (member : path ∈ root.paths) : root.knownAt known path = true := by
  induction root using induction_on_children generalizing path with
  | step root induction =>
      obtain ⟨children, below⟩ := everywhere_iff.mp closed
      rw [paths_eq] at member
      cases member with
      | head => exact isKnown
      | tail _ inside =>
          obtain ⟨index, child, rest, here, rfl, memberRest⟩ :=
            exists_child_of_mem_pathsList inside
          have memberChild := List.mem_of_getElem? here
          rw [Nat.zero_add, knownAt_cons here]
          exact induction child memberChild (below child memberChild)
            (children isKnown child memberChild) memberRest

/-- The statistics of children are counted child by child. -/
theorem ofNodeList_eq_countP {children : List (Placed Node)} {first : Nat}
    {topmost new : List Nat → Bool}
    (counted : ∀ (index : Nat) (child : Placed Node),
      children[index]? = some child →
      Statistics.ofNode known child.item =
        ⟨child.item.paths.countP fun path => topmost ((first + index) :: path),
          child.item.paths.countP fun path => new ((first + index) :: path)⟩) :
    Statistics.ofNodeList known children =
      ⟨(pathsList first children).countP topmost,
        (pathsList first children).countP new⟩ := by
  induction children generalizing first with
  | nil => rfl
  | cons head rest induction =>
      have here := counted 0 head rfl
      have later := @induction (first + 1) fun index child found => by
        rw [Nat.add_assoc, Nat.add_comm 1]
        exact counted (index + 1) child found
      rw [Statistics.ofNodeList, here, later, pathsList, List.countP_append,
        List.countP_append, List.countP_map, List.countP_map]
      rfl

/-- The nodes taken over are the topmost known ones, and the nodes built are
those that are not known. -/
theorem ofNode_eq_countP (closed : root.Everywhere (ClosedAt known)) :
    Statistics.ofNode known root =
      ⟨root.paths.countP (root.topmostAt known),
        root.paths.countP fun path => !root.knownAt known path⟩ := by
  induction root using induction_on_children with
  | step root induction =>
      by_cases isKnown : known root.stamp = true
      -- All paths lead to known nodes, and only the empty one has no parent.
      · have everywhere {path : List Nat} (member : path ∈ root.paths) :=
          knownAt_of_known closed isKnown member
        have single : root.paths.countP (root.topmostAt known) = 1 := by
          have above : (pathsList 0 root.children).countP
              (root.topmostAt known) = 0 := by
            apply List.countP_eq_zero.mpr
            intro path member
            have listed : path ∈ root.paths := by
              rw [paths_eq]
              exact List.mem_cons_of_mem _ member
            have around := everywhere (dropLast_mem_paths listed)
            obtain ⟨_, _, _, _, rfl, _⟩ := exists_child_of_mem_pathsList member
            rw [topmostAt, around]
            simp
          rw [paths_eq, List.countP_cons, above, topmostAt_nil, isKnown]
          rfl
        have none : (root.paths.countP fun path =>
            !root.knownAt known path) = 0 := by
          apply List.countP_eq_zero.mpr
          intro path member
          simp [everywhere member]
        rw [single, none]
        cases root
        exact if_pos isKnown
      · rw [Bool.not_eq_true] at isKnown
        have below := (everywhere_iff.mp closed).2
        have counted := @ofNodeList_eq_countP known root.children 0
          (root.topmostAt known) (fun path => !root.knownAt known path)
          fun index child here => by
            have member := List.mem_of_getElem? here
            rw [Nat.zero_add, induction child member (below child member)]
            simp only [topmostAt_cons here isKnown, knownAt_cons here]
        rw [paths_eq, List.countP_cons, List.countP_cons, topmostAt_nil,
          knownAt_nil, isKnown]
        cases root
        rw [Statistics.ofNode, if_neg (Bool.eq_false_iff.mp isKnown), counted]
        rfl

end

end Node

end Reparse
