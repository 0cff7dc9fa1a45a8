import Reparse.Parse.Search
import Reparse.Tree.WellFormed

/-!
# Nodes below a node

`Node.Below root offset node` says that a node is met below the root, and how
far behind the start of the root it begins.  What holds everywhere in a tree
holds of the root and of everything below it, and a search finds nothing but
undamaged nodes below the root.
-/

namespace Reparse

namespace Node

/-- The node lies below the root and begins `offset` bytes behind it. -/
inductive Below : Node → Nat → Node → Prop where
  | child {root : Node} {placed : Placed Node} :
      placed ∈ root.children → Below root placed.offset placed.item
  | deeper {root node : Node} {placed : Placed Node} {offset : Nat} :
      placed ∈ root.children → Below placed.item offset node →
      Below root (placed.offset + offset) node

theorem below_iff {root node : Node} {offset : Nat} :
    root.Below offset node ↔
      ∃ placed ∈ root.children,
        (offset = placed.offset ∧ node = placed.item) ∨
          ∃ inner, offset = placed.offset + inner ∧
            placed.item.Below inner node := by
  constructor
  · intro below
    cases below with
    | child member => exact ⟨_, member, .inl ⟨rfl, rfl⟩⟩
    | deeper member below => exact ⟨_, member, .inr ⟨_, rfl, below⟩⟩
  · rintro ⟨placed, member, ⟨rfl, rfl⟩ | ⟨inner, rfl, below⟩⟩
    · exact .child member
    · exact .deeper member below

theorem Below.trans {root outer inner : Node} {offset depth : Nat}
    (below : root.Below offset outer) (deeper : outer.Below depth inner) :
    root.Below (offset + depth) inner := by
  induction below with
  | child member => exact .deeper member deeper
  | deeper member _ induction =>
      rw [Nat.add_assoc]
      exact .deeper member (induction deeper)

/-- What lies below a node is smaller, so no node lies below itself. -/
theorem Below.count_lt {root node : Node} {offset : Nat}
    (below : root.Below offset node) : node.count < root.count := by
  induction below with
  | child member => exact count_lt_of_mem member
  | deeper member _ induction =>
      exact Nat.lt_trans induction (count_lt_of_mem member)

theorem everywhereList_iff {holds : Node → Prop}
    {children : List (Placed Node)} :
    EverywhereList holds children ↔
      ∀ placed ∈ children, placed.item.Everywhere holds := by
  induction children with
  | nil => simp [EverywhereList]
  | cons placed rest induction =>
      cases placed
      simp [EverywhereList, induction]

theorem everywhere_iff {holds : Node → Prop} {root : Node} :
    root.Everywhere holds ↔
      holds root ∧ ∀ placed ∈ root.children, placed.item.Everywhere holds := by
  cases root
  simp only [Everywhere, everywhereList_iff]

/-- What holds everywhere holds everywhere below. -/
theorem everywhere_of_below {holds : Node → Prop} {root node : Node}
    {offset : Nat} (everywhere : root.Everywhere holds)
    (below : root.Below offset node) : node.Everywhere holds := by
  induction below with
  | child member => exact (everywhere_iff.mp everywhere).2 _ member
  | deeper member _ induction =>
      exact induction ((everywhere_iff.mp everywhere).2 _ member)

/-- What holds everywhere holds of the root and of everything below it. -/
theorem everywhere_iff_below {holds : Node → Prop} {root : Node} :
    root.Everywhere holds ↔
      holds root ∧ ∀ offset node, root.Below offset node → holds node := by
  induction root using induction_on_children with
  | step root induction =>
      rw [everywhere_iff]
      refine and_congr_right fun _ => ⟨?_, ?_⟩
      · intro children offset node below
        obtain ⟨placed, member, ⟨_, rfl⟩ | ⟨inner, _, deeper⟩⟩ :=
          below_iff.mp below
        · exact (everywhere_iff.mp (children placed member)).1
        · exact ((induction placed member).mp (children placed member)).2
            inner node deeper
      · intro always placed member
        refine (induction placed member).mpr ⟨always _ _ (.child member), ?_⟩
        intro inner node below
        exact always _ _ (.deeper member below)

/-- A search finds an undamaged node of the symbol at the position, and never
one without bytes. -/
theorem below_of_search {root node : Node} {symbol : Symbol} {position : Nat}
    (found : (root.search symbol position).found = some node) :
    root.Below position node ∧ node.symbol = symbol ∧ node.damaged = false ∧
      0 < node.length := by
  fun_induction root.search symbol position with
  | case1 root position uncovered => cases found
  | case2 root position child covered before => cases found
  | case3 root position child covered after candidate hit =>
      cases found
      have member := List.mem_of_find?_eq_some covered
      have within : position < child.stop := by
        simpa using List.find?_some covered
      simp only [candidate, Bool.and_eq_true, Bool.not_eq_true', beq_iff_eq]
        at hit
      obtain ⟨⟨starts, symbol⟩, undamaged⟩ := hit
      rw [starts]
      simp only [Placed.stop] at within
      exact ⟨.child member, symbol, undamaged, by omega⟩
  | case4 root position child covered after candidate miss below induction =>
      have member := List.mem_of_find?_eq_some covered
      obtain ⟨deeper, rest⟩ := induction found
      refine ⟨?_, rest⟩
      have same : child.offset + (position - child.offset) = position := by
        omega
      rw [← same]
      exact .deeper member deeper

end Node

end Reparse
