import Reparse.Proofs.Tree.Survival
import Reparse.Tree.Path

/-!
# Children in order

Edits move children without bringing them out of order, so a shell is as well
formed as the tree under it.  In a well-formed tree a search misses nothing: it
ends with a node that lies around the one that was looked for, if not with that
node itself.  A leaf is below every node that covers it.
-/

namespace Reparse

namespace Node

section

variable {limit origin : Nat} {children : List (Placed Node)}

theorem InOrder.lower {start : Nat} (ordered : InOrder limit origin children)
    (before : start ≤ origin) : InOrder limit start children := by
  cases children with
  | nil => exact Nat.le_trans before ordered
  | cons => exact ⟨Nat.le_trans before ordered.1, ordered.2⟩

theorem InOrder.raise {bound : Nat} (ordered : InOrder limit origin children)
    (within : limit ≤ bound) : InOrder bound origin children := by
  induction children generalizing origin with
  | nil => exact Nat.le_trans ordered within
  | cons child children induction => exact ⟨ordered.1, induction ordered.2⟩

theorem InOrder.append {middle : Nat} {later : List (Placed Node)}
    (first : InOrder middle origin children)
    (rest : InOrder limit middle later) :
    InOrder limit origin (children ++ later) := by
  induction children generalizing origin with
  | nil => exact rest.lower first
  | cons child children induction => exact ⟨first.1, induction first.2⟩

theorem InOrder.le_offset (ordered : InOrder limit origin children) :
    ∀ child ∈ children, origin ≤ child.offset := by
  induction children generalizing origin with
  | nil => exact List.forall_mem_nil _
  | cons first rest induction =>
      obtain ⟨after, later⟩ := ordered
      refine List.forall_mem_cons.mpr ⟨after, fun child member => ?_⟩
      have behind := induction later child member
      simp only [Placed.stop] at behind
      omega

/-- Children that lie behind the start of their parent are in order within
it. -/
theorem InOrder.moved {start : Nat} (ordered : InOrder limit origin children)
    (after : ∀ child ∈ children, start ≤ child.offset) :
    InOrder (limit - start) (origin - start)
      (children.map fun placed => ⟨placed.offset - start, placed.item⟩) := by
  induction children generalizing origin with
  | nil => exact Nat.sub_le_sub_right ordered start
  | cons first rest induction =>
      obtain ⟨here, later⟩ := List.forall_mem_cons.mp after
      refine ⟨Nat.sub_le_sub_right ordered.1 start, ?_⟩
      have same : (⟨first.offset - start, first.item⟩ : Placed Node).stop =
          first.stop - start := by
        simp only [Placed.stop]
        omega
      rw [same]
      exact induction ordered.2 later

/-- Children in order do not overlap. -/
theorem InOrder.eq_of_covers {left right : Placed Node} {position : Nat}
    (ordered : InOrder limit origin children) (memberLeft : left ∈ children)
    (memberRight : right ∈ children) (afterLeft : left.offset ≤ position)
    (beforeLeft : position < left.stop) (afterRight : right.offset ≤ position)
    (beforeRight : position < right.stop) : left = right := by
  induction children generalizing origin with
  | nil => cases memberLeft
  | cons first rest induction =>
      have later := ordered.2.le_offset
      rcases List.mem_cons.mp memberLeft with rfl | inLeft
      · rcases List.mem_cons.mp memberRight with rfl | inRight
        · rfl
        · have behind := later right inRight
          omega
      · rcases List.mem_cons.mp memberRight with rfl | inRight
        · have behind := later left inLeft
          omega
        · exact induction ordered.2 inLeft inRight

/-- A search that comes to children in order goes on with the one that lies
around the position. -/
theorem foundAmong_of_mem {symbol : Symbol} {position : Nat}
    {child : Placed Node} (ordered : InOrder limit origin children)
    (member : child ∈ children) (after : child.offset ≤ position)
    (before : position < child.stop) :
    foundAmong symbol position children =
      if position = child.offset ∧ child.item.symbol = symbol ∧
          child.item.damaged = false then
        some child.item
      else (child.item.search symbol (position - child.offset)).found := by
  induction children generalizing origin with
  | nil => cases member
  | cons first rest induction =>
      rw [foundAmong]
      rcases List.mem_cons.mp member with rfl | later
      · rw [if_pos before, if_neg (Nat.not_lt_of_le after)]
      · have behind := ordered.2.le_offset child later
        rw [if_neg (Nat.not_lt_of_le (Nat.le_trans behind after))]
        exact induction ordered.2 later

end

/-- Among some nodes, or below one of them, the node begins at the place. -/
def Among (nodes : List (Placed Node)) (place : Nat) (node : Node) : Prop :=
  ∃ placed ∈ nodes, (place = placed.offset ∧ node = placed.item) ∨
    ∃ inner, place = placed.offset + inner ∧ placed.item.Below inner node

theorem below_iff_among {root node : Node} {place : Nat} :
    root.Below place node ↔ Among root.children place node :=
  below_iff

theorem Among.mono {nodes others : List (Placed Node)} {place : Nat}
    {node : Node} (among : Among nodes place node)
    (within : nodes ⊆ others) : Among others place node := by
  obtain ⟨placed, member, here⟩ := among
  exact ⟨placed, within member, here⟩

/-- Nodes keep what lies below them when they move into a parent. -/
theorem Among.moved {nodes : List (Placed Node)} {place start : Nat}
    {node : Node} (among : Among nodes place node)
    (after : ∀ placed ∈ nodes, start ≤ placed.offset) :
    ∃ inner, place = start + inner ∧
      Among (nodes.map fun placed => ⟨placed.offset - start, placed.item⟩) inner
        node := by
  obtain ⟨placed, member, here⟩ := among
  have behind := after placed member
  have moved := List.mem_map_of_mem (f := fun placed : Placed Node =>
    (⟨placed.offset - start, placed.item⟩ : Placed Node)) member
  rcases here with ⟨rfl, rfl⟩ | ⟨inner, rfl, below⟩
  · exact ⟨placed.offset - start, by omega, _, moved, .inl ⟨rfl, rfl⟩⟩
  · exact ⟨placed.offset - start + inner, by omega, _, moved,
      .inr ⟨inner, rfl, below⟩⟩

mutual

theorem below_of_mem_preorder (depth start : Nat) :
    ∀ root : Node, ∀ visit ∈ (root.preorder depth start).tail,
      ∃ place, visit.start = start + place ∧ root.Below place visit.node
  | ⟨_, _, _, _, _, children⟩ => by
      intro visit visited
      obtain ⟨place, starts, among⟩ :=
        among_of_mem_preorderList (depth + 1) start children visit visited
      exact ⟨place, starts, below_iff_among.mpr among⟩

theorem among_of_mem_preorderList (depth origin : Nat) :
    ∀ children : List (Placed Node),
      ∀ visit ∈ preorderList depth origin children,
        ∃ place, visit.start = origin + place ∧
          Among children place visit.node
  | [] => by
      intro visit visited
      cases visited
  | ⟨offset, node⟩ :: rest => by
      intro visit visited
      rcases List.mem_append.mp visited with first | later
      · have inner := below_of_mem_preorder depth (origin + offset) node visit
        rw [preorder_eq] at first inner
        rcases List.mem_cons.mp first with rfl | deeper
        · exact ⟨offset, rfl, _, List.mem_cons_self, .inl ⟨rfl, rfl⟩⟩
        · obtain ⟨place, starts, below⟩ := inner deeper
          exact ⟨offset + place, starts.trans (Nat.add_assoc ..), _,
            List.mem_cons_self, .inr ⟨place, rfl, below⟩⟩
      · obtain ⟨place, starts, among⟩ :=
          among_of_mem_preorderList depth origin rest visit later
        exact ⟨place, starts, among.mono (List.subset_cons_self _ _)⟩

end

/-- The leaves of a tree are the nodes below its root that have no children. -/
theorem below_of_mem_leaves {root : Node} {leaf : Placed Node}
    (member : leaf ∈ root.leaves) :
    root.Below leaf.offset leaf.item ∧ leaf.item.children = [] := by
  rw [leaves, visits_eq] at member
  obtain ⟨visit, kept, rfl⟩ := List.mem_map.mp member
  obtain ⟨visited, childless⟩ := List.mem_filter.mp kept
  obtain ⟨place, starts, below⟩ := below_of_mem_preorder 0 0 root visit visited
  rw [Nat.zero_add] at starts
  subst starts
  exact ⟨below, List.isEmpty_iff.mp childless⟩

theorem exists_covering {root node : Node} {place : Nat}
    (wellFormed : root.WellFormed) (below : root.Below place node)
    (filled : 0 < node.length) :
    ∃ placed ∈ root.children, placed.offset ≤ place ∧ place < placed.stop ∧
      Among [placed] place node := by
  obtain ⟨placed, member, here⟩ := below_iff.mp below
  have among : Among [placed] place node :=
    ⟨placed, List.mem_singleton_self _, here⟩
  refine ⟨placed, member, ?_, ?_, among⟩
  · rcases here with ⟨rfl, _⟩ | ⟨inner, rfl, _⟩
    · exact Nat.le_refl _
    · exact Nat.le_add_right _ _
  · rcases here with ⟨rfl, rfl⟩ | ⟨inner, rfl, deeper⟩
    · exact Nat.lt_add_of_pos_right filled
    · have child := (everywhere_iff.mp wellFormed).2 placed member
      have within := (deeper.within (nested_of_wellFormed child)).1
      simp only [Placed.stop]
      omega

/-- What covers a node without children is that node or lies around it. -/
theorem Below.of_covers {root outer leaf : Node} {start place : Nat}
    (wellFormed : root.WellFormed) (below : root.Below start outer)
    (belowLeaf : root.Below place leaf) (childless : leaf.children = [])
    (filled : 0 < leaf.length) (after : start ≤ place)
    (before : place + leaf.length ≤ start + outer.length) :
    Among [⟨start, outer⟩] place leaf := by
  induction below generalizing place with
  | @child root placed member =>
      obtain ⟨ordered, _⟩ := everywhere_iff.mp wellFormed
      obtain ⟨other, memberOther, afterOther, beforeOther, among⟩ :=
        exists_covering wellFormed belowLeaf filled
      have same : placed = other := ordered.eq_of_covers member memberOther
        after (by simp only [Placed.stop]; omega) afterOther beforeOther
      subst same
      exact among
  | @deeper root outer placed offset member deeper induction =>
      obtain ⟨ordered, children⟩ := everywhere_iff.mp wellFormed
      have child := children placed member
      have within := (deeper.within (nested_of_wellFormed child)).1
      obtain ⟨other, memberOther, afterOther, beforeOther, among⟩ :=
        exists_covering wellFormed belowLeaf filled
      have same : placed = other := ordered.eq_of_covers member memberOther
        (by omega) (by simp only [Placed.stop]; omega) afterOther beforeOther
      subst same
      obtain ⟨_, memberSingle, here⟩ := among
      cases List.mem_singleton.mp memberSingle
      rcases here with ⟨_, rfl⟩ | ⟨inner, rfl, deeperLeaf⟩
      · obtain ⟨_, none, _⟩ := below_iff.mp deeper
        rw [childless] at none
        cases none
      · obtain ⟨_, memberSingle, here⟩ :=
          induction child deeperLeaf (by omega) (by omega)
        cases List.mem_singleton.mp memberSingle
        refine ⟨_, List.mem_singleton_self _, ?_⟩
        rcases here with ⟨rfl, rfl⟩ | ⟨further, rfl, deepest⟩
        · exact .inl ⟨rfl, rfl⟩
        · exact .inr ⟨further, (Nat.add_assoc ..).symm, deepest⟩

/-- A search for an undamaged node comes to an end at it, or earlier at a node
around it that begins at the same place. -/
theorem exists_search {root node : Node} {offset : Nat}
    (wellFormed : root.WellFormed) (below : root.Below offset node)
    (clean : node.damaged = false) (filled : 0 < node.length) :
    ∃ found, (root.search node.symbol offset).found = some found ∧
      (found = node ∨ found.Below 0 node) := by
  induction below with
  | @child root placed member =>
      have ordered := (everywhere_iff.mp wellFormed).1
      rw [found_search, foundAmong_of_mem ordered member (Nat.le_refl _)
        (Nat.lt_add_of_pos_right filled), if_pos ⟨rfl, rfl, clean⟩]
      exact ⟨placed.item, rfl, .inl rfl⟩
  | @deeper root node placed offset member deeper induction =>
      obtain ⟨ordered, children⟩ := everywhere_iff.mp wellFormed
      have inner := children placed member
      have within := (deeper.within (nested_of_wellFormed inner)).1
      have covered : placed.offset + offset < placed.stop := by
        simp only [Placed.stop]
        omega
      rw [found_search, foundAmong_of_mem ordered member (Nat.le_add_right _ _)
        covered]
      split
      · next candidate =>
          have same : offset = 0 := by omega
          subst same
          exact ⟨placed.item, rfl, .inr deeper⟩
      · rw [Nat.add_sub_cancel_left]
        exact induction inner clean filled

/-- A tree in which searches find every undamaged node: those have bytes, are
undamaged throughout, and have none of their own symbol below them at the same
place. -/
structure Searchable (root : Node) : Prop where
  wellFormed : root.WellFormed
  undamaged : ∀ {place : Nat} {node : Node}, root.Below place node →
    node.damaged = false → node.Undamaged
  filled : ∀ {place : Nat} {node : Node}, root.Below place node →
    node.damaged = false → 0 < node.length
  distinct : ∀ {place : Nat} {outer inner : Node}, root.Below place outer →
    outer.damaged = false → outer.Below 0 inner → inner.symbol ≠ outer.symbol

section

variable {root : Node} (searchable : root.Searchable)

include searchable

theorem Searchable.found {place : Nat} {node : Node}
    (below : root.Below place node) (clean : node.damaged = false) :
    (root.search node.symbol place).found = some node := by
  obtain ⟨found, same, around⟩ := exists_search searchable.wellFormed below
    clean (searchable.filled below clean)
  obtain ⟨belowFound, symbol, cleanFound, _⟩ := below_of_search same
  rcases around with rfl | deeper
  · exact same
  · have distinct := searchable.distinct belowFound cleanFound deeper
    exact absurd symbol.symm distinct

/-- No two undamaged nodes of one symbol begin at the same place. -/
theorem Searchable.unique {place : Nat} {left right : Node}
    (below : root.Below place left) (belowRight : root.Below place right)
    (clean : left.damaged = false) (cleanRight : right.damaged = false)
    (same : left.symbol = right.symbol) : left = right := by
  have found := searchable.found below clean
  rw [same, searchable.found belowRight cleanRight] at found
  exact (Option.some.inj found).symm

end

section

variable {edit : Edit} {length : Nat} (fits : edit.Fits length)

include fits

theorem inOrder_damageList {children : List (Placed Node)}
    {start newStart limit origin : Nat}
    (ordered : InOrder limit origin children)
    (within : start + limit ≤ length) (moved : newStart ≤ edit.adjust start)
    (supply : Nat) :
    InOrder (edit.adjust (start + limit) - newStart)
      (edit.adjust (start + origin) - newStart)
      (damageList edit start newStart supply children).1 := by
  induction children generalizing origin supply with
  | nil =>
      apply Nat.sub_le_sub_right
      exact Edit.adjust_le_adjust fits (Nat.add_le_add_left ordered start)
        within
  | cons child rest induction =>
      obtain ⟨after, later⟩ := ordered
      have inside := (stop_le_of_inOrder later).1
      obtain ⟨next, same⟩ :=
        exists_damageList_cons edit start newStart supply child rest
      rw [same]
      constructor
      · apply Nat.sub_le_sub_right
        exact Edit.adjust_le_adjust fits (Nat.add_le_add_left after start)
          (by simp only [Placed.stop] at inside; omega)
      · exact (induction later next).lower
          (stop_copied_le fits (by omega) moved supply)

/-- Nodes stay well formed. -/
theorem wellFormed_damage {root : Node} {start newStart : Nat}
    (wellFormed : root.WellFormed) (within : start + root.length ≤ length)
    (moved : newStart ≤ edit.adjust start) (supply : Nat) :
    (root.damage edit start newStart supply).1.WellFormed := by
  induction root using induction_on_children generalizing start newStart
    supply with
  | step root induction =>
      obtain ⟨ordered, children⟩ := everywhere_iff.mp wellFormed
      obtain ⟨copies, rootLength, _, _⟩ :=
        damage_eq edit start newStart supply root
      refine everywhere_iff.mpr ⟨?_, ?_⟩
      · rw [copies, rootLength]
        exact (inOrder_damageList fits ordered within moved supply).lower
          (Nat.zero_le _)
      · intro copy memberCopy
        rw [copies] at memberCopy
        obtain ⟨child, member, next, rfl⟩ := mem_damageList memberCopy
        have inside := (stop_le_of_inOrder ordered).2 child member
        simp only [Placed.stop] at inside
        simp only [copied]
        split
        · exact induction child member (children child member) (by omega)
            (Nat.le_refl _) next
        · exact children child member

end

end Node

namespace Shell

theorem EditedBy.wellFormed {edit : Edit} {before after : Shell}
    (edited : EditedBy edit before after)
    (wellFormed : before.root.WellFormed) : after.root.WellFormed := by
  obtain ⟨supply, root⟩ := edited.root
  rw [root]
  exact Node.wellFormed_damage edited.fits wellFormed
    (Nat.le_of_eq (Nat.zero_add _)) (Nat.zero_le _) supply

theorem EditedByAll.wellFormed {edits : List Edit} {before after : Shell}
    (edited : EditedByAll edits before after)
    (wellFormed : before.root.WellFormed) : after.root.WellFormed := by
  induction edited with
  | nil => exact wellFormed
  | cons first _ induction => exact induction (first.wellFormed wellFormed)

/-- What edits leave undamaged was there before. -/
theorem EditedByAll.exists_before {edits : List Edit} {before after : Shell}
    (edited : EditedByAll edits before after) (nested : before.root.Nested)
    {place : Nat} {node : Node} (below : after.root.Below place node)
    (clean : node.damaged = false) :
    ∃ offset, before.root.Below offset node := by
  obtain ⟨offset, belowBefore, _⟩ :=
    @EditedByAll.below_before _ _ _ edited (fun _ => False)
      (fun _ impossible => impossible.elim) nested
      (fun _ _ _ _ _ _ _ impossible => impossible.elim) _ _ below clean
  exact ⟨offset, belowBefore⟩

end Shell

end Reparse
