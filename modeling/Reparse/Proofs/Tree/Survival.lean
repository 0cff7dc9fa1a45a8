import Mathlib.Data.List.Nodup
import Reparse.Proofs.Tree.Damage

/-!
# What a chain of edits leaves undamaged

Edits are applied one after the other, each to the shell that the edits before
it left.  A node that was filled and accounted for in the beginning is met again
exactly when no edit affects it where it lies at that time.
-/

namespace Reparse

namespace Shell

/-- What an edit makes of a shell if it is accepted. -/
structure EditedBy (edit : Edit) (before after : Shell) : Prop where
  fits : edit.Fits before.length
  base : after.base = before.base
  root : ∃ supply, after.root = (before.root.damage edit 0 0 supply).1

theorem editedBy_of_edit {before after : Shell} {edit : Edit}
    {supply next : Nat} (edited : before.edit edit supply = .ok (after, next)) :
    EditedBy edit before after := by
  rw [Shell.edit] at edited
  obtain ⟨_, accepted, later⟩ := bind_eq_ok.mp edited
  cases later
  exact ⟨Edit.fits_of_check accepted, rfl, ⟨supply, rfl⟩⟩

/-- Edits lead from one shell to another one. -/
inductive EditedByAll : List Edit → Shell → Shell → Prop where
  | nil (shell : Shell) : EditedByAll [] shell shell
  | cons {edit : Edit} {edits : List Edit} {before middle after : Shell} :
      EditedBy edit before middle → EditedByAll edits middle after →
      EditedByAll (edit :: edits) before after

theorem editedByAll_of_editAll {before after : Shell} {edits : List Edit}
    {supply next : Nat}
    (edited : before.editAll edits supply = .ok (after, next)) :
    EditedByAll edits before after := by
  induction edits generalizing before supply with
  | nil =>
      cases edited
      exact .nil _
  | cons edit edits induction =>
      rw [editAll] at edited
      obtain ⟨⟨middle, available⟩, first, later⟩ := bind_eq_ok.mp edited
      exact .cons (editedBy_of_edit first) (induction later)

theorem edits_of_editAll {before after : Shell} {edits : List Edit}
    {supply next : Nat}
    (edited : before.editAll edits supply = .ok (after, next)) :
    after.edits = before.edits ++ edits := by
  induction edits generalizing before supply with
  | nil =>
      cases edited
      exact (List.append_nil _).symm
  | cons edit edits induction =>
      rw [editAll] at edited
      obtain ⟨⟨middle, available⟩, first, later⟩ := bind_eq_ok.mp edited
      rw [Shell.edit] at first
      obtain ⟨_, _, first⟩ := bind_eq_ok.mp first
      cases first
      rw [induction later, List.append_assoc]
      rfl

section

variable {edit : Edit} {before after : Shell}

theorem EditedBy.length (edited : EditedBy edit before after) :
    after.length = edit.resultLength before.length := by
  obtain ⟨supply, root⟩ := edited.root
  rw [Shell.length, root, (Node.damage_eq ..).2.1, Nat.zero_add]
  exact Edit.adjust_length edited.fits

theorem EditedBy.damaged (edited : EditedBy edit before after) :
    after.root.damaged = true := by
  obtain ⟨supply, root⟩ := edited.root
  rw [root, (Node.damage_eq ..).2.2.2]

theorem EditedBy.nested (edited : EditedBy edit before after)
    (nested : before.root.Nested) : after.root.Nested := by
  obtain ⟨supply, root⟩ := edited.root
  rw [root]
  exact Node.nested_damage edited.fits nested (Nat.le_of_eq (Nat.zero_add _))
    (Nat.zero_le _) supply

theorem EditedBy.guarded (edited : EditedBy edit before after)
    {tracked : Node → Prop} (filled : ∀ node, tracked node → 0 < node.length)
    (nested : before.root.Nested) (guarded : before.root.Guarded tracked) :
    after.root.Guarded tracked := by
  obtain ⟨supply, root⟩ := edited.root
  rw [root]
  exact Node.guarded_damage edited.fits filled nested guarded
    (Nat.le_of_eq (Nat.zero_add _)) (Nat.zero_le _) supply

end

section

variable {edits : List Edit} {before after : Shell}
  (edited : EditedByAll edits before after)

include edited

theorem EditedByAll.fitAll : Edit.FitAll edits before.length := by
  induction edited with
  | nil => exact .nil _
  | cons first _ induction => exact .cons first.fits (first.length ▸ induction)

theorem EditedByAll.base : after.base = before.base := by
  induction edited with
  | nil => rfl
  | cons first _ induction => rw [induction, first.base]

/-- The root is damaged by the first edit and stays so. -/
theorem EditedByAll.damaged
    (damaged : before.root.damaged = true ∨ edits ≠ []) :
    after.root.damaged = true := by
  induction edited with
  | nil => exact damaged.resolve_right fun some => some rfl
  | cons first _ induction => exact induction (.inl first.damaged)

/-- The shell is as long as the text that the edits lead to. -/
theorem EditedByAll.length {old new : List UInt8}
    (produced : EditsProduce edits old new)
    (same : before.length = old.length) : after.length = new.length := by
  induction edited generalizing old with
  | nil =>
      cases produced
      exact same
  | cons first _ induction =>
      cases produced with
      | cons produces later =>
          apply induction later
          obtain ⟨ordered, within, inserted, newStop, rfl⟩ := produces
          rw [first.length, same, Edit.resultLength, List.length_append,
            List.length_append, List.length_take, List.length_drop]
          omega

/-- The bytes of an undamaged node are those that it had before the edits. -/
theorem EditedByAll.agreeFor_before {old new : List UInt8}
    (produced : EditsProduce edits old new) (nested : before.root.Nested)
    {place : Nat} {node : Node} (below : after.root.Below place node)
    (clean : node.damaged = false) (filled : 0 < node.length) :
    ∃ offset, before.root.Below offset node ∧
      AgreeFor node.length (old.drop offset) (new.drop place) := by
  induction edited generalizing old with
  | nil =>
      cases produced
      exact ⟨place, below, AgreeFor.refl _ _⟩
  | cons first _ induction =>
      cases produced with
      | cons produces later =>
          obtain ⟨offset, belowMiddle, agreeLater⟩ :=
            induction later (first.nested nested) below
          obtain ⟨supply, root⟩ := first.root
          rw [root] at belowMiddle
          obtain ⟨origin, belowBefore, agree⟩ :=
            Node.agreeFor_of_below_damage first.fits belowMiddle clean filled
              nested (Nat.le_of_eq (Nat.zero_add _)) (Nat.zero_le _) produces
          rw [Nat.zero_add, Nat.zero_add] at agree
          exact ⟨origin, belowBefore, agree.trans agreeLater⟩

section

variable {tracked : Node → Prop}
  (filled : ∀ node, tracked node → 0 < node.length)
  (nested : before.root.Nested)

include filled nested

/-- An undamaged node that edits left was there before.  If it is tracked, no
edit affects it. -/
theorem EditedByAll.below_before (guarded : before.root.Guarded tracked)
    {place : Nat} {node : Node} (below : after.root.Below place node)
    (clean : node.damaged = false) :
    ∃ offset, before.root.Below offset node ∧
      (tracked node → place = Edit.adjustAll edits offset ∧
        Edit.Untouched edits offset node) := by
  induction edited with
  | nil => exact ⟨place, below, fun _ => ⟨rfl, trivial⟩⟩
  | @cons edit edits before middle after first _ induction =>
      obtain ⟨offset, belowMiddle, later⟩ :=
        induction (first.nested nested) (first.guarded filled nested guarded)
          below
      obtain ⟨supply, root⟩ := first.root
      rw [root] at belowMiddle
      obtain ⟨origin, belowBefore, moved, unaffected⟩ :=
        Node.below_of_below_damage first.fits belowMiddle clean nested guarded
          (Nat.le_of_eq (Nat.zero_add _)) (Nat.zero_le _)
      refine ⟨origin, belowBefore, fun isTracked => ?_⟩
      have same := moved (filled node isTracked)
      have still := unaffected isTracked
      rw [Nat.zero_add] at same still
      rw [Nat.zero_add] at same
      subst same
      obtain ⟨position, untouched⟩ := later isTracked
      exact ⟨position, still, untouched⟩

omit filled in
/-- A node that no edit affects is found again where the edits moved it. -/
theorem EditedByAll.below_after {offset : Nat} {node : Node}
    (below : before.root.Below offset node) (nonempty : 0 < node.length)
    (untouched : Edit.Untouched edits offset node) :
    after.root.Below (Edit.adjustAll edits offset) node := by
  induction edited generalizing offset with
  | nil => exact below
  | @cons edit edits before middle after first _ induction =>
      obtain ⟨unaffected, later⟩ := untouched
      refine induction (first.nested nested) ?_ later
      obtain ⟨supply, root⟩ := first.root
      rw [← Nat.zero_add offset] at unaffected
      have kept := Node.below_damage first.fits below nonempty nested
        (Nat.le_of_eq (Nat.zero_add _)) (Nat.zero_le _) unaffected supply
      rw [Nat.zero_add, Nat.sub_zero] at kept
      rw [root]
      exact kept

end

end

/-- The shell has the very node, undamaged, at the place. -/
def Keeps (shell : Shell) (place : Nat) (node : Node) : Prop :=
  ∃ kept, shell.root.Below place kept ∧ kept.damaged = false ∧
    kept.stamp = node.stamp

end Shell

namespace Node

theorem mem_preorderList {children : List (Placed Node)} {placed : Placed Node}
    {visit : Visit} {depth origin : Nat} (member : placed ∈ children)
    (visited : visit ∈ placed.item.preorder depth (origin + placed.offset)) :
    visit ∈ preorderList depth origin children := by
  induction children with
  | nil => cases member
  | cons first rest induction =>
      rcases List.mem_cons.mp member with rfl | later
      · exact List.mem_append_left _ visited
      · exact List.mem_append_right _ (induction later)

/-- What lies below a node is met in a tour of it. -/
theorem Below.mem_preorder {root node : Node} {offset : Nat}
    (below : root.Below offset node) (depth start : Nat) :
    ∃ level, ⟨level, start + offset, node⟩ ∈ root.preorder depth start := by
  induction below generalizing depth start with
  | @child root placed member =>
      refine ⟨depth + 1, ?_⟩
      rw [preorder_eq]
      refine List.mem_cons_of_mem _ (mem_preorderList member ?_)
      rw [preorder_eq]
      exact List.mem_cons_self
  | @deeper root node placed offset member _ induction =>
      obtain ⟨level, visited⟩ := induction (depth + 1) (start + placed.offset)
      refine ⟨level, ?_⟩
      rw [preorder_eq, ← Nat.add_assoc]
      exact List.mem_cons_of_mem _ (mem_preorderList member visited)

/-- A node that is met only once lies at one place only. -/
theorem Unshared.eq_of_stamp {root left right : Node}
    (unshared : root.Unshared) {offset place : Nat}
    (below : root.Below offset left) (other : root.Below place right)
    (same : left.stamp = right.stamp) : offset = place ∧ left = right := by
  obtain ⟨level, visited⟩ := below.mem_preorder 0 0
  obtain ⟨otherLevel, visitedOther⟩ := other.mem_preorder 0 0
  rw [← visits_eq] at visited visitedOther
  have sameVisit :=
    List.inj_on_of_nodup_map unshared visited visitedOther same
  simp only [Visit.mk.injEq, Nat.zero_add] at sameVisit
  exact sameVisit.2

theorem FilledBelow.filled {root node : Node} {offset : Nat}
    (filled : root.FilledBelow) (below : root.Below offset node) :
    0 < node.length := by
  induction below with
  | child member => exact (everywhere_iff.mp filled).1 _ member
  | deeper member _ induction =>
      exact induction ((everywhere_iff.mp filled).2 _ member)

theorem Covering.covered {root node : Node} {offset : Nat}
    (covering : root.Covering) (below : root.Below offset node) :
    offset + node.length + node.lookahead ≤ root.length + root.lookahead := by
  induction below with
  | child member => exact (everywhere_iff.mp covering).1 _ member
  | deeper member _ induction =>
      obtain ⟨covers, children⟩ := everywhere_iff.mp covering
      have outer := covers _ member
      have inner := induction (children _ member)
      simp only [Placed.stop] at outer
      omega

theorem Covering.guarded {root : Node} (covering : root.Covering)
    (tracked : Node → Prop) : root.Guarded tracked := by
  intro offset outer belowRoot further inner below _ _
  exact Covering.covered (everywhere_of_below covering belowRoot) below

end Node

namespace Tree

/-- The tree of two letters with a blank between them. -/
def letters : Tree where
  root := ⟨2, ⟨1⟩, 3, 1, false, [⟨0, .leaf 0 ⟨0⟩ 1 1⟩, ⟨2, .leaf 1 ⟨0⟩ 1 1⟩]⟩
  grammar :=
    ⟨0, "letters", #[⟨"letter", .token⟩, ⟨"text", .visible⟩],
      .ofList [("letter", ⟨0⟩), ("text", ⟨1⟩)],
      #[none, some (.star (.symbol ⟨0⟩))], [⟨⟨0⟩, .identifier⟩],
      [.whitespace], ⟨1⟩, #[0, 1]⟩
  source := ⟨0, #[97, 32, 98]⟩
  version := 0

/-- An edit that passes its check is accepted. -/
theorem exists_editAll {tree : Tree} {edit : Edit}
    (accepted : edit.check tree.length = .ok ()) (supply : Nat) :
    ∃ shell next, tree.editAll [edit] supply = .ok (shell, next) := by
  refine ⟨⟨tree, (tree.root.damage edit 0 0 supply).1, [edit]⟩,
    (tree.root.damage edit 0 0 supply).2, ?_⟩
  rw [editAll, Shell.editAll, Shell.edit]
  refine bind_eq_ok.mpr ⟨_, bind_eq_ok.mpr ⟨(), accepted, rfl⟩, rfl⟩

/-- Edits leave exactly those nodes below the root undamaged that none of them
affects.  They lie where the edits move them, and what was looked at for them is
the same in every text that the edits lead to. -/
theorem keeps_iff_untouched {tree : Tree} {edits : List Edit} {shell : Shell}
    {supply next : Nat} (undamaged : tree.root.Undamaged)
    (unshared : tree.root.Unshared) (wellFormed : tree.root.WellFormed)
    (filled : tree.root.FilledBelow) (covering : tree.root.Covering)
    (edited : tree.editAll edits supply = .ok (shell, next)) :
    (∀ offset node, tree.root.Below offset node →
      (∀ place, shell.Keeps place node ↔
        Edit.Untouched edits offset node ∧
          place = Edit.adjustAll edits offset) ∧
      (Edit.Untouched edits offset node →
        ∀ text, EditsProduce edits tree.bytes text →
          ∀ index < node.length + node.lookahead,
            text[Edit.adjustAll edits offset + index]? =
              tree.bytes[offset + index]?)) ∧
    (∀ place node, shell.root.Below place node →
      node.damaged = true ∨
        ∃ offset, tree.root.Below offset node ∧
          Edit.Untouched edits offset node) ∧
    (edits ≠ [] → shell.root.damaged = true) := by
  have chain := Shell.editedByAll_of_editAll edited
  have nested := Node.nested_of_wellFormed wellFormed
  have guarded := covering.guarded fun node => 0 < node.length
  -- Both directions need the way back from a clean node of the edited tree to
  -- where it was before.
  have back : ∀ place node, shell.root.Below place node →
      node.damaged = false → ∃ offset, tree.root.Below offset node ∧
        place = Edit.adjustAll edits offset ∧
          Edit.Untouched edits offset node := by
    intro place node below clean
    obtain ⟨offset, belowBase, untouched⟩ :=
      chain.below_before (fun _ => id) nested guarded below clean
    exact ⟨offset, belowBase, untouched (filled.filled belowBase)⟩
  refine ⟨fun offset node below => ⟨fun place => ⟨?_, ?_⟩, ?_⟩, ?_, ?_⟩
  · rintro ⟨kept, belowShell, clean, same⟩
    obtain ⟨origin, belowBase, position, untouched⟩ :=
      back place kept belowShell clean
    obtain ⟨rfl, rfl⟩ := unshared.eq_of_stamp belowBase below same
    exact ⟨untouched, position⟩
  · rintro ⟨untouched, rfl⟩
    refine ⟨node, ?_, (Node.everywhere_iff_below.mp undamaged).2 _ _ below, rfl⟩
    exact chain.below_after nested below (filled.filled below) untouched
  · intro untouched text produced index inside
    have agree := Edit.agreeFor_of_untouched chain.fitAll produced
      (filled.filled below) (below.within nested).1 untouched
    have same := agree index inside
    rw [List.getElem?_drop, List.getElem?_drop] at same
    exact same.symm
  · intro place node below
    cases clean : node.damaged with
    | true => exact .inl rfl
    | false =>
        obtain ⟨offset, belowBase, _, untouched⟩ := back place node below clean
        exact .inr ⟨offset, belowBase, untouched⟩
  · intro some
    exact chain.damaged (.inr some)

/-- If two bytes take the place of the first letter, the second one moves. -/
theorem keeps_moved_letter :
    ∃ shell next,
      (letters.root.Undamaged ∧ letters.root.Unshared ∧
        letters.root.WellFormed ∧ letters.root.FilledBelow ∧
        letters.root.Covering) ∧
      letters.editAll [⟨0, 1, 2⟩] 3 = .ok (shell, next) ∧
        letters.root.Below 2 (.leaf 1 ⟨0⟩ 1 1) ∧
          shell.Keeps 3 (.leaf 1 ⟨0⟩ 1 1) ∧ shell.root.damaged = true := by
  obtain ⟨shell, next, edited⟩ :=
    @exists_editAll letters ⟨0, 1, 2⟩ rfl 3
  have undamaged : letters.root.Undamaged := by
    simp [letters, Node.Undamaged, Node.Everywhere, Node.EverywhereList,
      Node.leaf]
  have unshared : letters.root.Unshared := by
    simp [letters, Node.Unshared, Node.visits_eq, Node.preorder,
      Node.preorderList, Node.leaf]
  have wellFormed : letters.root.WellFormed := by
    simp [letters, Node.WellFormed, Node.Everywhere, Node.EverywhereList,
      Node.InOrder, Node.leaf, Placed.stop]
  have filled : letters.root.FilledBelow := by
    simp [letters, Node.FilledBelow, Node.Everywhere, Node.EverywhereList,
      Node.leaf]
  have covering : letters.root.Covering := by
    simp [letters, Node.Covering, Node.Everywhere, Node.EverywhereList,
      Node.leaf, Placed.stop]
  have below : letters.root.Below 2 (.leaf 1 ⟨0⟩ 1 1) :=
    @Node.Below.child letters.root ⟨2, .leaf 1 ⟨0⟩ 1 1⟩
      (List.mem_cons_of_mem _ List.mem_cons_self)
  obtain ⟨exact, _, damaged⟩ := keeps_iff_untouched undamaged unshared
    wellFormed filled covering edited
  exact ⟨shell, next, ⟨undamaged, unshared, wellFormed, filled, covering⟩,
    edited, below, ((exact 2 _ below).1 3).mpr ⟨⟨rfl, trivial⟩, rfl⟩,
    damaged (List.cons_ne_nil _ _)⟩

end Tree

end Reparse
