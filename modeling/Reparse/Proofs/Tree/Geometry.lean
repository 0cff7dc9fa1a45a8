import Reparse.Proofs.Tree.Order
import Reparse.Tree.Checked

/-!
# Offsets along the copied path

An edit that fits a text shifts the positions of the text monotonically and to
offsets again.  So the ends of a copied node keep their order, its children stay
within it, and no sum or difference on the way down comes out as anything but
an offset.
-/

namespace Reparse

namespace Edit

variable {edit : Edit} {length position : Nat}

/-- What an accepted edit makes of a position of the text is an offset. -/
theorem adjust?_eq_some (fits : edit.Fits length) (within : position ≤ length) :
    edit.adjust? position = some (edit.adjust position) := by
  have small := fits.small
  simp only [resultLength] at small
  rcases adjust_cases fits within with
    ⟨before, moved⟩ | ⟨after, moved⟩ | ⟨after, before, moved⟩
  · rw [moved, adjust?, if_pos before]
  · have ordered := fits.ordered
    have shifted : (position : Int) + edit.delta =
        (position - edit.oldStop + edit.newStop : Nat) := by
      rw [delta]
      omega
    have bounded : 0 ≤ (position : Int) + edit.delta ∧
        (position : Int) + edit.delta < offsetLimit := by
      rw [shifted]
      omega
    rw [moved, adjust?, if_neg (by omega), if_pos after]
    dsimp only
    rw [if_pos bounded, shifted, Int.toNat_natCast]
  · rw [moved, adjust?, if_neg (by omega), if_neg (by omega)]

end Edit

namespace Node

section

variable {edit : Edit} {length : Nat} (fits : edit.Fits length)
  (small : length < offsetLimit)

include fits small

/-- Children within the text are copied without a failing check, provided that
those which are affected are. -/
theorem damageListChecked_eq {children : List (Placed Node)}
    {start newStart : Nat} (moved : newStart ≤ edit.adjust start)
    (inside : ∀ child ∈ children, start + child.stop ≤ length)
    (copy : ∀ child ∈ children, ∀ next,
      child.item.damageChecked edit (start + child.offset)
          (edit.adjust (start + child.offset)) next =
        some (child.item.damage edit (start + child.offset)
          (edit.adjust (start + child.offset)) next))
    (supply : Nat) :
    damageListChecked edit start newStart supply children =
      some (damageList edit start newStart supply children) := by
  induction children generalizing supply with
  | nil => rfl
  | cons child rest induction =>
      obtain ⟨here, later⟩ := List.forall_mem_cons.mp inside
      obtain ⟨copyHere, copyLater⟩ := List.forall_mem_cons.mp copy
      have rest := induction later copyLater
      obtain ⟨offset, node⟩ := child
      simp only [Placed.stop] at here
      have start? : plus? start offset = some (start + offset) :=
        plus?_eq_some (by omega)
      have stop? : plus? (start + offset) node.length =
          some (start + offset + node.length) :=
        plus?_eq_some (by omega)
      have newStart? := Edit.adjust?_eq_some fits
        (show start + offset ≤ length by omega)
      have behind : newStart ≤ edit.adjust (start + offset) :=
        Nat.le_trans moved
          (Edit.adjust_le_adjust fits (Nat.le_add_right _ _) (by omega))
      have offset? := minus?_eq_some behind
      by_cases affected : edit.affects
          ⟨start + offset, start + offset + node.length⟩ node.lookahead = true
      · simp only [damageListChecked, damageList, start?, stop?, newStart?,
          offset?, affected, if_true, copyHere, rest, Option.bind_eq_bind,
          Option.bind_some, Option.pure_def]
      · simp only [damageListChecked, damageList, start?, stop?, newStart?,
          offset?, affected, rest, Option.bind_eq_bind, Option.bind_some,
          Option.pure_def]
        rfl

/-- A node within the text is copied without a failing check. -/
theorem damageChecked_eq {root : Node} {start newStart : Nat}
    (nested : root.Nested) (within : start + root.length ≤ length)
    (moved : newStart ≤ edit.adjust start) (supply : Nat) :
    root.damageChecked edit start newStart supply =
      some (root.damage edit start newStart supply) := by
  induction root using induction_on_children generalizing start newStart
    supply with
  | step root induction =>
      obtain ⟨inside, nestedChildren⟩ := nested_iff.mp nested
      have insideText : ∀ child ∈ root.children,
          start + child.stop ≤ length := by
        intro child member
        have childInside := inside child member
        omega
      have copies := damageListChecked_eq fits small moved insideText
        (by
          intro child member next
          have childInside := insideText child member
          simp only [Placed.stop] at childInside
          exact induction child member (nestedChildren child member)
            (by omega) (Nat.le_refl _) next)
        supply
      have stop? := plus?_eq_some (Nat.lt_of_le_of_lt within small)
      have newStop? := Edit.adjust?_eq_some fits within
      have behind : newStart ≤ edit.adjust (start + root.length) :=
        Nat.le_trans moved
          (Edit.adjust_le_adjust fits (Nat.le_add_right _ _) within)
      have length? := minus?_eq_some behind
      cases root
      simp only [damageChecked, damage, stop?, newStop?, copies, length?,
        Option.bind_eq_bind, Option.bind_some, Option.pure_def]

end

/-- The end of every child within a node that is no longer than a text is an
offset. -/
theorem stop?_eq_some {root : Node} (nested : root.Nested)
    (small : root.length < offsetLimit) :
    root.Everywhere fun node =>
      ∀ child ∈ node.children, child.stop? = some child.stop := by
  induction root using induction_on_children with
  | step root induction =>
      obtain ⟨inside, nestedChildren⟩ := nested_iff.mp nested
      refine everywhere_iff.mpr ⟨?_, ?_⟩
      · intro child member
        exact plus?_eq_some (Nat.lt_of_le_of_lt (inside child member) small)
      · intro child member
        have within := inside child member
        simp only [Placed.stop] at within
        exact induction child member (nestedChildren child member) (by omega)

end Node

namespace Shell

section

variable {edits : List Edit} {before after : Shell}
  (edited : EditedByAll edits before after)

include edited

/-- The edited text is as long as the edits say one after the other. -/
theorem EditedByAll.length_eq :
    after.length = edits.foldl (fun length edit => edit.resultLength length)
      before.length := by
  induction edited with
  | nil => rfl
  | cons first _ induction => rw [induction, first.length, List.foldl_cons]

/-- An accepted edit leaves a text whose positions are offsets. -/
theorem EditedByAll.small (small : before.length < offsetLimit) :
    after.length < offsetLimit := by
  induction edited with
  | nil => exact small
  | cons first _ induction =>
      apply induction
      rw [first.length]
      exact first.fits.small

end

/-- An accepted edit copies the path to what it affects without a failing
check. -/
theorem damageChecked_eq_of_edit {before after : Shell} {edit : Edit}
    {supply next : Nat} (nested : before.root.Nested)
    (small : before.length < offsetLimit)
    (edited : before.edit edit supply = .ok (after, next)) :
    before.root.damageChecked edit 0 0 supply = some (after.root, next) := by
  rw [Shell.edit] at edited
  obtain ⟨_, accepted, later⟩ := bind_eq_ok.mp edited
  cases later
  exact Node.damageChecked_eq (Edit.fits_of_check accepted) small nested
    (Nat.le_of_eq (Nat.zero_add _)) (Nat.zero_le _) supply

end Shell

namespace Tree

/-- Edits keep the geometry of a well-formed tree.  After each of them the shell
is as long as the edited text, the children of its nodes are in order and within
them, the ends of the children are offsets, and the next edit that is accepted
meets no sum, difference or shifted position that is not an offset. -/
theorem editAll_keeps_geometry {tree : Tree} {edits : List Edit} {shell : Shell}
    {supply next : Nat} (wellFormed : tree.root.WellFormed)
    (small : tree.length < offsetLimit)
    (edited : tree.editAll edits supply = .ok (shell, next)) :
    shell.length = edits.foldl (fun length edit => edit.resultLength length)
        tree.length ∧
      (∀ old new, old.length = tree.length → EditsProduce edits old new →
        shell.length = new.length) ∧
      shell.root.WellFormed ∧
      (shell.root.Everywhere fun node =>
        ∀ child ∈ node.children, child.stop? = some child.stop) ∧
      ∀ edit first later last, shell.edit edit first = .ok (later, last) →
        shell.root.damageChecked edit 0 0 first = some (later.root, last) := by
  have chain := Shell.editedByAll_of_editAll edited
  have wellFormedShell := chain.wellFormed wellFormed
  have nested := Node.nested_of_wellFormed wellFormedShell
  have smallShell := chain.small small
  refine ⟨chain.length_eq, ?_, wellFormedShell, ?_, ?_⟩
  · intro old new same produced
    exact chain.length produced same.symm
  · exact Node.stop?_eq_some nested smallShell
  · intro edit first later last accepted
    exact Shell.damageChecked_eq_of_edit nested smallShell accepted

/-- The first letter is removed, which leaves it without bytes, and then two
bytes are put in front of it. -/
theorem letters_keep_geometry :
    ∃ removed inserted next last,
      letters.root.WellFormed ∧ letters.length < offsetLimit ∧
      letters.editAll [⟨0, 1, 0⟩] 3 = .ok (removed, next) ∧
      removed.edit ⟨0, 0, 2⟩ next = .ok (inserted, last) ∧
        removed.length = 2 ∧ removed.root.WellFormed ∧
          removed.root.damageChecked ⟨0, 0, 2⟩ 0 0 next =
            some (inserted.root, last) := by
  have wellFormed : letters.root.WellFormed := by
    simp [letters, Node.WellFormed, Node.Everywhere, Node.EverywhereList,
      Node.InOrder, Node.leaf, Placed.stop]
  have small : letters.length < offsetLimit := by decide
  obtain ⟨removed, next, edited⟩ :=
    @exists_editAll letters ⟨0, 1, 0⟩ rfl 3
  obtain ⟨length, _, wellFormedShell, _, checked⟩ :=
    editAll_keeps_geometry wellFormed small edited
  have accepted : Edit.check ⟨0, 0, 2⟩ removed.length = .ok () := by
    rw [length]
    rfl
  have again : removed.edit ⟨0, 0, 2⟩ next = .ok _ :=
    bind_eq_ok.mpr ⟨(), accepted, rfl⟩
  exact ⟨removed, _, next, _, wellFormed, small, edited, again, length,
    wellFormedShell, checked _ _ _ _ again⟩

end Tree

end Reparse
