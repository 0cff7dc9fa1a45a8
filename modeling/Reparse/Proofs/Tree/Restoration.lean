import Reparse.Proofs.Tree.Correspondence
import Reparse.Proofs.Tree.Survival

/-!
# Edits taken back

An edit undoes another one when it takes all positions back to where they were
and affects the same nodes.  Then both copy the same nodes, and the copies end
up with the geometry of the originals.  Deleting the bytes that were inserted is
such an edit: a node that the insertion only moved lies before the deleted bytes
or behind them, with all that was looked at for it.
-/

namespace Reparse

namespace Edit

/-- Positions of a text of `length` bytes are where they were after both edits,
and the second edit affects a node as the first one left it exactly if the first
one affects it. -/
structure Undoes (back edit : Edit) (length : Nat) : Prop where
  fits : edit.Fits length
  adjust : ∀ {offset}, offset ≤ length →
    back.adjust (edit.adjust offset) = offset
  affected : ∀ {offset stop lookahead}, offset ≤ stop → stop ≤ length →
    edit.affects ⟨offset, stop⟩ lookahead = true →
    back.affects ⟨edit.adjust offset, edit.adjust stop⟩ lookahead = true
  unaffected : ∀ {offset stop lookahead}, offset ≤ stop → stop ≤ length →
    ¬edit.affects ⟨offset, stop⟩ lookahead = true →
    ¬back.affects ⟨edit.adjust offset, edit.adjust offset + (stop - offset)⟩
      lookahead = true

section

variable {position added length offset stop lookahead : Nat}

theorem fits_insert (inside : position ≤ length)
    (small : length + added < offsetLimit) :
    (insert position added).Fits length := by
  refine ⟨Nat.le_refl _, Nat.le_add_right _ _, inside, ?_⟩
  simp only [insert, resultLength]
  omega

theorem fits_delete (inside : position ≤ length)
    (small : length < offsetLimit) :
    (delete position added).Fits (length + added) := by
  refine ⟨Nat.le_add_right _ _, Nat.le_refl _, ?_, ?_⟩
  · exact Nat.add_le_add_right inside _
  · simp only [delete, resultLength]
    omega

theorem check_of_fits {edit : Edit} (fits : edit.Fits length)
    (small : edit.resultLength length < offsetLimit - 1) :
    edit.check length = .ok () := by
  have ordered := fits.ordered
  have grows := fits.grows
  have inside := fits.inside
  rw [check, if_neg (by omega), if_neg (by omega), if_neg (by omega),
    if_neg (by omega)]

theorem adjust_insert (fits : (insert position added).Fits length)
    (within : offset ≤ length) :
    (insert position added).adjust offset =
      if offset < position then offset else offset + added := by
  by_cases before : offset < position
  · rw [if_pos before]
    exact adjust_of_lt before
  · have behind : position ≤ offset := Nat.le_of_not_lt before
    rw [if_neg before, adjust_of_le fits behind within]
    simp only [insert]
    omega

theorem affects_insert :
    (insert position added).affects ⟨offset, stop⟩ lookahead = true ↔
      offset < position ∧ position < stop + lookahead := by
  rw [affects, Bool.and_eq_true, decide_eq_true_eq, decide_eq_true_eq]
  exact And.comm

theorem affects_delete :
    (delete position added).affects ⟨offset, stop⟩ lookahead = true ↔
      offset < position + added ∧ position < stop + lookahead := by
  rw [affects, Bool.and_eq_true, decide_eq_true_eq, decide_eq_true_eq]
  exact And.comm

/-- Bytes that were inserted can be deleted again. -/
theorem delete_undoes_insert (inside : position ≤ length)
    (small : length + added < offsetLimit) :
    (delete position added).Undoes (insert position added) length := by
  have fits := fits_insert inside small
  have fitsBack : (delete position added).Fits (length + added) :=
    fits_delete inside (by omega)
  constructor
  case fits => exact fits
  case adjust =>
    intro offset within
    rw [adjust_insert fits within]
    by_cases before : offset < position
    · rw [if_pos before]
      exact adjust_of_lt before
    · have behind : position + added ≤ offset + added := by omega
      rw [if_neg before, adjust_of_le fitsBack behind (by omega)]
      simp only [delete]
      omega
  case affected =>
    intro offset stop lookahead ordered within affected
    obtain ⟨before, reaches⟩ := affects_insert.mp affected
    rw [affects_delete, adjust_insert fits (Nat.le_trans ordered within),
      adjust_insert fits within, if_pos before]
    constructor
    · omega
    · split <;> omega
  case unaffected =>
    intro offset stop lookahead ordered within unaffected
    rw [affects_insert] at unaffected
    rw [affects_delete, adjust_insert fits (Nat.le_trans ordered within)]
    split <;> omega

end

end Edit

namespace Node

/-- Two nodes at one place with the same symbol, length and lookahead whose
children begin at the same offsets. -/
structure SameGeometry (left right : Placed Node) : Prop where
  offset : left.offset = right.offset
  symbol : left.item.symbol = right.item.symbol
  length : left.item.length = right.item.length
  lookahead : left.item.lookahead = right.item.lookahead
  offsets : left.item.children.map Placed.offset =
    right.item.children.map Placed.offset

theorem SameGeometry.refl (placed : Placed Node) : SameGeometry placed placed :=
  ⟨rfl, rfl, rfl, rfl, rfl⟩

/-- What a path leads to before two edits, after the first one, and after both:
nothing at all, two damaged copies of which the second one has the geometry of
the original, or three times the same node, which is back in its place. -/
inductive Restored :
    Option (Placed Node) → Option (Placed Node) → Option (Placed Node) →
      Prop where
  | nowhere : Restored none none none
  | copied {base once twice : Placed Node} :
      SameGeometry base twice → once.item.damaged = true →
      twice.item.damaged = true →
      Restored (some base) (some once) (some twice)
  | shared {base once : Placed Node} :
      once.item = base.item → Restored (some base) (some once) (some base)

/-- The path leads to an undamaged node. -/
def UndamagedAt (root : Node) (path : List Nat) : Prop :=
  ∃ placed, root.locate? 0 path = some placed ∧ placed.item.damaged = false

theorem restored_self (node : Node) (start newStart : Nat) (path : List Nat) :
    Restored (node.locate? start path) (node.locate? newStart path)
      (node.locate? start path) := by
  rw [locate?_eq_map node start, locate?_eq_map node newStart]
  cases node.locate? 0 path with
  | none => exact .nowhere
  | some placed => exact .shared rfl

theorem exists_getElem?_damageList (edit : Edit) (start newStart supply : Nat)
    (children : List (Placed Node)) (index : Nat) :
    ∃ next, (damageList edit start newStart supply children).1[index]? =
      children[index]?.map (copied edit start newStart next) := by
  induction children generalizing supply index with
  | nil => exact ⟨supply, rfl⟩
  | cons child children induction =>
      obtain ⟨next, same⟩ :=
        exists_damageList_cons edit start newStart supply child children
      rw [same]
      cases index with
      | zero => exact ⟨supply, rfl⟩
      | succ index => exact induction next index

/-- The child at an index of a damaged copy is what the edit makes of the child
at that index. -/
theorem exists_child?_damage (edit : Edit) (start newStart supply : Nat)
    (node : Node) (index : Nat) :
    ∃ next, (node.damage edit start newStart supply).1.child? index =
      (node.child? index).map (copied edit start newStart next) := by
  rw [child?, (damage_eq edit start newStart supply node).1]
  exact exists_getElem?_damageList edit start newStart supply node.children
    index

theorem symbol_damage (edit : Edit) (start newStart supply : Nat)
    (node : Node) :
    (node.damage edit start newStart supply).1.symbol = node.symbol := by
  cases node
  rfl

section

variable {edit back : Edit} {length : Nat} (undoes : back.Undoes edit length)

include undoes

/-- A child that the first edit moved is taken back to its offset. -/
theorem offset_copied_copied {child : Placed Node} {start newStart : Nat}
    (within : start + child.offset ≤ length)
    (moved : newStart ≤ edit.adjust start) (first second : Nat) :
    newStart + (copied edit start newStart first child).offset =
        edit.adjust (start + child.offset) ∧
      (copied back newStart start second
        (copied edit start newStart first child)).offset = child.offset := by
  have behind : edit.adjust start ≤ edit.adjust (start + child.offset) :=
    Edit.adjust_le_adjust undoes.fits (Nat.le_add_right _ _) within
  have place : newStart + (copied edit start newStart first child).offset =
      edit.adjust (start + child.offset) := by
    simp only [copied]
    omega
  refine ⟨place, ?_⟩
  rw [copied, place, undoes.adjust within]
  exact Nat.add_sub_cancel_left _ _

section

variable {child : Placed Node} {start newStart : Nat}
  (within : start + child.offset + child.item.length ≤ length)
  (moved : newStart ≤ edit.adjust start)

include within moved

theorem item_copied_of_affected
    (affected : edit.affects
      ⟨start + child.offset, start + child.offset + child.item.length⟩
      child.item.lookahead = true) (first second : Nat) :
    (copied edit start newStart first child).item =
        (child.item.damage edit (start + child.offset)
          (edit.adjust (start + child.offset)) first).1 ∧
      (copied back newStart start second
        (copied edit start newStart first child)).item =
        ((child.item.damage edit (start + child.offset)
          (edit.adjust (start + child.offset)) first).1.damage back
            (edit.adjust (start + child.offset)) (start + child.offset)
            second).1 := by
  have ordered := Nat.le_add_right (start + child.offset) child.item.length
  have startWithin := Nat.le_trans ordered within
  have behind := Edit.adjust_le_adjust undoes.fits ordered within
  have place := (offset_copied_copied undoes startWithin moved first second).1
  have once : (copied edit start newStart first child).item =
      (child.item.damage edit (start + child.offset)
        (edit.adjust (start + child.offset)) first).1 := by
    rw [copied, if_pos affected]
  obtain ⟨_, length, lookahead, _⟩ := damage_eq edit (start + child.offset)
    (edit.adjust (start + child.offset)) first child.item
  have again := undoes.affected ordered within affected
  refine ⟨once, ?_⟩
  rw [copied, place, once, length, lookahead, Nat.add_sub_cancel' behind,
    if_pos again, undoes.adjust startWithin]

theorem item_copied_of_unaffected
    (unaffected : ¬edit.affects
      ⟨start + child.offset, start + child.offset + child.item.length⟩
      child.item.lookahead = true) (first second : Nat) :
    (copied edit start newStart first child).item = child.item ∧
      (copied back newStart start second
        (copied edit start newStart first child)).item = child.item := by
  have ordered := Nat.le_add_right (start + child.offset) child.item.length
  have place := (offset_copied_copied undoes (Nat.le_trans ordered within)
    moved first second).1
  have once : (copied edit start newStart first child).item = child.item := by
    rw [copied, if_neg unaffected]
  have again := undoes.unaffected ordered within unaffected
  rw [Nat.add_sub_cancel_left] at again
  refine ⟨once, ?_⟩
  rw [copied, place, once, if_neg again]

end

section

variable {root : Node} {start newStart : Nat} (nested : root.Nested)
  (within : start + root.length ≤ length) (moved : newStart ≤ edit.adjust start)

include nested within moved

/-- A node that both edits copy has its geometry again. -/
theorem sameGeometry_damage (first second : Nat) :
    SameGeometry ⟨start, root⟩
      ⟨start, ((root.damage edit start newStart first).1.damage back newStart
        start second).1⟩ := by
  have behind : edit.adjust start ≤ edit.adjust (start + root.length) :=
    Edit.adjust_le_adjust undoes.fits (Nat.le_add_right _ _) within
  obtain ⟨_, lengthOnce, lookaheadOnce, _⟩ :=
    damage_eq edit start newStart first root
  have stop : newStart + (root.damage edit start newStart first).1.length =
      edit.adjust (start + root.length) := by
    rw [lengthOnce]
    omega
  obtain ⟨_, lengthTwice, lookaheadTwice, _⟩ := damage_eq back newStart start
    second (root.damage edit start newStart first).1
  constructor
  case offset => rfl
  case symbol => simp only [symbol_damage]
  case length =>
    simp only [lengthTwice, stop, undoes.adjust within]
    exact (Nat.add_sub_cancel_left _ _).symm
  case lookahead => simp only [lookaheadTwice, lookaheadOnce]
  case offsets =>
    apply List.ext_getElem?
    intro index
    obtain ⟨next, once⟩ :=
      exists_child?_damage edit start newStart first root index
    obtain ⟨last, twice⟩ := exists_child?_damage back newStart start second
      (root.damage edit start newStart first).1 index
    simp only [child?] at once twice
    simp only [List.getElem?_map, twice, once]
    cases found : root.children[index]? with
    | none => rfl
    | some child =>
        have inside :=
          (nested_iff.mp nested).1 child (List.mem_of_getElem? found)
        simp only [Placed.stop] at inside
        have childWithin : start + child.offset ≤ length := by omega
        have offset := (offset_copied_copied undoes childWithin moved next
          last).2
        simp only [Option.map_some, offset]

/-- Wherever a path leads, the second edit undoes what the first one did. -/
theorem restored_damage (first second : Nat) (path : List Nat) :
    Restored (root.locate? start path)
      ((root.damage edit start newStart first).1.locate? newStart path)
      (((root.damage edit start newStart first).1.damage back newStart start
        second).1.locate? start path) := by
  induction path generalizing root start newStart first second with
  | nil =>
      apply Restored.copied
      · exact sameGeometry_damage undoes nested within moved first second
      · exact (damage_eq ..).2.2.2
      · exact (damage_eq ..).2.2.2
  | cons index path induction =>
      obtain ⟨next, once⟩ :=
        exists_child?_damage edit start newStart first root index
      obtain ⟨last, twice⟩ := exists_child?_damage back newStart start second
        (root.damage edit start newStart first).1 index
      rw [locate?_cons, locate?_cons, locate?_cons, twice, once]
      cases found : root.child? index with
      | none => exact .nowhere
      | some child =>
          have member : child ∈ root.children := List.mem_of_getElem? found
          obtain ⟨children, nestedChildren⟩ := nested_iff.mp nested
          have inside := children child member
          simp only [Placed.stop] at inside
          have childWithin :
              start + child.offset + child.item.length ≤ length := by
            omega
          have startWithin : start + child.offset ≤ length := by omega
          obtain ⟨place, offset⟩ :=
            offset_copied_copied undoes startWithin moved next last
          simp only [Option.map_some, Option.bind_some, place, offset]
          by_cases affected : edit.affects
              ⟨start + child.offset, start + child.offset + child.item.length⟩
              child.item.lookahead = true
          -- Both edits copy the child.
          · obtain ⟨itemOnce, itemTwice⟩ := item_copied_of_affected undoes
              childWithin moved affected next last
            rw [itemOnce, itemTwice]
            apply induction
            · exact nestedChildren child member
            · exact childWithin
            · exact Nat.le_refl _
          -- Neither edit copies it.
          · obtain ⟨itemOnce, itemTwice⟩ := item_copied_of_unaffected undoes
              childWithin moved affected next last
            rw [itemOnce, itemTwice]
            exact restored_self child.item _ _ path

end

end

section

variable {base once twice : Node} {path : List Nat}
  (restored : Restored (base.locate? 0 path) (once.locate? 0 path)
    (twice.locate? 0 path))

include restored

theorem Restored.sameGeometry :
    Option.Rel SameGeometry (base.locate? 0 path) (twice.locate? 0 path) := by
  generalize base.locate? 0 path = before, once.locate? 0 path = between,
    twice.locate? 0 path = after at restored
  cases restored with
  | nowhere => exact .none
  | copied same => exact .some same
  | shared => exact .some (.refl _)

theorem Restored.undamagedAt_iff :
    twice.UndamagedAt path ↔ once.UndamagedAt path := by
  unfold UndamagedAt
  generalize base.locate? 0 path = before, once.locate? 0 path = between,
    twice.locate? 0 path = after at restored
  cases restored with
  | nowhere => rfl
  | copied _ damaged damagedAgain =>
      simp only [Option.some.injEq, exists_eq_left', damaged, damagedAgain]
  | shared same => simp only [Option.some.injEq, exists_eq_left', same]

/-- An undamaged node is the one that was there before. -/
theorem Restored.eq_of_undamaged {placed : Placed Node}
    (found : twice.locate? 0 path = some placed)
    (clean : placed.item.damaged = false) :
    base.locate? 0 path = some placed := by
  rw [found] at restored
  generalize base.locate? 0 path = before, once.locate? 0 path = between
    at restored
  cases restored with
  | copied _ _ damaged =>
      rw [clean] at damaged
      cases damaged
  | shared => rfl

end

end Node

namespace Tree

/-- Bytes that are inserted into a well-formed tree and deleted again leave its
geometry as it was.  The nodes that are undamaged then are at the same paths as
after the insertion alone, and each is the very node that was there before. -/
theorem insert_delete_restores {tree : Tree} {position added : Nat}
    (wellFormed : tree.root.WellFormed) (inside : position ≤ tree.length)
    (small : tree.length + added < offsetLimit - 1) (supply : Nat) :
    ∃ inserted available shell next,
      tree.edit (Edit.insert position added) supply =
          .ok (inserted, available) ∧
        tree.editAll [Edit.insert position added, Edit.delete position added]
            supply = .ok (shell, next) ∧
          (∀ path, Option.Rel Node.SameGeometry (tree.root.locate? 0 path)
            (shell.root.locate? 0 path)) ∧
          (∀ path,
            shell.root.UndamagedAt path ↔ inserted.root.UndamagedAt path) ∧
          ∀ path placed, shell.root.locate? 0 path = some placed →
            placed.item.damaged = false →
              tree.root.locate? 0 path = some placed := by
  have nested := Node.nested_of_wellFormed wellFormed
  have within : tree.length + added < offsetLimit := by omega
  let insertion := Edit.insert position added
  let deletion := Edit.delete position added
  let once := tree.root.damage insertion 0 0 supply
  let twice := once.1.damage deletion 0 0 once.2
  let inserted : Shell := ⟨tree, once.1, [insertion]⟩
  have longer : insertion.resultLength tree.length = tree.length + added := by
    simp only [insertion, Edit.insert, Edit.resultLength]
    omega
  have shorter : deletion.resultLength (tree.length + added) = tree.length := by
    simp only [deletion, Edit.delete, Edit.resultLength]
    omega
  have first : tree.edit insertion supply = .ok (inserted, once.2) := by
    apply bind_eq_ok.mpr
    refine ⟨(), Edit.check_of_fits (Edit.fits_insert inside within) ?_, rfl⟩
    exact lt_of_eq_of_lt longer small
  have length : inserted.length = tree.length + added :=
    (Shell.editedBy_of_edit first).length.trans longer
  have second : inserted.edit deletion once.2 =
      .ok (⟨tree, twice.1, [insertion, deletion]⟩, twice.2) := by
    apply bind_eq_ok.mpr
    refine ⟨(), ?_, rfl⟩
    rw [length]
    apply Edit.check_of_fits (Edit.fits_delete inside (by omega))
    rw [shorter]
    omega
  have restored (path : List Nat) : Node.Restored (tree.root.locate? 0 path)
      (once.1.locate? 0 path) (twice.1.locate? 0 path) :=
    Node.restored_damage (Edit.delete_undoes_insert inside within) nested
      (Nat.le_of_eq (Nat.zero_add _)) (Nat.zero_le _) supply once.2 path
  refine ⟨inserted, once.2, _, twice.2, first,
    bind_eq_ok.mpr ⟨_, first, bind_eq_ok.mpr ⟨_, second, rfl⟩⟩, ?_, ?_, ?_⟩
  · intro path
    exact (restored path).sameGeometry
  · intro path
    exact (restored path).undamagedAt_iff
  · intro path placed found clean
    exact (restored path).eq_of_undamaged found clean

/-- Two bytes are inserted behind the first letter of two and deleted again.
The first letter was read with the byte behind it, so it is damaged; the second
one is not. -/
theorem letters_restored :
    ∃ inserted available shell next,
      (letters.root.WellFormed ∧ 1 ≤ letters.length ∧
        letters.length + 2 < offsetLimit - 1) ∧
      letters.edit (Edit.insert 1 2) 3 = .ok (inserted, available) ∧
        letters.editAll [Edit.insert 1 2, Edit.delete 1 2] 3 =
            .ok (shell, next) ∧
          Option.Rel Node.SameGeometry (letters.root.locate? 0 [0])
              (shell.root.locate? 0 [0]) ∧
            shell.root.UndamagedAt [1] ∧ ¬shell.root.UndamagedAt [0] := by
  have wellFormed : letters.root.WellFormed := by
    simp [letters, Node.WellFormed, Node.Everywhere, Node.EverywhereList,
      Node.InOrder, Node.leaf, Placed.stop]
  obtain ⟨inserted, available, shell, next, once, twice, geometry, undamaged,
    _⟩ := @insert_delete_restores letters 1 2 wellFormed (by decide)
      (by decide) 3
  have computed : letters.edit (Edit.insert 1 2) 3 = .ok _ := rfl
  cases computed.symm.trans once
  refine ⟨_, _, shell, next, ⟨wellFormed, by decide, by decide⟩, once, twice,
    geometry [0], ?_, ?_⟩
  · rw [undamaged]
    exact ⟨_, rfl, rfl⟩
  · rw [undamaged]
    intro untouched
    obtain ⟨placed, found, clean⟩ := untouched
    cases found
    cases clean

end Tree

end Reparse
