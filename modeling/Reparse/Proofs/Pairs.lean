import Mathlib.Data.List.Forall2
import Reparse.Proofs.Outcome

/-!
# Lists related item by item

What an item of one list says about the item of the other list that it is
related to.
-/

namespace Reparse

section

variable {α β : Type} {relates : α → β → Prop}

/-- Lists related item by item are related in front of an item, at it and behind
it. -/
theorem forall₂_split {before after : List α} {left : α} {rights : List β}
    (related : List.Forall₂ relates (before ++ left :: after) rights) :
    ∃ earlier right later, rights = earlier ++ right :: later ∧
      List.Forall₂ relates before earlier ∧ relates left right := by
  induction before generalizing rights with
  | nil =>
      obtain ⟨right, later, here, _, rfl⟩ :=
        List.forall₂_cons_left_iff.mp related
      exact ⟨[], right, later, rfl, .nil, here⟩
  | cons first before induction =>
      obtain ⟨other, rest, here, relatedRest, rfl⟩ :=
        List.forall₂_cons_left_iff.mp related
      obtain ⟨earlier, right, later, rfl, relatedBefore, relatedItem⟩ :=
        induction relatedRest
      exact ⟨other :: earlier, right, later, rfl, .cons here relatedBefore,
        relatedItem⟩

theorem exists_of_forall₂_left {lefts : List α} {rights : List β} {left : α}
    (related : List.Forall₂ relates lefts rights) (member : left ∈ lefts) :
    ∃ right ∈ rights, relates left right := by
  obtain ⟨before, after, rfl⟩ := List.append_of_mem member
  obtain ⟨earlier, right, later, rfl, _, here⟩ := forall₂_split related
  exact ⟨right, List.mem_append_right _ List.mem_cons_self, here⟩

theorem exists_of_forall₂_right {lefts : List α} {rights : List β} {right : β}
    (related : List.Forall₂ relates lefts rights) (member : right ∈ rights) :
    ∃ left ∈ lefts, relates left right :=
  exists_of_forall₂_left related.flip member

theorem exists_last_of_forall₂ {lefts : List α} {rights : List β} {left : α}
    (related : List.Forall₂ relates lefts rights)
    (last : lefts.getLast? = some left) :
    ∃ right, rights.getLast? = some right ∧ relates left right := by
  induction related with
  | nil => cases last
  | @cons first right lefts rights here later induction =>
      cases later with
      | nil =>
          cases last
          exact ⟨right, rfl, here⟩
      | cons =>
          rw [List.getLast?_cons_cons] at last ⊢
          exact induction last

/-- Where one of two related lists has an item, the other one has one too. -/
theorem getElem?_of_forall₂ {lefts : List α} {rights : List β} {index : Nat}
    {left : α} (related : List.Forall₂ relates lefts rights)
    (found : lefts[index]? = some left) :
    ∃ right, rights[index]? = some right ∧ relates left right := by
  induction related generalizing index with
  | nil => cases found
  | @cons first right lefts rights here _ induction =>
      cases index with
      | zero =>
          cases found
          exact ⟨right, rfl, here⟩
      | succ index => exact induction found

end

/-- A list of computations that succeeds is related to its results. -/
theorem forall₂_of_mapM {ε α β : Type} {run : α → Except ε β}
    {items : List α} {results : List β} (found : items.mapM run = .ok results) :
    List.Forall₂ (fun item result => run item = .ok result) items results := by
  induction items generalizing results with
  | nil =>
      cases found
      exact .nil
  | cons item items induction =>
      rw [List.mapM_cons] at found
      obtain ⟨first, ran, later⟩ := bind_eq_ok.mp found
      obtain ⟨rest, ranRest, rfl⟩ := bind_pure_eq_ok.mp later
      exact .cons ran (induction ranRest)

end Reparse
