/-!
# Bisection

A test that holds for the first indices of a range and for no others divides the
range at one index.  `bisect` finds it by halving.
-/

namespace Reparse

/-- The index from `low` on, and up to `high`, at which the test begins to
fail. -/
def bisect (test : Nat → Bool) (low high : Nat) : Nat :=
  if low < high then
    let middle := (low + high) / 2
    if test middle then bisect test (middle + 1) high
    else bisect test low middle
  else low
termination_by high - low
decreasing_by all_goals omega

variable {test : Nat → Bool}

/-- Where the test holds at an index, it holds at every index before. -/
def HoldsFirst (test : Nat → Bool) (high : Nat) : Prop :=
  ∀ earlier later, earlier ≤ later → later < high → test later = true →
    test earlier = true

/-- The test holds before the index that is found. -/
theorem test_of_lt_bisect {low high : Nat} (divided : HoldsFirst test high)
    {index : Nat} (from_low : low ≤ index)
    (before : index < bisect test low high) : test index = true := by
  fun_induction bisect test low high with
  | case1 low high inside middle holds induction =>
      by_cases later : middle + 1 ≤ index
      · exact induction divided later before
      · exact divided index middle (by omega) (by omega) holds
  | case2 low high inside middle fails induction =>
      refine induction ?_ from_low before
      intro earlier later ordered bound
      exact divided earlier later ordered (by omega)
  | case3 low high outside => omega

/-- The test fails from the index that is found on. -/
theorem test_of_bisect_le {low high : Nat} (divided : HoldsFirst test high)
    {index : Nat} (from_found : bisect test low high ≤ index)
    (before : index < high) : test index = false := by
  fun_induction bisect test low high with
  | case1 low high inside middle holds induction =>
      exact induction divided from_found before
  | case2 low high inside middle fails induction =>
      by_cases earlier : index < middle
      · refine induction ?_ from_found earlier
        intro earlier later ordered bound
        exact divided earlier later ordered (by omega)
      · cases value : test index with
        | false => rfl
        | true =>
            exact absurd (divided middle index (by omega) before value) fails
  | case3 low high outside => omega

end Reparse
