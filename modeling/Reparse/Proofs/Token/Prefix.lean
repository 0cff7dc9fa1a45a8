import Reparse.Parse.History
import Reparse.Proofs.Token.Edges

/-!
# Tokens of texts that begin alike

Where two texts agree, they are read alike from the beginning on.  A token that
was examined only where they agree is therefore a token of both, at the same
index and at the same place, provided that no token before it was examined any
further.
-/

namespace Reparse

theorem Shift.eq {left right : Nat} (shift : Shift 0 0 left right) :
    left = right := by
  obtain ⟨distance, here, there⟩ := shift
  rw [here, there]

namespace Grammar

section

variable {grammar : Grammar} {left right : List UInt8}
  {lefts rights : TokenList} {count : Nat}
  (readLeft : grammar.tokenize left = .ok lefts)
  (readRight : grammar.tokenize right = .ok rights)
  (agree : AgreeFor count left right)

include readLeft readRight agree

/-- The token at an index where both texts are read from the same edge. -/
theorem exists_twin {index : Nat} {token : Token}
    (here : lefts.get? index = some token)
    (examined : token.examinedEnd ≤ count) (within : index ≤ rights.size)
    (level : lefts.edge index = rights.edge index) :
    ∃ twin, rights.get? index = some twin ∧ twin.symbol = token.symbol ∧
      twin.span = token.span ∧
        (grammar.Nearsighted → twin.examinedEnd = token.examinedEnd) := by
  have inside : index ≤ lefts.size :=
    Nat.le_of_lt (TokenList.lt_size_of_get? here)
  have shift : Shift 0 0 (lefts.edge index) (rights.edge index) :=
    ⟨lefts.edge index, (Nat.zero_add _).symm, by rw [Nat.zero_add, level]⟩
  have agreeHere : AgreeFor (count - 0) (left.drop 0) (right.drop 0) := agree
  obtain ⟨twin, twinHere, symbol, starts, stops, exact⟩ :=
    token_alongside agreeHere (resumes_edge readLeft inside)
      (resumes_edge readRight within) shift here examined
  refine ⟨twin, twinHere, symbol, ?_, ?_⟩
  · have start := starts.eq
    have stop := stops.eq
    rcases twin with ⟨_, ⟨_, _⟩, _⟩
    rcases token with ⟨_, ⟨_, _⟩, _⟩
    simp only at start stop ⊢
    rw [start, stop]
  · intro nearsighted
    exact (exact nearsighted).eq.symm

/-- Both texts are read from the same edges, as long as the tokens in front were
examined only where the texts agree. -/
theorem edge_alongside {index : Nat} (within : index ≤ lefts.size)
    (examined : ∀ earlier token, earlier < index →
      lefts.get? earlier = some token → token.examinedEnd ≤ count) :
    index ≤ rights.size ∧ lefts.edge index = rights.edge index := by
  induction index with
  | zero => exact ⟨Nat.zero_le _, rfl⟩
  | succ index induction =>
      obtain ⟨token, here⟩ := TokenList.get?_of_lt within
      obtain ⟨inside, level⟩ := induction (Nat.le_of_succ_le within)
        fun earlier token before =>
          examined earlier token (Nat.lt_succ_of_lt before)
      have bound := examined index token (Nat.lt_succ_self _) here
      obtain ⟨twin, twinHere, _, span, _⟩ :=
        exists_twin readLeft readRight agree here bound inside level
      refine ⟨TokenList.lt_size_of_get? twinHere, ?_⟩
      rw [TokenList.edge_succ here, TokenList.edge_succ twinHere, span]

/-- A token that was examined only where the texts agree is a token of both. -/
theorem get?_alongside (nearsighted : grammar.Nearsighted) {index : Nat}
    {token : Token} (here : lefts.get? index = some token)
    (examined : token.examinedEnd ≤ count) :
    rights.get? index = some token := by
  have inside := TokenList.lt_size_of_get? here
  -- An earlier token is known one byte past its end, where this one begins.
  have before : ∀ earlier other, earlier < index →
      lefts.get? earlier = some other → other.examinedEnd ≤ count := by
    intro earlier other early found
    have near := nearsighted.token readLeft found
    have apart := (TokenList.inOrder_of_tokenize readLeft).apart earlier index
      other token early found here
    have bounds := span_bounds readLeft here
    omega
  obtain ⟨within, level⟩ :=
    edge_alongside readLeft readRight agree (Nat.le_of_lt inside) before
  obtain ⟨twin, twinHere, symbol, span, exact⟩ :=
    exists_twin readLeft readRight agree here examined within level
  rw [twinHere]
  cases twin
  cases token
  simp only at symbol span exact
  rw [symbol, span, exact nearsighted]

end

end Grammar

/-- The text in front of an edit stays. -/
theorem Edit.Produces.agreeFor {edit : Edit} {old new : List UInt8}
    (produces : edit.Produces old new) : AgreeFor edit.start old new := by
  obtain ⟨ordered, inside, inserted, _, rfl⟩ := produces
  intro index before
  have inFront : index < (old.take edit.start).length := by
    rw [List.length_take]
    omega
  rw [List.getElem?_append_left inFront, List.getElem?_take_of_lt before]

end Reparse
