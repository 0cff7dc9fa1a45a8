import Reparse.Bisection
import Reparse.Token.Lexeme

/-!
# Token lists

The tokens of a whole text, in order.  The list also knows the length of the
text and how far reading looked when it found no more tokens, which is what the
end of the text was derived from.
-/

namespace Reparse

structure TokenList where
  tokens : Array Token
  /-- Behind the last byte examined when no more tokens were found. -/
  endExamined : Nat
  sourceLength : Nat
deriving DecidableEq

namespace TokenList

def size (list : TokenList) : Nat := list.tokens.size

def isEmpty (list : TokenList) : Bool := list.tokens.isEmpty

def get? (list : TokenList) (index : Nat) : Option Token := list.tokens[index]?

/-- Behind the last byte examined for the token at an index, or for the end of
the text. -/
def examinedEnd (list : TokenList) (index : Nat) : Nat :=
  match list.get? index with
  | some token => token.examinedEnd
  | none => list.endExamined

def startOf (list : TokenList) (index : Nat) : Nat :=
  ((list.get? index).map fun token => token.span.start).getD 0

/-- Where the token before an index ends. -/
def stopBefore (list : TokenList) (index : Nat) : Nat :=
  ((list.get? (index - 1)).map fun token => token.span.stop).getD 0

def endsBefore (list : TokenList) (stop index : Nat) : Bool :=
  match list.get? index with
  | some token => token.span.stop < stop
  | none => false

/-- The index after the token that ends at a position, if one ends there.
Tokens are in order, so those that end before the position are the first
ones. -/
def indexAfter? (list : TokenList) (stop : Nat) : Option Nat :=
  let index := bisect (list.endsBefore stop) 0 list.size
  match list.get? index with
  | some token => if token.span.stop = stop then some (index + 1) else none
  | none => none

/-- Each token ends behind the token before it. -/
def Increasing (list : TokenList) : Prop :=
  ∀ earlier later first second, earlier < later →
    list.get? earlier = some first → list.get? later = some second →
      first.span.stop < second.span.stop

theorem get?_of_lt {list : TokenList} {index : Nat}
    (inside : index < list.size) :
    ∃ token, list.get? index = some token :=
  ⟨list.tokens[index], Array.getElem?_eq_getElem inside⟩

theorem lt_size_of_get? {list : TokenList} {index : Nat} {token : Token}
    (found : list.get? index = some token) : index < list.size :=
  (Array.getElem?_eq_some_iff.mp found).1

theorem holdsFirst_endsBefore {list : TokenList} (increasing : list.Increasing)
    (stop : Nat) : HoldsFirst (list.endsBefore stop) list.size := by
  intro earlier later ordered inside holds
  obtain ⟨first, firstFound⟩ := get?_of_lt (Nat.lt_of_le_of_lt ordered inside)
  obtain ⟨second, secondFound⟩ := get?_of_lt inside
  rcases Nat.lt_or_eq_of_le ordered with before | same
  · have := increasing earlier later first second before firstFound secondFound
    simp only [endsBefore, secondFound, firstFound, decide_eq_true_eq]
      at holds ⊢
    omega
  · rw [same]
    exact holds

/-- The index after a token is found exactly for the position where the token
ends. -/
theorem indexAfter?_eq_some_iff {list : TokenList}
    (increasing : list.Increasing) {stop next : Nat} :
    list.indexAfter? stop = some next ↔
      ∃ index token, next = index + 1 ∧ list.get? index = some token ∧
        token.span.stop = stop := by
  constructor
  · intro found
    simp only [indexAfter?] at found
    split at found
    · next token tokenFound =>
        split at found
        · next same =>
            exact ⟨_, token, (Option.some.inj found).symm, tokenFound, same⟩
        · cases found
    · cases found
  · rintro ⟨index, token, same, tokenFound, ends⟩
    have inside := lt_size_of_get? tokenFound
    have divided := holdsFirst_endsBefore increasing stop
    have reached : bisect (list.endsBefore stop) 0 list.size = index := by
      rcases Nat.lt_trichotomy (bisect (list.endsBefore stop) 0 list.size)
        index with before | equal | after
      · have fails :=
          test_of_bisect_le divided (Nat.le_refl _) (Nat.lt_trans before inside)
        obtain ⟨other, otherFound⟩ := get?_of_lt (Nat.lt_trans before inside)
        have := increasing _ _ other token before otherFound tokenFound
        simp only [endsBefore, otherFound, decide_eq_false_iff_not] at fails
        omega
      · exact equal
      · have holds := test_of_lt_bisect divided (Nat.zero_le index) after
        simp only [endsBefore, tokenFound, decide_eq_true_eq] at holds
        omega
    simp only [indexAfter?, reached, tokenFound, ends, if_true, same]

end TokenList

namespace Grammar

/-- Reads tokens until the end, from `position` on, where the text goes on with
`rest`. -/
def tokensFrom (grammar : Grammar) (rest : List UInt8) (position : Nat)
    (tokens : Array Token) : Except LexError TokenList :=
  match _ : Lexeme.read grammar.terminals grammar.extras rest with
  | .lexeme lexeme =>
      grammar.tokensFrom (rest.drop lexeme.extent) (position + lexeme.extent)
        (tokens.push (lexeme.token position))
  | .finished examined =>
      .ok ⟨tokens, position + examined, position + rest.length⟩
  | .stuck offset byte => .error ⟨position + offset, byte⟩
termination_by rest.length
decreasing_by
  have available := Lexeme.length_pos_of_read ‹_›
  have advance := lexeme.length_pos
  simp only [List.length_drop, Lexeme.extent]
  omega

/-- The tokens of a text, or the first byte at which no token begins. -/
def tokenize (grammar : Grammar) (input : List UInt8) :
    Except LexError TokenList :=
  grammar.tokensFrom input 0 #[]

theorem increasing_of_tokensFrom {grammar : Grammar} {rest : List UInt8}
    {position : Nat} {tokens : Array Token} {list : TokenList}
    (found : grammar.tokensFrom rest position tokens = .ok list)
    (increasing : TokenList.Increasing ⟨tokens, 0, 0⟩)
    (before : ∀ token ∈ tokens, token.span.stop ≤ position) :
    list.Increasing := by
  fun_induction grammar.tokensFrom rest position tokens with
  | case1 rest position tokens lexeme reading induction =>
      have advance := lexeme.length_pos
      refine induction found ?_ ?_
      · intro earlier later first second ordered firstFound secondFound
        simp only [TokenList.get?, Array.getElem?_push]
          at firstFound secondFound
        split at secondFound
        · split at firstFound
          · omega
          · have member := before first (Array.mem_of_getElem? firstFound)
            cases secondFound
            simp only [Lexeme.token, Lexeme.extent]
            omega
        · have inside := (Array.getElem?_eq_some_iff.mp secondFound).1
          split at firstFound
          · omega
          · exact increasing earlier later first second ordered firstFound
              secondFound
      · intro token member
        rcases Array.mem_push.mp member with earlier | same
        · have := before token earlier
          simp only [Lexeme.extent]
          omega
        · rw [same]
          exact Nat.le_refl _
  | case2 rest position tokens examined reading =>
      cases found
      exact increasing
  | case3 rest position tokens offset byte reading => cases found

/-- The tokens of a text end one behind the other. -/
theorem increasing_of_tokenize {grammar : Grammar} {input : List UInt8}
    {list : TokenList} (found : grammar.tokenize input = .ok list) :
    list.Increasing := by
  refine increasing_of_tokensFrom found ?_ ?_
  · intro earlier later first second ordered firstFound secondFound
    cases firstFound
  · intro token member
    exact absurd member (Array.not_mem_empty token)

end Grammar

end Reparse
