import Reparse.Proofs.Token.Locality
import Reparse.Token.List

/-!
# Where reading goes on

A token list is what reading finds from one edge to the next: the first edge
is the beginning of the text, and the next one is where the token just read
ends.  Since no extra can be skipped at the start of a token, reading may also
be resumed right there.
-/

namespace Reparse

namespace Pattern

/-- Whatever a pattern matches it has examined. -/
theorem length_le_examined {pattern : Pattern} {rest : List UInt8}
    {length : Nat} (found : (pattern.scan rest).length = some length) :
    length ≤ (pattern.scan rest).examined := by
  cases pattern with
  | literal text =>
      simp only [scan] at found ⊢
      have matched := scanLiteral_matched found
      rw [matched] at found ⊢
      exact Nat.le_of_eq (Option.some.inj found).symm
  | identifier =>
      simp only [scan] at found ⊢
      cases rest with
      | nil => simp [scanIdentifier, Scan.failed] at found
      | cons first rest =>
          by_cases starts : Byte.startsName first = true
          · simp only [scanIdentifier, starts, if_true, Scan.matched,
              Option.some.injEq] at found ⊢
            omega
          · simp [scanIdentifier, starts, Scan.failed] at found
  | number =>
      simp only [scan, scanNumber] at found ⊢
      split at found
      · simp [Scan.failed] at found
      · split at found
        · simp only [Scan.matched, Option.some.injEq] at found ⊢
          omega
        · split at found
          · split at found <;>
              simp only [Scan.matched, Option.some.injEq] at found <;>
              simp_all [Scan.matched] <;> omega
          · simp_all [Scan.matched]
            omega
  | quoted delimiter =>
      simp only [scan] at found ⊢
      cases rest with
      | nil => simp [scanQuoted, Scan.failed] at found
      | cons first rest =>
          simp only [scanQuoted] at found ⊢
          split at found
          · next opens =>
              split at found
              · simp_all [Scan.matched]
              · simp [Scan.failed] at found
          · simp [Scan.failed] at found
  | whitespace =>
      simp only [scan, scanRun] at found ⊢
      split at found
      · simp [Scan.failed] at found
      · simp only [Scan.matched, Option.some.injEq] at found ⊢
        omega
  | lineComment opening =>
      simp only [scan, scanLineComment] at found ⊢
      split at found
      · next failed => simp [failed] at found
      · simp only [Scan.matched, Option.some.injEq] at found ⊢
        omega

end Pattern

namespace Lexeme

/-- The best candidate, if there is one, stands for one of the terminals and
has been examined as a whole. -/
def Contest.Fair (terminals : List Terminal) (rest : List UInt8)
    (tried : Contest) : Prop :=
  ∀ best, tried.best = some best →
    (∃ terminal ∈ terminals, best.symbol = terminal.symbol) ∧
      best.length ≤ tried.examined ∧ best.length ≤ rest.length

theorem fair_enter {terminals : List Terminal} {rest : List UInt8}
    {tried : Contest} (fair : tried.Fair terminals rest)
    {terminal : Terminal} (member : terminal ∈ terminals) :
    (tried.enter rest terminal).Fair terminals rest := by
  have chosen : ∀ best,
      (tried.enter rest terminal).best = some best →
        tried.best = some best ∨
          Candidate.ofScan? terminal (terminal.pattern.scan rest) =
            some best := by
    intro best found
    simp only [Contest.enter] at found
    cases earlier : tried.best <;>
      cases offered : Candidate.ofScan? terminal
        (terminal.pattern.scan rest) <;>
      rw [earlier, offered] at found <;>
      simp only [Candidate.better] at found
    · cases found
    · exact .inr found
    · exact .inl found
    · split at found
      · exact .inr found
      · exact .inl found
  intro best found
  simp only [Contest.enter]
  rcases chosen best found with earlier | offered
  · obtain ⟨known, examined, inside⟩ := fair best earlier
    exact ⟨known, Nat.le_trans examined (Nat.le_max_left _ _), inside⟩
  · unfold Candidate.ofScan? at offered
    split at offered
    · next length matched =>
        cases offered
        exact ⟨⟨terminal, member, rfl⟩,
          Nat.le_trans (Pattern.length_le_examined matched)
            (Nat.le_max_right _ _),
          Pattern.length_le_of_scan matched⟩
    · cases offered

theorem fair_contest (terminals : List Terminal) (rest : List UInt8) :
    (contest terminals rest).Fair terminals rest := by
  have run : ∀ later : List Terminal,
      (∀ terminal ∈ later, terminal ∈ terminals) →
        ∀ tried : Contest, tried.Fair terminals rest →
          (later.foldl (Contest.enter rest) tried).Fair terminals rest := by
    intro later
    induction later with
    | nil => exact fun _ _ fair => fair
    | cons terminal later induction =>
        intro members tried fair
        rw [List.foldl_cons]
        apply induction
        · exact fun other member =>
            members other (List.mem_cons_of_mem _ member)
        · exact fair_enter fair (members terminal List.mem_cons_self)
  refine run terminals (fun _ member => member) ⟨none, 0⟩ ?_
  intro best none
  cases none

theorem symbol_of_read {terminals : List Terminal} {extras : List Pattern}
    {rest : List UInt8} {lexeme : Lexeme}
    (found : read terminals extras rest = .lexeme lexeme) :
    ∃ terminal ∈ terminals, lexeme.symbol = terminal.symbol := by
  obtain ⟨best, won, rfl⟩ := read_eq_lexeme found
  exact (fair_contest terminals _ best won).1

theorem extent_bounds {terminals : List Terminal} {extras : List Pattern}
    {rest : List UInt8} {lexeme : Lexeme}
    (found : read terminals extras rest = .lexeme lexeme) :
    lexeme.extent ≤ lexeme.examined ∧ lexeme.extent ≤ rest.length := by
  obtain ⟨best, won, rfl⟩ := read_eq_lexeme found
  obtain ⟨_, examined, inside⟩ := fair_contest terminals _ best won
  have advance := best.length_pos
  rw [List.length_drop] at inside
  simp only [extent]
  omega

end Lexeme

namespace TokenList

/-- Where the token before an index ends; the beginning of the text for the
first index. -/
def edge (list : TokenList) : Nat → Nat
  | 0 => 0
  | index + 1 => list.stopBefore (index + 1)

theorem edge_succ {list : TokenList} {index : Nat} {token : Token}
    (found : list.get? index = some token) :
    list.edge (index + 1) = token.span.stop := by
  simp [edge, stopBefore, found]

theorem stopBefore_eq_edge {list : TokenList} {before index : Nat}
    (later : before < index) : list.stopBefore index = list.edge index := by
  cases index with
  | zero => omega
  | succ index => rfl

theorem startOf_of_get? {list : TokenList} {index : Nat} {token : Token}
    (found : list.get? index = some token) :
    list.startOf index = token.span.start := by
  simp [startOf, found]

theorem examinedEnd_of_get? {list : TokenList} {index : Nat} {token : Token}
    (found : list.get? index = some token) :
    list.examinedEnd index = token.examinedEnd := by
  simp [examinedEnd, found]

end TokenList

namespace Grammar

/-- From a position on, the text is read as these tokens, and the end is found
after examining the bytes before `endExamined`. -/
inductive ReadsOn (grammar : Grammar) (text : List UInt8) :
    Nat → List Token → Nat → Prop where
  | finished {position examined : Nat} :
      Lexeme.read grammar.terminals grammar.extras (text.drop position) =
        .finished examined →
      ReadsOn grammar text position [] (position + examined)
  | token {position endExamined : Nat} {lexeme : Lexeme}
      {tokens : List Token} :
      Lexeme.read grammar.terminals grammar.extras (text.drop position) =
        .lexeme lexeme →
      ReadsOn grammar text (position + lexeme.extent) tokens endExamined →
      ReadsOn grammar text position (lexeme.token position :: tokens)
        endExamined

theorem ReadsOn.cons {grammar : Grammar} {text : List UInt8}
    {position endExamined : Nat} {token : Token} {tokens : List Token}
    (readsOn : grammar.ReadsOn text position (token :: tokens) endExamined) :
    ∃ lexeme : Lexeme,
      Lexeme.read grammar.terminals grammar.extras (text.drop position) =
          .lexeme lexeme ∧
        token = lexeme.token position ∧
          grammar.ReadsOn text (position + lexeme.extent) tokens
            endExamined := by
  cases readsOn with
  | token reading later => exact ⟨_, reading, rfl, later⟩

theorem ReadsOn.nil {grammar : Grammar} {text : List UInt8}
    {position endExamined : Nat}
    (readsOn : grammar.ReadsOn text position [] endExamined) :
    ∃ examined,
      Lexeme.read grammar.terminals grammar.extras (text.drop position) =
          .finished examined ∧
        endExamined = position + examined := by
  cases readsOn with
  | finished reading => exact ⟨_, reading, rfl⟩

theorem tokensFrom_of_lexeme {grammar : Grammar} {rest : List UInt8}
    {lexeme : Lexeme}
    (reading : Lexeme.read grammar.terminals grammar.extras rest =
      .lexeme lexeme) (position : Nat) (tokens : Array Token) :
    grammar.tokensFrom rest position tokens =
      grammar.tokensFrom (rest.drop lexeme.extent) (position + lexeme.extent)
        (tokens.push (lexeme.token position)) := by
  rw [tokensFrom]
  split <;> simp_all

theorem tokensFrom_of_finished {grammar : Grammar} {rest : List UInt8}
    {examined : Nat}
    (reading : Lexeme.read grammar.terminals grammar.extras rest =
      .finished examined) (position : Nat) (tokens : Array Token) :
    grammar.tokensFrom rest position tokens =
      .ok ⟨tokens, position + examined, position + rest.length⟩ := by
  rw [tokensFrom]
  split <;> simp_all

theorem readsOn_of_tokensFrom {grammar : Grammar} {text rest : List UInt8}
    {position : Nat} {tokens : Array Token} {list : TokenList}
    (left : rest = text.drop position) (within : position ≤ text.length)
    (found : grammar.tokensFrom rest position tokens = .ok list) :
    list.sourceLength = text.length ∧
      ∃ more, list.tokens.toList = tokens.toList ++ more ∧
        grammar.ReadsOn text position more list.endExamined := by
  fun_induction grammar.tokensFrom rest position tokens with
  | case1 rest position tokens lexeme reading induction =>
      have available := (Lexeme.extent_bounds reading).2
      rw [left, List.length_drop] at available
      have leftLater :
          rest.drop lexeme.extent = text.drop (position + lexeme.extent) := by
        rw [left, List.drop_drop]
      obtain ⟨length, more, appended, readsOn⟩ :=
        induction leftLater (by omega) found
      refine ⟨length, lexeme.token position :: more, ?_, ?_⟩
      · rw [appended, Array.toList_push, List.append_assoc]
        rfl
      · exact .token (left ▸ reading) readsOn
  | case2 rest position tokens examined reading =>
      cases found
      refine ⟨?_, [], (List.append_nil _).symm, .finished (left ▸ reading)⟩
      simp only [left, List.length_drop]
      omega
  | case3 rest position tokens offset byte reading => cases found

theorem readsOn_of_tokenize {grammar : Grammar} {text : List UInt8}
    {list : TokenList} (found : grammar.tokenize text = .ok list) :
    list.sourceLength = text.length ∧
      grammar.ReadsOn text 0 list.tokens.toList list.endExamined := by
  obtain ⟨length, more, appended, readsOn⟩ :=
    readsOn_of_tokensFrom (List.drop_zero).symm (Nat.zero_le _) found
  rw [appended]
  exact ⟨length, readsOn⟩

/-- At every index reading goes on at the edge there. -/
theorem readsOn_edge {grammar : Grammar} {text : List UInt8}
    {list : TokenList} (found : grammar.tokenize text = .ok list)
    {index : Nat} (within : index ≤ list.size) :
    grammar.ReadsOn text (list.edge index) (list.tokens.toList.drop index)
      list.endExamined := by
  induction index with
  | zero => exact (readsOn_of_tokenize found).2
  | succ index induction =>
      have inside : index < list.tokens.toList.length := by
        rw [Array.length_toList]
        exact within
      have readsOn := induction (by omega)
      rw [List.drop_eq_getElem_cons inside] at readsOn
      obtain ⟨lexeme, _, same, later⟩ := readsOn.cons
      have found : list.get? index = some (lexeme.token (list.edge index)) := by
        rw [TokenList.get?, ← same, ← Array.getElem?_toList,
          List.getElem?_eq_getElem inside]
      rw [TokenList.edge_succ found]
      exact later

theorem lexeme_of_get? {grammar : Grammar} {text : List UInt8}
    {list : TokenList} (found : grammar.tokenize text = .ok list)
    {index : Nat} {token : Token} (here : list.get? index = some token) :
    ∃ lexeme : Lexeme,
      Lexeme.read grammar.terminals grammar.extras
          (text.drop (list.edge index)) = .lexeme lexeme ∧
        token = lexeme.token (list.edge index) := by
  have inside : index < list.tokens.size := TokenList.lt_size_of_get? here
  have readsOn := readsOn_edge found (Nat.le_of_lt inside)
  have first : list.tokens.toList.drop index =
      token :: list.tokens.toList.drop (index + 1) := by
    rw [List.drop_eq_getElem_cons (by rwa [Array.length_toList]),
      Array.getElem_toList]
    rw [TokenList.get?, Array.getElem?_eq_getElem inside] at here
    rw [Option.some.inj here]
  rw [first] at readsOn
  obtain ⟨lexeme, reading, same, _⟩ := readsOn.cons
  exact ⟨lexeme, reading, same⟩

theorem finished_of_tokenize {grammar : Grammar} {text : List UInt8}
    {list : TokenList} (found : grammar.tokenize text = .ok list) :
    ∃ examined,
      Lexeme.read grammar.terminals grammar.extras
          (text.drop (list.edge list.size)) = .finished examined ∧
        list.endExamined = list.edge list.size + examined := by
  have readsOn := readsOn_edge found (Nat.le_refl _)
  have none : list.tokens.toList.drop list.size = [] := by
    rw [List.drop_eq_nil_iff, Array.length_toList]
    exact Nat.le_refl _
  rw [none] at readsOn
  exact readsOn.nil

section

variable {grammar : Grammar} {text : List UInt8} {list : TokenList}

/-- A token lies between its edges, inside the text, and all its bytes are
examined. -/
theorem span_bounds (found : grammar.tokenize text = .ok list) {index : Nat}
    {token : Token} (here : list.get? index = some token) :
    list.edge index ≤ token.span.start ∧ token.span.start < token.span.stop ∧
      token.span.stop ≤ text.length ∧ token.span.stop ≤ token.examinedEnd := by
  obtain ⟨lexeme, reading, rfl⟩ := lexeme_of_get? found here
  obtain ⟨examined, inside⟩ := Lexeme.extent_bounds reading
  have advance := lexeme.length_pos
  rw [List.length_drop] at inside
  simp only [Lexeme.token, Lexeme.extent] at examined inside ⊢
  omega

theorem edge_lt_edge_succ (found : grammar.tokenize text = .ok list)
    {index : Nat} (inside : index < list.size) :
    list.edge index < list.edge (index + 1) := by
  obtain ⟨token, here⟩ := TokenList.get?_of_lt inside
  have bounds := span_bounds found here
  rw [TokenList.edge_succ here]
  omega

theorem edge_lt_edge (found : grammar.tokenize text = .ok list)
    {index next : Nat} (before : index < next) (within : next ≤ list.size) :
    list.edge index < list.edge next := by
  induction next with
  | zero => omega
  | succ next induction =>
      have step := edge_lt_edge_succ found within
      rcases Nat.lt_or_eq_of_le (Nat.le_of_lt_succ before) with earlier | same
      · exact Nat.lt_trans (induction earlier (by omega)) step
      · rw [same]
        exact step

theorem edge_le_edge (found : grammar.tokenize text = .ok list)
    {index next : Nat} (before : index ≤ next) (within : next ≤ list.size) :
    list.edge index ≤ list.edge next := by
  rcases Nat.lt_or_eq_of_le before with earlier | same
  · exact Nat.le_of_lt (edge_lt_edge found earlier within)
  · exact Nat.le_of_eq (congrArg list.edge same)

theorem eq_of_edge_eq (found : grammar.tokenize text = .ok list)
    {first second : Nat} (firstWithin : first ≤ list.size)
    (secondWithin : second ≤ list.size)
    (same : list.edge first = list.edge second) : first = second := by
  rcases Nat.lt_trichotomy first second with before | equal | after
  · have := edge_lt_edge found before secondWithin
    omega
  · exact equal
  · have := edge_lt_edge found after firstWithin
    omega

theorem edge_le_startOf (found : grammar.tokenize text = .ok list)
    {index : Nat} (inside : index < list.size) :
    list.edge index ≤ list.startOf index := by
  obtain ⟨token, here⟩ := TokenList.get?_of_lt inside
  rw [TokenList.startOf_of_get? here]
  exact (span_bounds found here).1

theorem startOf_lt_edge (found : grammar.tokenize text = .ok list)
    {index next : Nat} (before : index < next) (within : next ≤ list.size) :
    list.startOf index < list.edge next := by
  obtain ⟨token, here⟩ :=
    TokenList.get?_of_lt (Nat.lt_of_lt_of_le before within)
  obtain ⟨_, filled, _, _⟩ := span_bounds found here
  have edges := edge_le_edge found before within
  rw [TokenList.edge_succ here] at edges
  rw [TokenList.startOf_of_get? here]
  exact Nat.lt_of_lt_of_le filled edges

theorem startOf_le_startOf (found : grammar.tokenize text = .ok list)
    {index next : Nat} (before : index ≤ next) (inside : next < list.size) :
    list.startOf index ≤ list.startOf next := by
  rcases Nat.lt_or_eq_of_le before with earlier | rfl
  · obtain ⟨token, here⟩ :=
      TokenList.get?_of_lt (Nat.lt_trans earlier inside)
    have bounds := span_bounds found here
    have edges := edge_le_edge found earlier (Nat.le_of_lt inside)
    have start := edge_le_startOf found inside
    rw [TokenList.edge_succ here] at edges
    rw [TokenList.startOf_of_get? here]
    omega
  · exact Nat.le_refl _

theorem edge_le_length (found : grammar.tokenize text = .ok list)
    {index : Nat} (within : index ≤ list.size) :
    list.edge index ≤ text.length := by
  cases index with
  | zero => exact Nat.zero_le _
  | succ index =>
      obtain ⟨token, here⟩ := TokenList.get?_of_lt within
      rw [TokenList.edge_succ here]
      exact (span_bounds found here).2.2.1

end

end Grammar

namespace TokenList

/-- Every token has bytes, and none begins before an earlier one has ended. -/
structure InOrder (list : TokenList) : Prop where
  filled : ∀ index token, list.get? index = some token →
    token.span.start < token.span.stop
  apart : ∀ earlier later first second, earlier < later →
    list.get? earlier = some first → list.get? later = some second →
    first.span.stop ≤ second.span.start

theorem inOrder_of_tokenize {grammar : Grammar} {text : List UInt8}
    {list : TokenList} (found : grammar.tokenize text = .ok list) :
    list.InOrder := by
  constructor
  · intro index token here
    exact (Grammar.span_bounds found here).2.1
  · intro earlier later first second before firstHere secondHere
    have edges := Grammar.edge_le_edge found before
      (Nat.le_of_lt (lt_size_of_get? secondHere))
    rw [edge_succ firstHere] at edges
    exact Nat.le_trans edges (Grammar.span_bounds found secondHere).1

theorem InOrder.increasing {list : TokenList} (ordered : list.InOrder) :
    list.Increasing := by
  intro earlier later first second before firstHere secondHere
  exact Nat.lt_of_le_of_lt
    (ordered.apart earlier later first second before firstHere secondHere)
    (ordered.filled later second secondHere)

end TokenList

namespace Grammar

/-- Neither the extras in front of a token nor the token itself are read by
looking far ahead.  The extras take part in no decision that the token would
not see by itself, and a token of a text that can be read as a whole is known
one byte past its end. -/
structure Nearsighted (grammar : Grammar) : Prop where
  gap : ∀ {rest : List UInt8} {lexeme again : Lexeme},
    Lexeme.read grammar.terminals grammar.extras rest = .lexeme lexeme →
    Lexeme.read grammar.terminals grammar.extras (rest.drop lexeme.gap) =
      .lexeme again →
    lexeme.examined = lexeme.gap + again.examined
  token : ∀ {text : List UInt8} {list : TokenList} {index : Nat}
    {token : Token}, grammar.tokenize text = .ok list →
    list.get? index = some token → token.examinedEnd ≤ token.span.stop + 1

/-- Reading at the position finds what the token list has at the index. -/
structure Resumes (grammar : Grammar) (text : List UInt8) (list : TokenList)
    (index position : Nat) : Prop where
  token : ∀ {token : Token}, list.get? index = some token →
    ∃ lexeme : Lexeme,
      Lexeme.read grammar.terminals grammar.extras (text.drop position) =
          .lexeme lexeme ∧
        token.symbol = lexeme.symbol ∧
          token.span = (lexeme.token position).span ∧
            position + lexeme.examined ≤ token.examinedEnd ∧
              (grammar.Nearsighted →
                token.examinedEnd = position + lexeme.examined)
  finished : list.get? index = none →
    ∃ examined,
      Lexeme.read grammar.terminals grammar.extras (text.drop position) =
          .finished examined ∧
        list.endExamined = position + examined

section

variable {grammar : Grammar} {text : List UInt8} {list : TokenList}

theorem resumes_edge (found : grammar.tokenize text = .ok list) {index : Nat}
    (within : index ≤ list.size) :
    grammar.Resumes text list index (list.edge index) := by
  constructor
  · intro token here
    obtain ⟨lexeme, reading, rfl⟩ := lexeme_of_get? found here
    exact ⟨lexeme, reading, rfl, rfl, Nat.le_refl _, fun _ => rfl⟩
  · intro none
    have same : index = list.size := by
      rcases Nat.lt_or_eq_of_le within with inside | same
      · obtain ⟨token, here⟩ := TokenList.get?_of_lt inside
        rw [here] at none
        cases none
      · exact same
    rw [same]
    exact finished_of_tokenize found

theorem resumes_start (found : grammar.tokenize text = .ok list) {index : Nat}
    {token : Token} (here : list.get? index = some token) :
    grammar.Resumes text list index token.span.start := by
  constructor
  · intro other otherHere
    rw [here] at otherHere
    cases otherHere
    obtain ⟨lexeme, reading, rfl⟩ := lexeme_of_get? found here
    obtain ⟨again, readAgain, symbol, noGap, length, examined⟩ :=
      Lexeme.read_drop_gap reading
    rw [List.drop_drop] at readAgain
    refine ⟨again, readAgain, symbol.symm, ?_, ?_, ?_⟩
    · simp only [Lexeme.token, Lexeme.extent, noGap, length]
      simp only [Span.mk.injEq]
      omega
    · simp only [Lexeme.token]
      omega
    · intro nearsighted
      rw [← List.drop_drop] at readAgain
      have := nearsighted.gap reading readAgain
      simp only [Lexeme.token]
      omega
  · intro none
    rw [here] at none
    cases none

end

end Grammar

/-- The two places lie equally far behind the two starts. -/
def Shift (leftStart rightStart left right : Nat) : Prop :=
  ∃ distance, left = leftStart + distance ∧ right = rightStart + distance

namespace Grammar

section

variable {grammar : Grammar} {left right : List UInt8}
  {lefts rights : TokenList} {leftStart rightStart reach : Nat}
  (agree : AgreeFor (reach - leftStart) (left.drop leftStart)
    (right.drop rightStart))
  {index other leftPosition rightPosition : Nat}
  (leftResumes : grammar.Resumes left lefts index leftPosition)
  (rightResumes : grammar.Resumes right rights other rightPosition)
  (level : Shift leftStart rightStart leftPosition rightPosition)

include agree leftResumes rightResumes level

/-- Where two texts agree on the bytes examined for a token, both have it. -/
theorem token_alongside {token : Token}
    (here : lefts.get? index = some token)
    (examined : token.examinedEnd ≤ reach) :
    ∃ twin, rights.get? other = some twin ∧ twin.symbol = token.symbol ∧
      Shift leftStart rightStart token.span.start twin.span.start ∧
        Shift leftStart rightStart token.span.stop twin.span.stop ∧
          (grammar.Nearsighted →
            Shift leftStart rightStart token.examinedEnd
              twin.examinedEnd) := by
  obtain ⟨distance, rfl, rfl⟩ := level
  obtain ⟨lexeme, reading, symbol, span, known, exact⟩ :=
    leftResumes.token here
  have agreeHere : AgreeFor lexeme.examined
      (left.drop (leftStart + distance))
      (right.drop (rightStart + distance)) := by
    rw [← List.drop_drop, ← List.drop_drop]
    exact (agree.drop distance).mono (by omega)
  have sameReading := Lexeme.read_lexeme_congr reading agreeHere
  cases twinHere : rights.get? other with
  | none =>
      obtain ⟨_, ended, _⟩ := rightResumes.finished twinHere
      rw [sameReading] at ended
      cases ended
  | some twin =>
      obtain ⟨twinLexeme, twinReading, twinSymbol, twinSpan, _, twinExact⟩ :=
        rightResumes.token twinHere
      rw [sameReading] at twinReading
      cases twinReading
      refine ⟨twin, rfl, twinSymbol.trans symbol.symm, ?_, ?_, ?_⟩
      · rw [span, twinSpan]
        exact ⟨distance + lexeme.gap, by simp only [Lexeme.token]; omega,
          by simp only [Lexeme.token]; omega⟩
      · rw [span, twinSpan]
        exact ⟨distance + lexeme.extent, by simp only [Lexeme.token]; omega,
          by simp only [Lexeme.token]; omega⟩
      · intro nearsighted
        rw [exact nearsighted, twinExact nearsighted]
        exact ⟨distance + lexeme.examined, by omega, by omega⟩

/-- Where two texts agree on the bytes examined for the end, both have it. -/
theorem end_alongside (ended : lefts.get? index = none)
    (examined : lefts.endExamined ≤ reach) :
    rights.get? other = none ∧
      Shift leftStart rightStart lefts.endExamined rights.endExamined := by
  obtain ⟨distance, rfl, rfl⟩ := level
  obtain ⟨count, reading, known⟩ := leftResumes.finished ended
  have agreeHere : AgreeFor count (left.drop (leftStart + distance))
      (right.drop (rightStart + distance)) := by
    rw [← List.drop_drop, ← List.drop_drop]
    exact (agree.drop distance).mono (by omega)
  have same := Lexeme.read_finished_congr reading agreeHere
  cases twinHere : rights.get? other with
  | none =>
      obtain ⟨twinCount, twinReading, twinKnown⟩ :=
        rightResumes.finished twinHere
      rw [same, reading] at twinReading
      cases twinReading
      exact ⟨rfl, distance + count, by omega, by omega⟩
  | some twin =>
      obtain ⟨_, twinReading, _⟩ := rightResumes.token twinHere
      rw [same, reading] at twinReading
      cases twinReading

end

end Grammar

end Reparse
