import Mathlib.Data.List.Forall2
import Reparse.Proofs.Parse.Takeover
import Reparse.Tree.Shape

/-!
# Derivations in lockstep

Two derivations over texts that agree on what was examined take the same
decisions, one token after the other.  The first one may take nodes over, as
long as each of them is determined by the bytes it accounts for; the second one
derives everything itself.
-/

namespace Reparse

namespace Shift

variable {leftStart rightStart left right : Nat}

theorem sub_eq {leftBefore rightBefore : Nat}
    (later : Shift leftStart rightStart left right)
    (before : Shift leftStart rightStart leftBefore rightBefore) :
    left - leftBefore = right - rightBefore := by
  obtain ⟨distance, rfl, rfl⟩ := later
  obtain ⟨distanceBefore, rfl, rfl⟩ := before
  omega

theorem add (level : Shift leftStart rightStart left right) (count : Nat) :
    Shift leftStart rightStart (left + count) (right + count) := by
  obtain ⟨distance, rfl, rfl⟩ := level
  exact ⟨distance + count, Nat.add_assoc .., Nat.add_assoc ..⟩

end Shift

/-- What two derivations recorded as examined: nothing, or the bytes up to
places equally far behind the two starts. -/
def ExaminedAlike (leftStart rightStart left right : Nat) : Prop :=
  (left = 0 ∧ right = 0) ∨ Shift leftStart rightStart left right

namespace ExaminedAlike

variable {leftStart rightStart left right : Nat}

theorem none : ExaminedAlike leftStart rightStart 0 0 := .inl ⟨rfl, rfl⟩

theorem max {leftLater rightLater : Nat}
    (first : ExaminedAlike leftStart rightStart left right)
    (later : ExaminedAlike leftStart rightStart leftLater rightLater) :
    ExaminedAlike leftStart rightStart (Max.max left leftLater)
      (Max.max right rightLater) := by
  rcases first with ⟨rfl, rfl⟩ | ⟨distance, rfl, rfl⟩
  · rw [Nat.zero_max, Nat.zero_max]
    exact later
  · rcases later with ⟨rfl, rfl⟩ | ⟨further, rfl, rfl⟩
    · rw [Nat.max_zero, Nat.max_zero]
      exact .inr ⟨distance, rfl, rfl⟩
    · exact .inr ⟨Max.max distance further, by omega, by omega⟩

theorem sub_eq {leftStop rightStop : Nat}
    (examined : ExaminedAlike leftStart rightStart left right)
    (stop : Shift leftStart rightStart leftStop rightStop) :
    left - leftStop = right - rightStop := by
  rcases examined with ⟨rfl, rfl⟩ | level
  · rw [Nat.zero_sub, Nat.zero_sub]
  · exact level.sub_eq stop

end ExaminedAlike

/-- The two nodes begin equally far behind the two starts and look the same.
With a grammar that is not farsighted they also remember the same lookahead. -/
structure Alike (grammar : Grammar) (leftStart rightStart : Nat)
    (left right : Placed Node) : Prop where
  level : Shift leftStart rightStart left.offset right.offset
  shape : left.item.shape = right.item.shape
  content : grammar.Nearsighted → left.item.content = right.item.content

section

variable {grammar : Grammar} {leftStart rightStart leftFrom rightFrom : Nat}
  {lefts rights : List (Placed Node)}

theorem shapeList_of_alike
    (alike : List.Forall₂ (Alike grammar leftStart rightStart) lefts rights)
    (start : Shift leftStart rightStart leftFrom rightFrom) :
    Node.shapeList
        (lefts.map fun placed => ⟨placed.offset - leftFrom, placed.item⟩) =
      Node.shapeList
        (rights.map fun placed =>
          ⟨placed.offset - rightFrom, placed.item⟩) := by
  induction alike with
  | nil => rfl
  | cons first _ induction =>
      simp only [List.map_cons, Node.shapeList, induction, first.shape,
        first.level.sub_eq start]

theorem contentList_of_alike (nearsighted : grammar.Nearsighted)
    (alike : List.Forall₂ (Alike grammar leftStart rightStart) lefts rights)
    (start : Shift leftStart rightStart leftFrom rightFrom) :
    Node.contentList
        (lefts.map fun placed => ⟨placed.offset - leftFrom, placed.item⟩) =
      Node.contentList
        (rights.map fun placed =>
          ⟨placed.offset - rightFrom, placed.item⟩) := by
  induction alike with
  | nil => rfl
  | cons first _ induction =>
      simp only [List.map_cons, Node.contentList, induction,
        first.content nearsighted, first.level.sub_eq start]

end

namespace Matches

variable {grammar : Grammar} {tokens : TokenList} {symbol : Symbol}
  {rule : Rule Symbol} {position examined : Nat} {outcome : Option RuleMatch}

/-- How a token symbol can match. -/
theorem of_terminal
    (derived : Matches grammar tokens (.symbol symbol) position outcome
      examined)
    (isTerminal : grammar.isTerminal symbol = true) :
    (∃ token, tokens.get? position = some token ∧ token.symbol = symbol ∧
        outcome = some ⟨position + 1, [TokenList.leafOf token]⟩ ∧
          examined = token.examinedEnd) ∨
      ((∀ token, tokens.get? position = some token → token.symbol ≠ symbol) ∧
        outcome = none ∧ examined = tokens.examinedEnd position) := by
  cases derived with
  | token _ here same => exact .inl ⟨_, here, same, rfl, rfl⟩
  | otherToken _ different => exact .inr ⟨different, rfl, rfl⟩
  | noRule notTerminal | hidden notTerminal | visibleFail notTerminal
  | visibleEmpty notTerminal | visible notTerminal =>
      rw [isTerminal] at notTerminal
      cases notTerminal

/-- A symbol without a rule does not match. -/
theorem of_noRule
    (derived : Matches grammar tokens (.symbol symbol) position outcome
      examined)
    (notTerminal : grammar.isTerminal symbol = false)
    (noRule : grammar.rule? symbol = none) :
    outcome = none ∧ examined = 0 := by
  cases derived with
  | token isTerminal | otherToken isTerminal =>
      rw [notTerminal] at isTerminal
      cases isTerminal
  | noRule => exact ⟨rfl, rfl⟩
  | hidden _ known | visibleFail _ known | visibleEmpty _ known
  | visible _ known =>
      rw [noRule] at known
      cases known

/-- A hidden symbol matches as its rule does. -/
theorem of_hidden
    (derived : Matches grammar tokens (.symbol symbol) position outcome
      examined)
    (notTerminal : grammar.isTerminal symbol = false)
    (known : grammar.rule? symbol = some rule)
    (isHidden : grammar.isHidden symbol = true) :
    Matches grammar tokens rule position outcome examined := by
  cases derived with
  | token isTerminal | otherToken isTerminal =>
      rw [notTerminal] at isTerminal
      cases isTerminal
  | noRule _ noRule =>
      rw [known] at noRule
      cases noRule
  | hidden _ knownToo _ derived =>
      rw [known] at knownToo
      cases knownToo
      exact derived
  | visibleFail _ _ visible | visibleEmpty _ _ visible | visible _ _ visible =>
      rw [isHidden] at visible
      cases visible

/-- How a visible symbol can match. -/
theorem of_visible
    (derived : Matches grammar tokens (.symbol symbol) position outcome
      examined)
    (notTerminal : grammar.isTerminal symbol = false)
    (known : grammar.rule? symbol = some rule)
    (visible : grammar.isHidden symbol = false) :
    (Matches grammar tokens rule position none examined ∧ outcome = none) ∨
      (∃ nodes,
        Matches grammar tokens rule position (some ⟨position, nodes⟩)
            examined ∧
          outcome = some ⟨position, []⟩) ∨
        ∃ next nodes, next ≠ position ∧
          Matches grammar tokens rule position (some ⟨next, nodes⟩) examined ∧
            outcome = some ⟨next,
              [tokens.enclose symbol position next examined nodes]⟩ := by
  cases derived with
  | token isTerminal | otherToken isTerminal =>
      rw [notTerminal] at isTerminal
      cases isTerminal
  | noRule _ noRule =>
      rw [known] at noRule
      cases noRule
  | hidden _ _ isHidden =>
      rw [visible] at isHidden
      cases isHidden
  | visibleFail _ knownToo _ derived =>
      rw [known] at knownToo
      cases knownToo
      exact .inl ⟨derived, rfl⟩
  | visibleEmpty _ knownToo _ derived =>
      rw [known] at knownToo
      cases knownToo
      exact .inr (.inl ⟨_, derived, rfl⟩)
  | visible _ knownToo _ different derived =>
      rw [known] at knownToo
      cases knownToo
      exact .inr (.inr ⟨_, _, different, derived, rfl⟩)

end Matches

/-- Wherever the bytes that the node accounts for are met at the start of a
token, its symbol matches there with a node that looks the same. -/
def Node.Determined (grammar : Grammar) (text : List UInt8) (start : Nat)
    (node : Node) : Prop :=
  ∀ ⦃other : List UInt8⦄ ⦃list : TokenList⦄ ⦃position examined : Nat⦄
    ⦃token : Token⦄ ⦃outcome : Option RuleMatch⦄,
    grammar.tokenize other = .ok list →
    list.get? position = some token →
    AgreeFor (node.length + node.lookahead) (text.drop start)
      (other.drop token.span.start) →
    Matches grammar list (.symbol node.symbol) position outcome examined →
    ∃ next twin, outcome = some ⟨next, [⟨token.span.start, twin⟩]⟩ ∧
      position < next ∧ next ≤ list.size ∧
        list.edge next = token.span.start + node.length ∧
          node.shape = twin.shape ∧
            (grammar.Nearsighted → node.content = twin.content ∧
              examined = token.span.start + node.length + node.lookahead)

/-- What bytes determine is determined by the same bytes elsewhere. -/
theorem Node.Determined.moved {grammar : Grammar} {text other : List UInt8}
    {start otherStart : Nat} {node : Node}
    (determined : node.Determined grammar text start)
    (agree : AgreeFor (node.length + node.lookahead) (text.drop start)
      (other.drop otherStart)) :
    node.Determined grammar other otherStart :=
  fun _ _ _ _ _ _ read here agreeToo derived =>
    determined read here (agree.trans agreeToo) derived

namespace Setting

/-- The nodes at hand tell the truth about the text: a leaf is nothing but a
leaf, and the node of a rule is determined by the bytes it accounts for. -/
structure Honest (setting : Setting) (text : List UInt8) : Prop where
  leaf : ∀ {index : Nat} {token : Token} {node : Node},
    setting.tokens.get? index = some token →
    setting.findReusable? token.symbol token.span.start = some node →
    node.length = token.span.length →
    node.children = [] ∧
      (setting.grammar.Nearsighted →
        node.lookahead = token.examinedEnd - token.span.stop)
  node : ∀ {index : Nat} {symbol : Symbol} {token : Token} {node : Node},
    setting.grammar.isTerminal symbol = false → symbol ≠ Symbol.error →
    setting.tokens.get? index = some token →
    setting.findReusable? symbol token.span.start = some node →
    node.Determined setting.grammar text token.span.start

/-- The leaf of a token looks like one built for it. -/
theorem LeafFor.content_eq {setting : Setting} {supply index : Nat}
    {text : List UInt8} {token : Token} {node : Node}
    (honest : setting.Honest text)
    (here : setting.tokens.get? index = some token)
    (leaf : setting.LeafFor supply token node) :
    node.shape = (TokenList.leafOf token).item.shape ∧
      (setting.grammar.Nearsighted →
        node.content = (TokenList.leafOf token).item.content) := by
  cases leaf with
  | built => exact ⟨rfl, fun _ => rfl⟩
  | taken found sameLength =>
      obtain ⟨none, lookahead⟩ := honest.leaf here found sameLength
      obtain ⟨_, _, _, symbol, undamaged, _⟩ := below_of_findReusable? found
      cases node
      simp only at none sameLength lookahead symbol undamaged
      subst none sameLength symbol undamaged
      refine ⟨rfl, fun nearsighted => ?_⟩
      simp only [Node.content, TokenList.leafOf, Node.leaf,
        lookahead nearsighted]

end Setting

/-- Reading goes on in both texts at places equally far behind the two
starts. -/
structure Aligned (grammar : Grammar) (left right : List UInt8)
    (lefts rights : TokenList) (leftStart rightStart position other : Nat) :
    Prop where
  within : position ≤ lefts.size
  resumes : ∃ leftPosition rightPosition,
    Shift leftStart rightStart leftPosition rightPosition ∧
      grammar.Resumes left lefts position leftPosition ∧
        grammar.Resumes right rights other rightPosition

/-- Both rules fail, or both match nothing, or both match as many bytes and
leave nodes that look the same. -/
inductive Alongside (grammar : Grammar) (lefts rights : TokenList)
    (leftStart rightStart position other : Nat) :
    Option RuleMatch → Option RuleMatch → Prop where
  | failed :
      Alongside grammar lefts rights leftStart rightStart position other none
        none
  | idle :
      Alongside grammar lefts rights leftStart rightStart position other
        (some ⟨position, []⟩) (some ⟨other, []⟩)
  | moved {next twin : Nat} {nodes twins : List (Placed Node)} :
      position < next → next ≤ lefts.size → other < twin →
      twin ≤ rights.size →
      Shift leftStart rightStart (lefts.edge next) (rights.edge twin) →
      List.Forall₂ (Alike grammar leftStart rightStart) nodes twins →
      Alongside grammar lefts rights leftStart rightStart position other
        (some ⟨next, nodes⟩) (some ⟨twin, twins⟩)

/-- Both derivations come to outcomes alongside each other.  With a grammar
that is not farsighted they also record the same as examined. -/
structure InStep (grammar : Grammar) (lefts rights : TokenList)
    (leftStart rightStart position other : Nat)
    (outcome twin : Option RuleMatch) (examined examinedToo : Nat) : Prop where
  alongside : Alongside grammar lefts rights leftStart rightStart position
    other outcome twin
  recorded : grammar.Nearsighted →
    ExaminedAlike leftStart rightStart examined examinedToo

section

variable {setting : Setting} {supply leftStart rightStart reach : Nat}
  {left right : List UInt8} {rights : TokenList}
  (leftRead : setting.grammar.tokenize left = .ok setting.tokens)
  (rightRead : setting.grammar.tokenize right = .ok rights)
  (agree : AgreeFor (reach - leftStart) (left.drop leftStart)
    (right.drop rightStart))
  (honest : setting.Honest left) (anchored : setting.AnchoredUpTo reach)
  (unruled : setting.grammar.rule? Symbol.error = none)

include leftRead rightRead in
/-- After a match both derivations stand at corresponding tokens. -/
theorem Aligned.later {position other : Nat} {found twin : RuleMatch}
    (aligned : Aligned setting.grammar left right setting.tokens rights
      leftStart rightStart position other)
    (alongside : Alongside setting.grammar setting.tokens rights leftStart
      rightStart position other (some found) (some twin)) :
    Aligned setting.grammar left right setting.tokens rights leftStart
      rightStart found.next twin.next := by
  cases alongside with
  | idle => exact aligned
  | moved _ inside _ otherInside level _ =>
      exact ⟨inside, _, _, level,
        Grammar.resumes_edge leftRead inside,
        Grammar.resumes_edge rightRead otherInside⟩

include agree in
/-- Where both derivations stand, both texts have a token if the left one has
one whose bytes they agree on. -/
theorem Aligned.token {position other : Nat} {token : Token}
    (aligned : Aligned setting.grammar left right setting.tokens rights
      leftStart rightStart position other)
    (here : setting.tokens.get? position = some token)
    (examined : token.examinedEnd ≤ reach) :
    ∃ twin, rights.get? other = some twin ∧ twin.symbol = token.symbol ∧
      Shift leftStart rightStart token.span.start twin.span.start ∧
        Shift leftStart rightStart token.span.stop twin.span.stop ∧
          (setting.grammar.Nearsighted →
            Shift leftStart rightStart token.examinedEnd
              twin.examinedEnd) := by
  obtain ⟨_, _, level, resumes, resumesToo⟩ := aligned.resumes
  exact Grammar.token_alongside agree resumes resumesToo level here examined

include agree in
/-- Where both derivations stand, the right text has no token of a symbol if the
left one has none. -/
theorem Aligned.otherToken {position other : Nat} {symbol : Symbol}
    (aligned : Aligned setting.grammar left right setting.tokens rights
      leftStart rightStart position other)
    (different : ∀ token, setting.tokens.get? position = some token →
      token.symbol ≠ symbol)
    (examined : setting.tokens.examinedEnd position ≤ reach) :
    (∀ token, rights.get? other = some token → token.symbol ≠ symbol) ∧
      (setting.grammar.Nearsighted →
        Shift leftStart rightStart (setting.tokens.examinedEnd position)
          (rights.examinedEnd other)) := by
  cases here : setting.tokens.get? position with
  | none =>
      obtain ⟨_, _, level, resumes, resumesToo⟩ := aligned.resumes
      simp only [TokenList.examinedEnd, here] at examined ⊢
      obtain ⟨ended, recorded⟩ :=
        Grammar.end_alongside agree resumes resumesToo level here examined
      simp only [ended]
      refine ⟨?_, fun _ => recorded⟩
      intro _ found
      cases found
  | some token =>
      simp only [TokenList.examinedEnd, here] at examined ⊢
      obtain ⟨twin, twinHere, sameSymbol, _, _, recorded⟩ :=
        aligned.token agree here examined
      simp only [twinHere]
      refine ⟨fun _ found => ?_, recorded⟩
      cases found
      rw [sameSymbol]
      exact different _ here

/-- What was matched first and what was matched behind it, taken together. -/
theorem Alongside.append {grammar : Grammar} {lefts : TokenList}
    {position other : Nat} {found twin rest restTwin : RuleMatch}
    (first : Alongside grammar lefts rights leftStart rightStart position other
      (some found) (some twin))
    (later : Alongside grammar lefts rights leftStart rightStart found.next
      twin.next (some rest) (some restTwin)) :
    Alongside grammar lefts rights leftStart rightStart position other
      (some ⟨rest.next, found.nodes ++ rest.nodes⟩)
      (some ⟨restTwin.next, twin.nodes ++ restTwin.nodes⟩) := by
  cases first with
  | idle => exact later
  | moved before inside otherBefore otherInside level alike =>
      cases later with
      | idle =>
          simp only [List.append_nil]
          exact .moved before inside otherBefore otherInside level alike
      | moved after insideLater otherAfter otherInsideLater levelLater
          alikeLater =>
          exact .moved (Nat.lt_trans before after) insideLater
            (Nat.lt_trans otherBefore otherAfter) otherInsideLater levelLater
            (List.rel_append alike alikeLater)

/-- Two outcomes that move are followed by a repetition only together. -/
theorem Alongside.next_eq_iff {grammar : Grammar} {lefts : TokenList}
    {position other : Nat} {found twin : RuleMatch}
    (alongside : Alongside grammar lefts rights leftStart rightStart position
      other (some found) (some twin)) :
    found.next = position ↔ twin.next = other := by
  cases alongside with
  | idle => exact ⟨fun _ => rfl, fun _ => rfl⟩
  | moved before _ otherBefore _ _ _ =>
      constructor <;> intro same <;> simp only at same <;> omega

/-- The leaves of corresponding tokens look the same. -/
theorem Setting.LeafFor.alike {index : Nat} {token twin : Token} {node : Node}
    (honest : setting.Honest left)
    (here : setting.tokens.get? index = some token)
    (leaf : setting.LeafFor supply token node)
    (symbol : twin.symbol = token.symbol)
    (start : Shift leftStart rightStart token.span.start twin.span.start)
    (stop : Shift leftStart rightStart token.span.stop twin.span.stop)
    (examined : setting.grammar.Nearsighted →
      Shift leftStart rightStart token.examinedEnd twin.examinedEnd) :
    Alike setting.grammar leftStart rightStart ⟨token.span.start, node⟩
      (TokenList.leafOf twin) := by
  obtain ⟨shape, content⟩ := leaf.content_eq honest here
  refine ⟨start, ?_, fun nearsighted => ?_⟩
  · simp only [shape, TokenList.leafOf, Node.leaf, Node.shape, symbol,
      Span.length, stop.sub_eq start]
  · simp only [content nearsighted, TokenList.leafOf, Node.leaf, Node.content,
      symbol, Span.length, stop.sub_eq start,
      (examined nearsighted).sub_eq stop]

/-- The nodes of a rule over corresponding tokens look the same if what they
enclose does. -/
theorem TokenList.encloseAs_alike {grammar : Grammar} {lefts : TokenList}
    {stamp position next examined other twin examinedToo : Nat}
    {symbol : Symbol} {nodes twins : List (Placed Node)}
    (start : Shift leftStart rightStart (lefts.startOf position)
      (rights.startOf other))
    (stop : Shift leftStart rightStart (lefts.stopBefore next)
      (rights.stopBefore twin))
    (alike : List.Forall₂ (Alike grammar leftStart rightStart) nodes twins)
    (recorded : grammar.Nearsighted →
      ExaminedAlike leftStart rightStart examined examinedToo) :
    Alike grammar leftStart rightStart
      (lefts.encloseAs stamp symbol position next examined nodes)
      (rights.enclose symbol other twin examinedToo twins) := by
  refine ⟨start, ?_, fun nearsighted => ?_⟩
  · simp only [encloseAs, enclose, Node.shape, stop.sub_eq start,
      shapeList_of_alike alike start]
  · simp only [encloseAs, enclose, Node.content, stop.sub_eq start,
      (recorded nearsighted).sub_eq stop,
      contentList_of_alike nearsighted alike start]

namespace InStep

variable {grammar : Grammar} {lefts : TokenList}
  {position other examined examinedToo later laterToo : Nat}

/-- Both fail behind what both matched. -/
theorem fail {found twin : RuleMatch}
    (first : InStep grammar lefts rights leftStart rightStart position other
      (some found) (some twin) examined examinedToo)
    (rest : InStep grammar lefts rights leftStart rightStart found.next
      twin.next none none later laterToo) :
    InStep grammar lefts rights leftStart rightStart position other none none
      (max examined later) (max examinedToo laterToo) :=
  ⟨.failed, fun nearsighted =>
    (first.recorded nearsighted).max (rest.recorded nearsighted)⟩

/-- Both match on behind what both matched. -/
theorem append {found twin rest restTwin : RuleMatch}
    (first : InStep grammar lefts rights leftStart rightStart position other
      (some found) (some twin) examined examinedToo)
    (behind : InStep grammar lefts rights leftStart rightStart found.next
      twin.next (some rest) (some restTwin) later laterToo) :
    InStep grammar lefts rights leftStart rightStart position other
      (some ⟨rest.next, found.nodes ++ rest.nodes⟩)
      (some ⟨restTwin.next, twin.nodes ++ restTwin.nodes⟩)
      (max examined later) (max examinedToo laterToo) :=
  ⟨first.alongside.append behind.alongside, fun nearsighted =>
    (first.recorded nearsighted).max (behind.recorded nearsighted)⟩

/-- Both go on to the next alternative. -/
theorem alternative {outcome twin : Option RuleMatch}
    (first : InStep grammar lefts rights leftStart rightStart position other
      none none examined examinedToo)
    (rest : InStep grammar lefts rights leftStart rightStart position other
      outcome twin later laterToo) :
    InStep grammar lefts rights leftStart rightStart position other outcome
      twin (max examined later) (max examinedToo laterToo) :=
  ⟨rest.alongside, fun nearsighted =>
    (first.recorded nearsighted).max (rest.recorded nearsighted)⟩

/-- Both give up an attempt without consuming a token. -/
theorem idle {outcome twin : Option RuleMatch}
    (attempt : InStep grammar lefts rights leftStart rightStart position other
      outcome twin examined examinedToo) :
    InStep grammar lefts rights leftStart rightStart position other
      (some ⟨position, []⟩) (some ⟨other, []⟩) examined examinedToo :=
  ⟨.idle, attempt.recorded⟩

end InStep

namespace Setting

section

variable {symbol : Symbol} {rule : Rule Symbol}
  {position other next examined examinedToo : Nat}
  (aligned : Aligned setting.grammar left right setting.tokens rights
    leftStart rightStart position other)

include leftRead rightRead agree honest anchored unruled aligned in
/-- A node that is taken over looks like the one that is derived in its
place. -/
theorem inStep_of_taken {node : Node} {placed : Placed Node}
    {twin : Option RuleMatch}
    (notTerminal : setting.grammar.isTerminal symbol = false)
    (known : setting.grammar.rule? symbol = some rule)
    (offered : setting.reusable? symbol position =
      some (node, .matched next examined (some placed)))
    (derived : Matches setting.grammar rights (.symbol symbol) other twin
      examinedToo) (bound : examined ≤ reach) :
    InStep setting.grammar setting.tokens rights leftStart rightStart position
      other (some ⟨next, [placed]⟩) twin examined examinedToo := by
  obtain ⟨token, here, found, rfl, rfl, before, inside, edge⟩ :=
    edge_of_reusable? leftRead offered
  have first := anchored notTerminal known offered bound
  simp only [TokenList.examinedEnd, here] at first
  obtain ⟨twinToken, twinHere, _, start, _, _⟩ :=
    aligned.token agree here first
  have named : symbol ≠ Symbol.error := by
    intro same
    rw [same, unruled] at known
    cases known
  have determined := honest.node notTerminal named here found
  obtain ⟨_, _, _, sameSymbol, _, _⟩ := below_of_findReusable? found
  have agreeHere : AgreeFor (node.length + node.lookahead)
      (left.drop token.span.start) (right.drop twinToken.span.start) := by
    obtain ⟨distance, leftAt, rightAt⟩ := start
    rw [leftAt, rightAt, ← List.drop_drop, ← List.drop_drop]
    exact (agree.drop distance).mono (by omega)
  rw [← sameSymbol] at derived
  obtain ⟨twinNext, twinNode, rfl, beforeToo, insideToo, edgeToo, shape,
    content⟩ := determined rightRead twinHere agreeHere derived
  refine ⟨.moved before inside beforeToo insideToo ?_
    (.cons ⟨start, shape, fun nearsighted => (content nearsighted).1⟩ .nil),
    fun nearsighted => .inr ?_⟩
  · rw [edge, edgeToo]
    exact start.add _
  · rw [(content nearsighted).2]
    exact (start.add _).add _

include leftRead agree anchored aligned in
/-- If a rule is matched in step, so is its symbol. -/
theorem inStep_of_enclosed {stamp twin : Nat} {nodes twins : List (Placed Node)}
    (runs : setting.Runs supply rule position (some ⟨next, nodes⟩) examined)
    (different : next ≠ position) (bound : examined ≤ reach)
    (inStep : InStep setting.grammar setting.tokens rights leftStart rightStart
      position other (some ⟨next, nodes⟩) (some ⟨twin, twins⟩) examined
      examinedToo) :
    InStep setting.grammar setting.tokens rights leftStart rightStart position
      other
      (some ⟨next,
        [setting.tokens.encloseAs stamp symbol position next examined nodes]⟩)
      (some ⟨twin, [rights.enclose symbol other twin examinedToo twins]⟩)
      examined examinedToo := by
  obtain ⟨alongside, recorded⟩ := inStep
  cases alongside with
  | idle => exact absurd rfl different
  | moved before inside otherBefore otherInside level alike =>
      have first := runs.examinedEnd_le leftRead anchored aligned.within rfl
        before bound
      obtain ⟨token, here⟩ :=
        TokenList.get?_of_lt (Nat.lt_of_lt_of_le before inside)
      simp only [TokenList.examinedEnd, here] at first
      obtain ⟨twinToken, twinHere, _, start, _, _⟩ :=
        aligned.token agree here first
      refine ⟨.moved before inside otherBefore otherInside level
        (.cons (TokenList.encloseAs_alike ?_ ?_ alike recorded) .nil),
        recorded⟩
      · rw [TokenList.startOf_of_get? here, TokenList.startOf_of_get? twinHere]
        exact start
      · rw [TokenList.stopBefore_eq_edge before,
          TokenList.stopBefore_eq_edge otherBefore]
        exact level

end

include leftRead rightRead agree honest anchored unruled

/-- The derivation on the right stays in step with the one on the left as long
as the texts agree on what the left one examined. -/
theorem Runs.inStep {rule : Rule Symbol} {position examined : Nat}
    {outcome : Option RuleMatch}
    (runs : setting.Runs supply rule position outcome examined)
    {other examinedToo : Nat} {twin : Option RuleMatch}
    (derived : Matches setting.grammar rights rule other twin examinedToo)
    (aligned : Aligned setting.grammar left right setting.tokens rights
      leftStart rightStart position other) (bound : examined ≤ reach) :
    InStep setting.grammar setting.tokens rights leftStart rightStart position
      other outcome twin examined examinedToo := by
  -- The induction is on the derivation on the left, since only it may take
  -- nodes over.  Wherever the right one could decide otherwise, the statement
  -- for a part of the rule would put a match alongside a failure.
  induction runs generalizing other examinedToo twin with
  | token isTerminal here same leaf =>
      obtain ⟨twinToken, twinHere, symbol, start, stop, recorded⟩ :=
        aligned.token agree here bound
      rcases derived.of_terminal isTerminal with
        ⟨_, hereToo, _, rfl, rfl⟩ | ⟨different, _, _⟩
      · rw [twinHere] at hereToo
        cases hereToo
        refine ⟨.moved (Nat.lt_succ_self _) (TokenList.lt_size_of_get? here)
          (Nat.lt_succ_self _) (TokenList.lt_size_of_get? twinHere) ?_
          (.cons (leaf.alike honest here symbol start stop recorded) .nil),
          fun nearsighted => .inr (recorded nearsighted)⟩
        rw [TokenList.edge_succ here, TokenList.edge_succ twinHere]
        exact stop
      · exact absurd (symbol.trans same) (different _ twinHere)
  | otherToken isTerminal different =>
      obtain ⟨differentToo, recorded⟩ :=
        aligned.otherToken agree different bound
      rcases derived.of_terminal isTerminal with
        ⟨_, hereToo, same, _, _⟩ | ⟨_, rfl, rfl⟩
      · exact absurd same (differentToo _ hereToo)
      · exact ⟨.failed, fun nearsighted => .inr (recorded nearsighted)⟩
  | noRule notTerminal noRule =>
      obtain ⟨rfl, rfl⟩ := derived.of_noRule notTerminal noRule
      exact ⟨.failed, fun _ => .none⟩
  | hidden notTerminal known isHidden runs induction =>
      exact induction (derived.of_hidden notTerminal known isHidden) aligned
        bound
  -- The node is derived on the right; it is determined by bytes that both
  -- texts have.
  | taken notTerminal known visible offered =>
      exact inStep_of_taken leftRead rightRead agree honest anchored unruled
        aligned notTerminal known offered derived bound
  | visibleFail notTerminal known visible refused runs induction =>
      rcases derived.of_visible notTerminal known visible with
        ⟨failed, rfl⟩ | ⟨_, found, _⟩ | ⟨_, _, _, found, _⟩
      · exact induction failed aligned bound
      · cases (induction found aligned bound).alongside
      · cases (induction found aligned bound).alongside
  | visibleEmpty notTerminal known visible refused runs induction =>
      rcases derived.of_visible notTerminal known visible with
        ⟨failed, _⟩ | ⟨_, found, rfl⟩ | ⟨_, _, different, found, _⟩
      · cases (induction failed aligned bound).alongside
      · exact (induction found aligned bound).idle
      · have alongside := (induction found aligned bound).alongside
        exact absurd (alongside.next_eq_iff.mp rfl) different
  | visible notTerminal known visible refused different fresh runs induction =>
      rcases derived.of_visible notTerminal known visible with
        ⟨failed, _⟩ | ⟨_, found, rfl⟩ | ⟨_, _, _, found, rfl⟩
      · cases (induction failed aligned bound).alongside
      · have alongside := (induction found aligned bound).alongside
        exact absurd (alongside.next_eq_iff.mpr rfl) different
      · exact inStep_of_enclosed leftRead agree anchored aligned runs
          different bound (induction found aligned bound)
  | seqNil =>
      cases derived with
      | seqNil => exact ⟨.idle, fun _ => .none⟩
  | seqFail failed induction =>
      cases derived with
      | seqFail failedToo => exact induction failedToo aligned bound
      | seqFailLater found => cases (induction found aligned bound).alongside
      | seqCons found => cases (induction found aligned bound).alongside
  | seqFailLater first later firstInduction laterInduction =>
      cases derived with
      | seqFail failed =>
          cases (firstInduction failed aligned (by omega)).alongside
      | seqFailLater firstToo laterToo =>
          have inStep := firstInduction firstToo aligned (by omega)
          have alignedLater :=
            aligned.later leftRead rightRead inStep.alongside
          exact inStep.fail (laterInduction laterToo alignedLater (by omega))
      | seqCons firstToo laterToo =>
          have inStep := firstInduction firstToo aligned (by omega)
          have alignedLater :=
            aligned.later leftRead rightRead inStep.alongside
          cases (laterInduction laterToo alignedLater (by omega)).alongside
  | seqCons first later firstInduction laterInduction =>
      cases derived with
      | seqFail failed =>
          cases (firstInduction failed aligned (by omega)).alongside
      | seqFailLater firstToo laterToo =>
          have inStep := firstInduction firstToo aligned (by omega)
          have alignedLater :=
            aligned.later leftRead rightRead inStep.alongside
          cases (laterInduction laterToo alignedLater (by omega)).alongside
      | seqCons firstToo laterToo =>
          have inStep := firstInduction firstToo aligned (by omega)
          have alignedLater :=
            aligned.later leftRead rightRead inStep.alongside
          exact inStep.append (laterInduction laterToo alignedLater (by omega))
  | choiceNil =>
      cases derived with
      | choiceNil => exact ⟨.failed, fun _ => .none⟩
  | choiceHead found induction =>
      cases derived with
      | choiceHead foundToo => exact induction foundToo aligned bound
      | choiceTail failed => cases (induction failed aligned bound).alongside
  | choiceTail failed later firstInduction laterInduction =>
      cases derived with
      | choiceHead found =>
          cases (firstInduction found aligned (by omega)).alongside
      | choiceTail failedToo laterToo =>
          have inStep := firstInduction failedToo aligned (by omega)
          exact inStep.alternative (laterInduction laterToo aligned (by omega))
  | starFail failed induction =>
      cases derived with
      | starFail failedToo => exact (induction failedToo aligned bound).idle
      | starEmpty found => cases (induction found aligned bound).alongside
      | starStep _ found => cases (induction found aligned bound).alongside
  | starEmpty found induction =>
      cases derived with
      | starFail failed => cases (induction failed aligned bound).alongside
      | starEmpty foundToo => exact (induction foundToo aligned bound).idle
      | starStep different foundToo =>
          have alongside := (induction foundToo aligned bound).alongside
          exact absurd (alongside.next_eq_iff.mp rfl) different
  | starStep different first later firstInduction laterInduction =>
      cases derived with
      | starFail failed =>
          cases (firstInduction failed aligned (by omega)).alongside
      | starEmpty firstToo =>
          have inStep := firstInduction firstToo aligned (by omega)
          exact absurd (inStep.alongside.next_eq_iff.mpr rfl) different
      | starStep _ firstToo laterToo =>
          have inStep := firstInduction firstToo aligned (by omega)
          have alignedLater :=
            aligned.later leftRead rightRead inStep.alongside
          exact inStep.append (laterInduction laterToo alignedLater (by omega))
  | optNone failed induction =>
      cases derived with
      | optNone failedToo => exact (induction failedToo aligned bound).idle
      | optSome found => cases (induction found aligned bound).alongside
  | optSome found induction =>
      cases derived with
      | optNone failed => cases (induction failed aligned bound).alongside
      | optSome foundToo => exact induction foundToo aligned bound

end Setting

end

end Reparse
