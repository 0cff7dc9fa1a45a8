import Reparse.Proofs.Parse.Lockstep
import Reparse.Proofs.Parse.Recovery

/-!
# Trees that tell the truth

A sound node is undamaged, covers at least one byte, and is determined by the
bytes it accounts for; so is everything below it.  What a derivation takes over
from sound nodes and builds on its own is sound again, provided that no node is
taken over at a token for which more was examined than the node accounts for.
-/

namespace Reparse

namespace Node

/-- The node accounts for the bytes it was derived from.  A node of a rule
always does; a leaf may have been kept among unexpected tokens without being
looked at again, which is harmless as long as tokens are read without looking
far ahead. -/
def Accountable (grammar : Grammar) (node : Node) : Prop :=
  grammar.isTerminal node.symbol = true → grammar.Nearsighted

/-- The node and everything below it tell the truth about the text, in which
the node begins at `start`. -/
inductive Sound (grammar : Grammar) (text : List UInt8) :
    Nat → Node → Prop where
  | node {start : Nat} {node : Node} :
      node.damaged = false → 0 < node.length →
      (grammar.isTerminal node.symbol = true → node.children = []) →
      (node.Accountable grammar → node.symbol ≠ Symbol.error →
        node.Determined grammar text start) →
      (∀ placed ∈ node.children, placed.stop ≤ node.length) →
      (∀ placed ∈ node.children, placed.item.Accountable grammar →
        placed.stop + placed.item.lookahead ≤ node.length + node.lookahead) →
      (∀ placed ∈ node.children,
        Sound grammar text (start + placed.offset) placed.item) →
      Sound grammar text start node

section

variable {grammar : Grammar} {text other : List UInt8} {start : Nat}
  {node : Node}

theorem Sound.leaf (sound : node.Sound grammar text start)
    (isTerminal : grammar.isTerminal node.symbol = true) :
    node.children = [] := by
  cases sound with
  | node _ _ leaf => exact leaf isTerminal

theorem Sound.determined (sound : node.Sound grammar text start)
    (accountable : node.Accountable grammar)
    (named : node.symbol ≠ Symbol.error) :
    node.Determined grammar text start := by
  cases sound with
  | node _ _ _ determined => exact determined accountable named

/-- A sound node stays sound wherever the bytes it accounts for are met
again. -/
theorem Sound.moved (sound : node.Sound grammar text start)
    {otherStart : Nat}
    (agree : node.Accountable grammar →
      AgreeFor (node.length + node.lookahead) (text.drop start)
        (other.drop otherStart)) :
    node.Sound grammar other otherStart := by
  induction sound generalizing otherStart with
  | @node start node undamaged filled leaf determined inside covers _
      induction =>
      refine .node undamaged filled leaf ?_ inside covers ?_
      · intro accountable named
        exact (determined accountable named).moved (agree accountable)
      · intro placed member
        refine induction placed member fun accountableChild => ?_
        have accountable : node.Accountable grammar := by
          intro isTerminal
          rw [leaf isTerminal] at member
          cases member
        have within := covers placed member accountableChild
        rw [← List.drop_drop, ← List.drop_drop]
        apply ((agree accountable).drop placed.offset).mono
        simp only [Placed.stop] at within
        omega

/-- Everything below a sound node is sound. -/
theorem Sound.inner {offset : Nat} {inner : Node}
    (sound : node.Sound grammar text start) (below : node.Below offset inner) :
    inner.Sound grammar text (start + offset) := by
  induction below generalizing start with
  | child member =>
      cases sound with
      | node _ _ _ _ _ _ children => exact children _ member
  | deeper member _ induction =>
      cases sound with
      | node _ _ _ _ _ _ children =>
          rw [← Nat.add_assoc]
          exact induction (children _ member)

end

end Node

namespace Setting

/-- Every node at hand is sound. -/
def Offers (setting : Setting) (text : List UInt8) : Prop :=
  ∀ symbol start node, setting.findReusable? symbol start = some node →
    node.Sound setting.grammar text start

/-- No node is taken over at a token for which more bytes were examined than
the node accounts for. -/
def Anchored (setting : Setting) : Prop :=
  ∀ {symbol : Symbol} {rule : Rule Symbol} {position next examined : Nat}
    {node : Node} {placed : Placed Node},
    setting.grammar.isTerminal symbol = false →
    setting.grammar.rule? symbol = some rule →
    setting.reusable? symbol position =
      some (node, .matched next examined (some placed)) →
    setting.tokens.examinedEnd position ≤ examined

theorem Anchored.upTo {setting : Setting} (anchored : setting.Anchored)
    (reach : Nat) : setting.AnchoredUpTo reach :=
  fun notTerminal known offered bound =>
    Nat.le_trans (anchored notTerminal known offered) bound

section

variable {setting : Setting} {supply : Nat} {text : List UInt8}
  (regular : setting.grammar.Regular)
  (read : setting.grammar.tokenize text = .ok setting.tokens)
  (offers : setting.Offers text)

include regular read in
theorem isTerminal_of_get? {index : Nat} {token : Token}
    (here : setting.tokens.get? index = some token) :
    setting.grammar.isTerminal token.symbol = true := by
  obtain ⟨lexeme, reading, rfl⟩ := Grammar.lexeme_of_get? read here
  obtain ⟨terminal, member, same⟩ := Lexeme.symbol_of_read reading
  simp only [Lexeme.token, same]
  exact regular.terminal terminal member

include regular read offers in
/-- Sound nodes tell the truth. -/
theorem Offers.honest : setting.Honest text := by
  constructor
  · intro index token node here found sameLength
    have sound := offers _ _ _ found
    obtain ⟨_, _, _, symbol, _, _⟩ := below_of_findReusable? found
    have isTerminal := isTerminal_of_get? regular read here
    rw [← symbol] at isTerminal
    refine ⟨sound.leaf isTerminal, fun nearsighted => ?_⟩
    have named : node.symbol ≠ Symbol.error := by
      intro same
      rw [same] at isTerminal
      cases isTerminal
    have derived : Matches setting.grammar setting.tokens
        (.symbol node.symbol) index
        (some ⟨index + 1, [TokenList.leafOf token]⟩) token.examinedEnd :=
      .token isTerminal here symbol.symm
    obtain ⟨next, twin, same, _, _, _, _, content⟩ :=
      sound.determined (fun _ => nearsighted) named read here
        (AgreeFor.refl _ _) derived
    cases same
    have sameContent := (content nearsighted).1
    cases node
    simp only [Node.content, Node.leaf, Node.mk.injEq] at sameContent
    exact sameContent.2.2.2.1
  · intro index symbol token node notTerminal named here found
    obtain ⟨_, _, _, same, _, _⟩ := below_of_findReusable? found
    subst same
    refine (offers _ _ _ found).determined ?_ named
    intro isTerminal
    rw [notTerminal] at isTerminal
    cases isTerminal

include read in
/-- All bytes of a match are examined. -/
theorem Runs.edge_le {rule : Rule Symbol} {position examined : Nat}
    {outcome : Option RuleMatch}
    (runs : setting.Runs supply rule position outcome examined)
    (within : position ≤ setting.tokens.size) {found : RuleMatch}
    (matched : outcome = some found) (consumed : position < found.next) :
    setting.tokens.edge found.next ≤ examined := by
  induction runs generalizing found with
  | token isTerminal here =>
      cases matched
      rw [TokenList.edge_succ here]
      exact (Grammar.span_bounds read here).2.2.2
  | otherToken | noRule | visibleFail | seqFail | seqFailLater | choiceNil =>
      cases matched
  | hidden _ _ _ _ induction => exact induction within matched consumed
  | taken _ _ _ offered =>
      cases matched
      obtain ⟨_, _, _, _, rfl, _, _, edge⟩ := edge_of_reusable? read offered
      rw [edge]
      exact Nat.le_add_right _ _
  | visibleEmpty | seqNil | starFail | starEmpty | optNone =>
      cases matched
      exact absurd consumed (Nat.lt_irrefl _)
  | visible _ _ _ _ _ _ _ induction =>
      cases matched
      have bound := induction within rfl consumed
      exact bound
  | seqCons first later firstInduction laterInduction =>
      cases matched
      rcases first.advance read rfl with ⟨same, _, _⟩ | ⟨after, inside⟩
      · rw [same] at laterInduction
        have bound := laterInduction within rfl consumed
        exact Nat.le_trans bound (Nat.le_max_right _ _)
      · rcases later.advance read rfl with ⟨same, _, _⟩ | ⟨further, _⟩
        · have bound := firstInduction within rfl after
          rw [← same] at bound
          exact Nat.le_trans bound (Nat.le_max_left _ _)
        · have bound := laterInduction inside rfl further
          exact Nat.le_trans bound (Nat.le_max_right _ _)
  | choiceHead _ induction =>
      cases matched
      exact induction within rfl consumed
  | choiceTail _ _ _ induction =>
      exact Nat.le_trans (induction within matched consumed)
        (Nat.le_max_right _ _)
  | starStep different first later firstInduction laterInduction =>
      cases matched
      rcases first.advance read rfl with ⟨same, _, _⟩ | ⟨after, inside⟩
      · exact absurd same different
      · rcases later.advance read rfl with ⟨same, _, _⟩ | ⟨further, _⟩
        · have bound := firstInduction within rfl after
          rw [← same] at bound
          exact Nat.le_trans bound (Nat.le_max_left _ _)
        · have bound := laterInduction inside rfl further
          exact Nat.le_trans bound (Nat.le_max_right _ _)
  | optSome _ induction =>
      cases matched
      exact induction within rfl consumed

include regular read offers in
/-- A node that a derivation builds for a symbol is determined by the bytes it
accounts for. -/
theorem Runs.determined (anchored : setting.Anchored) {symbol : Symbol}
    {position next examined : Nat} {token : Token} {node : Node}
    (runs : setting.Runs supply (.symbol symbol) position
      (some ⟨next, [⟨token.span.start, node⟩]⟩) examined)
    (here : setting.tokens.get? position = some token)
    (consumed : position < next)
    (sameSymbol : node.symbol = symbol)
    (stop : setting.tokens.edge next = token.span.start + node.length)
    (recorded : examined = token.span.start + node.length + node.lookahead) :
    node.Determined setting.grammar text token.span.start := by
  intro other list position' examined' token' outcome read' here' agree derived
  have within := Nat.le_of_lt (TokenList.lt_size_of_get? here)
  rw [sameSymbol] at derived
  have aligned : Aligned setting.grammar text other setting.tokens list
      token.span.start token'.span.start position position' :=
    ⟨within, _, _, ⟨0, rfl, rfl⟩, Grammar.resumes_start read here,
      Grammar.resumes_start read' here'⟩
  have agreeHere : AgreeFor (examined - token.span.start)
      (text.drop token.span.start) (other.drop token'.span.start) :=
    agree.mono (by omega)
  obtain ⟨alongside, recorded'⟩ :=
    runs.inStep read read' agreeHere (offers.honest regular read)
      (anchored.upTo examined) regular.unruled derived aligned (Nat.le_refl _)
  cases alongside with
  | moved _ inside moved' inside' level alike =>
      have advance := Grammar.edge_lt_edge read consumed inside
      cases alike with
      | @cons _ twin _ twins alike rest =>
          cases rest
          obtain ⟨distance, fromLeft, fromRight⟩ := alike.level
          obtain ⟨further, atLeft, atRight⟩ := level
          have twinStart : twin.offset = token'.span.start := by
            simp only at fromLeft
            omega
          refine ⟨_, twin.item, ?_, moved', inside', by omega, alike.shape,
            fun nearsighted => ⟨alike.content nearsighted, ?_⟩⟩
          · rw [← twinStart]
          · rcases recorded' nearsighted with ⟨none, _⟩ | ⟨count, left, right⟩
            · omega
            · omega

/-- A node left by a match is sound, lies between the first token and the edge
behind the last one, and accounts for nothing that was not examined. -/
structure Fits (setting : Setting) (text : List UInt8)
    (position next examined : Nat) (placed : Placed Node) : Prop where
  sound : placed.item.Sound setting.grammar text placed.offset
  after : setting.tokens.startOf position ≤ placed.offset
  before : placed.stop ≤ setting.tokens.edge next
  covered : placed.item.Accountable setting.grammar →
    placed.stop + placed.item.lookahead ≤ examined

include read in
/-- What was matched first fits into the whole match, and so does what was
matched behind it. -/
theorem fits_append {rule later : Rule Symbol} {first rest : RuleMatch}
    {position examined further : Nat}
    (runs : setting.Runs supply rule position (some first) examined)
    (runsLater : setting.Runs supply later first.next (some rest) further)
    (within : position ≤ setting.tokens.size)
    (fits : ∀ placed ∈ first.nodes,
      setting.Fits text position first.next examined placed)
    (fitsLater : first.next ≤ setting.tokens.size →
      ∀ placed ∈ rest.nodes,
        setting.Fits text first.next rest.next further placed) :
    ∀ placed ∈ first.nodes ++ rest.nodes,
      setting.Fits text position rest.next (max examined further) placed := by
  have reached : first.next ≤ setting.tokens.size := by
    rcases runs.advance read rfl with ⟨same, _, _⟩ | ⟨_, inside⟩
    · exact same ▸ within
    · exact inside
  have between := between_append read (runs.le_next read rfl) runsLater
    (runs.between read rfl) (runsLater.between read rfl)
  refine List.forall_mem_append.mpr ⟨?_, ?_⟩
  · intro placed member
    have fit := fits placed member
    have inside := between placed (List.mem_append_left _ member)
    refine ⟨fit.sound, inside.after, inside.before, ?_⟩
    intro accountable
    exact Nat.le_trans (fit.covered accountable) (Nat.le_max_left _ _)
  · intro placed member
    have fit := fitsLater reached placed member
    have inside := between placed (List.mem_append_right _ member)
    refine ⟨fit.sound, inside.after, inside.before, ?_⟩
    intro accountable
    exact Nat.le_trans (fit.covered accountable) (Nat.le_max_right _ _)

include regular read offers in
/-- The leaf of a token fits. -/
theorem fits_leaf (anchored : setting.Anchored) {position : Nat}
    {token : Token} {node : Node}
    (here : setting.tokens.get? position = some token)
    (leaf : setting.LeafFor supply token node) :
    setting.Fits text position (position + 1) token.examinedEnd
      ⟨token.span.start, node⟩ := by
  have isTerminal := isTerminal_of_get? regular read here
  have honest := offers.honest regular read
  obtain ⟨_, filled, _, examined⟩ := Grammar.span_bounds read here
  have start := TokenList.startOf_of_get? here
  have edge := TokenList.edge_succ here
  have runs : setting.Runs supply (.symbol token.symbol) position
      (some ⟨position + 1, [⟨token.span.start, node⟩]⟩) token.examinedEnd :=
    .token isTerminal here rfl leaf
  have content := (leaf.content_eq honest here).2
  cases leaf with
  | taken found sameLength =>
      obtain ⟨_, _, _, symbol, _, _⟩ := below_of_findReusable? found
      refine ⟨offers _ _ _ found, Nat.le_of_eq start, ?_, ?_⟩
      · rw [edge]
        simp only [Placed.stop, sameLength, Span.length]
        omega
      · intro accountable
        have nearsighted := accountable (symbol ▸ isTerminal)
        obtain ⟨_, lookahead⟩ := honest.leaf here found sameLength
        simp only [Placed.stop, sameLength, lookahead nearsighted,
          Span.length]
        omega
  | built =>
      refine ⟨?_, Nat.le_of_eq start, ?_, ?_⟩
      · refine .node rfl ?_ (fun _ => rfl) ?_ (List.forall_mem_nil _)
          (List.forall_mem_nil _) (List.forall_mem_nil _)
        · simp only [Node.leaf, Span.length]
          omega
        · intro _ _
          refine runs.determined regular read offers anchored here
            (Nat.lt_succ_self _) rfl ?_ ?_
          · simp only [edge, Node.leaf, Span.length]
            omega
          · simp only [Node.leaf, Span.length]
            omega
      · rw [edge]
        simp only [Placed.stop, Node.leaf, Span.length]
        omega
      · intro _
        simp only [Placed.stop, Node.leaf, Span.length]
        omega

/-- What a node encloses fits where it stands in the text. -/
theorem fits_of_enclosed {symbol : Symbol} {position next examined stamp : Nat}
    {nodes : List (Placed Node)}
    (fits : ∀ placed ∈ nodes,
      setting.Fits text position next examined placed)
    {placed : Placed Node}
    (member : placed ∈ (setting.tokens.encloseAs stamp symbol position next
      examined nodes).item.children) :
    setting.Fits text position next examined
      ⟨setting.tokens.startOf position + placed.offset, placed.item⟩ := by
  obtain ⟨original, memberBefore, rfl⟩ := List.mem_map.mp member
  have fit := fits original memberBefore
  have same : setting.tokens.startOf position +
      (original.offset - setting.tokens.startOf position) =
        original.offset := by
    have after := fit.after
    omega
  simp only [same]
  exact fit

include regular read offers in
/-- The node built for a visible symbol fits if what it encloses does. -/
theorem fits_encloseAs (anchored : setting.Anchored) {symbol : Symbol}
    {rule : Rule Symbol} {position next examined stamp : Nat}
    {nodes : List (Placed Node)}
    (notTerminal : setting.grammar.isTerminal symbol = false)
    (runs : setting.Runs supply (.symbol symbol) position
      (some ⟨next, [setting.tokens.encloseAs stamp symbol position next
        examined nodes]⟩) examined)
    (inner : setting.Runs supply rule position (some ⟨next, nodes⟩) examined)
    (within : position ≤ setting.tokens.size) (different : next ≠ position)
    (fits : ∀ placed ∈ nodes,
      setting.Fits text position next examined placed) :
    setting.Fits text position next examined
      (setting.tokens.encloseAs stamp symbol position next examined nodes) := by
  obtain ⟨moved, inside⟩ := (inner.advance read rfl).resolve_left
    fun stuck => different stuck.1
  simp only at moved inside
  obtain ⟨token, here⟩ :=
    TokenList.get?_of_lt (Nat.lt_of_lt_of_le moved inside)
  have start := TokenList.startOf_of_get? here
  have stop := @TokenList.stopBefore_eq_edge setting.tokens _ _ moved
  have bounds := Grammar.span_bounds read here
  have first := Grammar.edge_le_edge read moved inside
  rw [TokenList.edge_succ here] at first
  have recorded := inner.edge_le read within rfl moved
  simp only at recorded
  have notTerminalNode : ¬setting.grammar.isTerminal
      (setting.tokens.encloseAs stamp symbol position next examined
        nodes).item.symbol = true := by
    simp only [TokenList.encloseAs, notTerminal]
    exact Bool.false_ne_true
  refine ⟨?_, Nat.le_refl _, ?_, ?_⟩
  · refine .node rfl ?_ (fun isTerminal => absurd isTerminal notTerminalNode)
      ?_ ?_ ?_ ?_
    · simp only [TokenList.encloseAs, start, stop]
      omega
    · intro _ _
      have offset : (setting.tokens.encloseAs stamp symbol position next
          examined nodes).offset = token.span.start := start
      have runsThere : setting.Runs supply (.symbol symbol) position
          (some ⟨next, [⟨token.span.start,
            (setting.tokens.encloseAs stamp symbol position next examined
              nodes).item⟩]⟩) examined := by
        rw [← offset]
        exact runs
      rw [offset]
      refine runsThere.determined regular read offers anchored here moved rfl
        ?_ ?_
      · simp only [TokenList.encloseAs, start, stop]
        omega
      · simp only [TokenList.encloseAs, start, stop]
        omega
    · intro placed member
      have before := (fits_of_enclosed fits member).before
      simp only [Placed.stop, TokenList.encloseAs, start, stop] at before ⊢
      omega
    · intro placed member accountable
      have covered := (fits_of_enclosed fits member).covered accountable
      simp only [Placed.stop, TokenList.encloseAs, start, stop] at covered ⊢
      omega
    · intro placed member
      exact (fits_of_enclosed fits member).sound
  · simp only [Placed.stop, TokenList.encloseAs, start, stop]
    omega
  · intro _
    simp only [Placed.stop, TokenList.encloseAs, start, stop]
    omega

include regular read offers in
/-- All nodes of a match fit. -/
theorem Runs.fits (anchored : setting.Anchored) {rule : Rule Symbol}
    {position examined : Nat} {outcome : Option RuleMatch}
    (runs : setting.Runs supply rule position outcome examined)
    (within : position ≤ setting.tokens.size) {found : RuleMatch}
    (matched : outcome = some found) :
    ∀ placed ∈ found.nodes,
      setting.Fits text position found.next examined placed := by
  induction runs generalizing found with
  | token isTerminal here same leaf =>
      cases matched
      intro placed member
      cases List.mem_singleton.mp member
      exact fits_leaf regular read offers anchored here leaf
  | otherToken | noRule | visibleFail | seqFail | seqFailLater | choiceNil =>
      cases matched
  | hidden _ _ _ _ induction => exact induction within matched
  | @taken symbol rule position node next examined placed notTerminal known
      visible offered =>
      cases matched
      intro other member
      cases List.mem_singleton.mp member
      obtain ⟨token, here, found, rfl, rfl, _, _, edge⟩ :=
        edge_of_reusable? read offered
      refine ⟨offers _ _ _ found,
        Nat.le_of_eq (TokenList.startOf_of_get? here), ?_, fun _ => ?_⟩
      · exact Nat.le_of_eq edge.symm
      · exact Nat.le_refl _
  | visibleEmpty | seqNil | starFail | starEmpty | optNone =>
      cases matched
      exact List.forall_mem_nil _
  | visible notTerminal known visible refused different fresh runs induction =>
      cases matched
      intro placed member
      cases List.mem_singleton.mp member
      have fits := induction within rfl
      exact fits_encloseAs regular read offers anchored notTerminal
        (.visible notTerminal known visible refused different fresh runs) runs
        within different fits
  | seqCons first later firstInduction laterInduction =>
      cases matched
      exact fits_append read first later within (firstInduction within rfl)
        fun inside => laterInduction inside rfl
  | choiceHead _ induction =>
      cases matched
      exact induction within rfl
  -- Having tried another alternative can only have examined more.
  | choiceTail _ _ _ induction =>
      intro placed member
      have fit := induction within matched placed member
      exact ⟨fit.sound, fit.after, fit.before, fun accountable =>
        Nat.le_trans (fit.covered accountable) (Nat.le_max_right _ _)⟩
  | starStep _ first later firstInduction laterInduction =>
      cases matched
      exact fits_append read first later within (firstInduction within rfl)
        fun inside => laterInduction inside rfl
  | optSome _ induction =>
      cases matched
      exact induction within rfl

end

end Setting

end Reparse
