import Reparse.Proofs.Language.Words
import Reparse.Proofs.Parse.Faithful
import Reparse.Proofs.Tree.Equality

/-!
# What a lookahead promises

The bytes that a node covers and those of its lookahead decide its derivation.
Wherever a token begins with the same bytes before it, the symbol of the node
matches there with a node of the same shape.
-/

namespace Reparse

namespace Setting

theorem admits_symbol {setting : Setting} {symbol : Symbol} {bound : Nat}
    (ranked : setting.grammar.rank symbol < bound) :
    setting.Admits bound (.symbol symbol) := by
  intro called call
  cases call
  exact ranked

/-- Without an edited tree, the symbol of a node that is determined by its bytes
matches with such a node wherever a token begins with the bytes. -/
theorem eval_of_determined {setting : Setting} (alone : setting.previous = none)
    {left right : List UInt8} (regular : setting.grammar.Regular)
    (read : setting.grammar.tokenize right = .ok setting.tokens) {start : Nat}
    {node : Node} (determined : node.Determined setting.grammar left start)
    {index : Nat} {token : Token}
    (here : setting.tokens.get? index = some token)
    (agree : AgreeFor (node.length + node.lookahead) (left.drop start)
      (right.drop token.span.start)) {supply bound : Nat}
    {state : DerivationState} (trusted : setting.Trusted supply state)
    (ranked : setting.grammar.rank node.symbol < bound) :
    ∃ next twin after,
      setting.eval (.symbol node.symbol) index bound state =
          (some next, after) ∧
        setting.tokens.stopBefore next = token.span.start + node.length ∧
          after.scratch.toList =
              state.scratch.toList ++ [⟨token.span.start, twin⟩] ∧
            twin.shape = node.shape := by
  have delivers := delivers_eval regular (onward_of_tokenize read) index trusted
    (admits_symbol ranked)
  generalize setting.eval (.symbol node.symbol) index bound state = result
    at delivers ⊢
  cases delivers with
  | failed runs =>
      obtain ⟨_, _, none, _⟩ := determined read here agree (runs.matched alone)
      cases none
  | @matched next _ nodes after runs _ scratch _ =>
      obtain ⟨_, twin, found, moved, _, edge, shape, _⟩ :=
        determined read here agree (runs.matched alone)
      simp only [Option.map_some, RuleMatch.content, Option.some.injEq,
        RuleMatch.mk.injEq] at found
      obtain ⟨rfl, contents⟩ := found
      obtain ⟨placed, rfl⟩ : ∃ placed, nodes = [placed] := by
        rw [← List.length_eq_one_iff, ← Node.length_contentList, contents]
        rfl
      simp only [Node.contentList, List.cons.injEq, Placed.mk.injEq, and_true]
        at contents
      obtain ⟨offset, content⟩ := contents
      refine ⟨next, placed.item, after, rfl, ?_, ?_, ?_⟩
      · rw [TokenList.stopBefore_eq_edge moved, edge]
      · rw [scratch, ← offset]
      · rw [shape, ← content, Node.shape_content]

end Setting

/-- If the bytes that a node accounts for are met at the start of a token of
another text, the symbol of the node matches there when that text is derived
from scratch: up to as many bytes further on, and with a node of the same shape.
It does so at every point of the derivation, since nothing but outcomes is ever
remembered, under every bound on ranks that lets the symbol be invoked.  The
error symbol has no rule. -/
theorem Parsed.symbol_matches_again {name : String}
    {declarations : List Declaration} {grammar : Stamped Grammar}
    (accepted : Grammar.ofDeclarations name declarations = .ok grammar.value)
    {parser : Parser} (known : parser.grammar = grammar)
    {left right : List UInt8} {supply : Nat} {parsed : Parsed}
    (found : parser.parse left none supply = .ok parsed) {start : Nat}
    {node : Node} (below : parsed.tree.root.Below start node)
    (notTerminal : grammar.value.isTerminal node.symbol = false)
    (named : node.symbol ≠ Symbol.error) {tokens : TokenList}
    (read : grammar.value.tokenize right = .ok tokens) {index : Nat}
    {token : Token} (here : tokens.get? index = some token)
    (agree : ∀ offset < node.length + node.lookahead,
      left[start + offset]? = right[token.span.start + offset]?)
    {memoize : Bool} {first bound : Nat} {state : DerivationState}
    (trusted : (grammar.value.over memoize none tokens).Trusted first state)
    (ranked : grammar.value.rank node.symbol < bound) :
    ∃ next twin after,
      (grammar.value.over memoize none tokens).eval (.symbol node.symbol) index
          bound state = (some next, after) ∧
        tokens.stopBefore next = token.span.start + node.length ∧
          after.scratch.toList =
              state.scratch.toList ++ [⟨token.span.start, twin⟩] ∧
            twin.shape = node.shape := by
  have regular := Grammar.regular_of_ofDeclarations accepted
  have derived := Parser.derive_of_parse_none known found
  have faithful := faithful_of_derive_none regular derived
  obtain ⟨_, _, grows⟩ := Grammar.grows_of_derive regular derived
  have sound := faithful.below below
  rw [grows.bytes] at sound
  have determined := sound.determined
    (fun isTerminal => by
      rw [notTerminal] at isTerminal
      cases isTerminal) named
  refine @Setting.eval_of_determined (grammar.value.over memoize none tokens)
    rfl left right regular read start node determined index token here ?_ first
    bound state trusted ranked
  intro offset inside
  rw [List.getElem?_drop, List.getElem?_drop]
  exact agree offset inside

namespace Words

theorem deriveItems_letter {grammar : Grammar} (describes : Describes grammar)
    (blanks supply : Nat) :
    ((grammar.over false none (tokens blanks)).deriveItems (.symbol ⟨2⟩) 0 none
        0 (DerivationState.initial supply)).scratch.toList =
      [⟨blanks, ⟨supply + 1, ⟨2⟩, 1, 1, false,
        [⟨0, Node.leaf supply ⟨0⟩ 1 1⟩]⟩⟩] := by
  rw [Setting.deriveItems]
  simp [isTerminal_name describes, isTerminal_word describes,
    isHidden_word describes, rule?_word describes, rank_word describes,
    Grammar.over, tokens, TokenList.size, TokenList.get?,
    TokenList.examinedEnd, TokenList.startOf, TokenList.stopBefore,
    Span.length, Setting.deriveItems, Setting.eval, Setting.invoke,
    Setting.derive, Setting.close, Setting.terminal, Setting.leaf,
    Setting.anyRank, Setting.reusable?, Setting.findReusable?_eq,
    Setting.placeWithin, Setting.flushErrors, DerivationState.initial,
    DerivationState.remembered?, DerivationState.remember,
    DerivationState.examine, DerivationState.push, DerivationState.newLeaf,
    DerivationState.above, DerivationState.truncate, DerivationState.apply]

/-- A letter behind blanks is parsed as a word. -/
theorem exists_letter {grammar : Stamped Grammar}
    (describes : Describes grammar.value) {text : List UInt8} {blanks : Nat}
    (lexable : grammar.value.tokenize text = .ok (tokens blanks))
    (fits : text.length ≤ Parser.longestText) (supply : Nat) :
    ∃ parsed,
      (Parser.ofGrammar grammar ⟨true, false⟩).parse text none supply =
          .ok parsed ∧
        parsed.tree.root.symbol = grammar.value.root ∧
          parsed.tree.root.children =
            [⟨blanks, ⟨supply + 1, ⟨2⟩, 1, 1, false,
              [⟨0, Node.leaf supply ⟨0⟩ 1 1⟩]⟩⟩] := by
  have afresh := @Parser.parse_none grammar
    (Parser.ofGrammar grammar ⟨true, false⟩) text supply rfl fits
  have children := deriveItems_letter describes blanks supply
  rw [afresh, Grammar.derive, lexable]
  simp only [rule?_root describes]
  exact ⟨_, rfl, rfl, children⟩

theorem exists_word {grammar : Stamped Grammar}
    (describes : Describes grammar.value) :
    ∃ parsed word,
      (Parser.ofGrammar grammar ⟨true, false⟩).parse [97] none 0 =
          .ok parsed ∧
        parsed.tree.root.Below 0 word ∧ word.symbol = ⟨2⟩ ∧ word.length = 1 ∧
          word.lookahead = 1 := by
  obtain ⟨parsed, found, _, children⟩ :=
    exists_letter describes (tokenize_letter describes).1 (by decide) 0
  have member : (⟨0, ⟨1, ⟨2⟩, 1, 1, false, [⟨0, Node.leaf 0 ⟨0⟩ 1 1⟩]⟩⟩ :
      Placed Node) ∈ parsed.tree.root.children := by
    rw [children]
    exact List.mem_cons_self
  exact ⟨parsed, _, found, .child member, rfl, rfl, rfl⟩

/-- A word that was parsed alone matches again behind a blank. -/
theorem word_matches_again :
    ∃ (grammar : Stamped Grammar) (parsed : Parsed) (word : Node),
      Grammar.ofDeclarations "words" declarations = .ok grammar.value ∧
        (Parser.ofGrammar grammar ⟨true, false⟩).parse [97] none 0 =
            .ok parsed ∧
          parsed.tree.root.Below 0 word ∧ word.symbol = ⟨2⟩ ∧
            grammar.value.tokenize [32, 97] = .ok (tokens 1) ∧
              ∃ next twin after,
                (grammar.value.over true none (tokens 1)).eval
                    (.symbol word.symbol) 0 grammar.value.symbolCount
                    (DerivationState.initial 0) = (some next, after) ∧
                  (tokens 1).stopBefore next = 1 + word.length ∧
                    after.scratch.toList = [⟨1, twin⟩] ∧
                      twin.shape = word.shape := by
  obtain ⟨grammar, accepted, describes⟩ := exists_grammar
  obtain ⟨parsed, word, found, below, symbol, length, lookahead⟩ :=
    @exists_word ⟨0, grammar⟩ describes
  have read := (tokenize_letter describes).2
  have notTerminal : grammar.isTerminal word.symbol = false := by
    rw [symbol]
    exact isTerminal_word describes
  have named : word.symbol ≠ Symbol.error := by
    rw [symbol]
    decide
  have ranked : grammar.rank word.symbol < grammar.symbolCount := by
    rw [symbol]
    exact rank_word describes
  have agree : ∀ offset < word.length + word.lookahead,
      ([97] : List UInt8)[0 + offset]? = [32, 97][1 + offset]? := by
    rw [length, lookahead]
    decide
  exact ⟨⟨0, grammar⟩, parsed, word, accepted, found, below, symbol, read,
    @Parsed.symbol_matches_again _ _ ⟨0, grammar⟩ accepted _ rfl _ _ _ _ found
      _ _ below notTerminal named _ read 0 ⟨⟨0⟩, ⟨1, 2⟩, 3⟩ rfl agree true 0 _
      _ (Setting.trusted_initial _ 0) ranked⟩

end Words

end Reparse
