import Reparse.Grammar.Language
import Reparse.Proofs.Parse.Lookahead
import Reparse.Proofs.Parse.Yield

/-!
# Trees of the grammar

Below the root, every node that is neither an error node nor a token has a
visible symbol, and the symbols of its children form a sequence of the language
that the rule of the symbol describes.  What the stack held before a rule began,
or held while an alternative was tried that failed, never gets into a node.
-/

namespace Reparse

namespace SymbolScope

/-- A number keeps its name and kind when further names get numbers. -/
theorem symbols_declare {scope after : SymbolScope} {name : String}
    {kind : SymbolKind} {symbol : Symbol}
    (declared : scope.declare name kind = .ok (symbol, after)) {index : Nat}
    {info : SymbolInfo} (known : scope.symbols[index]? = some info) :
    after.symbols[index]? = some info := by
  obtain ⟨_, _, _, _, rfl⟩ := declare_eq_ok declared
  have inside := (Array.getElem?_eq_some_iff.mp known).1
  rw [Array.getElem?_push, if_neg (Nat.ne_of_lt inside)]
  exact known

end SymbolScope

namespace Grammar

theorem isHidden_of_isTerminal {grammar : Grammar} {symbol : Symbol}
    (isTerminal : grammar.isTerminal symbol = true) :
    grammar.isHidden symbol = false := by
  unfold Grammar.isTerminal at isTerminal
  unfold isHidden
  cases found : grammar.kind? symbol with
  | none => rfl
  | some kind =>
      rw [found] at isTerminal
      cases kind with
      | literal | token | visible => rfl
      | hidden => cases isTerminal

/-- The root was declared as a visible symbol. -/
theorem Built.isHidden_root {name : String} {declarations : List Declaration}
    {grammar : Grammar} (built : Built name declarations grammar) :
    grammar.isHidden grammar.root = false := by
  let known := fun scope : SymbolScope =>
    scope.symbols[grammar.root.id]? = some ⟨built.root.name, .visible⟩
  have root : known built.withRoot := by
    obtain ⟨_, _, _, same, after⟩ :=
      SymbolScope.declare_eq_ok built.rootNumbered
    simp only [known, after, same]
    exact Array.getElem?_push_size
  have rules : known built.withRules := by
    refine @foldlM_induction _ _ _ _ known _ _ _ built.rulesDeclared root ?_
    intro rule _ before after holds declared
    exact SymbolScope.symbols_declare (SymbolScope.declareRule_eq_ok declared)
      holds
  have literals : known built.scope := by
    refine @foldlM_induction _ _ _ _ known _ _ _ built.literalsDeclared rules ?_
    intro text _ before after holds declared
    rcases SymbolScope.declareLiteral_eq_ok declared with rfl | fresh
    · exact holds
    · obtain ⟨_, middle, first, rfl⟩ := SymbolScope.declareToken_eq_ok fresh
      exact @SymbolScope.symbols_declare _ middle _ _ _ first _ _ holds
  simp only [known, ← built.symbols_eq] at literals
  rw [Grammar.isHidden, kind?, literals]
  split <;> rfl

end Grammar

namespace Node

/-- The symbols of the children. -/
def childSymbols (node : Node) : List Symbol :=
  node.children.map fun placed => placed.item.symbol

/-- The node has a visible symbol, and its children form a sequence that the
rule of the symbol describes. -/
structure DerivedBy (grammar : Grammar) (node : Node) : Prop where
  nonterminal : grammar.isTerminal node.symbol = false
  visible : grammar.isHidden node.symbol = false
  yields : ∃ rule, grammar.rule? node.symbol = some rule ∧
    grammar.Yields rule node.childSymbols

/-- The node is a token, an error node, or derived by the rule of its symbol. -/
inductive Lawful (grammar : Grammar) (node : Node) : Prop where
  | token : grammar.isTerminal node.symbol = true → node.children = [] →
      Lawful grammar node
  | error : node.symbol = Symbol.error → Lawful grammar node
  | derived : node.DerivedBy grammar → Lawful grammar node

theorem Lawful.not_hidden {grammar : Grammar} {node : Node}
    (lawful : node.Lawful grammar) : grammar.isHidden node.symbol = false := by
  cases lawful with
  | token isTerminal => exact Grammar.isHidden_of_isTerminal isTerminal
  | error same =>
      rw [same]
      rfl
  | derived derivedBy => exact derivedBy.visible

end Node

namespace Setting

section

variable {setting : Setting} {supply : Nat} {text : List UInt8}
  (read : setting.grammar.tokenize text = .ok setting.tokens)
  (nothing : ∀ symbol start, setting.findReusable? symbol start = none)

include nothing

theorem LeafFor.lawful {token : Token} {node : Node}
    (leaf : setting.LeafFor supply token node)
    (isTerminal : setting.grammar.isTerminal token.symbol = true) :
    node.Everywhere (Node.Lawful setting.grammar) := by
  obtain ⟨symbol, childless, _⟩ := leaf.built_of_nothing nothing
  rw [← symbol] at isTerminal
  refine Node.everywhere_iff.mpr ⟨.token isTerminal childless, ?_⟩
  rw [childless]
  exact List.forall_mem_nil _

include read

/-- The nodes of a match form a sequence that the rule describes, and
everything below them is lawful. -/
theorem Runs.yields {rule : Rule Symbol} {position examined : Nat}
    {outcome : Option RuleMatch}
    (runs : setting.Runs supply rule position outcome examined)
    {found : RuleMatch} (matched : outcome = some found) :
    setting.grammar.Yields rule
        (found.nodes.map fun placed => placed.item.symbol) ∧
      ∀ placed ∈ found.nodes,
        placed.item.Everywhere (Node.Lawful setting.grammar) := by
  induction runs generalizing found with
  | token isTerminal here same leaf =>
      cases matched
      rw [← same] at isTerminal ⊢
      obtain ⟨symbol, _, _⟩ := leaf.built_of_nothing nothing
      refine ⟨?_, List.forall_mem_singleton.mpr
        (leaf.lawful nothing isTerminal)⟩
      simp only [List.map_cons, List.map_nil, symbol]
      exact .terminal isTerminal
  | otherToken | noRule | visibleFail | seqFail | seqFailLater | choiceNil =>
      cases matched
  | taken _ _ _ offered =>
      obtain ⟨_, _, _, found, _⟩ := reusable?_eq_some offered
      rw [nothing] at found
      cases found
  | hidden notTerminal known isHidden _ induction =>
      obtain ⟨yields, lawful⟩ := induction matched
      exact ⟨.hidden notTerminal isHidden known yields, lawful⟩
  | visibleEmpty notTerminal known visible _ runs =>
      cases matched
      obtain ⟨_, _, nullable⟩ := (runs.advance read rfl).resolve_right
        fun moved => Nat.lt_irrefl _ moved.1
      exact ⟨.empty notTerminal visible (.symbol known nullable),
        List.forall_mem_nil _⟩
  | @visible symbol rule position next examined stamp nodes notTerminal known
      visible _ _ _ _ induction =>
      cases matched
      obtain ⟨yields, lawful⟩ := induction rfl
      refine ⟨.visible notTerminal visible known, ?_⟩
      rw [List.forall_mem_singleton, Node.everywhere_iff]
      refine ⟨.derived ⟨notTerminal, visible, rule, known, ?_⟩, ?_⟩
      · rw [Node.childSymbols, TokenList.encloseAs, List.map_map]
        exact yields
      · intro placed member
        obtain ⟨original, memberBefore, rfl⟩ := List.mem_map.mp member
        exact lawful original memberBefore
  | seqNil =>
      cases matched
      exact ⟨.seqNil, List.forall_mem_nil _⟩
  | @seqCons item items first rest position _ _ runs _ induction
      inductionLater =>
      cases matched
      obtain ⟨yields, lawful⟩ := induction rfl
      obtain ⟨yieldsLater, lawfulLater⟩ := inductionLater rfl
      rw [List.map_append]
      exact ⟨.seqCons yields yieldsLater,
        List.forall_mem_append.mpr ⟨lawful, lawfulLater⟩⟩
  | choiceHead _ induction =>
      cases matched
      obtain ⟨yields, lawful⟩ := induction rfl
      exact ⟨.choice List.mem_cons_self yields, lawful⟩
  | choiceTail _ _ _ induction =>
      obtain ⟨yields, lawful⟩ := induction matched
      cases yields with
      | choice member yields =>
          exact ⟨.choice (List.mem_cons_of_mem _ member) yields, lawful⟩
  | @starFail item | @starEmpty item =>
      cases matched
      exact ⟨.starNil item, List.forall_mem_nil _⟩
  | @starStep item first rest position _ _ _ runs _ induction inductionLater =>
      cases matched
      obtain ⟨yields, lawful⟩ := induction rfl
      obtain ⟨yieldsLater, lawfulLater⟩ := inductionLater rfl
      rw [List.map_append]
      exact ⟨.starCons yields yieldsLater,
        List.forall_mem_append.mpr ⟨lawful, lawfulLater⟩⟩
  | @optNone item =>
      cases matched
      exact ⟨.optNone item, List.forall_mem_nil _⟩
  | optSome _ induction =>
      cases matched
      obtain ⟨yields, lawful⟩ := induction rfl
      exact ⟨.optSome yields, lawful⟩

variable (regular : setting.grammar.Regular)

include regular

theorem ErrorsFor.lawful {first? : Option Nat} {stop : Nat}
    {errors : List (Placed Node)}
    (errorsFor : setting.ErrorsFor supply stop first? errors) :
    ∀ placed ∈ errors,
      placed.item.Everywhere (Node.Lawful setting.grammar) := by
  cases errorsFor with
  | nothing => exact List.forall_mem_nil _
  | node found leavesFor =>
      rw [List.forall_mem_singleton, Node.everywhere_iff]
      refine ⟨.error rfl, ?_⟩
      intro leaf member
      obtain ⟨token, memberToken, leafWithin⟩ :=
        exists_of_forall₂_right leavesFor member
      obtain ⟨index, _, _, here⟩ := mem_extract memberToken
      exact leafWithin.leaf.lawful nothing
        (isTerminal_of_get? regular read here)

theorem RootRuns.lawful {item : Rule Symbol} {position : Nat}
    {first? : Option Nat} {nodes : List (Placed Node)}
    (rootRuns : setting.RootRuns supply item position first? nodes) :
    ∀ placed ∈ nodes,
      placed.item.Everywhere (Node.Lawful setting.grammar) := by
  induction rootRuns with
  | done _ errorsFor => exact errorsFor.lawful read nothing regular
  | item inside _ runs errorsFor _ induction =>
      have errors := errorsFor.lawful read nothing regular
      have nodes := (runs.yields read nothing rfl).2
      exact List.forall_mem_append.mpr
        ⟨errors, List.forall_mem_append.mpr ⟨nodes, induction⟩⟩
  | skip _ _ _ _ induction => exact induction

end

end Setting

/-- A text that can be read is parsed, and every node below the root that is
neither an error node nor a token is derived by the rule of its symbol.  No node
at all has a hidden symbol. -/
theorem Parser.parse_grammatical {name : String}
    {declarations : List Declaration} {parser : Parser}
    (accepted : Grammar.ofDeclarations name declarations =
      .ok parser.grammar.value)
    {text : List UInt8} {tokens : TokenList}
    (read : parser.grammar.value.tokenize text = .ok tokens)
    (fits : text.length ≤ longestText) (supply : Nat) :
    ∃ parsed, parser.parse text none supply = .ok parsed ∧
      (∀ start node, parsed.tree.root.Below start node →
        node.symbol ≠ Symbol.error →
        ¬(parser.grammar.value.isTerminal node.symbol = true ∧
          node.isLeaf = true) →
          ∃ rule, parser.grammar.value.rule? node.symbol = some rule ∧
            parser.grammar.value.isTerminal node.symbol = false ∧
              parser.grammar.value.isHidden node.symbol = false ∧
                parser.grammar.value.Yields rule node.childSymbols) ∧
        parsed.tree.root.Everywhere fun node =>
          parser.grammar.value.isHidden node.symbol = false := by
  have regular := Grammar.regular_of_ofDeclarations accepted
  obtain ⟨built⟩ := Grammar.built_of_ofDeclarations accepted
  obtain ⟨parsed, derived⟩ := @Grammar.exists_derive parser.grammar
    parser.options.memoize text none 0 supply tokens _ read built.rule?_root
  obtain ⟨others, rule, grows⟩ := Grammar.grows_of_derive regular derived
  have same := read.symm.trans grows.read
  cases same
  obtain ⟨supply, rootRuns⟩ := grows.children
  have children := rootRuns.lawful read
    (@Setting.findReusable?_alone
      (parser.grammar.value.over parser.options.memoize none tokens)
      parser.options.memoize)
    regular
  have lawful : ∀ start node, parsed.tree.root.Below start node →
      node.Lawful parser.grammar.value := by
    intro start node below
    obtain ⟨placed, member, ⟨_, rfl⟩ | ⟨inner, _, deeper⟩⟩ :=
      Node.below_iff.mp below
    · exact (Node.everywhere_iff.mp (children placed member)).1
    · exact (Node.everywhere_iff_below.mp (children placed member)).2 _ _ deeper
  rw [Parser.parse_none rfl fits]
  refine ⟨parsed, derived, ?_, Node.everywhere_iff_below.mpr ⟨?_, ?_⟩⟩
  · intro start node below notError notToken
    cases lawful start node below with
    | token isTerminal childless =>
        refine absurd ⟨isTerminal, ?_⟩ notToken
        rw [Node.isLeaf, childless]
        rfl
    | error isError => exact absurd isError notError
    | derived derivedBy =>
        obtain ⟨rule, known, yields⟩ := derivedBy.yields
        exact ⟨rule, known, derivedBy.nonterminal, derivedBy.visible, yields⟩
  · rw [grows.symbol]
    exact built.isHidden_root
  · intro start node below
    exact (lawful start node below).not_hidden

/-- The word that a letter is parsed as is derived by the rule of words. -/
theorem Words.word_grammatical :
    ∃ (grammar : Stamped Grammar) (parsed : Parsed) (word : Node),
      Grammar.ofDeclarations "words" declarations = .ok grammar.value ∧
        (Parser.ofGrammar grammar ⟨true, false⟩).parse [97] none 0 =
            .ok parsed ∧
          parsed.tree.root.Below 0 word ∧ word.symbol = ⟨2⟩ ∧
            grammar.value.Yields (.symbol ⟨0⟩) word.childSymbols := by
  obtain ⟨grammar, accepted, describes⟩ := exists_grammar
  obtain ⟨parsed, word, found, below, symbol, _, _⟩ :=
    @exists_word ⟨0, grammar⟩ describes
  have read := (tokenize_letter describes).1
  obtain ⟨other, foundToo, derived, _⟩ := @Parser.parse_grammatical "words"
    declarations (Parser.ofGrammar ⟨0, grammar⟩ ⟨true, false⟩) accepted _ _ read
    (by decide) 0
  have same := found.symm.trans foundToo
  cases same
  obtain ⟨rule, known, _, _, yields⟩ := derived 0 word below
    (by rw [symbol]; decide)
    (by
      rintro ⟨isTerminal, _⟩
      rw [symbol] at isTerminal
      exact Bool.false_ne_true
        ((isTerminal_word describes).symm.trans isTerminal))
  rw [symbol] at known
  have sameRule := known.symm.trans (rule?_word describes)
  cases sameRule
  exact ⟨⟨0, grammar⟩, parsed, word, accepted, found, below, symbol, yields⟩

end Reparse
