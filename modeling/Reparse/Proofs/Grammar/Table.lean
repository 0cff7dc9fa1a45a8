import Reparse.Proofs.Grammar.Rejection

/-!
# Accepted tables are consistent

Declarations are accepted exactly when their names are in order and no
non-terminal reaches itself at the start of rules.  The table that they lead to
numbers the symbols in one order: its names lead to the numbers and back, the
numbers with rules and those of tokens part the table between them, and each
token has one entry among the patterns, in the order of the numbers.
-/

namespace Reparse

open Declaration

/-! ## Symbols inside rules -/

namespace Rule

variable {α β ε : Type} {lookup : α → Except ε β}

mutual

/-- Every symbol inside a resolved rule was looked up. -/
theorem lookup_of_mem_symbols {symbol : β} :
    ∀ (rule : Rule α) {resolved : Rule β},
      rule.resolve lookup = .ok resolved → symbol ∈ resolved.symbols →
        ∃ name, lookup name = .ok symbol
  | .symbol name => by
      intro found member
      obtain ⟨looked, known, rfl⟩ := resolve_symbol_eq_ok.mp found
      cases List.mem_singleton.mp member
      exact ⟨name, known⟩
  | .seq items => by
      intro found member
      obtain ⟨results, each, rfl⟩ := resolve_seq_eq_ok.mp found
      exact lookup_of_mem_symbolsList items each member
  | .choice alternatives => by
      intro found member
      obtain ⟨results, each, rfl⟩ := resolve_choice_eq_ok.mp found
      exact lookup_of_mem_symbolsList alternatives each member
  | .star item => by
      intro found member
      obtain ⟨result, inside, rfl⟩ := resolve_star_eq_ok.mp found
      exact lookup_of_mem_symbols item inside member
  | .opt item => by
      intro found member
      obtain ⟨result, inside, rfl⟩ := resolve_opt_eq_ok.mp found
      exact lookup_of_mem_symbols item inside member

/-- List counterpart of `Rule.lookup_of_mem_symbols`. -/
theorem lookup_of_mem_symbolsList {symbol : β} :
    ∀ (items : List (Rule α)) {results : List (Rule β)},
      List.Forall₂ (fun item result => item.resolve lookup = .ok result) items
          results →
        symbol ∈ symbolsList results → ∃ name, lookup name = .ok symbol
  | [] => by
      intro each member
      cases each
      cases member
  | item :: items => by
      intro each member
      obtain ⟨result, others, first, rest, rfl⟩ :=
        List.forall₂_cons_left_iff.mp each
      rcases List.mem_append.mp member with here | later
      · exact lookup_of_mem_symbols item first here
      · exact lookup_of_mem_symbolsList items rest later

end

end Rule

/-! ## The tokens of a scope -/

namespace SymbolScope

/-- The numbers among the symbols that stand for tokens, in ascending order. -/
def tokenIds (symbols : Array SymbolInfo) : List Nat :=
  (List.range symbols.size).filter fun id =>
    symbols[id]?.any fun info => info.kind.isTerminal

theorem tokenIds_push (symbols : Array SymbolInfo) (info : SymbolInfo) :
    tokenIds (symbols.push info) =
      tokenIds symbols ++
        if info.kind.isTerminal then [symbols.size] else [] := by
  have before : (List.range symbols.size).filter (fun id =>
      (symbols.push info)[id]?.any fun info => info.kind.isTerminal) =
        tokenIds symbols := by
    apply List.filter_congr
    intro id member
    rw [Array.getElem?_push,
      if_neg (Nat.ne_of_lt (List.mem_range.mp member))]
  rw [tokenIds, Array.size_push, List.range_succ, List.filter_append, before]
  simp [List.filter_singleton]

/-- The entries for tokens have these patterns and belong to the numbers of
tokens, both in ascending order. -/
structure Tabled (patterns : List Pattern) (scope : SymbolScope) : Prop where
  ids : (scope.terminals.reverse.map fun terminal => terminal.symbol.id) =
    tokenIds scope.symbols
  patterns : scope.terminals.reverse.map Terminal.pattern = patterns

theorem tabled_empty : empty.Tabled [] := ⟨rfl, rfl⟩

variable {scope after : SymbolScope} {patterns : List Pattern}

/-- A symbol that is no token leaves the entries alone. -/
theorem Tabled.declare {name : String} {kind : SymbolKind} {symbol : Symbol}
    (tabled : scope.Tabled patterns) (other : kind.isTerminal = false)
    (declared : scope.declare name kind = .ok (symbol, after)) :
    after.Tabled patterns := by
  obtain ⟨_, _, _, _, rfl⟩ := declare_eq_ok declared
  refine ⟨?_, tabled.patterns⟩
  rw [tokenIds_push, other]
  simpa using tabled.ids

theorem Tabled.declareRule {rule : RuleDeclaration}
    (tabled : scope.Tabled patterns)
    (declared : scope.declareRule rule = .ok after) :
    after.Tabled patterns := by
  refine tabled.declare ?_ (declareRule_eq_ok declared)
  split <;> rfl

/-- A token gets the last entry. -/
theorem Tabled.declareToken {token : TokenDeclaration}
    (tabled : scope.Tabled patterns)
    (isTerminal : token.kind.isTerminal = true)
    (declared : scope.declareToken token = .ok after) :
    after.Tabled (patterns ++ [token.pattern]) := by
  obtain ⟨_, middle, first, rfl⟩ := declareToken_eq_ok declared
  obtain ⟨_, _, _, _, rfl⟩ := declare_eq_ok first
  constructor
  · rw [List.reverse_cons, List.map_append, tabled.ids, tokenIds_push,
      isTerminal]
    rfl
  · rw [List.reverse_cons, List.map_append, tabled.patterns]
    rfl

theorem Tabled.declareTokens {tokens : List TokenDeclaration}
    (tabled : scope.Tabled patterns)
    (terminals : ∀ token ∈ tokens, token.kind.isTerminal = true)
    (declared : tokens.foldlM SymbolScope.declareToken scope = .ok after) :
    after.Tabled (patterns ++ tokens.map TokenDeclaration.pattern) := by
  induction tokens generalizing scope patterns with
  | nil =>
      cases declared
      rwa [List.map_nil, List.append_nil]
  | cons token tokens induction =>
      rw [List.forall_mem_cons] at terminals
      rw [List.foldlM_cons] at declared
      obtain ⟨middle, first, later⟩ := bind_eq_ok.mp declared
      rw [List.map_cons, List.append_cons]
      exact induction (tabled.declareToken terminals.1 first) terminals.2 later

/-- The pattern of a literal. -/
def literalPattern (text : String) : Pattern := .literal (Utf8.encode text)

/-- Some texts were declared behind the symbols of an earlier scope, and each of
them is a token. -/
structure Extends (start : SymbolScope) (patterns : List Pattern)
    (texts : List String) (scope : SymbolScope) : Prop where
  symbols : scope.symbols.toList =
    start.symbols.toList ++ texts.map literalInfo
  tabled : scope.Tabled (patterns ++ texts.map literalPattern)

theorem extends_declareLiterals {literals : List String}
    (tabled : scope.Tabled patterns)
    (declared : literals.foldlM SymbolScope.declareLiteral scope =
      .ok after) :
    ∃ texts, Extends scope patterns texts after := by
  refine @foldlM_induction _ _ _ _
    (fun later => ∃ texts, Extends scope patterns texts later) _ _ _ declared
    ⟨[], ?_, ?_⟩ ?_
  · rw [List.map_nil, List.append_nil]
  · rwa [List.map_nil, List.append_nil]
  · rintro text _ middle later ⟨texts, soFar⟩ step
    rcases declareLiteral_eq_ok step with rfl | fresh
    · exact ⟨texts, soFar⟩
    · refine ⟨texts ++ [text], ?_, ?_⟩
      · obtain ⟨_, _, first, rfl⟩ := declareToken_eq_ok fresh
        obtain ⟨_, _, _, _, rfl⟩ := declare_eq_ok first
        rw [Array.toList_push, soFar.symbols, List.append_assoc,
          List.map_append]
        rfl
      · rw [List.map_append, ← List.append_assoc]
        exact soFar.tabled.declareToken rfl fresh

end SymbolScope

namespace Grammar

variable {name : String} {declarations : List Declaration}
  {grammar : Grammar}

/-- The texts of literals that no declaration by name has taken, in order of
appearance. -/
def freshLiterals (declarations : List Declaration) (root : RuleDeclaration) :
    List String :=
  freshTexts (declaredNames declarations root)
    (inlineLiterals declarations root)

theorem allInfos_eq {root : RuleDeclaration} :
    allInfos declarations root =
      declaredInfos declarations root ++
        (freshLiterals declarations root).map literalInfo := by
  rw [allInfos, Numbering.withLiterals, names_declaredInfos, freshLiterals]

/-- The symbols without a token among the declared ones are those of the
non-terminals, which stand together behind the tokens. -/
theorem isTerminal_allInfos {root : RuleDeclaration} {id : Nat}
    {info : SymbolInfo}
    (found : (allInfos declarations root)[id]? = some info) :
    info.kind.isTerminal = false ↔
      (tokensOf declarations).length ≤ id ∧
        id < (tokensOf declarations).length +
          ((rulesOf declarations).length + 1) := by
  rw [allInfos_eq, declaredInfos, Numbering.withRules, List.append_assoc,
    List.append_assoc, List.singleton_append, List.getElem?_append,
    List.length_map] at found
  split at found
  · next before =>
      obtain ⟨token, member, rfl⟩ :=
        List.mem_map.mp (List.mem_of_getElem? found)
      have isTerminal := isTerminal_of_mem_tokens member
      simp only [TokenDeclaration.info, isTerminal, Bool.true_eq_false,
        false_iff]
      omega
  · next behind =>
      rw [← List.cons_append, List.getElem?_append, List.length_cons,
        List.length_map] at found
      split at found
      · next inside =>
          have other : info.kind.isTerminal = false := by
            rcases List.mem_cons.mp (List.mem_of_getElem? found) with
              rfl | member
            · rfl
            · obtain ⟨rule, _, rfl⟩ := List.mem_map.mp member
              simp only [RuleDeclaration.info]
              split <;> rfl
          simp only [other, true_iff]
          omega
      · next past =>
          obtain ⟨text, _, rfl⟩ :=
            List.mem_map.mp (List.mem_of_getElem? found)
          simp only [literalInfo, SymbolKind.isTerminal, Bool.true_eq_false,
            false_iff]
          omega

namespace Built

variable (built : Built name declarations grammar)

include built

/-- What is known of the names in an accepted table. -/
theorem exists_named :
    ∃ numbering, built.scope.Follows numbering ∧
      Named declarations built.root numbering built.item built.bodies := by
  obtain ⟨numbering, numbered, follows⟩ := exists_numbering
    built.tokensDeclared built.rootNumbered built.rulesDeclared
    built.literalsDeclared
  have itemResolved := built.itemResolved
  have bodiesResolved := built.bodiesResolved
  rw [follows.lookup] at itemResolved
  simp only [resolveRules, follows.lookup] at bodiesResolved
  exact ⟨numbering, follows, built.rootDeclared, built.rootVisible, numbered,
    itemResolved, bodiesResolved⟩

/-- The symbols are numbered in this order. -/
theorem symbols_toList :
    grammar.symbols.toList = allInfos declarations built.root := by
  obtain ⟨numbering, follows, named⟩ := built.exists_named
  obtain ⟨_, infos⟩ := Numbering.ofDeclarations_yields.of_eq named.numbered
  rw [built.symbols_eq, follows.symbols, infos]

theorem size_withRules :
    built.withRules.symbols.size =
      (declaredInfos declarations built.root).length := by
  have tokens := foldlM_measure built.tokensDeclared
    fun _ _ _ => SymbolScope.size_of_declareToken
  have root := SymbolScope.size_of_declare built.rootNumbered
  have rules := foldlM_measure built.rulesDeclared
    fun _ _ _ declared =>
      SymbolScope.size_of_declare (SymbolScope.declareRule_eq_ok declared)
  have none : SymbolScope.empty.symbols.size = 0 := rfl
  rw [rules, root, tokens, none]
  simp [declaredInfos, Numbering.withRules, tokensOf, rulesOf, Nat.add_assoc,
    Nat.add_comm 1]

theorem tabled :
    built.scope.Tabled ((tokensOf declarations).map TokenDeclaration.pattern ++
      (freshLiterals declarations built.root).map
        SymbolScope.literalPattern) := by
  have tokens := SymbolScope.tabled_empty.declareTokens
    (fun token => isTerminal_of_mem_tokens) built.tokensDeclared
  have root := tokens.declare rfl built.rootNumbered
  have rules : built.withRules.Tabled _ :=
    foldlM_induction built.rulesDeclared root
      fun rule _ _ _ tabled declared => tabled.declareRule declared
  obtain ⟨texts, extended⟩ :=
    SymbolScope.extends_declareLiterals rules built.literalsDeclared
  have symbols := extended.symbols
  rw [← built.symbols_eq, built.symbols_toList, allInfos_eq] at symbols
  have length : (declaredInfos declarations built.root).length =
      built.withRules.symbols.toList.length := by
    rw [← built.size_withRules]
    exact Array.length_toList.symm
  have same := (List.append_inj symbols length).2
  have texts : freshLiterals declarations built.root = texts :=
    List.map_injective_iff.mpr
      (fun _ _ equal => congrArg SymbolInfo.name equal) same
  rw [texts]
  exact extended.tabled

theorem root_eq : grammar.root = ⟨(tokensOf declarations).length⟩ := by
  obtain ⟨_, _, _, root, _⟩ := SymbolScope.declare_eq_ok built.rootNumbered
  have count := foldlM_measure built.tokensDeclared
    fun _ _ _ => SymbolScope.size_of_declareToken
  have none : SymbolScope.empty.symbols.size = 0 := rfl
  rw [root, count, none, Nat.zero_add]
  rfl

/-- No declared symbol has the number of error nodes. -/
theorem ne_error {symbol : Symbol} (inside : symbol.id < grammar.symbolCount) :
    symbol ≠ .error := by
  rintro rfl
  have within := built.sound_scope.within
  rw [symbolCount, built.symbols_eq] at inside
  exact absurd inside (Nat.not_lt.mpr within)

theorem isError_eq_false {symbol : Symbol}
    (inside : symbol.id < grammar.symbolCount) : symbol.isError = false :=
  beq_eq_false_iff_ne.mpr (built.ne_error inside)

/-- The name of a symbol leads back to it. -/
theorem symbol?_symbolName? {symbol : Symbol}
    (known : symbol.id < grammar.symbolCount ∨ symbol = .error) :
    ∃ name, grammar.symbolName? symbol = some name ∧
      grammar.symbol? name = some symbol := by
  rcases known with inside | rfl
  · obtain ⟨numbering, follows, named⟩ := built.exists_named
    obtain ⟨⟨_, _, orderly⟩, infos⟩ :=
      Numbering.ofDeclarations_yields.of_eq named.numbered
    have declared : numbering.names[symbol.id]? =
        some grammar.symbols[symbol.id].name := by
      rw [Numbering.names, ← follows.symbols, List.getElem?_map,
        Array.getElem?_toList, ← built.symbols_eq,
        Array.getElem?_eq_getElem inside]
      rfl
    have notError : grammar.symbols[symbol.id].name ≠ errorName := by
      intro same
      rw [← infos] at orderly
      exact orderly.notError (same ▸ List.mem_of_getElem? declared)
    refine ⟨grammar.symbols[symbol.id].name, ?_, ?_⟩
    · rw [symbolName?, built.isError_eq_false inside,
        Array.getElem?_eq_getElem inside]
      rfl
    · rw [symbol?, if_neg notError, built.ids_eq, follows.ids,
        Numbering.index?_eq_some_iff named.distinct]
      exact declared
  · exact ⟨errorName, rfl, rfl⟩

theorem isTerminal_eq {symbol : Symbol} {info : SymbolInfo}
    (found : grammar.symbols[symbol.id]? = some info) :
    grammar.isTerminal symbol = info.kind.isTerminal := by
  have inside := (Array.getElem?_eq_some_iff.mp found).1
  rw [isTerminal, kind?, built.isError_eq_false inside, found]
  rfl

/-- A declared symbol has a rule unless it is a token. -/
theorem isSome_rule?_iff {symbol : Symbol}
    (inside : symbol.id < grammar.symbolCount) :
    (grammar.rule? symbol).isSome = true ↔
      grammar.isTerminal symbol = false := by
  have found : grammar.symbols[symbol.id]? =
      some grammar.symbols[symbol.id] :=
    Array.getElem?_eq_getElem inside
  have listed := found
  rw [← Array.getElem?_toList, built.symbols_toList] at listed
  have bodies : built.bodies.length = (rulesOf declarations).length :=
    length_of_mapM built.bodiesResolved
  rw [built.isTerminal_eq found, isTerminal_allInfos listed, rule?,
    built.rules_eq, rule?_ruleTable]
  change (if symbol.id < (tokensOf declarations).length then none
    else (Rule.star built.item :: built.bodies)[
      symbol.id - (tokensOf declarations).length]?).isSome = true ↔ _
  split
  · next before =>
      simp only [Option.isSome_none, Bool.false_eq_true, false_iff]
      omega
  · next behind =>
      rw [isSome_getElem?, List.length_cons, bodies]
      omega

/-- Every symbol inside a rule is declared. -/
theorem lt_of_mem_rule {symbol inner : Symbol} {rule : Rule Symbol}
    (found : grammar.rule? symbol = some rule)
    (member : inner ∈ rule.symbols) : inner.id < grammar.symbolCount := by
  obtain ⟨numbering, follows, named⟩ := built.exists_named
  have table : grammar.rules =
      numbering.ruleTable declarations built.item built.bodies := by
    rw [built.rules_eq, follows.size]
    rfl
  rw [rule?, table] at found
  obtain ⟨declared, _, _, resolved⟩ := named.rule?_iff.mp found
  obtain ⟨reference, looked⟩ :=
    Rule.lookup_of_mem_symbols declared.body resolved member
  rw [Numbering.lookup_eq_ok,
    Numbering.index?_eq_some_iff named.distinct] at looked
  have inside := (List.getElem?_eq_some_iff.mp looked).1
  rwa [Numbering.names, List.length_map, ← follows.size,
    ← built.symbols_eq] at inside

/-- Each token has one entry, in the order of the numbers. -/
theorem ids_terminals :
    (grammar.terminals.map fun terminal => terminal.symbol.id) =
      (List.range grammar.symbolCount).filter fun id =>
        grammar.isTerminal ⟨id⟩ := by
  rw [built.terminals_eq, built.tabled.ids, ← built.symbols_eq,
    SymbolScope.tokenIds, symbolCount]
  apply List.filter_congr
  intro id member
  have found := Array.getElem?_eq_getElem (List.mem_range.mp member)
  rw [@isTerminal_eq _ _ _ built ⟨id⟩ _ found, found]
  rfl

end Built

/-- Declarations are accepted exactly when their names are in order and no
non-terminal reaches itself through calls at the start of rules. -/
theorem accepted_iff (name : String) (declarations : List Declaration) :
    (∃ grammar, ofDeclarations name declarations = .ok grammar) ↔
      ∃ root, NamesInOrder declarations root ∧
        ¬∃ rule ∈ nonterminals declarations root,
          ReachesItself (nonterminals declarations root) rule.name := by
  constructor
  · rintro ⟨grammar, accepted⟩
    obtain ⟨built⟩ := built_of_ofDeclarations accepted
    obtain ⟨numbering, _, named⟩ := built.exists_named
    refine ⟨built.root, namesInOrder_iff.mpr ⟨_, _, _, named⟩, ?_⟩
    rintro ⟨rule, _, reaches⟩
    obtain ⟨called, refused⟩ := refused_of_reachesItself name named reaches
    rw [accepted] at refused
    cases refused
  · rintro ⟨root, inOrder, acyclic⟩
    obtain ⟨numbering, item, bodies, named⟩ := namesInOrder_iff.mp inOrder
    obtain ⟨scope, _, outcome⟩ := ofDeclarations_of_numbering name
      named.root_declared named.root_visible named.numbered
      named.item_resolved named.bodies_resolved
    split at outcome
    · next symbol ranked =>
        have reaches := reachesItself_of_refused named outcome
        obtain ⟨rule, member, same⟩ := exists_of_reachesItself reaches
        exact absurd ⟨rule, member, same ▸ reaches⟩ acyclic
    · exact ⟨_, outcome⟩

/-- Declarations are accepted exactly when their names are in order and nothing
is left recursive, and then the table is consistent.  Its symbols are numbered
in the order of tokens and keywords, root, rules and free literals; a name leads
back to its symbol, also that of error nodes, which no symbol is; the symbols
without a rule are the tokens; rules are made of declared symbols; and the
patterns belong to the tokens, one to each in the order of their numbers. -/
theorem ofDeclarations_consistent (name : String)
    (declarations : List Declaration) :
    ((∃ grammar, ofDeclarations name declarations = .ok grammar) ↔
      ∃ root, NamesInOrder declarations root ∧
        ¬∃ rule ∈ nonterminals declarations root,
          ReachesItself (nonterminals declarations root) rule.name) ∧
    ∀ grammar, ofDeclarations name declarations = .ok grammar →
      ∃ root, rootOf? declarations = some root ∧
        grammar.symbols.toList = allInfos declarations root ∧
        grammar.symbols.toList.map SymbolInfo.name =
          declaredNames declarations root ++
            (inlineLiterals declarations root).eraseDups.filter
              (· ∉ declaredNames declarations root) ∧
        grammar.root = ⟨(tokensOf declarations).length⟩ ∧
        (∀ symbol, symbol.id < grammar.symbolCount ∨ symbol = .error →
          ∃ name, grammar.symbolName? symbol = some name ∧
            grammar.symbol? name = some symbol) ∧
        (∀ symbol, symbol.id < grammar.symbolCount →
          symbol ≠ .error ∧
            ((grammar.rule? symbol).isSome = true ↔
              grammar.isTerminal symbol = false)) ∧
        (∀ symbol rule, grammar.rule? symbol = some rule →
          ∀ inner ∈ rule.symbols, inner.id < grammar.symbolCount) ∧
        (grammar.terminals.map fun terminal => terminal.symbol.id) =
          ((List.range grammar.symbolCount).filter fun id =>
            grammar.isTerminal ⟨id⟩) ∧
        grammar.terminals.map Terminal.pattern =
          (tokensOf declarations).map TokenDeclaration.pattern ++
            (freshLiterals declarations root).map fun text =>
              .literal (Utf8.encode text) := by
  refine ⟨accepted_iff name declarations, fun grammar accepted => ?_⟩
  obtain ⟨built⟩ := built_of_ofDeclarations accepted
  refine ⟨built.root, built.rootDeclared, built.symbols_toList, ?_,
    built.root_eq, fun symbol => built.symbol?_symbolName?,
    fun symbol inside => ⟨built.ne_error inside, built.isSome_rule?_iff inside⟩,
    fun symbol rule found inner => built.lt_of_mem_rule found,
    built.ids_terminals, ?_⟩
  · rw [built.symbols_toList, names_allInfos]
    rfl
  · rw [built.terminals_eq]
    exact built.tabled.patterns

/-- Names and a keyword; the root also holds the keyword and a literal. -/
def keywordList : List Declaration :=
  [.token "name" .identifier, .keyword "if",
    .root "text" (.choice [.named "name", .literal "if", .literal ";"])]

theorem keywordList_consistent :
    ∃ grammar, ofDeclarations "test" keywordList = .ok grammar ∧
      grammar.symbols.toList =
        [⟨"name", .token⟩, ⟨"if", .literal⟩, ⟨"text", .visible⟩,
          ⟨";", .literal⟩] ∧
      (grammar.terminals.map fun terminal => terminal.symbol.id) =
        [0, 1, 3] := by
  let root : RuleDeclaration :=
    ⟨"text", .choice [.named "name", .literal "if", .literal ";"]⟩
  let rules := nonterminals keywordList root
  have inOrder : NamesInOrder keywordList root := by
    constructor
    · rfl
    all_goals decide
  have noCall : ∀ reference : Reference, reference.text ≠ "text" →
      ∀ called, ¬(Rule.symbol reference).BeginsWith rules called := by
    rintro reference different _ ⟨member, same⟩
    rw [List.mem_singleton.mp member] at same
    exact different same.symm
  have acyclic : ¬∃ rule ∈ rules, ReachesItself rules rule.name := by
    rintro ⟨rule, _, reaches⟩
    obtain ⟨called, ⟨caller, member, _, begins⟩, _⟩ :=
      Relation.TransGen.head'_iff.mp reaches
    rw [List.mem_singleton.mp member] at begins
    cases begins with
    | star inside =>
        cases inside with
        | choice alternative starts =>
            simp only [List.mem_cons, List.not_mem_nil, or_false]
              at alternative
            rcases alternative with rfl | rfl | rfl <;>
              exact noCall _ (by decide) called starts
  obtain ⟨accepts, consistent⟩ := ofDeclarations_consistent "test" keywordList
  obtain ⟨grammar, accepted⟩ := accepts.mpr ⟨root, inOrder, acyclic⟩
  obtain ⟨other, declared, symbols, _, _, _, _, _, terminals, _⟩ :=
    consistent grammar accepted
  cases declared
  have listed : grammar.symbols.toList =
      [⟨"name", .token⟩, ⟨"if", .literal⟩, ⟨"text", .visible⟩,
        ⟨";", .literal⟩] :=
    symbols.trans (by decide)
  have table : grammar.symbols =
      #[⟨"name", .token⟩, ⟨"if", .literal⟩, ⟨"text", .visible⟩,
        ⟨";", .literal⟩] :=
    Array.toList_inj.mp listed
  refine ⟨grammar, accepted, listed, ?_⟩
  simp only [terminals, symbolCount, isTerminal, kind?, table]
  decide

end Grammar

end Reparse
