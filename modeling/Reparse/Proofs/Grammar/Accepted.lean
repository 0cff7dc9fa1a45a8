import Reparse.Grammar.Declaration
import Reparse.Proofs.Grammar.Ranking

/-!
# Accepted declarations

What may be relied on when a list of declarations was accepted: tokens are
known as tokens, the error symbol has no rule, and ranks fall along the calls
at the start of a rule.
-/

namespace Reparse

namespace SymbolScope

variable {scope after : SymbolScope}

/-- What it takes to give a number to a name. -/
theorem declare_eq_ok {name : String} {kind : SymbolKind} {symbol : Symbol}
    (declared : scope.declare name kind = .ok (symbol, after)) :
    name ≠ errorName ∧ scope.ids.contains name = false ∧
      scope.symbols.size < Symbol.capacity ∧ symbol = ⟨scope.symbols.size⟩ ∧
        after =
          { scope with
            symbols := scope.symbols.push ⟨name, kind⟩
            ids := scope.ids.insert name ⟨scope.symbols.size⟩ } := by
  unfold declare at declared
  split at declared
  · cases declared
  · next notError =>
      split at declared
      · cases declared
      · next notTaken =>
          split at declared
          · cases declared
          · next notFull =>
              cases declared
              exact ⟨notError, Bool.eq_false_iff.mpr notTaken,
                Nat.lt_of_not_le notFull, rfl, rfl⟩

theorem declareToken_eq_ok {token : TokenDeclaration}
    (declared : scope.declareToken token = .ok after) :
    token.pattern ≠ .literal [] ∧ ∃ middle,
      scope.declare token.name token.kind =
          .ok (⟨scope.symbols.size⟩, middle) ∧
        after =
          { middle with
            terminals :=
              ⟨⟨scope.symbols.size⟩, token.pattern⟩ :: middle.terminals } := by
  unfold declareToken at declared
  simp only at declared
  split at declared
  · cases declared
  · next filled =>
      obtain ⟨⟨symbol, middle⟩, first, same⟩ := bind_eq_ok.mp declared
      cases same
      obtain ⟨_, _, _, rfl, _⟩ := declare_eq_ok first
      exact ⟨filled, middle, first, rfl⟩

theorem declareRule_eq_ok {rule : RuleDeclaration}
    (declared : scope.declareRule rule = .ok after) :
    scope.declare rule.name
        (if isHiddenName rule.name then .hidden else .visible) =
      .ok (⟨scope.symbols.size⟩, after) := by
  obtain ⟨⟨symbol, middle⟩, first, same⟩ := bind_eq_ok.mp declared
  cases same
  obtain ⟨_, _, _, rfl, _⟩ := declare_eq_ok first
  exact first

/-- A literal is known already or declared as a token. -/
theorem declareLiteral_eq_ok {text : String}
    (declared : scope.declareLiteral text = .ok after) :
    after = scope ∨
      scope.declareToken ⟨text, .literal (Utf8.encode text), .literal⟩ =
        .ok after := by
  unfold declareLiteral at declared
  split at declared
  · split at declared
    · cases declared
      exact .inl rfl
    · cases declared
  · split at declared
    · cases declared
    · exact .inr declared

/-- There are not too many symbols, and every token is a symbol known as a
token, with an allowed pattern. -/
structure Sound (allowed : Pattern → Prop) (scope : SymbolScope) : Prop where
  within : scope.symbols.size ≤ Symbol.capacity
  known : ∀ terminal ∈ scope.terminals, ∃ info,
    scope.symbols[terminal.symbol.id]? = some info ∧
      info.kind.isTerminal = true
  allowed : ∀ terminal ∈ scope.terminals, allowed terminal.pattern

variable {allowed : Pattern → Prop}

theorem sound_empty : Sound allowed empty :=
  ⟨Nat.zero_le _, List.forall_mem_nil _, List.forall_mem_nil _⟩

theorem size_of_declare {name : String} {kind : SymbolKind} {symbol : Symbol}
    (declared : scope.declare name kind = .ok (symbol, after)) :
    after.symbols.size = scope.symbols.size + 1 := by
  obtain ⟨_, _, _, _, rfl⟩ := declare_eq_ok declared
  exact Array.size_push _

theorem sound_declare {name : String} {kind : SymbolKind} {symbol : Symbol}
    (sound : scope.Sound allowed)
    (declared : scope.declare name kind = .ok (symbol, after)) :
    after.Sound allowed := by
  obtain ⟨_, _, room, _, rfl⟩ := declare_eq_ok declared
  refine ⟨?_, ?_, sound.allowed⟩
  · rw [Array.size_push]
    exact room
  · intro terminal member
    obtain ⟨info, found, isTerminal⟩ := sound.known terminal member
    refine ⟨info, ?_, isTerminal⟩
    have inside := (Array.getElem?_eq_some_iff.mp found).1
    rw [Array.getElem?_push, if_neg (Nat.ne_of_lt inside)]
    exact found

theorem size_of_declareToken {token : TokenDeclaration}
    (declared : scope.declareToken token = .ok after) :
    after.symbols.size = scope.symbols.size + 1 := by
  obtain ⟨_, middle, first, rfl⟩ := declareToken_eq_ok declared
  have size := size_of_declare first
  exact size

theorem terminals_declareToken {token : TokenDeclaration}
    {holds : Terminal → Prop}
    (declared : scope.declareToken token = .ok after)
    (known : ∃ terminal ∈ scope.terminals, holds terminal) :
    ∃ terminal ∈ after.terminals, holds terminal := by
  obtain ⟨_, middle, first, rfl⟩ := declareToken_eq_ok declared
  obtain ⟨_, _, _, _, rfl⟩ := declare_eq_ok first
  obtain ⟨terminal, member, same⟩ := known
  exact ⟨terminal, List.mem_cons_of_mem _ member, same⟩

theorem sound_declareToken {token : TokenDeclaration}
    (sound : scope.Sound allowed) (isTerminal : token.kind.isTerminal = true)
    (holds : allowed token.pattern)
    (declared : scope.declareToken token = .ok after) :
    after.Sound allowed := by
  obtain ⟨_, middle, first, rfl⟩ := declareToken_eq_ok declared
  have soundMiddle := sound_declare sound first
  obtain ⟨_, _, _, _, rfl⟩ := declare_eq_ok first
  refine ⟨soundMiddle.within, ?_, ?_⟩
  · intro terminal member
    rcases List.mem_cons.mp member with rfl | earlier
    · exact ⟨_, Array.getElem?_push_size, isTerminal⟩
    · exact soundMiddle.known terminal earlier
  · intro terminal member
    rcases List.mem_cons.mp member with rfl | earlier
    · exact holds
    · exact soundMiddle.allowed terminal earlier

end SymbolScope

namespace Grammar

/-- The steps that lead from declarations to a grammar. -/
structure Built (name : String) (declarations : List Declaration)
    (grammar : Grammar) where
  root : RuleDeclaration
  withTokens : SymbolScope
  withRoot : SymbolScope
  withRules : SymbolScope
  scope : SymbolScope
  item : Rule Symbol
  bodies : List (Rule Symbol)
  rootDeclared :
    (declarations.filterMap Declaration.root?).getLast? = some root
  rootVisible : isHiddenName root.name = false
  tokensDeclared :
    (declarations.filterMap Declaration.token?).foldlM
      SymbolScope.declareToken SymbolScope.empty = .ok withTokens
  rootNumbered :
    withTokens.declare root.name .visible = .ok (grammar.root, withRoot)
  rulesDeclared :
    (declarations.filterMap Declaration.rule?).foldlM
      SymbolScope.declareRule withRoot = .ok withRules
  literalsDeclared :
    ((root :: declarations.filterMap Declaration.rule?).flatMap
      fun rule => rule.body.literals).foldlM
        SymbolScope.declareLiteral withRules = .ok scope
  itemResolved : root.body.resolve (scope.lookup root.name) = .ok item
  bodiesResolved :
    resolveRules scope (declarations.filterMap Declaration.rule?) = .ok bodies
  ranked : LeftRecursion.ranks grammar.rules = .ok grammar.ranks
  rules_eq :
    grammar.rules =
      ruleTable (declarations.filterMap Declaration.token?).length
        (scope.symbols.size -
          ((declarations.filterMap Declaration.token?).length + 1 +
            (declarations.filterMap Declaration.rule?).length))
        item bodies
  name_eq : grammar.name = name
  symbols_eq : grammar.symbols = scope.symbols
  ids_eq : grammar.ids = scope.ids
  terminals_eq : grammar.terminals = scope.terminals.reverse
  extras_eq : grammar.extras = declarations.filterMap Declaration.extra?

variable {name : String} {declarations : List Declaration} {grammar : Grammar}

/-- An accepted list of declarations passed every step. -/
theorem built_of_ofDeclarations
    (accepted : ofDeclarations name declarations = .ok grammar) :
    Nonempty (Built name declarations grammar) := by
  unfold ofDeclarations at accepted
  split at accepted
  · next root rootDeclared =>
      simp only at accepted
      split at accepted
      · cases accepted
      · next rootVisible =>
          obtain ⟨withTokens, tokensDeclared, accepted⟩ :=
            bind_eq_ok.mp accepted
          obtain ⟨⟨rootSymbol, withRoot⟩, rootNumbered, accepted⟩ :=
            bind_eq_ok.mp accepted
          obtain ⟨withRules, rulesDeclared, accepted⟩ :=
            bind_eq_ok.mp accepted
          obtain ⟨scope, literalsDeclared, accepted⟩ := bind_eq_ok.mp accepted
          obtain ⟨item, itemResolved, accepted⟩ := bind_eq_ok.mp accepted
          obtain ⟨bodies, bodiesResolved, accepted⟩ := bind_eq_ok.mp accepted
          split at accepted
          · cases accepted
          · next ranks ranked =>
              cases accepted
              exact ⟨⟨root, withTokens, withRoot, withRules, scope, item,
                bodies, rootDeclared, Bool.eq_false_iff.mpr rootVisible,
                tokensDeclared, rootNumbered, rulesDeclared, literalsDeclared,
                itemResolved, bodiesResolved, ranked, rfl, rfl, rfl, rfl, rfl,
                rfl⟩⟩
  · cases accepted

/-- Where the pattern of a token comes from: a declared token, or a literal
inside the root or a rule. -/
def PatternOf (declarations : List Declaration) (root : RuleDeclaration)
    (pattern : Pattern) : Prop :=
  (∃ token ∈ declarations.filterMap Declaration.token?,
      token.pattern = pattern) ∨
    ∃ text ∈ (root :: declarations.filterMap Declaration.rule?).flatMap
        fun rule => rule.body.literals,
      pattern = .literal (Utf8.encode text)

theorem isTerminal_of_mem_tokens {token : TokenDeclaration}
    (member : token ∈ declarations.filterMap Declaration.token?) :
    token.kind.isTerminal = true := by
  obtain ⟨declaration, _, found⟩ := List.mem_filterMap.mp member
  cases declaration <;> cases found <;> rfl

namespace Built

variable (built : Built name declarations grammar)

include built

theorem sound_scope :
    built.scope.Sound (PatternOf declarations built.root) := by
  have tokens : built.withTokens.Sound
      (PatternOf declarations built.root) :=
    foldlM_induction built.tokensDeclared SymbolScope.sound_empty
      fun token member _ _ sound declared =>
        SymbolScope.sound_declareToken sound (isTerminal_of_mem_tokens member)
          (.inl ⟨token, member, rfl⟩) declared
  have root := SymbolScope.sound_declare tokens built.rootNumbered
  have rules : built.withRules.Sound (PatternOf declarations built.root) :=
    foldlM_induction built.rulesDeclared root
      fun rule _ _ _ sound declared =>
        SymbolScope.sound_declare sound
          (SymbolScope.declareRule_eq_ok declared)
  apply foldlM_induction built.literalsDeclared rules
  intro text member before after sound declared
  rcases SymbolScope.declareLiteral_eq_ok declared with rfl | fresh
  · exact sound
  · exact SymbolScope.sound_declareToken sound rfl (.inr ⟨text, member, rfl⟩)
      fresh

theorem size_scope :
    (declarations.filterMap Declaration.token?).length + 1 +
        (declarations.filterMap Declaration.rule?).length ≤
      built.scope.symbols.size := by
  have tokens := foldlM_measure built.tokensDeclared
    fun _ _ _ => SymbolScope.size_of_declareToken
  have root := SymbolScope.size_of_declare built.rootNumbered
  have rules := foldlM_measure built.rulesDeclared
    fun _ _ _ declared =>
      SymbolScope.size_of_declare (SymbolScope.declareRule_eq_ok declared)
  have literals : built.withRules.symbols.size ≤
      built.scope.symbols.size := by
    let holds := fun scope : SymbolScope =>
      built.withRules.symbols.size ≤ scope.symbols.size
    refine @foldlM_induction _ _ _ _ holds _ _ _ built.literalsDeclared
      (Nat.le_refl _) ?_
    intro text _ before after bound declared
    rcases SymbolScope.declareLiteral_eq_ok declared with rfl | fresh
    · exact bound
    · have size := SymbolScope.size_of_declareToken fresh
      simp only [holds] at bound ⊢
      omega
  have none : SymbolScope.empty.symbols.size = 0 := rfl
  omega

theorem size_rules : grammar.rules.size = grammar.symbolCount := by
  have bodies : built.bodies.length =
      (declarations.filterMap Declaration.rule?).length :=
    length_of_mapM built.bodiesResolved
  have enough := built.size_scope
  rw [symbolCount, built.symbols_eq, built.rules_eq]
  simp only [ruleTable, Array.size_append, Array.size_replicate,
    List.size_toArray, List.length_map, List.length_singleton, bodies]
  omega

theorem mem_terminals {terminal : Terminal}
    (member : terminal ∈ grammar.terminals) :
    grammar.isTerminal terminal.symbol = true ∧
      PatternOf declarations built.root terminal.pattern := by
  rw [built.terminals_eq, List.mem_reverse] at member
  obtain ⟨info, found, isTerminal⟩ := built.sound_scope.known terminal member
  refine ⟨?_, built.sound_scope.allowed terminal member⟩
  have inside := (Array.getElem?_eq_some_iff.mp found).1
  have notError : terminal.symbol.isError = false := by
    rw [Bool.eq_false_iff]
    intro isError
    have same : terminal.symbol = Symbol.error := by
      simpa [Symbol.isError] using isError
    have within := built.sound_scope.within
    rw [same] at inside
    simp only [Symbol.error] at inside
    omega
  simp [Grammar.isTerminal, kind?, notError, built.symbols_eq, found,
    isTerminal]

/-- Every declared token is tried. -/
theorem exists_terminal {token : TokenDeclaration}
    (member : token ∈ declarations.filterMap Declaration.token?) :
    ∃ terminal ∈ grammar.terminals, terminal.pattern = token.pattern := by
  let tried := fun (token : TokenDeclaration) (scope : SymbolScope) =>
    ∃ terminal ∈ scope.terminals, terminal.pattern = token.pattern
  have tokens : tried token built.withTokens := by
    refine foldlM_reaches built.tokensDeclared ?_ ?_ token member
    · intro item before after declared
      obtain ⟨_, _, _, rfl⟩ := SymbolScope.declareToken_eq_ok declared
      exact ⟨_, List.mem_cons_self, rfl⟩
    · intro item other before after known declared
      exact SymbolScope.terminals_declareToken declared known
  have root : tried token built.withRoot := by
    obtain ⟨_, _, _, _, same⟩ := SymbolScope.declare_eq_ok built.rootNumbered
    rw [same]
    exact tokens
  have rules : tried token built.withRules := by
    refine @foldlM_induction _ _ _ _ (tried token) _ _ _ built.rulesDeclared
      root ?_
    intro rule _ before after known declared
    obtain ⟨_, _, _, _, rfl⟩ := SymbolScope.declare_eq_ok
      (SymbolScope.declareRule_eq_ok declared)
    exact known
  have literals : tried token built.scope := by
    refine @foldlM_induction _ _ _ _ (tried token) _ _ _
      built.literalsDeclared rules ?_
    intro text _ before after known declared
    rcases SymbolScope.declareLiteral_eq_ok declared with rfl | fresh
    · exact known
    · exact SymbolScope.terminals_declareToken fresh known
  obtain ⟨terminal, inside, same⟩ := literals
  refine ⟨terminal, ?_, same⟩
  rw [built.terminals_eq, List.mem_reverse]
  exact inside

/-- The root has a rule. -/
theorem rule?_root : grammar.rule? grammar.root = some (.star built.item) := by
  obtain ⟨_, _, _, root, _⟩ := SymbolScope.declare_eq_ok built.rootNumbered
  have count := foldlM_measure built.tokensDeclared
    fun _ _ _ => SymbolScope.size_of_declareToken
  have none : SymbolScope.empty.symbols.size = 0 := rfl
  rw [none, Nat.zero_add] at count
  rw [Grammar.rule?, RuleTable.rule?, root, built.rules_eq, ruleTable]
  simp only [count]
  rw [Array.getElem?_append_left (by simp), Array.getElem?_append_left
    (by simp), Array.getElem?_append_right (by simp)]
  simp

end Built

/-- What may be relied on in derivations with a grammar. -/
structure Regular (grammar : Grammar) : Prop where
  /-- Symbols with rules are ranked below the number of symbols. -/
  rank_lt : ∀ symbol rule, grammar.rule? symbol = some rule →
    grammar.rank symbol < grammar.symbolCount
  /-- A symbol is ranked above those it may call before it consumes a token. -/
  rank_called : ∀ caller called, grammar.rules.Calls caller called →
    grammar.rank called < grammar.rank caller
  /-- The error symbol has no rule. -/
  unruled : grammar.rule? Symbol.error = none
  /-- Whatever is read as a token is known as one. -/
  terminal : ∀ terminal ∈ grammar.terminals,
    grammar.isTerminal terminal.symbol = true

/-- Every accepted grammar may be relied on. -/
theorem regular_of_ofDeclarations
    (accepted : ofDeclarations name declarations = .ok grammar) :
    grammar.Regular := by
  obtain ⟨built⟩ := built_of_ofDeclarations accepted
  obtain ⟨_, rank_lt, rank_called⟩ :=
    LeftRecursion.rank_of_ranks built.ranked
  rw [built.size_rules] at rank_lt
  refine ⟨rank_lt, rank_called, ?_, fun _ member =>
    (built.mem_terminals member).1⟩
  have within := built.sound_scope.within
  have size := built.size_rules
  rw [symbolCount, built.symbols_eq] at size
  simp only [rule?, RuleTable.rule?, Symbol.error]
  rw [Array.getElem?_eq_none (by omega)]
  rfl

end Grammar

end Reparse
