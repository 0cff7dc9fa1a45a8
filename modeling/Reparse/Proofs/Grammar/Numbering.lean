import Reparse.Proofs.Grammar.Accepted

/-!
# The numbering of symbols

The names of a grammar are numbered in order.  Seen as a list of names the
numbering can be computed, where a table of hashed names can only be reasoned
about, and declarations whose names can be numbered and whose rules call each
other without a cycle are accepted.
-/

namespace Reparse

/-- The symbols numbered so far and their tokens, the latest first. -/
structure Numbering where
  infos : List SymbolInfo
  terminals : List Terminal

namespace Numbering

/-- The number of a name is its index. -/
def index? (numbering : Numbering) (name : String) : Option Symbol :=
  (numbering.infos.findIdx? fun info => info.name == name).map Symbol.mk

/-- Gives the next number to a name that is still free. -/
def enter (numbering : Numbering) (name : String) (kind : SymbolKind) :
    Option Numbering :=
  if name = errorName then none
  else if (numbering.index? name).isSome then none
  else if Symbol.capacity ≤ numbering.infos.length then none
  else some { numbering with infos := numbering.infos ++ [⟨name, kind⟩] }

/-- Numbers a token. -/
def enterToken (numbering : Numbering) (token : TokenDeclaration) :
    Option Numbering :=
  if token.pattern = .literal [] then none
  else
    (numbering.enter token.name token.kind).map fun entered =>
      { entered with
        terminals :=
          ⟨⟨numbering.infos.length⟩, token.pattern⟩ :: entered.terminals }

/-- Numbers a rule. -/
def enterRule (numbering : Numbering) (rule : RuleDeclaration) :
    Option Numbering :=
  numbering.enter rule.name
    (if isHiddenName rule.name then .hidden else .visible)

/-- Numbers the text of a literal unless a literal has it already. -/
def enterLiteral (numbering : Numbering) (text : String) : Option Numbering :=
  match numbering.index? text with
  | some symbol =>
      if (numbering.infos[symbol.id]?.map SymbolInfo.kind) = some .literal then
        some numbering
      else none
  | none =>
      if text = "" then none
      else
        numbering.enterToken ⟨text, .literal (Utf8.encode text), .literal⟩

/-- The names of all tokens, of the root, of the rules and of the literals. -/
def ofDeclarations (declarations : List Declaration) (root : RuleDeclaration) :
    Option Numbering := do
  let rules := declarations.filterMap Declaration.rule?
  let tokens ←
    (declarations.filterMap Declaration.token?).foldlM enterToken ⟨[], []⟩
  let withRoot ← tokens.enter root.name .visible
  let withRules ← rules.foldlM enterRule withRoot
  ((root :: rules).flatMap fun rule => rule.body.literals).foldlM enterLiteral
    withRules

/-- The symbol that a rule refers to. -/
def lookup (numbering : Numbering) (owner : String) (reference : Reference) :
    Except GrammarError Symbol :=
  match numbering.index? reference.text with
  | some symbol => .ok symbol
  | none => .error (.unknownSymbol reference.text owner)

end Numbering

namespace SymbolScope

/-- The scope has numbered the same names and tokens. -/
structure Follows (numbering : Numbering) (scope : SymbolScope) : Prop where
  symbols : scope.symbols.toList = numbering.infos
  ids : ∀ name : String, scope.ids[name]? = numbering.index? name
  terminals : scope.terminals = numbering.terminals

theorem follows_empty : empty.Follows ⟨[], []⟩ := by
  refine ⟨rfl, fun name => ?_, rfl⟩
  rw [empty, Std.HashMap.getElem?_empty]
  rfl

variable {scope : SymbolScope} {numbering later : Numbering}

theorem Follows.size (follows : scope.Follows numbering) :
    scope.symbols.size = numbering.infos.length := by
  rw [← Array.length_toList, follows.symbols]

/-- A name that can be numbered can be declared. -/
theorem Follows.declare (follows : scope.Follows numbering) {name : String}
    {kind : SymbolKind} (entered : numbering.enter name kind = some later) :
    ∃ after,
      scope.declare name kind = .ok (⟨numbering.infos.length⟩, after) ∧
        after.Follows later := by
  have size := follows.size
  unfold Numbering.enter at entered
  split at entered
  · cases entered
  · next notError =>
      split at entered
      · cases entered
      · next free =>
          split at entered
          · cases entered
          · next room =>
              cases entered
              have missing : numbering.index? name = none := by
                rw [Bool.not_eq_true, Option.isSome_eq_false_iff,
                  Option.isNone_iff_eq_none] at free
                exact free
              have unknown : scope.ids.contains name = false := by
                rw [Std.HashMap.contains_eq_isSome_getElem?, follows.ids,
                  missing]
                rfl
              rw [← size] at room
              refine ⟨{ scope with
                symbols := scope.symbols.push ⟨name, kind⟩
                ids := scope.ids.insert name ⟨scope.symbols.size⟩ },
                ?_, ?_, ?_, follows.terminals⟩
              · rw [SymbolScope.declare, if_neg notError, unknown,
                  if_neg room, ← size]
                rfl
              · rw [Array.toList_push, follows.symbols]
              · intro other
                rw [Numbering.index?, Option.map_eq_none_iff] at missing
                rw [Std.HashMap.getElem?_insert, Numbering.index?,
                  List.findIdx?_append, List.findIdx?_singleton, follows.ids,
                  Numbering.index?, size]
                by_cases same : name = other
                · subst same
                  rw [missing]
                  simp
                · have different : (name == other) = false :=
                    beq_eq_false_iff_ne.mpr same
                  simp [different]

theorem Follows.declareToken (follows : scope.Follows numbering)
    {token : TokenDeclaration}
    (entered : numbering.enterToken token = some later) :
    ∃ after, scope.declareToken token = .ok after ∧ after.Follows later := by
  unfold Numbering.enterToken at entered
  split at entered
  · cases entered
  · next filled =>
      obtain ⟨middle, enteredName, rfl⟩ := Option.map_eq_some_iff.mp entered
      obtain ⟨after, declared, followsAfter⟩ := follows.declare enteredName
      refine ⟨{ after with
        terminals := ⟨⟨numbering.infos.length⟩, token.pattern⟩ ::
          after.terminals }, ?_, followsAfter.symbols, followsAfter.ids, ?_⟩
      · simp only [SymbolScope.declareToken, if_neg filled]
        exact bind_eq_ok.mpr ⟨_, declared, rfl⟩
      · simp only [followsAfter.terminals]

theorem Follows.declareRule (follows : scope.Follows numbering)
    {rule : RuleDeclaration} (entered : numbering.enterRule rule = some later) :
    ∃ after, scope.declareRule rule = .ok after ∧ after.Follows later := by
  obtain ⟨after, declared, followsAfter⟩ := follows.declare entered
  exact ⟨after, bind_eq_ok.mpr ⟨_, declared, rfl⟩, followsAfter⟩

theorem Follows.declareLiteral (follows : scope.Follows numbering)
    {text : String} (entered : numbering.enterLiteral text = some later) :
    ∃ after, scope.declareLiteral text = .ok after ∧ after.Follows later := by
  have symbols : ∀ index : Nat,
      scope.symbols[index]? = numbering.infos[index]? := by
    intro index
    rw [← Array.getElem?_toList, follows.symbols]
  rw [Numbering.enterLiteral] at entered
  rw [SymbolScope.declareLiteral, follows.ids]
  cases found : numbering.index? text with
  | some symbol =>
      simp only [found] at entered
      split at entered
      · next isLiteral =>
          cases entered
          refine ⟨scope, ?_, follows⟩
          simp only [symbols, if_pos isLiteral]
      · cases entered
  | none =>
      simp only [found] at entered
      split at entered
      · cases entered
      · next filled =>
          obtain ⟨after, declared, followsAfter⟩ :=
            follows.declareToken entered
          refine ⟨after, ?_, followsAfter⟩
          simp only [if_neg filled, declared]

/-- References are resolved alike. -/
theorem Follows.lookup (follows : scope.Follows numbering) (owner : String) :
    scope.lookup owner = numbering.lookup owner := by
  funext reference
  rw [SymbolScope.lookup, follows.ids]
  rfl

end SymbolScope

/-- What the declarations lead to, but for the table of names. -/
structure Grammar.Numbered (declarations : List Declaration)
    (numbering : Numbering) (item : Rule Symbol) (bodies : List (Rule Symbol))
    (ranks : Array Nat) (grammar : Grammar) : Prop where
  symbols : grammar.symbols = numbering.infos.toArray
  terminals : grammar.terminals = numbering.terminals.reverse
  extras : grammar.extras = declarations.filterMap Declaration.extra?
  root : grammar.root =
    ⟨(declarations.filterMap Declaration.token?).length⟩
  rules : grammar.rules =
    ruleTable (declarations.filterMap Declaration.token?).length
      (numbering.infos.length -
        ((declarations.filterMap Declaration.token?).length + 1 +
          (declarations.filterMap Declaration.rule?).length))
      item bodies
  ranks : grammar.ranks = ranks

section

variable {declarations : List Declaration} {root : RuleDeclaration}
  {numbering : Numbering} {item : Rule Symbol} {bodies : List (Rule Symbol)}

/-- The rules by symbol number, once the names are numbered and the bodies of
rules resolved. -/
def Numbering.ruleTable (numbering : Numbering)
    (declarations : List Declaration) (item : Rule Symbol)
    (bodies : List (Rule Symbol)) : RuleTable :=
  Grammar.ruleTable (declarations.filterMap Declaration.token?).length
    (numbering.infos.length -
      ((declarations.filterMap Declaration.token?).length + 1 +
        (declarations.filterMap Declaration.rule?).length))
    item bodies

/-- Once the names of declarations can be numbered and their references
resolved, only left recursion is left to refuse them. -/
theorem Grammar.ofDeclarations_of_numbering (name : String)
    (rootDeclared :
      (declarations.filterMap Declaration.root?).getLast? = some root)
    (rootVisible : isHiddenName root.name = false)
    (numbered : Numbering.ofDeclarations declarations root = some numbering)
    (itemResolved : root.body.resolve (numbering.lookup root.name) = .ok item)
    (bodiesResolved :
      ((declarations.filterMap Declaration.rule?).mapM fun rule =>
        rule.body.resolve (numbering.lookup rule.name)) = .ok bodies) :
    ∃ scope : SymbolScope, scope.Follows numbering ∧
      Grammar.ofDeclarations name declarations =
        match LeftRecursion.ranks
            (numbering.ruleTable declarations item bodies) with
        | .error symbol => .error (.leftRecursion (nameOf scope symbol))
        | .ok ranks => .ok
            { name := name
              symbols := scope.symbols
              ids := scope.ids
              rules := numbering.ruleTable declarations item bodies
              terminals := scope.terminals.reverse
              extras := declarations.filterMap Declaration.extra?
              root := ⟨(declarations.filterMap Declaration.token?).length⟩
              ranks := ranks } := by
  obtain ⟨tokens, tokensNumbered, numbered⟩ :=
    Option.bind_eq_some_iff.mp numbered
  obtain ⟨withRoot, rootNumbered, numbered⟩ :=
    Option.bind_eq_some_iff.mp numbered
  obtain ⟨withRules, rulesNumbered, literalsNumbered⟩ :=
    Option.bind_eq_some_iff.mp numbered
  -- Each scope is the one of the numbering at the same point, so no
  -- declaration is refused and every name has its number.
  obtain ⟨scopeTokens, tokensDeclared, followsTokens⟩ :=
    foldlM_follows (fun _ _ _ _ follows => follows.declareToken)
      SymbolScope.follows_empty tokensNumbered
  obtain ⟨scopeRoot, rootFollowed, followsRoot⟩ :=
    followsTokens.declare rootNumbered
  obtain ⟨scopeRules, rulesDeclared, followsRules⟩ :=
    foldlM_follows (fun _ _ _ _ follows => follows.declareRule)
      followsRoot rulesNumbered
  obtain ⟨scope, literalsDeclared, follows⟩ :=
    foldlM_follows (fun _ _ _ _ follows => follows.declareLiteral)
      followsRules literalsNumbered
  have itemFound : root.body.resolve (scope.lookup root.name) = .ok item := by
    rw [follows.lookup]
    exact itemResolved
  have bodiesFound :
      Grammar.resolveRules scope (declarations.filterMap Declaration.rule?) =
        .ok bodies := by
    simp only [Grammar.resolveRules, follows.lookup]
    exact bodiesResolved
  have count := foldlM_measure tokensDeclared
    fun _ _ _ => SymbolScope.size_of_declareToken
  have none : SymbolScope.empty.symbols.size = 0 := rfl
  rw [none, Nat.zero_add, followsTokens.size] at count
  refine ⟨scope, follows, ?_⟩
  rw [Grammar.ofDeclarations, rootDeclared, Numbering.ruleTable,
    ← follows.size]
  simp only [rootVisible]
  refine (bind_of_ok tokensDeclared).trans ?_
  refine (bind_of_ok rootFollowed).trans ?_
  refine (bind_of_ok rulesDeclared).trans ?_
  refine (bind_of_ok literalsDeclared).trans ?_
  refine (bind_of_ok itemFound).trans ?_
  refine (bind_of_ok bodiesFound).trans ?_
  rw [count]
  rfl

/-- Declarations are accepted if their names can be numbered, their references
resolved and their rules ranked. -/
theorem Grammar.exists_of_numbering {ranks : Array Nat} (name : String)
    (rootDeclared :
      (declarations.filterMap Declaration.root?).getLast? = some root)
    (rootVisible : isHiddenName root.name = false)
    (numbered : Numbering.ofDeclarations declarations root = some numbering)
    (itemResolved : root.body.resolve (numbering.lookup root.name) = .ok item)
    (bodiesResolved :
      ((declarations.filterMap Declaration.rule?).mapM fun rule =>
        rule.body.resolve (numbering.lookup rule.name)) = .ok bodies)
    (ranked :
      LeftRecursion.ranks
        (ruleTable (declarations.filterMap Declaration.token?).length
          (numbering.infos.length -
            ((declarations.filterMap Declaration.token?).length + 1 +
              (declarations.filterMap Declaration.rule?).length))
          item bodies) = .ok ranks) :
    ∃ grammar, Grammar.ofDeclarations name declarations = .ok grammar ∧
      grammar.Numbered declarations numbering item bodies ranks := by
  obtain ⟨scope, follows, outcome⟩ := ofDeclarations_of_numbering name
    rootDeclared rootVisible numbered itemResolved bodiesResolved
  rw [Numbering.ruleTable, ranked] at outcome
  refine ⟨_, outcome, ?_⟩
  constructor
  · rw [← follows.symbols]
  · rw [← follows.terminals]
  · rfl
  · rfl
  · rfl
  · rfl

end

end Reparse
