import Reparse.Grammar.Validity
import Reparse.Proofs.Grammar.Names
import Reparse.Proofs.Grammar.Resolution

/-!
# Names in order

The names of declarations are in order exactly when all of them can be numbered
and everything that the rules refer to is found.
-/

namespace Reparse

namespace Declaration

variable {declarations : List Declaration} {root : RuleDeclaration}

/-- The symbols declared by name: tokens and keywords, then the root, then the
rules. -/
def declaredInfos (declarations : List Declaration) (root : RuleDeclaration) :
    List SymbolInfo :=
  Numbering.withRules
    ((tokensOf declarations).map TokenDeclaration.info ++
      [⟨root.name, .visible⟩])
    (rulesOf declarations)

/-- The symbols of the declarations in the order of their numbers. -/
def allInfos (declarations : List Declaration) (root : RuleDeclaration) :
    List SymbolInfo :=
  Numbering.withLiterals (declaredInfos declarations root)
    (inlineLiterals declarations root)

theorem names_declaredInfos :
    (declaredInfos declarations root).map SymbolInfo.name =
      declaredNames declarations root := by
  simp [declaredInfos, Numbering.withRules, declaredNames,
    TokenDeclaration.info, RuleDeclaration.info, Function.comp_def]

/-- The literals among the symbols declared by name are the keywords. -/
theorem literalInfo_mem_declaredInfos {text : String} :
    literalInfo text ∈ declaredInfos declarations root ↔
      text ∈ keywordNames declarations := by
  have notRule : ∀ rule : RuleDeclaration, rule.info ≠ literalInfo text := by
    intro rule same
    have kinds := congrArg SymbolInfo.kind same
    simp only [RuleDeclaration.info, literalInfo] at kinds
    split at kinds <;> cases kinds
  have notRoot : (⟨root.name, .visible⟩ : SymbolInfo) ≠ literalInfo text := by
    intro same
    cases congrArg SymbolInfo.kind same
  simp only [declaredInfos, Numbering.withRules, List.mem_append,
    List.mem_singleton, List.mem_map, notRule, notRoot.symm, and_false,
    exists_false, or_false, keywordNames, List.mem_filter, beq_iff_eq]
  constructor
  · rintro ⟨token, member, same⟩
    exact ⟨token, ⟨member, congrArg SymbolInfo.kind same⟩,
      congrArg SymbolInfo.name same⟩
  · rintro ⟨token, ⟨member, isLiteral⟩, rfl⟩
    refine ⟨token, member, ?_⟩
    rw [TokenDeclaration.info, isLiteral]
    rfl

/-- A keyword is exactly its name. -/
theorem pattern_of_keyword {token : TokenDeclaration}
    (member : token ∈ tokensOf declarations)
    (isLiteral : token.kind = .literal) :
    token.pattern = .literal (Utf8.encode token.name) := by
  obtain ⟨declaration, _, found⟩ := List.mem_filterMap.mp member
  cases declaration <;> cases found
  · rfl
  · cases isLiteral

end Declaration

namespace Numbering

open Declaration

variable {declarations : List Declaration} {root : RuleDeclaration}

/-- What it takes to number the names of all declarations, and in which order
they are numbered. -/
theorem ofDeclarations_yields :
    Yields (ofDeclarations declarations root)
      ((∀ token ∈ tokensOf declarations, token.pattern ≠ .literal []) ∧
        (∀ text ∈ inlineLiterals declarations root,
          LiteralAllowed (declaredInfos declarations root) text) ∧
          Orderly ((allInfos declarations root).map SymbolInfo.name))
      (allInfos declarations root) := by
  let tokens := (tokensOf declarations).map TokenDeclaration.info
  let withRoot := tokens ++ [⟨root.name, .visible⟩]
  have steps : Yields (ofDeclarations declarations root)
      (((∀ token ∈ tokensOf declarations, token.pattern ≠ .literal []) ∧
          Orderly (tokens.map SymbolInfo.name)) ∧
        Orderly (withRoot.map SymbolInfo.name) ∧
          ((∀ rule ∈ rulesOf declarations, True) ∧
            Orderly ((declaredInfos declarations root).map
              SymbolInfo.name)) ∧
            (∀ text ∈ inlineLiterals declarations root,
              LiteralAllowed (declaredInfos declarations root) text) ∧
              Orderly ((allInfos declarations root).map SymbolInfo.name))
      (allInfos declarations root) := by
    refine (enters_token.foldlM_all rfl rfl orderly_nil _).bind ?_
    rintro ⟨_, orderly⟩ numbering reached
    refine (enter_yields reached orderly).bind ?_
    intro orderly numbering reached
    refine ((enters_rule _).foldlM_all (List.append_nil _) reached orderly
      _).bind ?_
    rintro ⟨_, orderly⟩ numbering reached
    exact (enters_literal _).foldlM_all (List.append_nil _) reached orderly _
  -- Every step only adds names, so all are in order if those of the last one
  -- are.
  have orderlyRules :
      Orderly ((allInfos declarations root).map SymbolInfo.name) →
        Orderly ((declaredInfos declarations root).map SymbolInfo.name) := by
    rw [allInfos, names_withLiterals]
    exact Orderly.before
  have orderlyRoot :
      Orderly ((declaredInfos declarations root).map SymbolInfo.name) →
        Orderly (withRoot.map SymbolInfo.name) := by
    rw [declaredInfos, withRules, List.map_append]
    exact Orderly.before
  have orderlyTokens : Orderly (withRoot.map SymbolInfo.name) →
      Orderly (tokens.map SymbolInfo.name) := by
    rw [List.map_append]
    exact Orderly.before
  refine steps.congr ⟨?_, ?_⟩
  · rintro ⟨⟨filled, _⟩, _, _, allowed, orderly⟩
    exact ⟨filled, allowed, orderly⟩
  · rintro ⟨filled, allowed, orderly⟩
    have rules := orderlyRules orderly
    have upToRoot := orderlyRoot rules
    exact ⟨⟨filled, orderlyTokens upToRoot⟩, upToRoot,
      ⟨fun _ _ => trivial, rules⟩, allowed, orderly⟩

end Numbering

open Declaration

variable {declarations : List Declaration} {root : RuleDeclaration}
  {numbering : Numbering}

theorem names_allInfos :
    (allInfos declarations root).map SymbolInfo.name =
      declaredNames declarations root ++
        freshTexts (declaredNames declarations root)
          (inlineLiterals declarations root) := by
  rw [allInfos, Numbering.names_withLiterals, names_declaredInfos]

/-- A keyword is never empty where no token is without bytes. -/
theorem ne_empty_of_keyword
    (filled : ∀ token ∈ tokensOf declarations, token.pattern ≠ .literal [])
    {text : String} (keyword : text ∈ keywordNames declarations) :
    text ≠ "" := by
  rintro rfl
  obtain ⟨token, member, empty⟩ := List.mem_map.mp keyword
  obtain ⟨declared, isLiteral⟩ := List.mem_filter.mp member
  apply filled token declared
  rw [pattern_of_keyword declared (beq_iff_eq.mp isLiteral), empty]
  rfl

theorem literals_allowed_iff
    (filled : ∀ token ∈ tokensOf declarations, token.pattern ≠ .literal []) :
    (∀ text ∈ inlineLiterals declarations root,
        Numbering.LiteralAllowed (declaredInfos declarations root) text) ↔
      "" ∉ inlineLiterals declarations root ∧
        ∀ text ∈ inlineLiterals declarations root,
          text ∈ declaredNames declarations root →
            text ∈ keywordNames declarations := by
  simp only [Numbering.LiteralAllowed, names_declaredInfos,
    literalInfo_mem_declaredInfos]
  constructor
  · intro allowed
    refine ⟨fun member => ?_, fun text member => (allowed text member).1⟩
    obtain ⟨taken, free⟩ := allowed "" member
    by_cases declared : "" ∈ declaredNames declarations root
    · exact ne_empty_of_keyword filled (taken declared) rfl
    · exact free declared rfl
  · rintro ⟨literalsFilled, fresh⟩ text member
    refine ⟨fresh text member, fun _ empty => ?_⟩
    exact literalsFilled (empty ▸ member)

theorem orderly_allInfos_iff :
    Orderly ((allInfos declarations root).map SymbolInfo.name) ↔
      (declaredNames declarations root).Nodup ∧
        errorName ∉ declaredNames declarations root ∧
          errorName ∉ inlineLiterals declarations root ∧
            (declaredNames declarations root ++
                freshTexts (declaredNames declarations root)
                  (inlineLiterals declarations root)).length ≤
              Symbol.capacity := by
  rw [names_allInfos]
  constructor
  · intro orderly
    have notDeclared := orderly.before.notError
    refine ⟨orderly.before.distinct, notDeclared, fun member => ?_,
      orderly.within⟩
    apply orderly.notError
    exact List.mem_append_right _ (mem_freshTexts.mpr ⟨member, notDeclared⟩)
  · rintro ⟨distinct, notDeclared, notLiteral, within⟩
    refine ⟨?_, ?_, within⟩
    · refine List.nodup_append.mpr ⟨distinct, nodup_freshTexts _ _, ?_⟩
      rintro name declared other fresh rfl
      exact (mem_freshTexts.mp fresh).2 declared
    · intro member
      rcases List.mem_append.mp member with declared | fresh
      · exact notDeclared declared
      · exact notLiteral (mem_freshTexts.mp fresh).1

/-- A reference is found exactly when its text is numbered. -/
theorem Numbering.lookup_eq_ok {owner : String} {reference : Reference}
    {symbol : Symbol} :
    numbering.lookup owner reference = .ok symbol ↔
      numbering.index? reference.text = some symbol := by
  unfold lookup
  cases numbering.index? reference.text with
  | none => constructor <;> intro found <;> cases found
  | some other => rw [Except.ok.injEq, Option.some.injEq]

theorem Numbering.exists_lookup_iff {owner : String} {reference : Reference} :
    (∃ symbol, numbering.lookup owner reference = .ok symbol) ↔
      reference.text ∈ numbering.names := by
  simp only [lookup_eq_ok]
  rw [← isSome_index?_iff, Option.isSome_iff_exists]

/-- The names of the declarations are numbered, and everything the rules refer
to is found. -/
structure Named (declarations : List Declaration) (root : RuleDeclaration)
    (numbering : Numbering) (item : Rule Symbol) (bodies : List (Rule Symbol)) :
    Prop where
  root_declared : rootOf? declarations = some root
  root_visible : isHiddenName root.name = false
  numbered : Numbering.ofDeclarations declarations root = some numbering
  item_resolved : root.body.resolve (numbering.lookup root.name) = .ok item
  bodies_resolved :
    ((rulesOf declarations).mapM fun rule =>
      rule.body.resolve (numbering.lookup rule.name)) = .ok bodies

/-- All rules resolve exactly when every name in them is declared, possibly by a
literal. -/
theorem resolved_iff (infos : numbering.infos = allInfos declarations root) :
    ((∃ item, root.body.resolve (numbering.lookup root.name) = .ok item) ∧
        ∃ bodies, ((rulesOf declarations).mapM fun rule =>
          rule.body.resolve (numbering.lookup rule.name)) = .ok bodies) ↔
      ∀ rule ∈ root :: rulesOf declarations, ∀ name ∈ rule.body.names,
        name ∈ declaredNames declarations root ∨
          name ∈ inlineLiterals declarations root := by
  have known : ∀ text, text ∈ numbering.names ↔
      text ∈ declaredNames declarations root ∨
        text ∈ inlineLiterals declarations root := by
    intro text
    rw [Numbering.names, infos, allInfos, Numbering.mem_names_withLiterals,
      names_declaredInfos]
  have literals : ∀ rule ∈ root :: rulesOf declarations,
      ∀ text ∈ rule.body.literals, text ∈ numbering.names := by
    intro rule member text inside
    exact (known text).mpr (.inr (List.mem_flatMap.mpr ⟨rule, member, inside⟩))
  let resolves := fun rule : RuleDeclaration =>
    ∃ body, rule.body.resolve (numbering.lookup rule.name) = .ok body
  have all : (resolves root ∧ ∀ rule ∈ rulesOf declarations, resolves rule) ↔
      ∀ rule ∈ root :: rulesOf declarations, resolves rule :=
    List.forall_mem_cons.symm
  rw [exists_mapM_iff]
  refine all.trans (forall₂_congr ?_)
  intro rule member
  simp only [resolves, Rule.exists_resolve_iff, Numbering.exists_lookup_iff,
    known, Reference.text]
  rw [and_iff_left]
  intro text inside
  exact (known text).mp (literals rule member text inside)

/-- Names are in order exactly when they can be numbered and everything the
rules refer to is found. -/
theorem namesInOrder_iff :
    NamesInOrder declarations root ↔
      ∃ numbering item bodies,
        Named declarations root numbering item bodies := by
  constructor
  · intro inOrder
    have allowed := (literals_allowed_iff inOrder.tokens_filled).mpr
      ⟨inOrder.literals_filled, inOrder.literals_fresh⟩
    have orderly := orderly_allInfos_iff.mpr
      ⟨inOrder.names_nodup, inOrder.error_not_declared,
        inOrder.error_not_literal, inOrder.within_capacity⟩
    obtain ⟨numbering, numbered, infos⟩ :=
      Numbering.ofDeclarations_yields.exists_of
        ⟨inOrder.tokens_filled, allowed, orderly⟩
    obtain ⟨⟨item, itemResolved⟩, bodies, bodiesResolved⟩ :=
      (resolved_iff infos).mpr inOrder.names_known
    exact ⟨numbering, item, bodies, inOrder.root_declared,
      inOrder.root_visible, numbered, itemResolved, bodiesResolved⟩
  · rintro ⟨numbering, item, bodies, named⟩
    obtain ⟨⟨filled, allowed, orderly⟩, infos⟩ :=
      Numbering.ofDeclarations_yields.of_eq named.numbered
    obtain ⟨literalsFilled, fresh⟩ := (literals_allowed_iff filled).mp allowed
    obtain ⟨distinct, notDeclared, notLiteral, within⟩ :=
      orderly_allInfos_iff.mp orderly
    have known := (resolved_iff infos).mp
      ⟨⟨item, named.item_resolved⟩, bodies, named.bodies_resolved⟩
    exact ⟨named.root_declared, named.root_visible, distinct, notDeclared,
      notLiteral, filled, literalsFilled, fresh, known, within⟩

end Reparse
