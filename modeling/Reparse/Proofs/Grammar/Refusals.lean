import Reparse.Proofs.Grammar.Validity

/-!
# Refusals

No name, no literal and no reference is refused for left recursion.  A list of
declarations is so only after its names were numbered and its rules resolved.
-/

namespace Reparse

/-- A step that succeeds has only one result. -/
theorem followed_of_follows {ε β γ : Type} {outcome : Except ε β}
    {numbered : Option γ} {relates : γ → β → Prop} {after : β}
    (follows : ∀ later, numbered = some later →
      ∃ result, outcome = .ok result ∧ relates later result)
    (succeeds : ∃ later, numbered = some later) (found : outcome = .ok after) :
    ∃ later, numbered = some later ∧ relates later after := by
  obtain ⟨later, numbered⟩ := succeeds
  obtain ⟨result, same, related⟩ := follows later numbered
  cases found.symm.trans same
  exact ⟨later, numbered, related⟩

namespace SymbolScope

variable {scope after : SymbolScope} {numbering : Numbering} {name : String}
  {kind : SymbolKind}

/-- A name that can be declared can be numbered. -/
theorem Follows.exists_enter (follows : scope.Follows numbering)
    {symbol : Symbol}
    (declared : scope.declare name kind = .ok (symbol, after)) :
    ∃ later, numbering.enter name kind = some later := by
  obtain ⟨notError, free, room, _, _⟩ := declare_eq_ok declared
  rw [Std.HashMap.contains_eq_isSome_getElem?, follows.ids] at free
  rw [follows.size] at room
  refine ⟨{ numbering with infos := numbering.infos ++ [⟨name, kind⟩] }, ?_⟩
  rw [Numbering.enter, if_neg notError, free, if_neg (Nat.not_le_of_lt room)]
  rfl

theorem Follows.exists_enterToken (follows : scope.Follows numbering)
    {token : TokenDeclaration}
    (declared : scope.declareToken token = .ok after) :
    ∃ later, numbering.enterToken token = some later := by
  obtain ⟨filled, middle, first, _⟩ := declareToken_eq_ok declared
  obtain ⟨later, entered⟩ := follows.exists_enter first
  rw [Numbering.enterToken, if_neg filled, entered]
  exact ⟨_, rfl⟩

theorem Follows.declared (follows : scope.Follows numbering) {symbol : Symbol}
    (found : scope.declare name kind = .ok (symbol, after)) :
    ∃ later, numbering.enter name kind = some later ∧ after.Follows later := by
  obtain ⟨later, entered⟩ := follows.exists_enter found
  obtain ⟨result, same, followsLater⟩ := follows.declare entered
  cases found.symm.trans same
  exact ⟨later, entered, followsLater⟩

theorem Follows.declaredToken (follows : scope.Follows numbering)
    {token : TokenDeclaration} (found : scope.declareToken token = .ok after) :
    ∃ later, numbering.enterToken token = some later ∧ after.Follows later :=
  followed_of_follows (fun _ => follows.declareToken)
    (follows.exists_enterToken found) found

theorem Follows.declaredRule (follows : scope.Follows numbering)
    {rule : RuleDeclaration} (found : scope.declareRule rule = .ok after) :
    ∃ later, numbering.enterRule rule = some later ∧ after.Follows later :=
  follows.declared (declareRule_eq_ok found)

theorem Follows.declaredLiteral (follows : scope.Follows numbering)
    {text : String} (found : scope.declareLiteral text = .ok after) :
    ∃ later, numbering.enterLiteral text = some later ∧
      after.Follows later := by
  apply followed_of_follows (fun _ => follows.declareLiteral) _ found
  have symbols : ∀ index : Nat,
      scope.symbols[index]? = numbering.infos[index]? := by
    intro index
    rw [← Array.getElem?_toList, follows.symbols]
  rw [SymbolScope.declareLiteral, follows.ids] at found
  rw [Numbering.enterLiteral]
  cases known : numbering.index? text with
  | some symbol =>
      simp only [known, symbols] at found ⊢
      split at found
      · next isLiteral =>
          rw [if_pos isLiteral]
          exact ⟨numbering, rfl⟩
      · cases found
  | none =>
      simp only [known] at found ⊢
      split at found
      · cases found
      · next filled =>
          rw [if_neg filled]
          exact follows.exists_enterToken found

/-- A name is never refused for left recursion. -/
theorem declare_ne_leftRecursion {called : String} :
    scope.declare name kind ≠ .error (.leftRecursion called) := by
  unfold declare
  intro refused
  repeat' split at refused
  all_goals cases refused

theorem declareToken_ne_leftRecursion {token : TokenDeclaration}
    {called : String} :
    scope.declareToken token ≠ .error (.leftRecursion called) := by
  unfold declareToken
  intro refused
  simp only at refused
  split at refused
  · cases refused
  · rcases bind_eq_error.mp refused with first | ⟨_, _, same⟩
    · exact declare_ne_leftRecursion first
    · cases same

theorem declareRule_ne_leftRecursion {rule : RuleDeclaration}
    {called : String} :
    scope.declareRule rule ≠ .error (.leftRecursion called) := by
  intro refused
  rcases bind_eq_error.mp refused with first | ⟨_, _, same⟩
  · exact declare_ne_leftRecursion first
  · cases same

theorem declareLiteral_ne_leftRecursion {text called : String} :
    scope.declareLiteral text ≠ .error (.leftRecursion called) := by
  unfold declareLiteral
  intro refused
  repeat' split at refused
  · cases refused
  · cases refused
  · cases refused
  · exact declareToken_ne_leftRecursion refused

theorem lookup_ne_leftRecursion {owner called : String}
    {reference : Reference} :
    scope.lookup owner reference ≠ .error (.leftRecursion called) := by
  unfold lookup
  intro refused
  split at refused <;> cases refused

end SymbolScope

open Declaration

namespace Grammar

variable {declarations : List Declaration} {root : RuleDeclaration}
  {name called : String}

/-- Names that were declared without a refusal can be numbered. -/
theorem exists_numbering {rootSymbol : Symbol}
    {withTokens withRoot withRules scope : SymbolScope}
    (tokensDeclared : (tokensOf declarations).foldlM SymbolScope.declareToken
      SymbolScope.empty = .ok withTokens)
    (rootDeclared : withTokens.declare root.name .visible =
      .ok (rootSymbol, withRoot))
    (rulesDeclared : (rulesOf declarations).foldlM SymbolScope.declareRule
      withRoot = .ok withRules)
    (literalsDeclared : (inlineLiterals declarations root).foldlM
      SymbolScope.declareLiteral withRules = .ok scope) :
    ∃ numbering,
      Numbering.ofDeclarations declarations root = some numbering ∧
        scope.Follows numbering := by
  obtain ⟨tokens, tokensNumbered, followsTokens⟩ :=
    foldlM_followed (fun _ _ _ _ follows => follows.declaredToken)
      SymbolScope.follows_empty tokensDeclared
  obtain ⟨next, rootNumbered, followsRoot⟩ :=
    followsTokens.declared rootDeclared
  obtain ⟨rules, rulesNumbered, followsRules⟩ :=
    foldlM_followed (fun _ _ _ _ follows => follows.declaredRule)
      followsRoot rulesDeclared
  obtain ⟨numbering, literalsNumbered, follows⟩ :=
    foldlM_followed (fun _ _ _ _ follows => follows.declaredLiteral)
      followsRules literalsDeclared
  refine ⟨numbering, ?_, follows⟩
  apply Option.bind_eq_some_iff.mpr ⟨tokens, tokensNumbered, _⟩
  apply Option.bind_eq_some_iff.mpr ⟨next, rootNumbered, _⟩
  exact Option.bind_eq_some_iff.mpr ⟨rules, rulesNumbered, literalsNumbered⟩

/-- Everything up to the check of the table of rules is passed by declarations
that are refused for left recursion. -/
theorem named_of_leftRecursion
    (refused : ofDeclarations name declarations =
      .error (.leftRecursion called)) :
    ∃ root numbering item bodies,
      Named declarations root numbering item bodies := by
  unfold ofDeclarations at refused
  split at refused
  · next root rootDeclared =>
      simp only at refused
      split at refused
      · cases refused
      · next rootVisible =>
          rcases bind_eq_error.mp refused with
            first | ⟨withTokens, tokensDeclared, refused⟩
          · exact absurd first (foldlM_ne_error
              (fun _ _ => SymbolScope.declareToken_ne_leftRecursion) _ _)
          rcases bind_eq_error.mp refused with
            first | ⟨⟨rootSymbol, withRoot⟩, rootNumbered, refused⟩
          · exact absurd first SymbolScope.declare_ne_leftRecursion
          rcases bind_eq_error.mp refused with
            first | ⟨withRules, rulesDeclared, refused⟩
          · exact absurd first (foldlM_ne_error
              (fun _ _ => SymbolScope.declareRule_ne_leftRecursion) _ _)
          rcases bind_eq_error.mp refused with
            first | ⟨scope, literalsDeclared, refused⟩
          · exact absurd first (foldlM_ne_error
              (fun _ _ => SymbolScope.declareLiteral_ne_leftRecursion) _ _)
          rcases bind_eq_error.mp refused with
            first | ⟨item, itemResolved, refused⟩
          · obtain ⟨_, unknown⟩ := Rule.resolve_refused _ first
            exact absurd unknown SymbolScope.lookup_ne_leftRecursion
          rcases bind_eq_error.mp refused with
            first | ⟨bodies, bodiesResolved, _⟩
          · obtain ⟨_, _, inside⟩ := mapM_refused first
            obtain ⟨_, unknown⟩ := Rule.resolve_refused _ inside
            exact absurd unknown SymbolScope.lookup_ne_leftRecursion
          obtain ⟨numbering, numbered, follows⟩ := exists_numbering
            tokensDeclared rootNumbered rulesDeclared literalsDeclared
          rw [follows.lookup] at itemResolved
          simp only [resolveRules, follows.lookup] at bodiesResolved
          exact ⟨root, numbering, item, bodies, rootDeclared,
            Bool.eq_false_iff.mpr rootVisible, numbered, itemResolved,
            bodiesResolved⟩
  · cases refused

end Grammar

end Reparse
