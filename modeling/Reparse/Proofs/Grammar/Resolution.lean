import Mathlib.Data.List.Forall2
import Reparse.Grammar.Validity
import Reparse.Proofs.Outcome

/-!
# Resolved rules

A rule resolves exactly when everything it refers to is found, and a resolved
rule has the form of the rule it came from.
-/

namespace Reparse

namespace Rule

variable {α β ε : Type} {lookup : α → Except ε β}

theorem resolve_symbol_eq_ok {name : α} {resolved : Rule β} :
    (symbol name).resolve lookup = .ok resolved ↔
      ∃ found, lookup name = .ok found ∧ symbol found = resolved := by
  rw [resolve]
  exact bind_pure_eq_ok

theorem resolveList_eq_ok {items : List (Rule α)} {results : List (Rule β)} :
    resolveList lookup items = .ok results ↔
      List.Forall₂ (fun item result => item.resolve lookup = .ok result) items
        results := by
  induction items generalizing results with
  | nil =>
      rw [resolveList, List.forall₂_nil_left_iff, Except.ok.injEq]
      exact eq_comm
  | cons item items induction =>
      rw [resolveList, List.forall₂_cons_left_iff, bind_eq_ok]
      constructor
      · rintro ⟨result, first, later⟩
        obtain ⟨rest, others, rfl⟩ := bind_pure_eq_ok.mp later
        exact ⟨result, rest, first, induction.mp others, rfl⟩
      · rintro ⟨result, rest, first, others, rfl⟩
        exact ⟨result, first, bind_pure_eq_ok.mpr
          ⟨rest, induction.mpr others, rfl⟩⟩

theorem resolve_seq_eq_ok {items : List (Rule α)} {resolved : Rule β} :
    (seq items).resolve lookup = .ok resolved ↔
      ∃ results,
        List.Forall₂ (fun item result => item.resolve lookup = .ok result)
            items results ∧
          seq results = resolved := by
  simp only [← resolveList_eq_ok]
  rw [resolve]
  exact bind_pure_eq_ok

theorem resolve_choice_eq_ok {alternatives : List (Rule α)}
    {resolved : Rule β} :
    (choice alternatives).resolve lookup = .ok resolved ↔
      ∃ results,
        List.Forall₂ (fun item result => item.resolve lookup = .ok result)
            alternatives results ∧
          choice results = resolved := by
  simp only [← resolveList_eq_ok]
  rw [resolve]
  exact bind_pure_eq_ok

theorem resolve_star_eq_ok {item : Rule α} {resolved : Rule β} :
    (star item).resolve lookup = .ok resolved ↔
      ∃ result, item.resolve lookup = .ok result ∧ star result = resolved := by
  rw [resolve]
  exact bind_pure_eq_ok

theorem resolve_opt_eq_ok {item : Rule α} {resolved : Rule β} :
    (opt item).resolve lookup = .ok resolved ↔
      ∃ result, item.resolve lookup = .ok result ∧ opt result = resolved := by
  rw [resolve]
  exact bind_pure_eq_ok

/-- A rule and what it resolves to have the same form. -/
inductive Resolved (lookup : α → Except ε β) : Rule α → Rule β → Prop where
  | symbol {name : α} {found : β} :
      lookup name = .ok found → Resolved lookup (.symbol name) (.symbol found)
  | seq {items : List (Rule α)} {results : List (Rule β)} :
      List.Forall₂ (fun item result => item.resolve lookup = .ok result) items
          results →
      Resolved lookup (.seq items) (.seq results)
  | choice {alternatives : List (Rule α)} {results : List (Rule β)} :
      List.Forall₂ (fun item result => item.resolve lookup = .ok result)
          alternatives results →
      Resolved lookup (.choice alternatives) (.choice results)
  | star {item : Rule α} {result : Rule β} :
      item.resolve lookup = .ok result →
      Resolved lookup (.star item) (.star result)
  | opt {item : Rule α} {result : Rule β} :
      item.resolve lookup = .ok result →
      Resolved lookup (.opt item) (.opt result)

theorem resolved_of_resolve {rule : Rule α} {resolved : Rule β}
    (found : rule.resolve lookup = .ok resolved) :
    Resolved lookup rule resolved := by
  cases rule with
  | symbol name =>
      obtain ⟨symbol, looked, rfl⟩ := resolve_symbol_eq_ok.mp found
      exact .symbol looked
  | seq items =>
      obtain ⟨results, each, rfl⟩ := resolve_seq_eq_ok.mp found
      exact .seq each
  | choice alternatives =>
      obtain ⟨results, each, rfl⟩ := resolve_choice_eq_ok.mp found
      exact .choice each
  | star item =>
      obtain ⟨result, inside, rfl⟩ := resolve_star_eq_ok.mp found
      exact .star inside
  | opt item =>
      obtain ⟨result, inside, rfl⟩ := resolve_opt_eq_ok.mp found
      exact .opt inside

mutual

/-- A rule that does not resolve refers to something that is not found. -/
theorem resolve_refused {error : ε} :
    ∀ rule : Rule α, rule.resolve lookup = .error error →
      ∃ name, lookup name = .error error
  | .symbol name => by
      intro refused
      rcases bind_eq_error.mp refused with here | ⟨_, _, same⟩
      · exact ⟨name, here⟩
      · cases same
  | .seq items => by
      intro refused
      rcases bind_eq_error.mp refused with inside | ⟨_, _, same⟩
      · exact resolveList_refused items inside
      · cases same
  | .choice alternatives => by
      intro refused
      rcases bind_eq_error.mp refused with inside | ⟨_, _, same⟩
      · exact resolveList_refused alternatives inside
      · cases same
  | .star item => by
      intro refused
      rcases bind_eq_error.mp refused with inside | ⟨_, _, same⟩
      · exact resolve_refused item inside
      · cases same
  | .opt item => by
      intro refused
      rcases bind_eq_error.mp refused with inside | ⟨_, _, same⟩
      · exact resolve_refused item inside
      · cases same

theorem resolveList_refused {error : ε} :
    ∀ items : List (Rule α), resolveList lookup items = .error error →
      ∃ name, lookup name = .error error
  | [] => fun refused => nomatch refused
  | item :: items => by
      intro refused
      rcases bind_eq_error.mp refused with first | ⟨_, _, later⟩
      · exact resolve_refused item first
      · rcases bind_eq_error.mp later with rest | ⟨_, _, same⟩
        · exact resolveList_refused items rest
        · cases same

end

end Rule

namespace Rule

variable {β ε : Type} {lookup : Reference → Except ε β}

mutual

/-- A rule resolves exactly when every name and every literal in it is found. -/
theorem exists_resolve_iff :
    ∀ rule : Rule Reference,
      (∃ resolved, rule.resolve lookup = .ok resolved) ↔
        (∀ name ∈ rule.names, ∃ found, lookup (.name name) = .ok found) ∧
          ∀ text ∈ rule.literals, ∃ found, lookup (.literal text) = .ok found
  | .symbol (.name text) => by
      simp [resolve_symbol_eq_ok, names, literals]
  | .symbol (.literal text) => by
      simp [resolve_symbol_eq_ok, names, literals]
  | .seq items => by
      have inside := exists_resolveList_iff items
      simp only [resolveList_eq_ok] at inside
      simp only [resolve_seq_eq_ok, names, literals, ← inside]
      simp
  | .choice alternatives => by
      have inside := exists_resolveList_iff alternatives
      simp only [resolveList_eq_ok] at inside
      simp only [resolve_choice_eq_ok, names, literals, ← inside]
      simp
  | .star item => by
      have inside := exists_resolve_iff item
      simp only [resolve_star_eq_ok, names, literals, ← inside]
      simp
  | .opt item => by
      have inside := exists_resolve_iff item
      simp only [resolve_opt_eq_ok, names, literals, ← inside]
      simp

theorem exists_resolveList_iff :
    ∀ items : List (Rule Reference),
      (∃ results, resolveList lookup items = .ok results) ↔
        (∀ name ∈ namesList items,
            ∃ found, lookup (.name name) = .ok found) ∧
          ∀ text ∈ literalsList items,
            ∃ found, lookup (.literal text) = .ok found
  | [] => by simp [resolveList, namesList, literalsList]
  | item :: items => by
      have first := exists_resolve_iff item
      have rest := exists_resolveList_iff items
      simp only [resolveList_eq_ok] at rest
      simp only [resolveList_eq_ok, List.forall₂_cons_left_iff, namesList,
        literalsList, List.forall_mem_append]
      rw [and_and_and_comm, ← first, ← rest]
      constructor
      · rintro ⟨_, result, others, found, foundOthers, rfl⟩
        exact ⟨⟨result, found⟩, others, foundOthers⟩
      · rintro ⟨⟨result, found⟩, others, foundOthers⟩
        exact ⟨_, result, others, found, foundOthers, rfl⟩

end

end Rule

end Reparse
