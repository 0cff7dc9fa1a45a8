import Reparse.Grammar.Cycles
import Reparse.Proofs.Grammar.Ranking
import Reparse.Proofs.Grammar.Validity
import Reparse.Proofs.Pairs

/-!
# Calls by name and by number

Once names are numbered and rules resolved, a rule matches empty exactly when
the resolved rule can match without a token, and one name calls another one at
its start exactly when its number does so in the table of rules.
-/

namespace Reparse

open Declaration

/-- The rules stand behind the tokens, the one of the root first. -/
theorem rule?_ruleTable (tokens literals : Nat) (item : Rule Symbol)
    (bodies : List (Rule Symbol)) (symbol : Symbol) :
    (Grammar.ruleTable tokens literals item bodies).rule? symbol =
      if symbol.id < tokens then none
      else (.star item :: bodies)[symbol.id - tokens]? := by
  have flat : (Grammar.ruleTable tokens literals item bodies).toList =
      List.replicate tokens none ++
        ((.star item :: bodies).map some ++
          List.replicate literals none) := by
    simp [Grammar.ruleTable]
  rw [RuleTable.rule?, ← Array.getElem?_toList, flat, List.getElem?_append,
    List.length_replicate]
  split
  · next before =>
      rw [List.getElem?_replicate, if_pos before]
      rfl
  · rw [List.getElem?_append, List.length_map]
    split
    · rw [List.getElem?_map]
      cases (Rule.star item :: bodies)[symbol.id - tokens]? <;> rfl
    · next behind =>
        rw [List.getElem?_replicate, List.getElem?_eq_none
          (Nat.le_of_not_lt behind)]
        split <;> rfl

namespace Named

variable {declarations : List Declaration} {root : RuleDeclaration}
  {numbering : Numbering} {item : Rule Symbol} {bodies : List (Rule Symbol)}
  (named : Named declarations root numbering item bodies)

include named

theorem names_eq :
    numbering.names =
      (tokensOf declarations).map TokenDeclaration.name ++
        ((nonterminals declarations root).map RuleDeclaration.name ++
          freshTexts (declaredNames declarations root)
            (inlineLiterals declarations root)) := by
  obtain ⟨_, infos⟩ := Numbering.ofDeclarations_yields.of_eq named.numbered
  rw [Numbering.names, infos, names_allInfos, declaredNames,
    List.append_assoc]
  rfl

theorem distinct : numbering.names.Nodup := by
  obtain ⟨⟨_, _, orderly⟩, infos⟩ :=
    Numbering.ofDeclarations_yields.of_eq named.numbered
  rw [Numbering.names, infos]
  exact orderly.distinct

/-- Only one name has a number. -/
theorem eq_of_index? {name other : String} {symbol : Symbol}
    (first : numbering.index? name = some symbol)
    (second : numbering.index? other = some symbol) : name = other := by
  have here := (Numbering.index?_eq_some_iff named.distinct).mp first
  have there := (Numbering.index?_eq_some_iff named.distinct).mp second
  exact Option.some.inj (here.symm.trans there)

/-- The non-terminals resolve to the rules of the table, one by one. -/
theorem bodies_resolve :
    List.Forall₂
      (fun rule body =>
        rule.body.resolve (numbering.lookup rule.name) = .ok body)
      (nonterminals declarations root) (.star item :: bodies) := by
  constructor
  · exact Rule.resolve_star_eq_ok.mpr ⟨item, named.item_resolved, rfl⟩
  · exact forall₂_of_mapM named.bodies_resolved

/-- The names of the non-terminals are numbered behind those of the tokens. -/
theorem getElem?_names {rule : RuleDeclaration} {index : Nat}
    (found : (nonterminals declarations root)[index]? = some rule) :
    numbering.names[(tokensOf declarations).length + index]? =
      some rule.name := by
  have inside := (List.getElem?_eq_some_iff.mp found).1
  rw [named.names_eq, List.getElem?_append_right (by simp), List.length_map,
    Nat.add_sub_cancel_left, List.getElem?_append_left (by simpa using inside),
    List.getElem?_map, found]
  rfl

/-- A number has a rule exactly when it is that of a non-terminal, and then the
one that the non-terminal resolves to. -/
theorem rule?_iff {symbol : Symbol} {body : Rule Symbol} :
    (numbering.ruleTable declarations item bodies).rule? symbol = some body ↔
      ∃ rule ∈ nonterminals declarations root,
        numbering.index? rule.name = some symbol ∧
          rule.body.resolve (numbering.lookup rule.name) = .ok body := by
  rw [Numbering.ruleTable, rule?_ruleTable]
  change (if symbol.id < (tokensOf declarations).length then none
    else (.star item :: bodies)[
      symbol.id - (tokensOf declarations).length]?) = some body ↔ _
  constructor
  · intro found
    split at found
    · cases found
    · next behind =>
        obtain ⟨rule, known, resolved⟩ :=
          getElem?_of_forall₂ named.bodies_resolve.flip found
        have numbered := named.getElem?_names known
        rw [Nat.add_sub_cancel' (Nat.le_of_not_lt behind)] at numbered
        refine ⟨rule, List.mem_of_getElem? known, ?_, resolved⟩
        exact (Numbering.index?_eq_some_iff named.distinct).mpr numbered
  · rintro ⟨rule, member, numbered, resolved⟩
    obtain ⟨index, known⟩ := List.mem_iff_getElem?.mp member
    obtain ⟨other, found, resolvedOther⟩ :=
      getElem?_of_forall₂ named.bodies_resolve known
    have here := named.getElem?_names known
    have there :=
      (Numbering.index?_eq_some_iff named.distinct).mp numbered
    have inside := (List.getElem?_eq_some_iff.mp here).1
    have position :=
      (List.getElem?_inj inside named.distinct).mp (here.trans there.symm)
    cases resolved.symm.trans resolvedOther
    rw [← position, if_neg (Nat.not_lt.mpr (Nat.le_add_right _ _)),
      Nat.add_sub_cancel_left]
    exact found

/-- Every non-terminal has a number, and the rule of that number is what it
resolves to. -/
theorem exists_rule {rule : RuleDeclaration} {symbol : Symbol}
    (member : rule ∈ nonterminals declarations root)
    (numbered : numbering.index? rule.name = some symbol) :
    ∃ body,
      (numbering.ruleTable declarations item bodies).rule? symbol =
          some body ∧
        rule.body.resolve (numbering.lookup rule.name) = .ok body := by
  obtain ⟨body, _, resolved⟩ :=
    exists_of_forall₂_left named.bodies_resolve member
  exact ⟨body, named.rule?_iff.mpr ⟨rule, member, numbered, resolved⟩,
    resolved⟩

/-- A number with a rule is that of the non-terminal of this name. -/
theorem exists_nonterminal {name : String} {symbol : Symbol}
    {body : Rule Symbol}
    (numbered : numbering.index? name = some symbol)
    (known : (numbering.ruleTable declarations item bodies).rule? symbol =
      some body) :
    ∃ rule ∈ nonterminals declarations root, rule.name = name ∧
      rule.body.resolve (numbering.lookup rule.name) = .ok body := by
  obtain ⟨rule, member, numberedRule, resolved⟩ := named.rule?_iff.mp known
  exact ⟨rule, member, named.eq_of_index? numberedRule numbered, resolved⟩

/-- A rule that matches empty resolves to one that can match without a token. -/
theorem nullable_of_matchesEmpty {owner : String} {rule : Rule Reference}
    {resolved : Rule Symbol}
    (holds : rule.MatchesEmpty (nonterminals declarations root))
    (found : rule.resolve (numbering.lookup owner) = .ok resolved) :
    (numbering.ruleTable declarations item bodies).Nullable resolved := by
  induction holds generalizing owner resolved with
  | symbol member same _ induction =>
      cases Rule.resolved_of_resolve found with
      | symbol looked =>
          rw [Numbering.lookup_eq_ok, ← same] at looked
          obtain ⟨body, known, resolvedBody⟩ := named.exists_rule member looked
          exact .symbol known (induction resolvedBody)
  | seq _ induction =>
      cases Rule.resolved_of_resolve found with
      | seq each =>
          apply RuleTable.Nullable.seq
          intro result member
          obtain ⟨item, inside, resolvedItem⟩ :=
            exists_of_forall₂_right each member
          exact induction item inside resolvedItem
  | choice inside _ induction =>
      cases Rule.resolved_of_resolve found with
      | choice each =>
          obtain ⟨result, member, resolvedItem⟩ :=
            exists_of_forall₂_left each inside
          exact .choice member (induction resolvedItem)
  | star =>
      cases Rule.resolved_of_resolve found with
      | star => exact .star _
  | opt =>
      cases Rule.resolved_of_resolve found with
      | opt => exact .opt _

theorem matchesEmpty_of_nullable {owner : String} {rule : Rule Reference}
    {resolved : Rule Symbol}
    (holds :
      (numbering.ruleTable declarations item bodies).Nullable resolved)
    (found : rule.resolve (numbering.lookup owner) = .ok resolved) :
    rule.MatchesEmpty (nonterminals declarations root) := by
  induction holds generalizing owner rule with
  | symbol known _ induction =>
      cases Rule.resolved_of_resolve found with
      | symbol looked =>
          rw [Numbering.lookup_eq_ok] at looked
          obtain ⟨other, member, same, resolvedBody⟩ :=
            named.exists_nonterminal looked known
          exact .symbol member same (induction resolvedBody)
  | seq _ induction =>
      cases Rule.resolved_of_resolve found with
      | seq each =>
          apply Rule.MatchesEmpty.seq
          intro item inside
          obtain ⟨result, member, resolvedItem⟩ :=
            exists_of_forall₂_left each inside
          exact induction result member resolvedItem
  | choice member _ induction =>
      cases Rule.resolved_of_resolve found with
      | choice each =>
          obtain ⟨alternative, inside, resolvedItem⟩ :=
            exists_of_forall₂_right each member
          exact .choice inside (induction resolvedItem)
  | star =>
      cases Rule.resolved_of_resolve found with
      | star => exact .star _
  | opt =>
      cases Rule.resolved_of_resolve found with
      | opt => exact .opt _

/-- What a rule begins with by name is what the resolved rule may call first. -/
theorem leadingCall_of_beginsWith {owner called : String}
    {rule : Rule Reference} {resolved : Rule Symbol}
    (begins : rule.BeginsWith (nonterminals declarations root) called)
    (found : rule.resolve (numbering.lookup owner) = .ok resolved) :
    ∃ symbol, numbering.index? called = some symbol ∧
      (numbering.ruleTable declarations item bodies).LeadingCall resolved
        symbol := by
  induction begins generalizing owner resolved with
  | symbol member same =>
      cases Rule.resolved_of_resolve found with
      | symbol looked =>
          rw [Numbering.lookup_eq_ok, ← same] at looked
          obtain ⟨body, known, _⟩ := named.exists_rule member looked
          refine ⟨_, looked, .symbol ?_⟩
          rw [RuleTable.hasRule, known]
          rfl
  | seq skipped _ induction =>
      cases Rule.resolved_of_resolve found with
      | seq each =>
          obtain ⟨earlier, result, later, rfl, eachBefore, resolvedItem⟩ :=
            forall₂_split each
          obtain ⟨symbol, numbered, call⟩ := induction resolvedItem
          refine ⟨symbol, numbered, .seq ?_ call⟩
          intro other member
          obtain ⟨item, inside, resolvedOther⟩ :=
            exists_of_forall₂_right eachBefore member
          exact named.nullable_of_matchesEmpty (skipped item inside)
            resolvedOther
  | choice inside _ induction =>
      cases Rule.resolved_of_resolve found with
      | choice each =>
          obtain ⟨result, member, resolvedItem⟩ :=
            exists_of_forall₂_left each inside
          obtain ⟨symbol, numbered, call⟩ := induction resolvedItem
          exact ⟨symbol, numbered, .choice member call⟩
  | star _ induction =>
      cases Rule.resolved_of_resolve found with
      | star resolvedItem =>
          obtain ⟨symbol, numbered, call⟩ := induction resolvedItem
          exact ⟨symbol, numbered, .star call⟩
  | opt _ induction =>
      cases Rule.resolved_of_resolve found with
      | opt resolvedItem =>
          obtain ⟨symbol, numbered, call⟩ := induction resolvedItem
          exact ⟨symbol, numbered, .opt call⟩

theorem beginsWith_of_leadingCall {owner : String} {symbol : Symbol}
    {rule : Rule Reference} {resolved : Rule Symbol}
    (call : (numbering.ruleTable declarations item bodies).LeadingCall resolved
      symbol)
    (found : rule.resolve (numbering.lookup owner) = .ok resolved) :
    ∃ called, numbering.index? called = some symbol ∧
      rule.BeginsWith (nonterminals declarations root) called := by
  induction call generalizing owner rule with
  | symbol known =>
      cases Rule.resolved_of_resolve found with
      | symbol looked =>
          rw [Numbering.lookup_eq_ok] at looked
          obtain ⟨body, known⟩ := Option.isSome_iff_exists.mp known
          obtain ⟨other, member, same, _⟩ :=
            named.exists_nonterminal looked known
          rw [← same] at looked
          exact ⟨other.name, looked, .symbol member same⟩
  | seq skipped _ induction =>
      cases Rule.resolved_of_resolve found with
      | seq each =>
          obtain ⟨earlier, item, later, rfl, eachBefore, resolvedItem⟩ :=
            forall₂_split each.flip
          obtain ⟨called, numbered, begins⟩ := induction resolvedItem
          refine ⟨called, numbered, .seq ?_ begins⟩
          intro other inside
          obtain ⟨result, member, resolvedOther⟩ :=
            exists_of_forall₂_right eachBefore inside
          exact named.matchesEmpty_of_nullable (skipped result member)
            resolvedOther
  | choice member _ induction =>
      cases Rule.resolved_of_resolve found with
      | choice each =>
          obtain ⟨alternative, inside, resolvedItem⟩ :=
            exists_of_forall₂_right each member
          obtain ⟨called, numbered, begins⟩ := induction resolvedItem
          exact ⟨called, numbered, .choice inside begins⟩
  | star _ induction =>
      cases Rule.resolved_of_resolve found with
      | star resolvedItem =>
          obtain ⟨called, numbered, begins⟩ := induction resolvedItem
          exact ⟨called, numbered, .star begins⟩
  | opt _ induction =>
      cases Rule.resolved_of_resolve found with
      | opt resolvedItem =>
          obtain ⟨called, numbered, begins⟩ := induction resolvedItem
          exact ⟨called, numbered, .opt begins⟩

/-- A call by name is a call by number. -/
theorem calls_of_callsAtStart {caller called : String}
    (call : CallsAtStart (nonterminals declarations root) caller called) :
    ∃ first last, numbering.index? caller = some first ∧
      numbering.index? called = some last ∧
        (numbering.ruleTable declarations item bodies).Calls first last := by
  obtain ⟨rule, member, rfl, begins⟩ := call
  obtain ⟨index, known⟩ := List.mem_iff_getElem?.mp member
  have numbered : numbering.index? rule.name =
      some ⟨(tokensOf declarations).length + index⟩ :=
    (Numbering.index?_eq_some_iff named.distinct).mpr
      (named.getElem?_names known)
  obtain ⟨body, isRule, resolved⟩ := named.exists_rule member numbered
  obtain ⟨last, numberedLast, leading⟩ :=
    named.leadingCall_of_beginsWith begins resolved
  exact ⟨_, last, numbered, numberedLast, body, isRule, leading⟩

theorem callsAtStart_of_calls {first last : Symbol}
    (call : (numbering.ruleTable declarations item bodies).Calls first last) :
    ∃ caller called, numbering.index? caller = some first ∧
      numbering.index? called = some last ∧
        CallsAtStart (nonterminals declarations root) caller called := by
  obtain ⟨body, known, leading⟩ := call
  obtain ⟨rule, member, numbered, resolved⟩ := named.rule?_iff.mp known
  obtain ⟨called, numberedCalled, begins⟩ :=
    named.beginsWith_of_leadingCall leading resolved
  exact ⟨rule.name, called, numbered, numberedCalled, rule, member, rfl,
    begins⟩

/-- Names reach one another through calls as their numbers do. -/
theorem leads_of_transGen {caller called : String}
    (reaches : Relation.TransGen
      (CallsAtStart (nonterminals declarations root)) caller called) :
    ∃ first last, numbering.index? caller = some first ∧
      numbering.index? called = some last ∧
        (numbering.ruleTable declarations item bodies).Leads first last := by
  induction reaches with
  | single call =>
      obtain ⟨first, last, numbered, numberedLast, calls⟩ :=
        named.calls_of_callsAtStart call
      exact ⟨first, last, numbered, numberedLast, .single calls⟩
  | tail _ call induction =>
      obtain ⟨first, middle, numbered, numberedMiddle, before⟩ := induction
      obtain ⟨other, last, numberedOther, numberedLast, calls⟩ :=
        named.calls_of_callsAtStart call
      cases numberedMiddle.symm.trans numberedOther
      exact ⟨first, last, numbered, numberedLast, before.trans (.single calls)⟩

theorem transGen_of_leads {first last : Symbol}
    (leads : (numbering.ruleTable declarations item bodies).Leads first last) :
    ∃ caller called, numbering.index? caller = some first ∧
      numbering.index? called = some last ∧
        Relation.TransGen (CallsAtStart (nonterminals declarations root))
          caller called := by
  induction leads with
  | single call =>
      obtain ⟨caller, called, numbered, numberedCalled, calls⟩ :=
        named.callsAtStart_of_calls call
      exact ⟨caller, called, numbered, numberedCalled, .single calls⟩
  | step call _ induction =>
      obtain ⟨caller, other, numbered, numberedOther, calls⟩ :=
        named.callsAtStart_of_calls call
      obtain ⟨middle, called, numberedMiddle, numberedCalled, after⟩ :=
        induction
      cases named.eq_of_index? numberedOther numberedMiddle
      exact ⟨caller, called, numbered, numberedCalled, .head calls after⟩

/-- A name reaches itself exactly when its number is left recursive. -/
theorem reachesItself_iff {name : String} {symbol : Symbol}
    (numbered : numbering.index? name = some symbol) :
    ReachesItself (nonterminals declarations root) name ↔
      (numbering.ruleTable declarations item bodies).LeftRecursive symbol := by
  constructor
  · intro reaches
    obtain ⟨first, last, numberedFirst, numberedLast, leads⟩ :=
      named.leads_of_transGen reaches
    cases numbered.symm.trans numberedFirst
    cases numbered.symm.trans numberedLast
    exact leads
  · intro leads
    obtain ⟨caller, called, numberedCaller, numberedCalled, reaches⟩ :=
      named.transGen_of_leads leads
    cases named.eq_of_index? numbered numberedCaller
    cases named.eq_of_index? numbered numberedCalled
    exact reaches

end Named

end Reparse
