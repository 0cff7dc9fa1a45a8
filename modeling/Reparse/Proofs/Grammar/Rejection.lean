import Reparse.Proofs.Grammar.Calls
import Reparse.Proofs.Grammar.Coloring
import Reparse.Proofs.Grammar.Refusals

/-!
# Left recursion is rejected exactly when it exists

Declarations are refused for left recursion exactly when their names are in
order and some non-terminal reaches itself through calls at the start of rules.
The name that is reported is one of those.
-/

namespace Reparse

open Declaration

namespace Grammar

variable {declarations : List Declaration} {root : RuleDeclaration}
  {numbering : Numbering} {item : Rule Symbol} {bodies : List (Rule Symbol)}

/-- Symbols are reported by the names that were numbered. -/
theorem nameOf_of_index? {scope : SymbolScope} {name : String}
    {symbol : Symbol} (follows : scope.Follows numbering)
    (distinct : numbering.names.Nodup)
    (numbered : numbering.index? name = some symbol) :
    nameOf scope symbol = name := by
  rw [Numbering.index?_eq_some_iff distinct, Numbering.names,
    List.getElem?_map] at numbered
  rw [nameOf, ← Array.getElem?_toList, follows.symbols, numbered]
  rfl

/-- The name that is reported reaches itself. -/
theorem reachesItself_of_refused {name called : String}
    (named : Named declarations root numbering item bodies)
    (refused : ofDeclarations name declarations =
      .error (.leftRecursion called)) :
    ReachesItself (nonterminals declarations root) called := by
  obtain ⟨scope, follows, outcome⟩ := ofDeclarations_of_numbering name
    named.root_declared named.root_visible named.numbered named.item_resolved
    named.bodies_resolved
  rw [outcome] at refused
  split at refused
  · next symbol ranked =>
      cases refused
      have cycle := LeftRecursion.leftRecursive_of_ranks ranked
      obtain ⟨caller, _, numbered, _, _⟩ := named.transGen_of_leads cycle
      rw [nameOf_of_index? follows named.distinct numbered]
      exact (named.reachesItself_iff numbered).mpr cycle
  · cases refused

/-- A name that reaches itself has declarations refused whose names are in
order. -/
theorem refused_of_reachesItself {looping : String} (name : String)
    (named : Named declarations root numbering item bodies)
    (reaches : ReachesItself (nonterminals declarations root) looping) :
    ∃ called,
      ofDeclarations name declarations = .error (.leftRecursion called) := by
  obtain ⟨symbol, _, numbered, _, _⟩ := named.leads_of_transGen reaches
  have cycle := (named.reachesItself_iff numbered).mp reaches
  obtain ⟨reported, ranked⟩ :=
    LeftRecursion.ranks_eq_error_iff.mpr ⟨symbol, cycle⟩
  obtain ⟨scope, _, outcome⟩ := ofDeclarations_of_numbering name
    named.root_declared named.root_visible named.numbered named.item_resolved
    named.bodies_resolved
  rw [ranked] at outcome
  exact ⟨nameOf scope reported, outcome⟩

/-- A name that reaches itself is that of a non-terminal. -/
theorem exists_of_reachesItself {rules : List RuleDeclaration} {name : String}
    (reaches : ReachesItself rules name) :
    ∃ rule ∈ rules, rule.name = name := by
  obtain ⟨_, ⟨rule, member, same, _⟩, _⟩ :=
    Relation.TransGen.head'_iff.mp reaches
  exact ⟨rule, member, same⟩

/-- Declarations are refused for left recursion exactly when their names are in
order and some non-terminal reaches itself through calls at the start of rules;
the name reported does.  The sweeps and the search of the check come to an end
for every table of rules, with the empty matches and the verdict used here. -/
theorem left_recursion_rejected_iff (name : String)
    (declarations : List Declaration) :
    ((∃ called,
        ofDeclarations name declarations = .error (.leftRecursion called)) ↔
      ∃ root, NamesInOrder declarations root ∧
        ∃ rule ∈ nonterminals declarations root,
          ReachesItself (nonterminals declarations root) rule.name) ∧
    (∀ called,
      ofDeclarations name declarations = .error (.leftRecursion called) →
        ∃ root, NamesInOrder declarations root ∧
          ReachesItself (nonterminals declarations root) called) ∧
    ∀ rules : RuleTable,
      rules.settle (Array.replicate rules.size false) = some rules.nullable ∧
        (LeftRecursion.check rules).run =
          some ((LeftRecursion.ranks rules).map fun _ => ()) := by
  have reported : ∀ called,
      ofDeclarations name declarations = .error (.leftRecursion called) →
        ∃ root, NamesInOrder declarations root ∧
          ReachesItself (nonterminals declarations root) called := by
    intro called refused
    obtain ⟨root, numbering, item, bodies, named⟩ :=
      named_of_leftRecursion refused
    refine ⟨root, namesInOrder_iff.mpr ⟨numbering, item, bodies, named⟩, ?_⟩
    exact reachesItself_of_refused named refused
  refine ⟨⟨?_, ?_⟩, reported, fun rules => ⟨?_, ?_⟩⟩
  · rintro ⟨called, refused⟩
    obtain ⟨root, inOrder, reaches⟩ := reported called refused
    obtain ⟨rule, member, rfl⟩ := exists_of_reachesItself reaches
    exact ⟨root, inOrder, rule, member, reaches⟩
  · rintro ⟨root, inOrder, rule, _, reaches⟩
    obtain ⟨numbering, item, bodies, named⟩ := namesInOrder_iff.mp inOrder
    exact refused_of_reachesItself name named reaches
  · apply RuleTable.settle_eq
    · exact Array.size_replicate
    · exact RuleTable.justified_replicate
  · exact LeftRecursion.check_eq rules

/-- Two rules that call each other at the start, each behind an item that
matches empty. -/
def hiddenCycle : List Declaration :=
  [.root "program" (.named "a"),
    .rule "a" (.seq [.opt (.literal "x"), .named "_b"]),
    .rule "_b" (.seq [.star (.literal "y"), .named "a", .literal "z"])]

theorem hiddenCycle_rejected :
    ∃ called,
      ofDeclarations "test" hiddenCycle = .error (.leftRecursion called) ∧
        ∃ root, NamesInOrder hiddenCycle root ∧
          ReachesItself (nonterminals hiddenCycle root) called := by
  let root : RuleDeclaration := ⟨"program", .named "a"⟩
  let rules := nonterminals hiddenCycle root
  have inOrder : NamesInOrder hiddenCycle root := by
    constructor
    · rfl
    all_goals decide
  have visible : rules[1]? = some
      ⟨"a", .seq [.opt (.literal "x"), .named "_b"]⟩ := rfl
  have hidden : rules[2]? = some
      ⟨"_b", .seq [.star (.literal "y"), .named "a", .literal "z"]⟩ := rfl
  have forth : CallsAtStart rules "a" "_b" := by
    refine ⟨_, List.mem_of_getElem? visible, rfl, ?_⟩
    apply @Rule.BeginsWith.seq rules [.opt (.literal "x")] []
    · exact List.forall_mem_singleton.mpr (.opt _)
    · exact .symbol (List.mem_of_getElem? hidden) rfl
  have back : CallsAtStart rules "_b" "a" := by
    refine ⟨_, List.mem_of_getElem? hidden, rfl, ?_⟩
    apply @Rule.BeginsWith.seq rules [.star (.literal "y")] [.literal "z"]
    · exact List.forall_mem_singleton.mpr (.star _)
    · exact .symbol (List.mem_of_getElem? visible) rfl
  have cycle : ReachesItself rules "a" := .tail (.single forth) back
  have rejected := left_recursion_rejected_iff "test" hiddenCycle
  obtain ⟨called, refused⟩ := rejected.1.mpr
    ⟨root, inOrder, _, List.mem_of_getElem? visible, cycle⟩
  exact ⟨called, refused, rejected.2.1 called refused⟩

end Grammar

end Reparse
