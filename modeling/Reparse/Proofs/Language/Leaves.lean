import Reparse.Proofs.Language.Rounds

/-!
# Leaves in front of an edit, in both languages

A token that was examined only in front of an edit keeps its leaf: whatever the
edit makes of the text behind it, the next tree has the very same one.
-/

namespace Reparse

/-- In both languages a text that can be read after an edit is parsed to a tree
in which every leaf that accounts for nothing behind the start of the edit is a
leaf of the tree before, at the same place. -/
theorem History.leaves_before_edit_shared {grammar : Stamped Grammar}
    (language : MiniGo.grammar = .ok grammar.value ∨
      JsonValues.grammar = .ok grammar.value)
    {trees : List Tree} {supply : Nat} (history : History grammar trees supply)
    {tree : Tree} (member : tree ∈ trees) {edit : Edit} {shell : Shell}
    {first next : Nat}
    (edited : tree.edit edit first = .ok (shell, next)) {text : List UInt8}
    (produced : edit.Produces tree.bytes text) {tokens : TokenList}
    (lexable : grammar.value.tokenize text = .ok tokens) {parser : Parser}
    (known : parser.grammar = grammar)
    (incremental : parser.options.incremental = true) {available : Nat}
    (later : supply ≤ available) :
    ∃ parsed, parser.parse text (some shell) available = .ok parsed ∧
      ∀ visit ∈ parsed.tree.root.visits, visit.node.isLeaf = true →
        visit.start + visit.node.length + visit.node.lookahead ≤ edit.start →
          ⟨visit.start, visit.node⟩ ∈ tree.root.leaves ∧
            visit.node.stamp < available := by
  have properties : grammar.value.Regular ∧ grammar.value.Nearsighted := by
    rcases language with accepted | accepted
    · exact ⟨Grammar.regular_of_ofDeclarations accepted,
        MiniGo.nearsighted accepted⟩
    · exact ⟨Grammar.regular_of_ofDeclarations accepted,
        JsonValues.nearsighted accepted⟩
  obtain ⟨regular, nearsighted⟩ := properties
  have settled := (history.lineage regular).settled tree member
  obtain ⟨rule, rooted⟩ := settled.rooted
  obtain ⟨parsed, found⟩ := @Parser.exists_parse_some grammar parser text tree
    [edit] shell first next available
    ((tree.editAll_singleton edit first).trans edited)
    (.cons produced (.nil text)) known settled.whole (history.fits tree member)
    tokens lexable rule rooted
  refine ⟨parsed, found, ?_⟩
  intro visit visited childless before
  have inTree := history.mem_leaves_of_visit regular nearsighted member edited
    produced lexable known incremental found visited childless before
  have older := settled.older (Node.mem_leaves_iff.mp inTree).1
  exact ⟨inTree, Nat.lt_of_lt_of_le older later⟩

/-- The leaf of the first number stays when the second one gets one more
digit. -/
theorem JsonValues.first_number_shared :
    ∃ (grammar : Stamped Grammar) (old new : Parsed) (shell : Shell)
      (next : Nat) (visit : Node.Visit),
      JsonValues.grammar = .ok grammar.value ∧
        (Parser.ofGrammar grammar ⟨true, true⟩).parse [49, 32, 50] none 0 =
            .ok old ∧
          old.tree.edit (Edit.insert 3 1) old.supply = .ok (shell, next) ∧
            (Parser.ofGrammar grammar ⟨true, true⟩).parse [49, 32, 50, 51]
                (some shell) old.supply = .ok new ∧
              visit ∈ new.tree.root.visits ∧ visit.node.isLeaf = true ∧
                visit.start + visit.node.length + visit.node.lookahead = 2 ∧
                  ⟨visit.start, visit.node⟩ ∈ old.tree.root.leaves := by
  obtain ⟨grammar, accepted, numbered⟩ := exists_grammar
  have shorter := @tokenize_numbers grammar numbered [50] (.inl rfl)
  have longer := @tokenize_numbers grammar numbered [50, 51] (.inr (.inl rfl))
  have regular := Grammar.regular_of_ofDeclarations accepted
  obtain ⟨old, found, bytes, _, history⟩ :=
    @Reached.exists_first ⟨0, grammar⟩ _ (rule?_root numbered) _ _ shorter
      (by decide) ⟨true, true⟩
  have accepts : (Edit.insert 3 1).check old.tree.length = .ok () := by
    have settled := (history.lineage regular).settled _ List.mem_cons_self
    rw [Tree.length, settled.whole, bytes]
    rfl
  obtain ⟨shell, next, editedAll⟩ := Tree.exists_editAll accepts old.supply
  have edited := (Tree.editAll_singleton _ _ _).symm.trans editedAll
  have produced :
      (Edit.insert 3 1).Produces old.tree.bytes [49, 32, 50, 51] := by
    rw [bytes]
    exact ⟨by decide, by decide, [51], rfl, rfl⟩
  obtain ⟨new, again, shared⟩ := @History.leaves_before_edit_shared
    ⟨0, grammar⟩ (.inr accepted) _ _ history old.tree List.mem_cons_self _ _ _ _
    edited _ produced _ longer (Parser.ofGrammar ⟨0, grammar⟩ ⟨true, true⟩) rfl
    rfl _ (Nat.le_refl _)
  -- The next tree has a leaf for the first number.
  have faithful : new.tree.Faithful ⟨0, grammar⟩ := by
    apply (History.reparsed history List.mem_cons_self editedAll
      (.cons produced (.nil _)) (Nat.le_refl _) rfl again).faithful regular
      (nearsighted accepted)
    exact List.mem_cons_self
  have leavesFor := faithful.leavesFor regular (nearsighted accepted)
    ((Parser.bytes_of_parse again).symm ▸ longer)
  obtain ⟨leaf, below, stands⟩ :=
    @Node.LeavesFor.leaf _ _ leavesFor 0 ⟨⟨1⟩, ⟨0, 1⟩, 2⟩ rfl
  obtain ⟨level, visited⟩ := below.mem_preorder 0 0
  rw [← Node.visits_eq, Nat.zero_add] at visited
  have childless : leaf.isLeaf = true := List.isEmpty_iff.mpr stands.childless
  have reach : 0 + leaf.length + leaf.lookahead = 2 := stands.reach
  have inTree := (shared _ visited childless (by
    simp only [Edit.insert]
    omega)).1
  exact ⟨⟨0, grammar⟩, old, new, shell, next, _, accepted, found, edited, again,
    visited, childless, reach, inTree⟩

end Reparse
