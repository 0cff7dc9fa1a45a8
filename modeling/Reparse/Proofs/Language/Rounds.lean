import Mathlib
import Reparse.Proofs.Language.Accepted
import Reparse.Proofs.Language.Nearsight
import Reparse.Proofs.Parse.Leaves

/-!
# Rounds in both languages

Neither language looks far ahead for a token, so that no node is ever taken over
too early, and a tree after any number of rounds is equal to a fresh one.
-/

namespace Reparse

theorem JsonValues.rule?_root {grammar : Grammar}
    (numbered : grammar.Numbered declarations numbering (.symbol ⟨6⟩) bodies
      ranks) :
    grammar.rule? grammar.root = some (.star (.symbol ⟨6⟩)) := by
  rw [Grammar.rule?, RuleTable.rule?, numbered.root, numbered.rules]
  rfl

/-- The tokens of a digit and, behind a blank, of a number of some length. -/
def JsonValues.numbers (length : Nat) : TokenList :=
  ⟨#[⟨⟨1⟩, ⟨0, 1⟩, 2⟩, ⟨⟨1⟩, ⟨2, length + 2⟩, length + 3⟩], length + 3,
    length + 2⟩

theorem JsonValues.tokenize_numbers {grammar : Grammar}
    (numbered : grammar.Numbered declarations numbering (.symbol ⟨6⟩) bodies
      ranks) {digits : List UInt8}
    (known : digits = [50] ∨ digits = [50, 51] ∨ digits = [50, 51, 52]) :
    grammar.tokenize (49 :: 32 :: digits) = .ok (numbers digits.length) := by
  have digit : Lexeme.read grammar.terminals grammar.extras
        (49 :: 32 :: digits) =
      .lexeme ⟨⟨1⟩, 0, 1, 2, Nat.one_pos⟩ := by
    rw [numbered.terminals, numbered.extras]
    rcases known with rfl | rfl | rfl
    · cbv
    · cbv
    · cbv
  have behind : ∃ filled, Lexeme.read grammar.terminals grammar.extras
        (32 :: digits) =
      .lexeme ⟨⟨1⟩, 1, digits.length, digits.length + 2, filled⟩ := by
    rw [numbered.terminals, numbered.extras]
    rcases known with rfl | rfl | rfl
    · exact ⟨by decide, by cbv⟩
    · exact ⟨by decide, by cbv⟩
    · exact ⟨by decide, by cbv⟩
  have finished : Lexeme.read grammar.terminals grammar.extras [] =
      .finished 1 := by
    rw [numbered.terminals, numbered.extras]
    cbv
  obtain ⟨filled, behind⟩ := behind
  rw [Grammar.tokenize, Grammar.tokensFrom_of_lexeme digit]
  rcases known with rfl | rfl | rfl
  · apply (Grammar.tokensFrom_of_lexeme behind _ _).trans
    exact Grammar.tokensFrom_of_finished finished _ _
  · apply (Grammar.tokensFrom_of_lexeme behind _ _).trans
    exact Grammar.tokensFrom_of_finished finished _ _
  · apply (Grammar.tokensFrom_of_lexeme behind _ _).trans
    exact Grammar.tokensFrom_of_finished finished _ _

section

variable {grammar : Stamped Grammar} {tree : Tree} {supply : Nat}

/-- In both languages a text that can be read is parsed after edits to a tree
that equals the one parsed from scratch, lookaheads included. -/
theorem Reached.reparse_equal
    (language : MiniGo.grammar = .ok grammar.value ∨
      JsonValues.grammar = .ok grammar.value)
    (reached : Reached grammar tree supply) {edits : List Edit} {shell : Shell}
    {text : List UInt8} {edited : Nat}
    (afterEdits : tree.editAll edits supply = .ok (shell, edited))
    (produced : EditsProduce edits tree.bytes text) {tokens : TokenList}
    (lexable : grammar.value.tokenize text = .ok tokens)
    {parser full : Parser} (known : parser.grammar = grammar)
    (fullKnown : full.grammar = grammar) (available afresh : Nat) :
    ∃ later fresh,
      parser.parse text (some shell) available = .ok later ∧
        full.parse text none afresh = .ok fresh ∧
          later.tree.root.content = fresh.tree.root.content ∧
            later.tree.root.equal fresh.tree.root = true := by
  have properties : grammar.value.Regular ∧ grammar.value.Nearsighted ∧
      ∃ rule, grammar.value.rule? grammar.value.root = some rule := by
    rcases language with accepted | accepted
    · obtain ⟨built⟩ := Grammar.built_of_ofDeclarations accepted
      exact ⟨Grammar.regular_of_ofDeclarations accepted,
        MiniGo.nearsighted accepted, _, built.rule?_root⟩
    · obtain ⟨built⟩ := Grammar.built_of_ofDeclarations accepted
      exact ⟨Grammar.regular_of_ofDeclarations accepted,
        JsonValues.nearsighted accepted, _, built.rule?_root⟩
  obtain ⟨regular, nearsighted, rule, rooted⟩ := properties
  obtain ⟨later, fresh, found, scratch, contents⟩ :=
    @Reached.reparse_content _ _ _ reached regular nearsighted _ rooted _ _ _ _
      afterEdits produced _ lexable _ _ known fullKnown available afresh
  exact ⟨later, fresh, found, scratch, contents,
    Node.equal_of_content contents⟩

end

/-- A number gets longer twice.  Both times the leaf of the number in front of
it is taken over, and the second time the tree equals the one that is parsed
from scratch. -/
theorem JsonValues.longer_number_equal :
    ∃ (grammar : Stamped Grammar) (first tree : Tree) (shell : Shell)
      (before supply edited : Nat) (leaf : Node) (later fresh : Parsed),
      JsonValues.grammar = .ok grammar.value ∧
        Reached grammar first before ∧ first.bytes = [49, 32, 50] ∧
          Reached grammar tree supply ∧ tree.bytes = [49, 32, 50, 51] ∧
            tree.editAll [Edit.insert 4 1] supply = .ok (shell, edited) ∧
              (Parser.ofGrammar grammar ⟨true, true⟩).parse
                  [49, 32, 50, 51, 52] (some shell) (max supply edited) =
                    .ok later ∧
                (Parser.ofGrammar grammar ⟨true, true⟩).parse
                    [49, 32, 50, 51, 52] none 0 = .ok fresh ∧
                  later.tree.root.content = fresh.tree.root.content ∧
                    later.tree.root.equal fresh.tree.root = true ∧
                      leaf.symbol = ⟨1⟩ ∧ first.root.Below 0 leaf ∧
                        tree.root.Below 0 leaf ∧
                          later.tree.root.Below 0 leaf := by
  obtain ⟨grammar, accepted, numbered⟩ := exists_grammar
  have regular := Grammar.regular_of_ofDeclarations accepted
  have near := nearsighted accepted
  have read := @tokenize_numbers grammar numbered
  have readSecond := @read [50, 51] (.inr (.inl rfl))
  have readThird := @read [50, 51, 52] (.inr (.inr rfl))
  obtain ⟨first, _, bytes, reached, start⟩ :=
    @Reached.exists_first ⟨0, grammar⟩ _ (rule?_root numbered) _ _
      (read (.inl rfl)) (by decide) ⟨true, true⟩
  -- The number gets its second digit.
  have produced : (Edit.insert 3 1).Produces first.tree.bytes
      [49, 32, 50, 51] := by
    rw [bytes]
    exact ⟨by decide, by decide, [51], rfl, rfl⟩
  obtain ⟨_, _, second, afterEdit, again, reachedSecond, history⟩ :=
    reached.exists_next regular start List.mem_cons_self (by rw [bytes]; rfl)
      (.cons produced (.nil _)) readSecond ⟨true, true⟩
  have bytesSecond := Parser.bytes_of_parse again
  -- And then its third one.
  have producedThird : (Edit.insert 4 1).Produces second.tree.bytes
      [49, 32, 50, 51, 52] := by
    rw [bytesSecond]
    exact ⟨by decide, by decide, [52], rfl, rfl⟩
  obtain ⟨shell, edited, third, afterEditThird, later, reachedThird, _⟩ :=
    reachedSecond.exists_next regular history List.mem_cons_self
      (by rw [bytesSecond]; rfl) (.cons producedThird (.nil _)) readThird
      ⟨true, true⟩
  -- The leaf in front, traced back.
  have faithful := (reachedThird.closely regular near).faithful regular
  have leavesFor := faithful.leavesFor regular near
    ((Parser.bytes_of_parse later).symm ▸ readThird)
  obtain ⟨leaf, belowThird, stands⟩ :=
    @Node.LeavesFor.leaf _ _ leavesFor 0 ⟨⟨1⟩, ⟨0, 1⟩, 2⟩ rfl
  have reach : 0 + leaf.length + leaf.lookahead = 2 := stands.reach
  have belowSecond : second.tree.root.Below 0 leaf :=
    history.below_of_leaf regular near List.mem_cons_self
      ((Tree.editAll_singleton _ _ _).symm.trans afterEditThird) producedThird
      readThird rfl rfl later belowThird stands.childless
      (Nat.le_trans (Nat.le_of_eq reach) (by decide))
  have below : first.tree.root.Below 0 leaf :=
    start.below_of_leaf regular near List.mem_cons_self
      ((Tree.editAll_singleton _ _ _).symm.trans afterEdit) produced readSecond
      rfl rfl again belowSecond stands.childless
      (Nat.le_trans (Nat.le_of_eq reach) (by decide))
  obtain ⟨other, fresh, same, scratch, contents, equal⟩ :=
    @Reached.reparse_equal ⟨0, grammar⟩ _ _ (.inr accepted) reachedSecond
      _ _ _ _ afterEditThird (.cons producedThird (.nil _)) _ readThird
      (Parser.ofGrammar ⟨0, grammar⟩ ⟨true, true⟩)
      (Parser.ofGrammar ⟨0, grammar⟩ ⟨true, true⟩) rfl rfl
      (max second.supply edited) 0
  cases later.symm.trans same
  exact ⟨⟨0, grammar⟩, first.tree, second.tree, shell, first.supply,
    second.supply, edited, leaf, third, fresh, accepted, reached, bytes,
    reachedSecond, bytesSecond, afterEditThird, later, scratch, contents, equal,
    stands.symbol, below, belowSecond, belowThird⟩

end Reparse
