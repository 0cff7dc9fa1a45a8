import Reparse.Proofs.Language.Nearsight
import Reparse.Proofs.Parse.ErrorNodes
import Reparse.Proofs.Parse.Leaves

/-!
# What a parse comes to

A text is refused, for its length or for bytes at which no token begins, or its
tokens are the leaves of a tree.  A parse after edits comes to what a parse of
the text from scratch comes to, as long as no node was taken over too early in
the rounds before.
-/

namespace Reparse

/-! ## A text alone -/

/-- A text that is too long is refused as such.  Any other one is refused only
for bytes at which no token begins.  Otherwise the leaves of the tree are the
tokens, none lost, repeated or moved. -/
theorem Parser.parse_spellsOut {name : String}
    {declarations : List Declaration} {parser : Parser}
    (accepted : Grammar.ofDeclarations name declarations =
      .ok parser.grammar.value)
    (text : List UInt8) (supply : Nat) :
    (longestText < text.length →
      parser.parse text none supply =
        .error (.textTooLong text.length longestText)) ∧
      (text.length ≤ longestText →
        match parser.grammar.value.tokenize text with
        | .error error =>
            parser.parse text none supply = .error (.unexpectedByte error)
        | .ok tokens =>
            ∃ parsed, parser.parse text none supply = .ok parsed ∧
              parsed.tree.root.SpellsOut tokens ∧
                parsed.tree.root.length = text.length) := by
  refine ⟨Parser.parse_of_long, ?_⟩
  intro fits
  cases read : parser.grammar.value.tokenize text with
  | error error =>
      rw [Parser.parse_none rfl fits, Grammar.derive, read]
  | ok tokens => exact Parser.exists_spellsOut accepted read fits supply

/-- The stops between two quotations keep their places, although they stand in
an error node.  With blanks enough a text is refused. -/
theorem Marks.quotations_spellOut :
    ∃ (grammar : Stamped Grammar) (parsed : Parsed),
      let parser := Parser.ofGrammar grammar ⟨true, true⟩
      Grammar.ofDeclarations "marks" declarations = .ok grammar.value ∧
        parser.parse quotations none 0 = .ok parsed ∧
          parsed.tree.root.leaves.map Placed.reading =
              [(⟨0⟩, ⟨0, 3⟩), (⟨2⟩, ⟨3, 4⟩), (⟨2⟩, ⟨4, 5⟩), (⟨0⟩, ⟨5, 8⟩)] ∧
            parsed.tree.root.childSymbols = [⟨0⟩, Symbol.error, ⟨0⟩] ∧
              parser.parse (List.replicate offsetLimit 32) none 0 =
                .error (.textTooLong offsetLimit Parser.longestText) := by
  obtain ⟨grammar, accepted, describes⟩ := exists_grammar
  let parser := Parser.ofGrammar ⟨0, grammar⟩ ⟨true, true⟩
  have read := tokenize_quotations describes
  have outcome := fun text =>
    @Parser.parse_spellsOut "marks" declarations parser accepted text 0
  have spelled := (outcome quotations).2 (by decide)
  simp only [parser, Parser.ofGrammar, read] at spelled
  obtain ⟨parsed, found, spellsOut, _⟩ := spelled
  -- The root has the parts that were found for it.
  have derived := Parser.derive_of_parse_none rfl found
  have contents := Grammar.contentList_of_derive_none
    (Grammar.regular_of_ofDeclarations accepted) derived read
    (rule?_root describes) (rootParts_quotations describes)
  have symbols := congrArg
    (List.map fun placed : Placed Node => placed.item.symbol) contents
  rw [Node.map_symbol_contentList] at symbols
  have refused := (outcome (List.replicate offsetLimit 32)).1
  rw [List.length_replicate] at refused
  exact ⟨⟨0, grammar⟩, parsed, accepted, found, spellsOut.leaves, symbols,
    refused (by decide)⟩

/-! ## A text after edits -/

/-- After rounds in which no node is taken over too early, a parse of the
edited tree and a parse from scratch are refused for the same reason or give
undamaged trees of the same shape. -/
theorem ReachedClosely.reparse_concurs {name : String}
    {declarations : List Declaration} {grammar : Stamped Grammar} {tree : Tree}
    {supply : Nat}
    (accepted : Grammar.ofDeclarations name declarations = .ok grammar.value)
    (closely : ReachedClosely grammar tree supply) {edits : List Edit}
    {shell : Shell} {text : List UInt8} {edited : Nat}
    (afterEdits : tree.editAll edits supply = .ok (shell, edited))
    (produced : EditsProduce edits tree.bytes text) {parser full : Parser}
    (known : parser.grammar = grammar) (fullKnown : full.grammar = grammar)
    (available afresh : Nat) :
    match parser.parse text (some shell) available,
        full.parse text none afresh with
    | .ok later, .ok fresh =>
        later.tree.root.shape = fresh.tree.root.shape ∧
          later.tree.root.Undamaged ∧ fresh.tree.root.Undamaged
    | .error error, .error other => error = other
    | _, _ => False := by
  have regular := Grammar.regular_of_ofDeclarations accepted
  have concurs := @Parser.concurs_of_parse _ _ _ afresh _ _ _ _ _ available
    (closely.faithful regular) afterEdits produced known regular full fullKnown
  cases incremental : parser.parse text (some shell) available with
  | error error =>
      rw [incremental] at concurs
      cases scratch : full.parse text none afresh with
      | error other =>
          rw [scratch] at concurs
          exact concurs
      | ok fresh =>
          rw [scratch] at concurs
          exact concurs
  | ok later =>
      rw [incremental] at concurs
      cases scratch : full.parse text none afresh with
      | error other =>
          rw [scratch] at concurs
          exact concurs
      | ok fresh =>
          rw [scratch] at concurs
          obtain ⟨⟨shape, _⟩, undamaged⟩ := concurs
          refine ⟨shape, undamaged, ?_⟩
          rw [← Node.undamaged_shape, ← shape, Node.undamaged_shape]
          exact undamaged

/-- The children of a faithful tree are those that the tokens call for. -/
theorem Tree.Faithful.contentList_eq {grammar : Stamped Grammar} {tree : Tree}
    (faithful : tree.Faithful grammar) (regular : grammar.value.Regular)
    (nearsighted : grammar.value.Nearsighted) {tokens : TokenList}
    (read : grammar.value.tokenize tree.bytes = .ok tokens) {rule : Rule Symbol}
    (known : grammar.value.rule? grammar.value.root = some rule)
    {parts : List RootPart}
    (rootParts : RootParts grammar.value tokens rule.rootItem 0 parts) :
    Node.contentList tree.root.children =
      parts.flatMap (RootPart.nodes tokens) := by
  obtain ⟨fresh, derived, _, contents⟩ := faithful.afresh false 0 0
  rw [Node.contentList_of_content (contents nearsighted)]
  exact Grammar.contentList_of_derive_none regular derived read known rootParts

namespace Words

theorem nearsighted {grammar : Grammar}
    (accepted : Grammar.ofDeclarations "words" declarations = .ok grammar) :
    grammar.Nearsighted :=
  Grammar.nearsighted_of_ofDeclarations accepted (by decide)

/-- A letter and a name behind it are two words. -/
theorem rootParts_pair {grammar : Grammar} (describes : Describes grammar)
    (length : Nat) :
    ∃ part, RootParts grammar (pair length) (.symbol ⟨2⟩) 0
      [.item [(pair length).enclose ⟨2⟩ 0 1 2
        [TokenList.leafOf ⟨⟨0⟩, ⟨0, 1⟩, 2⟩]], part] := by
  have word : ∀ position token, (pair length).get? position = some token →
      token.symbol = ⟨0⟩ →
        Matches grammar (pair length) (.symbol ⟨2⟩) position
          (some ⟨position + 1, [(pair length).enclose ⟨2⟩ position
            (position + 1) token.examinedEnd [TokenList.leafOf token]]⟩)
          token.examinedEnd := by
    intro position token here same
    apply Matches.visible (isTerminal_word describes) (rule?_word describes)
      (isHidden_word describes) (Nat.succ_ne_self position)
    exact .token (isTerminal_name describes) here same
  have last := RootParts.item (Nat.lt_succ_self 1) (Nat.lt_succ_self 1)
    (word 1 _ rfl rfl) (@RootParts.done grammar (pair length) (.symbol ⟨2⟩) 2
      (Nat.le_refl 2))
  exact ⟨_, .item Nat.two_pos Nat.one_pos (word 0 _ rfl rfl) last⟩

variable {grammar : Grammar}
  (accepted : Grammar.ofDeclarations "words" declarations = .ok grammar)
  (describes : Describes grammar)

include accepted describes

theorem exists_first_word {tree : Tree} (faithful : tree.Faithful ⟨0, grammar⟩)
    {length : Nat} (read : grammar.tokenize tree.bytes = .ok (pair length)) :
    ∃ word, tree.root.Below 0 word ∧ word.symbol = ⟨2⟩ ∧ word.length = 1 ∧
      word.lookahead = 1 := by
  obtain ⟨part, rootParts⟩ := rootParts_pair describes length
  have contents := faithful.contentList_eq
    (Grammar.regular_of_ofDeclarations accepted) (nearsighted accepted) read
    (rule?_root describes) rootParts
  cases children : tree.root.children with
  | nil =>
      rw [children] at contents
      cases contents
  | cons placed rest =>
      rw [children] at contents
      obtain ⟨offset, word⟩ := placed
      have below : tree.root.Below offset word :=
        .child (children ▸ List.mem_cons_self)
      obtain ⟨same, _⟩ := List.cons.inj contents
      have starts : offset = 0 := congrArg Placed.offset same
      subst starts
      refine ⟨word, below, ?_⟩
      cases word
      have symbol := congrArg (fun placed => placed.item.symbol) same
      have length := congrArg (fun placed => placed.item.length) same
      have lookahead := congrArg (fun placed => placed.item.lookahead) same
      exact ⟨symbol, length, lookahead⟩

/-- An edit behind the word in front leaves it as it is, and the next parse
takes it over. -/
theorem first_word_kept {tree : Tree} {trees : List Tree} {supply : Nat}
    (history : History ⟨0, grammar⟩ trees supply) (member : tree ∈ trees)
    {word : Node} (below : tree.root.Below 0 word) (symbol : word.symbol = ⟨2⟩)
    (length : word.length = 1) (lookahead : word.lookahead = 1) {edit : Edit}
    (behind : 2 ≤ edit.start) {shell : Shell} {first next : Nat}
    (edited : tree.editAll [edit] first = .ok (shell, next))
    {text : List UInt8} {available : Nat} {later : Parsed}
    (found : (Parser.ofGrammar ⟨0, grammar⟩ ⟨true, true⟩).parse text
      (some shell) available = .ok later)
    (faithful : later.tree.Faithful ⟨0, grammar⟩) {rest : Nat}
    (read : grammar.tokenize text = .ok (pair rest)) :
    later.tree.root.Below 0 word := by
  have regular := Grammar.regular_of_ofDeclarations accepted
  have settled := (history.lineage regular).settled tree member
  have unaffected : edit.affects ⟨0, 0 + word.length⟩ word.lookahead =
      false := by
    rw [length, lookahead]
    exact Edit.affects_eq_false.mpr (.inl behind)
  have kept := (Shell.editedByAll_of_editAll edited).below_after
    settled.nested below (length ▸ Nat.one_pos) ⟨unaffected, trivial⟩
  have still : Edit.adjustAll [edit] 0 = 0 :=
    @Edit.adjust_of_lt edit 0 (Nat.lt_of_lt_of_le Nat.two_pos behind)
  rw [still] at kept
  have clean : word.damaged = false := (Node.everywhere_iff_below.mp
    (history.tidy regular tree member).undamaged).2 _ _ below
  obtain ⟨twin, belowTwin, symbolTwin, lengthTwin, _⟩ := exists_first_word
    accepted describes faithful ((Parser.bytes_of_parse found).symm ▸ read)
  have same : twin = word := by
    apply history.eq_of_undamaged regular member edited rfl rfl found belowTwin
      _ kept clean
    · rw [symbol, symbolTwin]
    · rw [length, lengthTwin]
    · rw [symbolTwin]
      decide
  rw [← same]
  exact belowTwin

omit accepted describes in
/-- A name gets longer twice.  Both times the word in front of it is taken over,
and the second time the tree is compared with one that is parsed from
scratch. -/
theorem longer_word_concurs :
    ∃ (grammar : Stamped Grammar) (first tree : Tree) (shell : Shell)
      (before supply edited : Nat) (word : Node) (later fresh : Parsed),
      Grammar.ofDeclarations "words" declarations = .ok grammar.value ∧
        ReachedClosely grammar first before ∧ first.bytes = [97, 32, 98] ∧
          ReachedClosely grammar tree supply ∧ tree.bytes = [97, 32, 98, 99] ∧
            tree.editAll [Edit.insert 4 1] supply = .ok (shell, edited) ∧
              (Parser.ofGrammar grammar ⟨true, true⟩).parse
                  [97, 32, 98, 99, 100] (some shell) (max supply edited) =
                    .ok later ∧
                (Parser.ofGrammar grammar ⟨true, true⟩).parse
                    [97, 32, 98, 99, 100] none 0 = .ok fresh ∧
                  later.tree.root.shape = fresh.tree.root.shape ∧
                    later.tree.root.Undamaged ∧ fresh.tree.root.Undamaged ∧
                      word.symbol = ⟨2⟩ ∧ first.root.Below 0 word ∧
                        tree.root.Below 0 word ∧
                          later.tree.root.Below 0 word := by
  obtain ⟨grammar, accepted, describes⟩ := exists_grammar
  have regular := Grammar.regular_of_ofDeclarations accepted
  have near := nearsighted accepted
  have read := @tokenize_pair grammar describes
  have readSecond := @read [98, 99] (.inr (.inl rfl))
  have readThird := @read [98, 99, 100] (.inr (.inr rfl))
  obtain ⟨first, _, bytes, reached, start⟩ :=
    @Reached.exists_first ⟨0, grammar⟩ _ (rule?_root describes) _ _
      (read (.inl rfl)) (by decide) ⟨true, true⟩
  have closely := reached.closely regular near
  obtain ⟨word, below, symbol, length, lookahead⟩ := exists_first_word accepted
    describes (closely.faithful regular) (bytes.symm ▸ read (.inl rfl))
  -- The name gets its second letter.
  have produced : EditsProduce [Edit.insert 3 1] first.tree.bytes
      [97, 32, 98, 99] := by
    rw [bytes]
    exact .cons ⟨by decide, by decide, [99], rfl, rfl⟩ (.nil _)
  obtain ⟨_, _, second, afterEdit, again, reachedSecond, history⟩ :=
    reached.exists_next regular start List.mem_cons_self (by rw [bytes]; rfl)
      produced readSecond ⟨true, true⟩
  have closelySecond := reachedSecond.closely regular near
  have bytesSecond := Parser.bytes_of_parse again
  have belowSecond := first_word_kept accepted describes start
    List.mem_cons_self below symbol length lookahead (by decide) afterEdit again
    (closelySecond.faithful regular) readSecond
  -- And then its third one.
  have producedThird : EditsProduce [Edit.insert 4 1] second.tree.bytes
      [97, 32, 98, 99, 100] := by
    rw [bytesSecond]
    exact .cons ⟨by decide, by decide, [100], rfl, rfl⟩ (.nil _)
  obtain ⟨shell, edited, third, afterEditThird, later, reachedThird, _⟩ :=
    reachedSecond.exists_next regular history List.mem_cons_self
      (by rw [bytesSecond]; rfl) producedThird readThird ⟨true, true⟩
  have belowThird := first_word_kept accepted describes history
    List.mem_cons_self belowSecond symbol length lookahead (by decide)
    afterEditThird later
    ((reachedThird.closely regular near).faithful regular) readThird
  obtain ⟨fresh, scratch, _, _, _⟩ :=
    @Reached.exists_first ⟨0, grammar⟩ _ (rule?_root describes) _ _ readThird
      (by decide) ⟨true, true⟩
  have concurs := @ReachedClosely.reparse_concurs "words" declarations
    ⟨0, grammar⟩ _ _ accepted closelySecond _ _ _ _ afterEditThird producedThird
    (Parser.ofGrammar ⟨0, grammar⟩ ⟨true, true⟩)
    (Parser.ofGrammar ⟨0, grammar⟩ ⟨true, true⟩) rfl rfl
    (max second.supply edited) 0
  rw [later, scratch] at concurs
  obtain ⟨shape, undamaged, undamagedToo⟩ := concurs
  exact ⟨⟨0, grammar⟩, first.tree, second.tree, shell, first.supply,
    second.supply, edited, word, third, fresh, accepted, closely, bytes,
    closelySecond, bytesSecond, afterEditThird, later, scratch, shape,
    undamaged, undamagedToo, symbol, below, belowSecond, belowThird⟩

end Words

end Reparse
