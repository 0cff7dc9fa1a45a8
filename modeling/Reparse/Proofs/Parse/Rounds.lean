import Reparse.Parse.History
import Reparse.Proofs.Parse.Faithful

/-!
# Rounds of edits and parses

A node accounts for the bytes up to its end and its lookahead, but the bytes
that were examined for extras in front of its first token are not among them.  A
round in which no node is taken over at a token that was examined further than
the node accounts for leaves a faithful tree faithful.  After such rounds every
parse gives what a parse from scratch gives.
-/

namespace Reparse

/-- No node that may be taken over begins at a token for which more bytes were
examined than the node accounts for. -/
def Node.AnchoredIn (root : Node) (grammar : Grammar) (tokens : TokenList) :
    Prop :=
  ∀ ⦃symbol : Symbol⦄ ⦃rule : Rule Symbol⦄ ⦃index next : Nat⦄ ⦃token : Token⦄
    ⦃node : Node⦄,
    grammar.isTerminal symbol = false →
    grammar.rule? symbol = some rule →
    tokens.get? index = some token →
    (root.search symbol token.span.start).found = some node →
    tokens.indexAfter? (token.span.start + node.length) = some next →
    token.examinedEnd ≤ token.span.start + node.length + node.lookahead

/-- The tree was derived in an honest history, and no parse in it took over
nodes at tokens that were examined further than the nodes account for. -/
inductive ReachedClosely (grammar : Stamped Grammar) : Tree → Nat → Prop where
  | parsed {parser : Parser} {text : List UInt8} {supply : Nat}
      {parsed : Parsed} :
      parser.grammar = grammar →
      parser.parse text none supply = .ok parsed →
      ReachedClosely grammar parsed.tree parsed.supply
  | reparsed {parser : Parser} {tree : Tree} {edits : List Edit}
      {shell : Shell} {text : List UInt8} {before edited available : Nat}
      {parsed : Parsed} :
      ReachedClosely grammar tree before →
      tree.editAll edits before = .ok (shell, edited) →
      EditsProduce edits tree.bytes text → edited ≤ available →
      parser.grammar = grammar →
      parser.parse text (some shell) available = .ok parsed →
      (parser.options.incremental = true →
        ∀ tokens, grammar.value.tokenize text = .ok tokens →
          shell.root.AnchoredIn grammar.value tokens) →
      ReachedClosely grammar parsed.tree parsed.supply

theorem ReachedClosely.reached {grammar : Stamped Grammar} {tree : Tree}
    {supply : Nat} (closely : ReachedClosely grammar tree supply) :
    Reached grammar tree supply := by
  induction closely with
  | parsed known parsed => exact .parsed known parsed
  | reparsed _ edited produced fresh known parsed _ induction =>
      exact .reparsed induction edited produced fresh known parsed

/-- Both are refused for the same reason, or give trees that look the same and
have no damage. -/
def Concurs (grammar : Grammar) :
    Except ParseError Parsed → Except ParseError Parsed → Prop
  | .ok parsed, .ok fresh =>
      (parsed.tree.root.shape = fresh.tree.root.shape ∧
        (grammar.Nearsighted →
          parsed.tree.root.content = fresh.tree.root.content)) ∧
        parsed.tree.root.Undamaged
  | .error error, .error other => error = other
  | _, _ => False

/-- A derivation with sound nodes at hand gives what one without them gives. -/
theorem concurs_of_derive {grammar : Stamped Grammar}
    (regular : grammar.value.Regular) {memoize memoizeToo : Bool}
    {text : List UInt8} {previous : Option Node}
    {version versionToo supply supplyToo : Nat}
    (offers : ∀ symbol start node,
      previous.bind (fun root => (root.search symbol start).found) =
        some node → node.Sound grammar.value text start) :
    Concurs grammar.value
      (Grammar.derive grammar memoize text previous version supply)
      (Grammar.derive grammar memoizeToo text none versionToo supplyToo) := by
  cases derived : Grammar.derive grammar memoize text previous version supply
    with
  | error error =>
      rw [Grammar.derive_eq_error derived]
      exact rfl
  | ok parsed =>
      cases again : Grammar.derive grammar memoizeToo text none versionToo
        supplyToo with
      | error error =>
          rw [Grammar.derive_eq_error again] at derived
          cases derived
      | ok fresh =>
          obtain ⟨tokens, _, grows⟩ := Grammar.grows_of_derive regular derived
          obtain ⟨_, _, growsToo⟩ := Grammar.grows_of_derive regular again
          have alike := grows.alike growsToo regular (by
            intro symbol start node found
            rw [Setting.findReusable?_eq] at found
            exact offers symbol start node found)
          have undamaged := (faithful_of_derive_none regular again).undamaged
          rw [← Node.undamaged_shape, ← alike.1, Node.undamaged_shape]
            at undamaged
          exact ⟨alike, undamaged⟩

/-- Edits lead to no shell that is longer than a text that is parsed. -/
theorem Shell.length_le_of_editAll {before after : Shell} {edits : List Edit}
    {supply next : Nat}
    (edited : before.editAll edits supply = .ok (after, next))
    (fits : edits = [] → before.length ≤ Parser.longestText) :
    after.length ≤ Parser.longestText := by
  induction edits generalizing before supply with
  | nil =>
      cases edited
      exact fits rfl
  | cons edit edits induction =>
      rw [editAll] at edited
      obtain ⟨⟨middle, available⟩, first, later⟩ := bind_eq_ok.mp edited
      apply induction later
      intro _
      rw [(editedBy_of_edit first).length]
      rw [Shell.edit] at first
      obtain ⟨_, accepted, _⟩ := bind_eq_ok.mp first
      exact Edit.resultLength_le_of_check accepted

namespace Parser

variable {grammar : Stamped Grammar} {parser : Parser} {text : List UInt8}
  {supply : Nat}

theorem bytes_of_parse {previous : Option Shell} {parsed : Parsed}
    (found : parser.parse text previous supply = .ok parsed) :
    parsed.tree.bytes = text := by
  have derived : ∀ {root : Option Node} {version : Nat},
      Grammar.derive parser.grammar parser.options.memoize text root version
        supply = .ok parsed → parsed.tree.bytes = text := by
    intro root version derived
    rw [Grammar.derive] at derived
    split at derived
    · cases derived
    · split at derived
      · cases derived
      · cases derived
        rfl
  rw [parse] at found
  split at found
  · cases found
  · simp only at found
    split at found
    · exact derived found
    · split at found
      · next unchanged =>
          rw [Bool.and_eq_true] at unchanged
          cases found
          exact eq_of_beq unchanged.2
      · exact derived found

theorem fits_tree_of_parse {previous : Option Shell} {parsed : Parsed}
    (found : parser.parse text previous supply = .ok parsed) :
    parsed.tree.bytes.length ≤ longestText := by
  rw [bytes_of_parse found]
  exact fits_of_parse found

/-- A text of the length of the shell is looked at when it is not too long. -/
theorem refusal?_eq_none {shell : Shell} (fits : text.length ≤ longestText)
    (length : shell.length = text.length) :
    refusal? text (some shell) = none := by
  apply refusal?_eq_none_iff.mpr
  refine ⟨fits, ?_⟩
  intro other same
  cases same
  exact length

section

variable {tree : Tree} {edits : List Edit} {shell : Shell}
  {before edited available : Nat}
  (afterEdits : tree.editAll edits before = .ok (shell, edited))
  (produced : EditsProduce edits tree.bytes text)
  (known : parser.grammar = grammar)

include afterEdits produced known

/-- A parse after edits gives the tree back as it is, or derives a tree without
or with the edited tree at hand. -/
theorem parse_some (whole : tree.root.length = tree.bytes.length)
    (fits : text.length ≤ longestText) :
    (text = tree.bytes ∧
        parser.parse text (some shell) available =
          .ok ⟨tree, ⟨1, 0⟩, available⟩) ∨
      (∃ version, parser.parse text (some shell) available =
          Grammar.derive grammar parser.options.memoize text none version
            available) ∨
        parser.options.incremental = true ∧
          ∃ version, parser.parse text (some shell) available =
            Grammar.derive grammar parser.options.memoize text
              (some shell.root) version available := by
  have chain := Shell.editedByAll_of_editAll afterEdits
  rw [parse, refusal?_eq_none fits (chain.length produced whole), known]
  simp only
  cases usable : parser.usable? (some shell) with
  | none => exact .inr (.inl ⟨_, rfl⟩)
  | some other =>
      rw [usable?, Option.filter_eq_some_iff] at usable
      obtain ⟨same, mayUse⟩ := usable
      cases same
      rw [Bool.and_eq_true] at mayUse
      simp only
      split
      · next unchanged =>
          rw [Bool.and_eq_true, beq_iff_eq, chain.base] at unchanged
          rw [chain.base]
          exact .inl ⟨unchanged.2.symm, rfl⟩
      · exact .inr (.inr ⟨mayUse.1, _, rfl⟩)

omit known in
theorem fits_of_editAll (whole : tree.root.length = tree.bytes.length)
    (fits : tree.bytes.length ≤ longestText) : text.length ≤ longestText := by
  have chain := Shell.editedByAll_of_editAll afterEdits
  rw [← chain.length produced whole]
  apply Shell.length_le_of_editAll afterEdits
  intro _
  exact Nat.le_trans (Nat.le_of_eq whole) fits

/-- A text that can be read is parsed after the edits that lead to it. -/
theorem exists_parse_some (whole : tree.root.length = tree.bytes.length)
    (fits : tree.bytes.length ≤ longestText) {tokens : TokenList}
    (lexable : grammar.value.tokenize text = .ok tokens) {rule : Rule Symbol}
    (rooted : grammar.value.rule? grammar.value.root = some rule) :
    ∃ parsed, parser.parse text (some shell) available = .ok parsed := by
  subst known
  apply exists_parse lexable rooted
    (fits_of_editAll afterEdits produced whole fits)
  intro other same
  cases same
  exact (Shell.editedByAll_of_editAll afterEdits).length produced whole

end

section

variable {tree : Tree} {edits : List Edit} {shell : Shell}
  {before edited available : Nat} (faithful : tree.Faithful grammar)
  (afterEdits : tree.editAll edits before = .ok (shell, edited))
  (produced : EditsProduce edits tree.bytes text)
  (known : parser.grammar = grammar)

include faithful afterEdits produced known

/-- A faithful tree is followed by a faithful tree. -/
theorem faithful_of_parse (regular : grammar.value.Regular) {parsed : Parsed}
    (found : parser.parse text (some shell) available = .ok parsed)
    (anchored : parser.options.incremental = true →
      ∀ tokens, grammar.value.tokenize text = .ok tokens →
        shell.root.AnchoredIn grammar.value tokens) :
    parsed.tree.Faithful grammar := by
  rcases @parse_some _ _ _ _ _ _ _ _ available afterEdits produced known
    faithful.length (fits_of_parse found) with
    ⟨_, same⟩ | ⟨version, same⟩ | ⟨incremental, version, same⟩
  · rw [same] at found
    cases found
    exact faithful
  · rw [same] at found
    exact faithful_of_derive_none regular found
  · rw [same] at found
    apply faithful_of_derive regular found
    · intro symbol start node offered
      exact faithful.sound_of_search afterEdits produced offered
    · intro tokens read symbol rule position next examined node placed
        notTerminal hasRule offered
      obtain ⟨token, here, offer, _, rfl, _, _, _⟩ :=
        Setting.edge_of_reusable? read offered
      obtain ⟨_, _, hereToo, _, boundary, _⟩ :=
        Setting.reusable?_eq_some offered
      have sameToken := Option.some.inj (here.symm.trans hereToo)
      subst sameToken
      rw [Setting.findReusable?_eq] at offer
      have close := anchored incremental tokens read notTerminal hasRule here
        offer boundary
      simp only [TokenList.examinedEnd, here]
      exact close

/-- A parse after edits of a faithful tree gives what a parse from scratch
gives. -/
theorem concurs_of_parse (regular : grammar.value.Regular) {full : Parser}
    (fullKnown : full.grammar = grammar) :
    Concurs grammar.value (parser.parse text (some shell) available)
      (full.parse text none supply) := by
  rcases Nat.lt_or_ge longestText text.length with long | fits
  · rw [parse_of_long long, parse_of_long long]
    exact rfl
  rw [parse_none fullKnown fits]
  rcases @parse_some _ _ _ _ _ _ _ _ available afterEdits produced known
    faithful.length fits with
    ⟨rfl, same⟩ | ⟨version, same⟩ | ⟨incremental, version, same⟩
  · obtain ⟨fresh, derived, alike⟩ :=
      faithful.afresh full.options.memoize 0 supply
    rw [same, derived]
    exact ⟨alike, faithful.undamaged⟩
  · rw [same]
    apply concurs_of_derive regular
    intro symbol start node offered
    cases offered
  · rw [same]
    refine concurs_of_derive regular fun symbol start node offered => ?_
    exact faithful.sound_of_search afterEdits produced offered

end

end Parser

section

variable {grammar : Stamped Grammar} {tree : Tree} {supply : Nat}

theorem Reached.fits (reached : Reached grammar tree supply) :
    tree.bytes.length ≤ Parser.longestText := by
  cases reached with
  | parsed _ found => exact Parser.fits_tree_of_parse found
  | reparsed _ _ _ _ _ found => exact Parser.fits_tree_of_parse found

theorem History.fits {trees : List Tree}
    (history : History grammar trees supply) :
    ∀ tree ∈ trees, tree.bytes.length ≤ Parser.longestText := by
  induction history with
  | start => exact List.forall_mem_nil _
  | parsed _ _ _ found induction =>
      have fits := Parser.fits_tree_of_parse found
      exact List.forall_mem_cons.mpr ⟨fits, induction⟩
  | reparsed _ _ _ _ _ _ found induction =>
      have fits := Parser.fits_tree_of_parse found
      exact List.forall_mem_cons.mpr ⟨fits, induction⟩

/-- Trees that are reached without taking nodes over too early are faithful. -/
theorem ReachedClosely.faithful
    (closely : ReachedClosely grammar tree supply)
    (regular : grammar.value.Regular) : tree.Faithful grammar := by
  induction closely with
  | parsed known found =>
      have derived := Parser.derive_of_parse_none known found
      exact faithful_of_derive_none regular derived
  | reparsed _ edited produced _ known found anchored induction =>
      exact Parser.faithful_of_parse induction edited produced known regular
        found anchored

/-- A text that can be read begins a history. -/
theorem Reached.exists_first {rule : Rule Symbol}
    (rooted : grammar.value.rule? grammar.value.root = some rule)
    {text : List UInt8} {tokens : TokenList}
    (read : grammar.value.tokenize text = .ok tokens)
    (fits : text.length ≤ Parser.longestText) (options : ParserOptions) :
    ∃ parsed,
      (Parser.ofGrammar grammar options).parse text none 0 = .ok parsed ∧
        parsed.tree.bytes = text ∧
          Reached grammar parsed.tree parsed.supply ∧
            History grammar [parsed.tree] parsed.supply := by
  obtain ⟨parsed, found⟩ := @Parser.exists_parse
    (Parser.ofGrammar grammar options) text none 0 tokens rule read rooted fits
    (fun _ impossible => nomatch impossible)
  refine ⟨parsed, found, Parser.bytes_of_parse found, .parsed rfl found, ?_⟩
  exact .parsed (.start 0) (Nat.le_refl 0) rfl found

/-- With a grammar that reads tokens without looking far ahead, a node accounts
for all that is examined for its first token. -/
theorem Tree.Faithful.anchoredIn (faithful : tree.Faithful grammar)
    (regular : grammar.value.Regular)
    (nearsighted : grammar.value.Nearsighted) {edits : List Edit}
    {shell : Shell} {text : List UInt8} {edited : Nat}
    (afterEdits : tree.editAll edits supply = .ok (shell, edited))
    (produced : EditsProduce edits tree.bytes text) {tokens : TokenList}
    (read : grammar.value.tokenize text = .ok tokens) :
    shell.root.AnchoredIn grammar.value tokens := by
  intro symbol rule index next token node notTerminal known here found _
  obtain ⟨_, rfl, _, _⟩ := Node.below_of_search found
  have sound := faithful.sound_of_search afterEdits produced found
  have named : node.symbol ≠ Symbol.error := by
    intro same
    rw [same, regular.unruled] at known
    cases known
  have determined := sound.determined
    (fun isTerminal => by
      rw [notTerminal] at isTerminal
      cases isTerminal) named
  let alone := grammar.value.over false none tokens
  have within : index ≤ alone.tokens.size :=
    Nat.le_of_lt (TokenList.lt_size_of_get? here)
  obtain ⟨outcome, examined, runs⟩ :=
    @Setting.exists_runs alone regular (Setting.onward_of_tokenize read) 0
      (.symbol node.symbol) index
  obtain ⟨_, _, same, moved, _, _, _, exact⟩ :=
    determined read here (AgreeFor.refl _ _) (runs.matched rfl)
  obtain ⟨foundMatch, rfl, content⟩ := Option.map_eq_some_iff.mp same
  have anchored : alone.Anchored := @Setting.anchored_alone alone false
  have bound := runs.examinedEnd_le read (anchored.upTo examined) within rfl
    (by
      rw [RuleMatch.content, RuleMatch.mk.injEq] at content
      rw [content.1]
      exact moved) (Nat.le_refl _)
  have recorded : alone.tokens.examinedEnd index = token.examinedEnd :=
    TokenList.examinedEnd_of_get? here
  rw [recorded, (exact nearsighted).2] at bound
  exact bound

/-- With such a grammar no node is ever taken over too early. -/
theorem Reached.closely (reached : Reached grammar tree supply)
    (regular : grammar.value.Regular)
    (nearsighted : grammar.value.Nearsighted) :
    ReachedClosely grammar tree supply := by
  induction reached with
  | parsed known found => exact .parsed known found
  | reparsed _ edited produced fresh known found induction =>
      exact .reparsed induction edited produced fresh known found
        fun _ _ read =>
          (induction.faithful regular).anchoredIn regular nearsighted edited
            produced read

/-- With such a grammar every parse of an edited tree finds the contents that a
parse from scratch finds, lookaheads included. -/
theorem Reached.reparse_content (reached : Reached grammar tree supply)
    (regular : grammar.value.Regular)
    (nearsighted : grammar.value.Nearsighted) {rule : Rule Symbol}
    (rooted : grammar.value.rule? grammar.value.root = some rule)
    {edits : List Edit} {shell : Shell} {text : List UInt8} {edited : Nat}
    (afterEdits : tree.editAll edits supply = .ok (shell, edited))
    (produced : EditsProduce edits tree.bytes text) {tokens : TokenList}
    (lexable : grammar.value.tokenize text = .ok tokens)
    {parser full : Parser} (known : parser.grammar = grammar)
    (fullKnown : full.grammar = grammar) (available afresh : Nat) :
    ∃ later fresh,
      parser.parse text (some shell) available = .ok later ∧
        full.parse text none afresh = .ok fresh ∧
          later.tree.root.content = fresh.tree.root.content := by
  have faithful := (reached.closely regular nearsighted).faithful regular
  have concurs := @Parser.concurs_of_parse _ _ _ afresh _ _ _ _ _ available
    faithful afterEdits produced known regular full fullKnown
  have fits := Parser.fits_of_editAll afterEdits produced faithful.length
    reached.fits
  obtain ⟨fresh, scratch⟩ : ∃ fresh, full.parse text none afresh = .ok fresh :=
    by
      rw [Parser.parse_none fullKnown fits]
      exact Grammar.exists_derive lexable rooted
  obtain ⟨later, incremental⟩ := @Parser.exists_parse_some _ _ _ _ _ _ _ _
    available afterEdits produced known faithful.length reached.fits _ lexable
    _ rooted
  rw [incremental, scratch] at concurs
  obtain ⟨⟨_, contents⟩, _⟩ := concurs
  exact ⟨later, fresh, incremental, scratch, contents nearsighted⟩

end

end Reparse
