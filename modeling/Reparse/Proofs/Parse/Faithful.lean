import Reparse.Proofs.Parse.Roots
import Reparse.Proofs.Tree.Survival

/-!
# Faithful trees

A tree is faithful to a grammar if everything below its root is sound and its
root looks like that of every tree derived afresh from the same text.  What
edits leave undamaged in a faithful tree is sound in the new text, so that a
tree derived with such nodes at hand is faithful again.
-/

namespace Reparse

namespace Node

section

variable {grammar : Grammar} {text : List UInt8} {start : Nat} {node : Node}

theorem Sound.nested (sound : node.Sound grammar text start) :
    node.Nested := by
  induction sound with
  | node _ _ _ _ inside _ _ induction =>
      exact nested_iff.mpr ⟨inside, induction⟩

theorem Sound.allUndamaged (sound : node.Sound grammar text start) :
    node.Undamaged := by
  induction sound with
  | node undamaged _ _ _ _ _ _ induction =>
      exact everywhere_iff.mpr ⟨undamaged, induction⟩

/-- A node around others is not a token. -/
theorem Sound.accountable (sound : node.Sound grammar text start)
    {placed : Placed Node} (member : placed ∈ node.children) :
    node.Accountable grammar := by
  intro isTerminal
  rw [sound.leaf isTerminal] at member
  cases member

/-- What is accounted for below a sound node the node accounts for itself. -/
theorem Sound.covered (sound : node.Sound grammar text start) {offset : Nat}
    {inner : Node} (below : node.Below offset inner)
    (accountable : inner.Accountable grammar) :
    offset + inner.length + inner.lookahead ≤ node.length + node.lookahead := by
  induction below generalizing start with
  | child member =>
      cases sound with
      | node _ _ _ _ _ covers => exact covers _ member accountable
  | deeper member deeper induction =>
      cases sound with
      | node _ _ _ _ _ covers children =>
          have sound := children _ member
          obtain ⟨placed, inside, _⟩ := below_iff.mp deeper
          have outer := covers _ member (sound.accountable inside)
          have within := induction sound accountable
          simp only [Placed.stop] at outer
          omega

end

theorem undamaged_shape {node : Node} :
    node.shape.Undamaged ↔ node.Undamaged := by
  have children : ∀ placed : List (Placed Node),
      (∀ child ∈ placed, child.item.shape.Undamaged ↔ child.item.Undamaged) →
        ((∀ child ∈ shapeList placed, child.item.Undamaged) ↔
          ∀ child ∈ placed, child.item.Undamaged) := by
    intro placed
    induction placed with
    | nil =>
        intro _
        exact ⟨fun _ => List.forall_mem_nil _, fun _ => List.forall_mem_nil _⟩
    | cons first rest induction =>
        intro each
        simp only [shapeList, List.forall_mem_cons, each first
          List.mem_cons_self, induction fun child member =>
            each child (List.mem_cons_of_mem _ member)]
  induction node using induction_on_children with
  | step node induction =>
      have below := children node.children induction
      rw [Undamaged, Undamaged, everywhere_iff, everywhere_iff]
      cases node
      exact and_congr_right fun _ => below

end Node

/-- What a derivation with the nodes below `previous` at hand works with. -/
def Grammar.over (grammar : Grammar) (memoize : Bool) (previous : Option Node)
    (tokens : TokenList) : Setting :=
  ⟨grammar, tokens, previous, Catalogue.ofNode? previous, memoize⟩

/-- How a derived tree comes about. -/
structure Grammar.Grows (grammar : Stamped Grammar) (memoize : Bool)
    (text : List UInt8) (previous : Option Node) (tokens : TokenList)
    (rule : Rule Symbol) (tree : Tree) : Prop where
  read : grammar.value.tokenize text = .ok tokens
  known : grammar.value.rule? grammar.value.root = some rule
  derivedWith : tree.grammar = grammar
  bytes : tree.bytes = text
  symbol : tree.root.symbol = grammar.value.root
  length : tree.root.length = text.length
  lookahead : tree.root.lookahead = tokens.endExamined - text.length
  clean : tree.root.damaged = false
  children : ∃ supply,
    (grammar.value.over memoize previous tokens).RootRuns supply rule.rootItem 0
      none tree.root.children

namespace Grammar

variable {grammar : Stamped Grammar} {memoize : Bool} {text : List UInt8}
  {previous : Option Node} {version supply : Nat}

theorem grows_of_derive (regular : grammar.value.Regular) {parsed : Parsed}
    (derived : Grammar.derive grammar memoize text previous version supply =
      .ok parsed) :
    ∃ tokens rule,
      Grammar.Grows grammar memoize text previous tokens rule parsed.tree := by
  rw [Grammar.derive] at derived
  split at derived
  · cases derived
  · next tokens read =>
      split at derived
      · cases derived
      · next rule known =>
          cases derived
          have length := (readsOn_of_tokenize read).1
          refine ⟨tokens, rule, read, known, rfl, rfl, rfl, length, ?_, rfl,
            supply, ?_⟩
          · exact congrArg (tokens.endExamined - ·) length
          · exact @Setting.rootRuns_deriveRoot
              (grammar.value.over memoize previous tokens) text regular read
              grammar.value.root rule.rootItem supply

/-- Whether a text can be derived does not depend on the nodes at hand. -/
theorem derive_eq_error {error : ParseError}
    (refused : Grammar.derive grammar memoize text previous version supply =
      .error error) (memoizeToo : Bool) (previousToo : Option Node)
    (versionToo supplyToo : Nat) :
    Grammar.derive grammar memoizeToo text previousToo versionToo supplyToo =
      .error error := by
  rw [Grammar.derive] at refused ⊢
  split at refused
  · next read =>
      cases refused
      rfl
  · next tokens read =>
      split at refused
      · cases refused
        rfl
      · cases refused

/-- A text that can be read is derived. -/
theorem exists_derive {tokens : TokenList} {rule : Rule Symbol}
    (read : grammar.value.tokenize text = .ok tokens)
    (known : grammar.value.rule? grammar.value.root = some rule) :
    ∃ parsed, Grammar.derive grammar memoize text previous version supply =
      .ok parsed := by
  rw [Grammar.derive, read]
  simp only [known]
  exact ⟨_, rfl⟩

/-- Nodes at hand make no difference to what is derived. -/
theorem Grows.alike {memoizeToo : Bool} {tokens tokensToo : TokenList}
    {rule ruleToo : Rule Symbol} {tree fresh : Tree}
    (grows : Grows grammar memoize text previous tokens rule tree)
    (growsToo : Grows grammar memoizeToo text none tokensToo ruleToo fresh)
    (regular : grammar.value.Regular)
    (offers : (grammar.value.over memoize previous tokens).Offers text) :
    tree.root.shape = fresh.root.shape ∧
      (grammar.value.Nearsighted → tree.root.content = fresh.root.content) := by
  have sameTokens := grows.read.symm.trans growsToo.read
  have sameRule := grows.known.symm.trans growsToo.known
  cases sameTokens
  cases sameRule
  obtain ⟨supply, rootRuns⟩ := grows.children
  obtain ⟨supplyToo, rootRunsToo⟩ := growsToo.children
  have alike := rootRuns.alike_alone regular grows.read offers rootRunsToo
  have symbol := grows.symbol.trans growsToo.symbol.symm
  have length := grows.length.trans growsToo.length.symm
  have lookahead := grows.lookahead.trans growsToo.lookahead.symm
  have clean := grows.clean.trans growsToo.clean.symm
  have shapes := Setting.shapeList_eq alike
  have contents := fun nearsighted => Setting.contentList_eq nearsighted alike
  cases left : tree.root
  cases right : fresh.root
  simp only [left, right] at symbol length lookahead clean shapes contents
  subst symbol length lookahead clean
  refine ⟨?_, fun nearsighted => ?_⟩
  · simp only [Node.shape, shapes]
  · simp only [Node.content, contents nearsighted]

end Grammar

/-- Everything below the root is sound, and the root looks like every one that
is derived afresh from the same text. -/
structure Tree.Faithful (grammar : Stamped Grammar) (tree : Tree) : Prop where
  derivedWith : tree.grammar = grammar
  length : tree.root.length = tree.bytes.length
  clean : tree.root.damaged = false
  sound : ∀ placed ∈ tree.root.children,
    placed.item.Sound grammar.value tree.bytes placed.offset
  inside : ∀ placed ∈ tree.root.children, placed.stop ≤ tree.root.length
  afresh : ∀ memoize version supply, ∃ parsed,
    Grammar.derive grammar memoize tree.bytes none version supply =
        .ok parsed ∧
      tree.root.shape = parsed.tree.root.shape ∧
        (grammar.value.Nearsighted →
          tree.root.content = parsed.tree.root.content)

section

variable {grammar : Stamped Grammar}

/-- A tree derived with sound nodes at hand is faithful. -/
theorem faithful_of_derive (regular : grammar.value.Regular) {memoize : Bool}
    {text : List UInt8} {previous : Option Node} {version supply : Nat}
    {parsed : Parsed}
    (derived : Grammar.derive grammar memoize text previous version supply =
      .ok parsed)
    (offers : ∀ symbol start node,
      previous.bind (fun root => (root.search symbol start).found) =
        some node → node.Sound grammar.value text start)
    (anchored : ∀ tokens, grammar.value.tokenize text = .ok tokens →
      (grammar.value.over memoize previous tokens).Anchored) :
    parsed.tree.Faithful grammar := by
  obtain ⟨tokens, rule, grows⟩ := Grammar.grows_of_derive regular derived
  have offersHere :
      (grammar.value.over memoize previous tokens).Offers text := by
    intro symbol start node found
    rw [Setting.findReusable?_eq] at found
    exact offers symbol start node found
  obtain ⟨_, rootRuns⟩ := grows.children
  have sound := rootRuns.sound regular grows.read offersHere
    (anchored tokens grows.read)
  have bytes := grows.bytes
  subst bytes
  refine ⟨grows.derivedWith, grows.length, grows.clean,
    fun placed member => (sound placed member).1, fun placed member => ?_, ?_⟩
  · rw [grows.length]
    exact (sound placed member).2
  · intro memoizeToo versionToo supplyToo
    cases again : Grammar.derive grammar memoizeToo parsed.tree.bytes none
      versionToo supplyToo with
    | error error =>
        have refused := Grammar.derive_eq_error again memoize previous version
          supply
        rw [derived] at refused
        cases refused
    | ok fresh =>
        obtain ⟨_, _, growsToo⟩ := Grammar.grows_of_derive regular again
        exact ⟨fresh, rfl, grows.alike growsToo regular offersHere⟩

/-- A tree derived afresh is faithful. -/
theorem faithful_of_derive_none (regular : grammar.value.Regular)
    {memoize : Bool} {text : List UInt8} {version supply : Nat}
    {parsed : Parsed}
    (derived : Grammar.derive grammar memoize text none version supply =
      .ok parsed) : parsed.tree.Faithful grammar := by
  refine faithful_of_derive regular derived ?_ fun tokens _ =>
    @Setting.anchored_alone (grammar.value.over memoize none tokens) memoize
  intro symbol start node offered
  cases offered

/-- A text that is not too long is derived. -/
theorem Parser.parse_none {parser : Parser} {text : List UInt8} {supply : Nat}
    (known : parser.grammar = grammar)
    (fits : text.length ≤ Parser.longestText) :
    parser.parse text none supply =
      Grammar.derive grammar parser.options.memoize text none 0 supply := by
  have looked : Parser.refusal? text none = none := by
    apply Parser.refusal?_eq_none_iff.mpr
    exact ⟨fits, fun _ impossible => by cases impossible⟩
  rw [Parser.parse, looked, ← known]
  rfl

/-- A text that can be read is parsed, unless it is too long or the edits lead
to one of another length. -/
theorem Parser.exists_parse {parser : Parser} {text : List UInt8}
    {previous : Option Shell} {supply : Nat} {tokens : TokenList}
    {rule : Rule Symbol}
    (read : parser.grammar.value.tokenize text = .ok tokens)
    (ruled : parser.grammar.value.rule? parser.grammar.value.root = some rule)
    (fits : text.length ≤ longestText)
    (agrees : ∀ shell, previous = some shell → shell.length = text.length) :
    ∃ parsed, parser.parse text previous supply = .ok parsed := by
  rw [parse, refusal?_eq_none_iff.mpr ⟨fits, agrees⟩]
  simp only
  split
  · exact Grammar.exists_derive read ruled
  · split
    · exact ⟨_, rfl⟩
    · exact Grammar.exists_derive read ruled

theorem Parser.derive_of_parse_none {parser : Parser} {text : List UInt8}
    {supply : Nat} {parsed : Parsed} (known : parser.grammar = grammar)
    (found : parser.parse text none supply = .ok parsed) :
    Grammar.derive grammar parser.options.memoize text none 0 supply =
      .ok parsed :=
  (Parser.parse_none known (Parser.fits_of_parse found)).symm.trans found

namespace Tree

variable {tree : Tree} (faithful : tree.Faithful grammar)

include faithful

theorem Faithful.undamaged : tree.root.Undamaged :=
  Node.everywhere_iff.mpr ⟨faithful.clean,
    fun placed member => (faithful.sound placed member).allUndamaged⟩

/-- What lies below the root is sound. -/
theorem Faithful.below {offset : Nat} {node : Node}
    (below : tree.root.Below offset node) :
    node.Sound grammar.value tree.bytes offset := by
  obtain ⟨placed, member, ⟨rfl, rfl⟩ | ⟨inner, rfl, deeper⟩⟩ :=
    Node.below_iff.mp below
  · exact faithful.sound placed member
  · exact (faithful.sound placed member).inner deeper

theorem Faithful.nested : tree.root.Nested :=
  Node.nested_iff.mpr ⟨faithful.inside,
    fun placed member => (faithful.sound placed member).nested⟩

theorem Faithful.guarded :
    tree.root.Guarded fun node =>
      node.Accountable grammar.value ∧ 0 < node.length := by
  intro offset outer belowRoot further inner below _ tracked
  exact (faithful.below belowRoot).covered below tracked.1

/-- What edits leave undamaged is sound where it is met in the new text. -/
theorem Faithful.sound_of_search {edits : List Edit} {shell : Shell}
    {supply next : Nat} {text : List UInt8}
    (edited : tree.editAll edits supply = .ok (shell, next))
    (produced : EditsProduce edits tree.bytes text) {symbol : Symbol}
    {start : Nat} {node : Node}
    (found : (shell.root.search symbol start).found = some node) :
    node.Sound grammar.value text start := by
  have chain := Shell.editedByAll_of_editAll edited
  obtain ⟨below, _, undamaged, filled⟩ := Node.below_of_search found
  obtain ⟨offset, belowBase, kept⟩ := chain.below_before
    (fun _ tracked => tracked.2) faithful.nested faithful.guarded below
    undamaged
  refine (faithful.below belowBase).moved fun accountable => ?_
  obtain ⟨rfl, untouched⟩ := kept ⟨accountable, filled⟩
  exact Edit.agreeFor_of_untouched chain.fitAll produced filled
    (belowBase.within faithful.nested).1 untouched

end Tree

end

end Reparse
