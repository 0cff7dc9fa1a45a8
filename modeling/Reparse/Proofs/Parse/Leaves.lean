import Reparse.Proofs.Parse.Extents
import Reparse.Proofs.Parse.Reuse
import Reparse.Proofs.Token.Prefix

/-!
# Leaves in front of an edit

A tree derived with a grammar that does not look far ahead has one leaf for each
token of its text, and the leaf accounts for what was examined for the token.
Two such trees whose texts begin alike have the same tokens there.  So a leaf
that accounts for nothing behind the start of an edit had its token before, the
edit leaves the old leaf where it was, and the next derivation takes it over.
-/

namespace Reparse

namespace Node

/-- The leaf has the symbol and the bytes of the token, and accounts for all
that was examined for it. -/
structure StandsFor (token : Token) (place : Nat) (node : Node) : Prop where
  starts : place = token.span.start
  symbol : node.symbol = token.symbol
  length : node.length = token.span.length
  childless : node.children = []
  reach : place + node.length + node.lookahead = token.examinedEnd

/-- The nodes without children below the root stand for the tokens, and every
token has one. -/
structure LeavesFor (tokens : TokenList) (root : Node) : Prop where
  token : ∀ {place : Nat} {node : Node}, root.Below place node →
    node.children = [] → ∃ index token, tokens.get? index = some token ∧
      node.StandsFor token place
  leaf : ∀ {index : Nat} {token : Token}, tokens.get? index = some token →
    ∃ node, root.Below token.span.start node ∧
      node.StandsFor token token.span.start

/-- The leaves of a tree are the nodes below its root that have no children. -/
theorem mem_leaves_iff {root : Node} {leaf : Placed Node} :
    leaf ∈ root.leaves ↔
      root.Below leaf.offset leaf.item ∧ leaf.item.children = [] := by
  constructor
  · exact below_of_mem_leaves
  · rintro ⟨below, childless⟩
    obtain ⟨placed, member, place⟩ := below_iff.mp below
    have visited : ∃ level, (⟨level, leaf.offset, leaf.item⟩ : Visit) ∈
        placed.item.preorder 1 (0 + placed.offset) := by
      rcases place with ⟨same, item⟩ | ⟨inner, same, deeper⟩
      · rw [preorder_eq, Nat.zero_add, same, item]
        exact ⟨1, List.mem_cons_self⟩
      · rw [same, Nat.zero_add]
        exact deeper.mem_preorder 1 placed.offset
    obtain ⟨level, visited⟩ := visited
    rw [leaves, visits_eq, preorder_eq, List.tail_cons]
    apply List.mem_map.mpr
    refine ⟨_, List.mem_filter.mpr ⟨mem_preorderList member visited, ?_⟩, rfl⟩
    exact List.isEmpty_iff.mpr childless

section

variable {left right node : Node}

theorem exists_of_contentList {lefts rights : List (Placed Node)}
    (same : contentList lefts = contentList rights) {placed : Placed Node}
    (member : placed ∈ lefts) :
    ∃ twin ∈ rights, twin.offset = placed.offset ∧
      twin.item.content = placed.item.content := by
  induction lefts generalizing rights with
  | nil => cases member
  | cons first rest induction =>
      cases rights with
      | nil => cases same
      | cons twin twins =>
          simp only [contentList, List.cons.injEq, Placed.mk.injEq] at same
          obtain ⟨⟨offset, content⟩, later⟩ := same
          rcases List.mem_cons.mp member with rfl | inside
          · exact ⟨twin, List.mem_cons_self, offset.symm, content.symm⟩
          · obtain ⟨other, memberOther, alike⟩ := induction later inside
            exact ⟨other, List.mem_cons_of_mem _ memberOther, alike⟩

/-- Trees of one content have alike nodes at the same places. -/
theorem Below.of_content {place : Nat} (below : left.Below place node)
    (same : left.content = right.content) :
    ∃ twin, right.Below place twin ∧ twin.content = node.content := by
  induction below generalizing right with
  | child member =>
      obtain ⟨twin, memberTwin, offset, content⟩ :=
        exists_of_contentList (contentList_of_content same) member
      rw [← offset]
      exact ⟨twin.item, .child memberTwin, content⟩
  | deeper member _ induction =>
      obtain ⟨twin, memberTwin, offset, content⟩ :=
        exists_of_contentList (contentList_of_content same) member
      obtain ⟨inner, below, alike⟩ := induction content.symm
      rw [← offset]
      exact ⟨inner, .deeper memberTwin below, alike⟩

theorem childless_of_content (same : left.content = right.content)
    (childless : left.children = []) : right.children = [] := by
  have lengths := congrArg List.length (contentList_of_content same)
  rw [length_contentList, length_contentList, childless] at lengths
  exact List.length_eq_zero_iff.mp lengths.symm

theorem StandsFor.of_content {token : Token} {place : Nat}
    (stands : left.StandsFor token place)
    (same : left.content = right.content) : right.StandsFor token place := by
  have childless := childless_of_content same stands.childless
  obtain ⟨starts, symbol, length, _, reach⟩ := stands
  cases left
  cases right
  simp only [content, Node.mk.injEq] at same
  obtain ⟨_, rfl, rfl, rfl, _⟩ := same
  exact ⟨starts, symbol, length, childless, reach⟩

theorem LeavesFor.of_content {tokens : TokenList}
    (leavesFor : left.LeavesFor tokens)
    (same : left.content = right.content) : right.LeavesFor tokens := by
  constructor
  · intro place node below childless
    obtain ⟨twin, belowTwin, content⟩ := below.of_content same.symm
    obtain ⟨index, token, here, stands⟩ := leavesFor.token belowTwin
      (childless_of_content content.symm childless)
    exact ⟨index, token, here, stands.of_content content⟩
  · intro index token here
    obtain ⟨node, below, stands⟩ := leavesFor.leaf here
    obtain ⟨twin, belowTwin, content⟩ := below.of_content same
    exact ⟨twin, belowTwin, stands.of_content content.symm⟩

end

end Node

/-- No two tokens begin at the same place. -/
theorem TokenList.InOrder.index_eq {list : TokenList} (ordered : list.InOrder)
    {left right : Nat} {first second : Token}
    (here : list.get? left = some first)
    (there : list.get? right = some second)
    (same : first.span.start = second.span.start) : left = right := by
  have filled := ordered.filled left first here
  have filledToo := ordered.filled right second there
  rcases Nat.lt_trichotomy left right with before | equal | after
  · have apart := ordered.apart left right first second before here there
    omega
  · exact equal
  · have apart := ordered.apart right left second first after there here
    omega

/-! ## One leaf for each token -/

namespace Setting

/-- Every node of a terminal symbol stands for a token. -/
theorem upholds_standsFor {setting : Setting} {supply : Nat}
    {text : List UInt8}
    (read : setting.grammar.tokenize text = .ok setting.tokens)
    (nothing : ∀ symbol start, setting.findReusable? symbol start = none) :
    setting.Upholds supply fun start node =>
      setting.grammar.isTerminal node.symbol = true →
        ∃ index token, setting.tokens.get? index = some token ∧
          node.StandsFor token start := by
  constructor
  case offered =>
    intro symbol start node found
    rw [nothing] at found
    cases found
  case leaf =>
    intro index stamp token here _ _
    have bounds := Grammar.span_bounds read here
    refine ⟨index, token, here, rfl, rfl, rfl, rfl, ?_⟩
    simp only [Node.leaf, Span.length]
    omega
  case enclosed =>
    intro symbol rule position next examined stamp nodes notTerminal _ _ _ _ _
      (isTerminal : setting.grammar.isTerminal symbol = true)
    rw [notTerminal] at isTerminal
    cases isTerminal
  case unexpected =>
    intro first stop placed within errorsFor isTerminal
    obtain ⟨_, isError, _⟩ := errorsFor.reach read nothing within
    exact absurd isError (Grammar.ne_error_of_isTerminal isTerminal)

end Setting

namespace Grammar

variable {grammar : Stamped Grammar} {memoize : Bool} {text : List UInt8}
  {version supply : Nat} {parsed : Parsed}

/-- A tree derived afresh has one leaf for each token. -/
theorem leavesFor_of_derive_none (regular : grammar.value.Regular)
    (derived : Grammar.derive grammar memoize text none version supply =
      .ok parsed)
    {tokens : TokenList} (read : grammar.value.tokenize text = .ok tokens) :
    parsed.tree.root.LeavesFor tokens := by
  obtain ⟨others, item, readOthers, root⟩ := exists_of_derive derived
  cases read.symm.trans readOthers
  obtain ⟨others, rule, grows⟩ := grows_of_derive regular derived
  cases read.symm.trans grows.read
  obtain ⟨_, rootRuns⟩ := grows.children
  have nothing := @Setting.findReusable?_alone
    (grammar.value.over memoize none tokens) memoize
  have spellsOut := (rootRuns.spelledBy read nothing (Nat.zero_le _)).spellsOut
    read grows.length
  have terminal : ∀ {place node}, parsed.tree.root.Below place node →
      grammar.value.isTerminal node.symbol = true →
        ∃ index token, tokens.get? index = some token ∧
          node.StandsFor token place := by
    intro place node below
    rw [root] at below
    exact (@Setting.upholds_standsFor
      (grammar.value.over memoize none tokens) supply text read
      nothing).below_deriveRoot read regular below
  have isTerminal : ∀ {index token}, tokens.get? index = some token →
      grammar.value.isTerminal token.symbol = true := by
    intro index token here
    exact @Setting.isTerminal_of_get? (grammar.value.over memoize none tokens)
      text regular read index token here
  have ordered := TokenList.inOrder_of_tokenize read
  constructor
  · intro place node below childless
    have inLeaves : ⟨place, node⟩ ∈ parsed.tree.root.leaves :=
      Node.mem_leaves_iff.mpr ⟨below, childless⟩
    have member := List.mem_map_of_mem (f := Placed.reading) inLeaves
    rw [spellsOut.leaves] at member
    obtain ⟨token, memberToken, reading⟩ := List.mem_map.mp member
    obtain ⟨index, here⟩ := List.mem_iff_getElem?.mp memberToken
    rw [Array.getElem?_toList] at here
    apply terminal below
    rw [← show token.symbol = node.symbol from congrArg Prod.fst reading]
    exact isTerminal here
  · intro index token here
    have member :
        token.reading ∈ parsed.tree.root.leaves.map Placed.reading := by
      rw [spellsOut.leaves]
      apply List.mem_map_of_mem
      exact List.mem_of_getElem? (Array.getElem?_toList.trans here)
    obtain ⟨⟨place, node⟩, memberLeaf, reading⟩ := List.mem_map.mp member
    obtain ⟨below, _⟩ := Node.mem_leaves_iff.mp memberLeaf
    simp only [Placed.reading, Token.reading, Prod.mk.injEq] at reading below
    obtain ⟨symbol, span⟩ := reading
    obtain ⟨other, otherToken, otherHere, stands⟩ :=
      terminal below (symbol ▸ isTerminal here)
    have starts : place = token.span.start := congrArg Span.start span
    have sameIndex := ordered.index_eq otherHere here
      (stands.starts.symm.trans starts)
    subst sameIndex
    cases otherHere.symm.trans here
    subst starts
    exact ⟨node, below, stands⟩

end Grammar

/-- So has every tree that is like one derived afresh. -/
theorem Tree.Faithful.leavesFor {grammar : Stamped Grammar} {tree : Tree}
    (faithful : tree.Faithful grammar) (regular : grammar.value.Regular)
    (nearsighted : grammar.value.Nearsighted) {tokens : TokenList}
    (read : grammar.value.tokenize tree.bytes = .ok tokens) :
    tree.root.LeavesFor tokens := by
  obtain ⟨fresh, derived, _, contents⟩ := faithful.afresh false 0 0
  have leavesFor := Grammar.leavesFor_of_derive_none regular derived read
  exact leavesFor.of_content (contents nearsighted).symm

/-! ## What was there before -/

/-- With a grammar that does not look far ahead, all trees of a history are
faithful. -/
theorem History.faithful {grammar : Stamped Grammar}
    (regular : grammar.value.Regular)
    (nearsighted : grammar.value.Nearsighted) {trees : List Tree}
    {supply : Nat} (history : History grammar trees supply) :
    ∀ tree ∈ trees, tree.Faithful grammar := by
  induction history with
  | start => exact List.forall_mem_nil _
  | parsed _ _ known found induction =>
      have derived := Parser.derive_of_parse_none known found
      refine List.forall_mem_cons.mpr ⟨?_, induction⟩
      exact faithful_of_derive_none regular derived
  | reparsed _ member edited produced _ known found induction =>
      have faithful := induction _ member
      refine List.forall_mem_cons.mpr ⟨?_, induction⟩
      apply Parser.faithful_of_parse faithful edited produced known
        regular found
      intro _ tokens read
      exact faithful.anchoredIn regular nearsighted edited produced read

/-- The root accounts for more than its text. -/
theorem Grammar.lt_reach_of_derive {grammar : Stamped Grammar}
    (regular : grammar.value.Regular) {memoize : Bool} {text : List UInt8}
    {previous : Option Node} {version supply : Nat} {parsed : Parsed}
    (derived : Grammar.derive grammar memoize text previous version supply =
      .ok parsed) :
    text.length < parsed.tree.root.length + parsed.tree.root.lookahead := by
  obtain ⟨tokens, rule, grows⟩ := grows_of_derive regular derived
  have past := length_lt_endExamined grows.read
  rw [grows.length, grows.lookahead]
  omega

theorem Tree.editAll_singleton (tree : Tree) (edit : Edit) (supply : Nat) :
    tree.editAll [edit] supply = tree.edit edit supply := by
  rw [editAll, Tree.edit, Shell.editAll]
  cases (Shell.ofTree tree).edit edit supply <;> rfl

section

variable {grammar : Stamped Grammar} (regular : grammar.value.Regular)
  (nearsighted : grammar.value.Nearsighted) {trees : List Tree} {supply : Nat}
  (history : History grammar trees supply) {tree : Tree}
  (member : tree ∈ trees) {edit : Edit} {shell : Shell} {first next : Nat}
  (edited : tree.edit edit first = .ok (shell, next)) {text : List UInt8}
  (produced : edit.Produces tree.bytes text) {tokens : TokenList}
  (lexable : grammar.value.tokenize text = .ok tokens) {parser : Parser}
  (known : parser.grammar = grammar)
  (incremental : parser.options.incremental = true) {available : Nat}
  {parsed : Parsed}
  (found : parser.parse text (some shell) available = .ok parsed)

include regular history member edited known incremental found

/-- A tree with an edit is never given back as it is. -/
theorem History.derive_of_edit :
    ∃ version, Grammar.derive grammar parser.options.memoize text
      (some shell.root) version available = .ok parsed := by
  have settled := (history.lineage regular).settled tree member
  have editedAll := (tree.editAll_singleton edit first).trans edited
  have chain := Shell.editedByAll_of_editAll editedAll
  have derivedWith : shell.base.grammar = parser.grammar := by
    rw [chain.base, known]
    exact settled.derivedWith
  rcases Parser.exists_of_parse found incremental derivedWith with
    ⟨unedited, _⟩ | derived
  · rw [Shell.edits_of_editAll editedAll] at unedited
    cases unedited
  · rw [known] at derived
    exact derived

include nearsighted produced lexable

/-- A leaf that accounts for nothing behind the start of an edit was a leaf of
the tree before the edit, at the same place. -/
theorem History.below_of_leaf {place : Nat} {node : Node}
    (below : parsed.tree.root.Below place node)
    (childless : node.children = [])
    (before : place + node.length + node.lookahead ≤ edit.start) :
    tree.root.Below place node := by
  have faithful := history.faithful regular nearsighted tree member
  have settled := (history.lineage regular).settled tree member
  have editedAll := (tree.editAll_singleton edit first).trans edited
  have producedAll : EditsProduce [edit] tree.bytes text :=
    .cons produced (.nil text)
  have chain := Shell.editedByAll_of_editAll editedAll
  -- The token of the leaf was a token of the text before the edit.
  have faithfulNew := Parser.faithful_of_parse faithful editedAll producedAll
    known regular found fun _ _ read =>
      faithful.anchoredIn regular nearsighted editedAll producedAll read
  have bytes := Parser.bytes_of_parse found
  obtain ⟨index, token, here, stands⟩ := (faithfulNew.leavesFor regular
    nearsighted (bytes.symm ▸ lexable)).token below childless
  obtain ⟨oldTokens, readOld⟩ := settled.lexable
  have examined : token.examinedEnd ≤ edit.start := stands.reach ▸ before
  have hereOld := Grammar.get?_alongside lexable readOld
    produced.agreeFor.symm nearsighted here examined
  -- Its leaf then is not affected, and stays where it was.
  obtain ⟨old, belowOld, standsOld⟩ :=
    (faithful.leavesFor regular nearsighted readOld).leaf hereOld
  have bounds := Grammar.span_bounds lexable here
  have length := standsOld.length
  have reach := standsOld.reach
  rw [Span.length] at length
  have unaffected : edit.affects
      ⟨token.span.start, token.span.start + old.length⟩ old.lookahead =
        false := by
    apply Edit.affects_eq_false.mpr
    left
    omega
  have kept := chain.below_after settled.nested belowOld (by omega)
    ⟨unaffected, trivial⟩
  have still : Edit.adjustAll [edit] token.span.start = token.span.start := by
    apply Edit.adjust_of_lt
    omega
  rw [still] at kept
  have clean : old.damaged = false :=
    (Node.everywhere_iff_below.mp faithful.undamaged).2 _ _ belowOld
  -- So the next derivation takes it over.
  have named : node.symbol ≠ Symbol.error := by
    apply @Grammar.ne_error_of_isTerminal grammar.value
    rw [stands.symbol]
    exact @Setting.isTerminal_of_get? (grammar.value.over false none tokens)
      text regular lexable index token here
  have same : node = old := by
    apply history.eq_of_undamaged regular member editedAll known incremental
      found below named
    · rw [stands.starts]
      exact kept
    · exact clean
    · rw [stands.symbol, standsOld.symbol]
    · rw [stands.length, standsOld.length]
  rw [same, stands.starts]
  exact belowOld

/-- The root accounts for too much to be such a leaf, so that all of them are
leaves of the tree before the edit. -/
theorem History.mem_leaves_of_visit {visit : Node.Visit}
    (visited : visit ∈ parsed.tree.root.visits)
    (childless : visit.node.isLeaf = true)
    (before : visit.start + visit.node.length + visit.node.lookahead ≤
      edit.start) :
    ⟨visit.start, visit.node⟩ ∈ tree.root.leaves := by
  have none : visit.node.children = [] := List.isEmpty_iff.mp childless
  have below : parsed.tree.root.Below visit.start visit.node := by
    rw [Node.visits_eq, Node.preorder_eq] at visited
    rcases List.mem_cons.mp visited with rfl | later
    · obtain ⟨version, derived⟩ :=
        history.derive_of_edit regular member edited known incremental found
      have reach := Grammar.lt_reach_of_derive regular derived
      obtain ⟨ordered, inside, inserted, _, rfl⟩ := produced
      simp only [List.length_append, List.length_take] at reach
      simp only at before
      omega
    · have deeper := Node.below_of_mem_preorder 0 0 parsed.tree.root visit
      rw [Node.preorder_eq] at deeper
      obtain ⟨place, starts, below⟩ := deeper later
      rw [starts, Nat.zero_add]
      exact below
  apply Node.mem_leaves_iff.mpr
  refine ⟨?_, none⟩
  exact history.below_of_leaf regular nearsighted member edited produced lexable
    known incremental found below none before

end

end Reparse
