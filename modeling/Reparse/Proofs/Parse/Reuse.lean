import Reparse.Proofs.Parse.Changes
import Reparse.Proofs.Parse.Checked
import Reparse.Proofs.Parse.Descent

/-!
# Everything that can be shared is shared

Of all undamaged nodes that begin at one place of an edited tree no two have the
same symbol, and a search finds the one that has it.  A node is therefore built
only where no undamaged node of its symbol and length was left, and a token gets
a new leaf only where its old one is gone.
-/

namespace Reparse

namespace Node

/-- The leaf stands, undamaged, where the token is read, and has its symbol and
its length. -/
structure Survives (root : Node) (token : Token) (leaf : Node) : Prop where
  below : root.Below token.span.start leaf
  clean : leaf.damaged = false
  childless : leaf.children = []
  symbol : leaf.symbol = token.symbol
  length : leaf.length = token.span.length

end Node

namespace TokenList

theorem mem_extract_of_get? {list : TokenList} {first index stop : Nat}
    {token : Token} (after : first ≤ index) (before : index < stop)
    (here : list.get? index = some token) :
    token ∈ (list.tokens.extract first stop).toList := by
  have place : first + (index - first) = index := Nat.add_sub_cancel' after
  have inside := TokenList.lt_size_of_get? here
  apply List.mem_of_getElem? (i := index - first)
  rw [Array.getElem?_toList, Array.getElem?_extract, if_pos, place]
  · exact here
  · simp only [TokenList.size] at inside
    omega

/-- Leaves that stand for the tokens from one to another are among the nodes. -/
def KeepsLeaves (list : TokenList) (root : Node) (position next : Nat)
    (nodes : List (Placed Node)) : Prop :=
  ∀ index token leaf, position ≤ index → index < next →
    list.get? index = some token → root.Survives token leaf →
      Node.Among nodes token.span.start leaf

section

variable {list : TokenList} {root : Node} {position next : Nat}

theorem keepsLeaves_nil (nodes : List (Placed Node)) :
    list.KeepsLeaves root position position nodes := by
  intro index token leaf after before
  exact absurd before (Nat.not_lt_of_le after)

theorem KeepsLeaves.append {middle : Nat} {first rest : List (Placed Node)}
    (keeps : list.KeepsLeaves root position middle first)
    (keepsRest : list.KeepsLeaves root middle next rest) :
    list.KeepsLeaves root position next (first ++ rest) := by
  intro index token leaf after before here survives
  rcases Nat.lt_or_ge index middle with early | late
  · exact (keeps index token leaf after early here survives).mono
      (List.subset_append_left _ _)
  · exact (keepsRest index token leaf late before here survives).mono
      (List.subset_append_right _ _)

end

end TokenList

namespace Setting

section

variable {setting : Setting} {supply : Nat} {text : List UInt8} {root : Node}
  (previous : setting.previous = some root) (searchable : root.Searchable)

include previous in
theorem below_of_offered {symbol : Symbol} {start : Nat} {node : Node}
    (found : setting.findReusable? symbol start = some node) :
    root.Below start node ∧ node.damaged = false := by
  obtain ⟨_, same, below, _, clean, _⟩ := below_of_findReusable? found
  cases previous.symm.trans same
  exact ⟨below, clean⟩

include previous searchable

theorem findReusable?_of_below {place : Nat} {node : Node}
    (below : root.Below place node) (clean : node.damaged = false) :
    setting.findReusable? node.symbol place = some node := by
  rw [findReusable?_eq, previous]
  exact searchable.found below clean

theorem LeafFor.eq_of_survives {token : Token} {node leaf : Node}
    (leafFor : setting.LeafFor supply token node)
    (survives : root.Survives token leaf) : node = leaf := by
  have found :=
    findReusable?_of_below previous searchable survives.below survives.clean
  rw [survives.symbol] at found
  cases leafFor with
  | taken foundToo _ => exact Option.some.inj (foundToo.symm.trans found)
  | built _ absent => exact absurd survives.length (absent leaf found)

variable (read : setting.grammar.tokenize text = .ok setting.tokens)

include read

/-- A node is built only where the edited tree has none of its symbol and length
left. -/
theorem upholds_shared :
    setting.Upholds supply fun start node =>
      node.symbol ≠ Symbol.error →
        ∀ old, root.Below start old → old.damaged = false →
          old.symbol = node.symbol → old.length = node.length →
            node = old := by
  constructor
  case offered =>
    intro symbol start node found
    obtain ⟨below, clean⟩ := below_of_offered previous found
    have throughout := Node.throughout_of_everywhere
      (searchable.undamaged below clean) start
    refine ⟨fun _ old belowOld cleanOld same _ => ?_,
      fun offset inner deeper _ old belowOld cleanOld same _ => ?_⟩
    · exact searchable.unique below belowOld clean cleanOld same.symm
    · exact searchable.unique (below.trans deeper) belowOld
        (throughout.2 offset inner deeper) cleanOld same.symm
  case leaf =>
    intro index stamp token here absent _ old below clean symbol length
    have found := findReusable?_of_below previous searchable below clean
    rw [symbol] at found
    exact absurd length (absent old found)
  case enclosed =>
    intro symbol rule position next examined stamp nodes _ _ refused moved
      inside _ _ old below clean same length
    -- The token before `next` ends where the old node does.
    obtain ⟨first, last, here, lastHere, start, stop, filled⟩ :=
      exists_ends read moved inside
    have found := findReusable?_of_below previous searchable below clean
    simp only [TokenList.encloseAs, start, stop] at found same length
    have ends : first.span.start + old.length = last.span.stop := by omega
    have boundary : setting.tokens.indexAfter? last.span.stop = some next :=
      (TokenList.indexAfter?_eq_some_iff
        (Grammar.increasing_of_tokenize read)).mpr
        ⟨next - 1, last, by omega, lastHere, rfl⟩
    rw [same] at found
    simp [reusable?, here, found, ends, boundary] at refused
  case unexpected =>
    intro first stop placed _ errorsFor named
    cases errorsFor
    exact absurd rfl named

/-- Leaves that stand for the tokens of a match are among what it leaves. -/
theorem composes_keepsLeaves :
    setting.Composes supply fun position next _ nodes =>
      setting.tokens.KeepsLeaves root position next nodes := by
  constructor
  case nothing => exact fun _ => TokenList.keepsLeaves_nil _
  case leaf =>
    intro position token node here leafFor index other leaf after before found
      survives
    have same := Nat.le_antisymm after (Nat.le_of_lt_succ before)
    subst same
    cases here.symm.trans found
    have shared := leafFor.eq_of_survives previous searchable survives
    exact ⟨_, List.mem_singleton_self _, .inl ⟨rfl, shared.symm⟩⟩
  case taken =>
    intro symbol position next examined node placed offered index token leaf
      after before here survives
    obtain ⟨first, firstHere, found, rfl, _, _, within, stops⟩ :=
      edge_of_reusable? read offered
    obtain ⟨below, _⟩ := below_of_offered previous found
    have starts := Grammar.startOf_le_startOf read after
      (TokenList.lt_size_of_get? here)
    rw [TokenList.startOf_of_get? firstHere, TokenList.startOf_of_get? here]
      at starts
    have edges := Grammar.edge_le_edge read before within
    rw [TokenList.edge_succ here, stops] at edges
    have bounds := Grammar.span_bounds read here
    have length := survives.length
    rw [Span.length] at length
    exact Node.Below.of_covers searchable.wellFormed below survives.below
      survives.childless (by omega) starts (by omega)
  case enclosed =>
    intro symbol rule position next examined stamp nodes _ _ _ _ _ runs fits
      index token leaf after before here survives
    obtain ⟨inner, place, among⟩ :=
      (fits index token leaf after before here survives).moved
        fun placed member => (runs.between read rfl placed member).after
    exact ⟨_, List.mem_singleton_self _,
      .inr ⟨inner, place, Node.below_iff_among.mpr among⟩⟩
  case append => exact fun _ _ _ first rest => first.append rest
  case further => exact fun _ fits => fits

/-- Set aside or not, a token has its old leaf among the children of its error
node. -/
theorem ErrorsFor.keepsLeaves {first stop : Nat} {errors : List (Placed Node)}
    (within : stop ≤ setting.tokens.size)
    (errorsFor : setting.ErrorsFor supply stop (some first) errors) :
    setting.tokens.KeepsLeaves root first stop errors := by
  intro index token leaf after before here survives
  cases errorsFor with
  | @node _ stamp last leaves found leavesFor _ =>
      obtain ⟨_, lastHere⟩ := last_of_extract within found
      obtain ⟨starts, _⟩ :=
        bounds_of_extract read within after before here lastHere
      obtain ⟨placed, member, leafWithin⟩ :=
        exists_of_forall₂_right leavesFor.flip
          (TokenList.mem_extract_of_get? after before here)
      have shared := leafWithin.leaf.eq_of_survives previous searchable survives
      refine ⟨_, List.mem_singleton_self _,
        .inr ⟨placed.offset, ?_, shared ▸ .child member⟩⟩
      rw [leafWithin.offset]
      exact (Nat.add_sub_cancel' starts).symm

/-- Every leaf that stands for a token is below the root of the derived
tree. -/
theorem below_deriveRoot_of_survives (regular : setting.grammar.Regular)
    (symbol : Symbol) (item : Rule Symbol) (supply : Nat) {index : Nat}
    {token : Token} {leaf : Node}
    (here : setting.tokens.get? index = some token)
    (survives : root.Survives token leaf) :
    (setting.deriveRoot symbol item supply).1.Below token.span.start leaf := by
  have keeps : setting.tokens.KeepsLeaves root 0 setting.tokens.size
      (setting.deriveRoot symbol item supply).1.children :=
    (composes_keepsLeaves previous searchable read).deriveRoot read
      (fun within errorsFor =>
        errorsFor.keepsLeaves previous searchable read within)
      regular symbol item
  rw [Node.below_iff_among]
  exact keeps index token leaf (Nat.zero_le _) (TokenList.lt_size_of_get? here)
    here survives

end

end Setting

/-- What keeps the searches of a tree exact while it is edited. -/
structure Tree.Tidy (grammar : Grammar) (tree : Tree) : Prop where
  wellFormed : tree.root.WellFormed
  undamaged : tree.root.Undamaged
  descends : ∀ {place : Nat} {node : Node}, tree.root.Below place node →
    node.Everywhere (Node.Descends grammar)

theorem Tree.Tidy.searchable {grammar : Grammar} {tree : Tree}
    (tidy : tree.Tidy grammar) (filled : tree.root.FilledBelow)
    {edits : List Edit} {shell : Shell} {first next : Nat}
    (edited : tree.editAll edits first = .ok (shell, next)) :
    shell.root.Searchable := by
  have chain := Shell.editedByAll_of_editAll edited
  have back : ∀ {place : Nat} {node : Node}, shell.root.Below place node →
      node.damaged = false → ∃ offset, tree.root.Below offset node :=
    fun below clean => chain.exists_before
      (Node.nested_of_wellFormed tidy.wellFormed) below clean
  constructor
  case wellFormed => exact chain.wellFormed tidy.wellFormed
  case undamaged =>
    intro place node below clean
    obtain ⟨_, belowTree⟩ := back below clean
    exact Node.everywhere_of_below tidy.undamaged belowTree
  case filled =>
    intro place node below clean
    obtain ⟨_, belowTree⟩ := back below clean
    exact filled.filled belowTree
  case distinct =>
    intro place outer inner below clean deeper
    obtain ⟨_, belowTree⟩ := back below clean
    exact Node.symbol_ne_of_below (tidy.descends belowTree) deeper

namespace Grammar

variable {grammar : Stamped Grammar} {memoize : Bool} {text : List UInt8}
  {previous : Option Node} {version supply : Nat} {parsed : Parsed}
  (derived : Grammar.derive grammar memoize text previous version supply =
    .ok parsed)

include derived

theorem exists_of_derive :
    ∃ tokens rule, grammar.value.tokenize text = .ok tokens ∧
      parsed.tree.root = ((grammar.value.over memoize previous
        tokens).deriveRoot grammar.value.root rule supply).1 := by
  rw [Grammar.derive] at derived
  split at derived
  · cases derived
  · next tokens read =>
      split at derived
      · cases derived
      · cases derived
        exact ⟨tokens, _, read, rfl⟩

theorem tidy_of_derive (regular : grammar.value.Regular)
    (offered : ∀ {symbol start node},
      previous.bind (fun root => (root.search symbol start).found) =
        some node →
      node.WellFormed ∧ node.Undamaged ∧
        node.Everywhere (Node.Descends grammar.value)) :
    parsed.tree.Tidy grammar.value := by
  obtain ⟨tokens, rule, read, root⟩ := exists_of_derive derived
  have given : ∀ {symbol start node},
      (grammar.value.over memoize previous tokens).findReusable? symbol start =
        some node →
      node.WellFormed ∧ node.Undamaged ∧
        node.Everywhere (Node.Descends grammar.value) := by
    intro symbol start node found
    rw [Setting.findReusable?_eq] at found
    exact offered found
  obtain ⟨wellFormed, undamaged⟩ := @Setting.wellFormed_deriveRoot
    (grammar.value.over memoize previous tokens) text read
    (fun found => ⟨(given found).1, (given found).2.1⟩) regular
    grammar.value.root rule supply
  have descends := @Setting.upholds_descends
    (grammar.value.over memoize previous tokens) supply text read regular
    (fun found => (given found).2.2)
  rw [← root] at wellFormed undamaged
  refine ⟨wellFormed, undamaged, fun {place node} below => ?_⟩
  rw [root] at below
  refine Node.everywhere_iff_below.mpr
    ⟨descends.below_deriveRoot read regular below,
      fun offset inner deeper => ?_⟩
  exact descends.below_deriveRoot read regular (below.trans deeper)

end Grammar

/-- All trees of a history are tidy. -/
theorem History.tidy {grammar : Stamped Grammar}
    (regular : grammar.value.Regular) {trees : List Tree} {supply : Nat}
    (history : History grammar trees supply) :
    ∀ tree ∈ trees, tree.Tidy grammar.value := by
  induction history with
  | start => exact List.forall_mem_nil _
  | parsed _ _ known found induction =>
      have derived := Parser.derive_of_parse_none known found
      refine List.forall_mem_cons.mpr
        ⟨Grammar.tidy_of_derive derived regular ?_, induction⟩
      intro symbol start node impossible
      cases impossible
  | @reparsed parser _ tree edits shell text _ first next available _ history
      member edited produced _ known found induction =>
      have tidy := induction tree member
      have whole := ((history.lineage regular).settled tree member).whole
      have nested := Node.nested_of_wellFormed tidy.wellFormed
      refine List.forall_mem_cons.mpr ⟨?_, induction⟩
      rcases @Parser.parse_some _ _ _ _ _ _ _ _ available edited produced known
        whole (Parser.fits_of_parse found) with
        ⟨_, same⟩ | ⟨version, same⟩ | ⟨_, version, same⟩
      · rw [same] at found
        cases found
        exact tidy
      · rw [same] at found
        refine Grammar.tidy_of_derive found regular ?_
        intro symbol start node impossible
        cases impossible
      · rw [same] at found
        refine Grammar.tidy_of_derive found regular ?_
        intro symbol start node offered
        obtain ⟨below, _, clean, _⟩ := Node.below_of_search offered
        obtain ⟨_, belowTree⟩ :=
          (Shell.editedByAll_of_editAll edited).exists_before nested below clean
        exact ⟨Node.everywhere_of_below tidy.wellFormed belowTree,
          Node.everywhere_of_below tidy.undamaged belowTree,
          tidy.descends belowTree⟩

namespace Parser

variable {parser : Parser} {text : List UInt8} {shell : Shell}
  {available : Nat} {parsed : Parsed}
  (found : parser.parse text (some shell) available = .ok parsed)

include found

theorem length_of_parse : shell.length = text.length :=
  (refusal?_eq_none_iff.mp (refusal?_of_parse found)).2 shell rfl

/-- A parser that takes nodes over gives the tree back as it is, or derives a
tree with the edited tree at hand. -/
theorem exists_of_parse (incremental : parser.options.incremental = true)
    (known : shell.base.grammar = parser.grammar) :
    (shell.edits = [] ∧ parsed.tree = shell.base) ∨
      ∃ version, Grammar.derive parser.grammar parser.options.memoize text
        (some shell.root) version available = .ok parsed := by
  have fits := fits_of_parse found
  have length := length_of_parse found
  have usable : parser.usable? (some shell) = some shell := by
    apply Option.filter_some_pos
    rw [incremental, Shell.usesGrammar, known, Stamped.identical]
    exact beq_self_eq_true _
  by_cases changed : shell.edits ≠ [] ∨ shell.base.bytes ≠ text
  · rw [parse_eq_derive fits length changed, usable] at found
    exact .inr ⟨_, found⟩
  · simp only [not_or, ne_eq, not_not] at changed
    obtain ⟨unedited, same⟩ := changed
    refine .inl ⟨unedited, ?_⟩
    have unchanged :
        (shell.isUnchanged && shell.base.bytes == text) = true := by
      simp [Shell.isUnchanged, unedited, same]
    rw [parse, refusal?_eq_none fits length] at found
    simp only [usable, unchanged, if_true] at found
    cases found
    rfl

end Parser

section

variable {grammar : Stamped Grammar} (regular : grammar.value.Regular)
  {trees : List Tree} {supply : Nat} (history : History grammar trees supply)
  {tree : Tree} (member : tree ∈ trees) {edits : List Edit} {shell : Shell}
  {first next : Nat} (edited : tree.editAll edits first = .ok (shell, next))

include regular history member edited

theorem History.searchable : shell.root.Searchable := by
  have settled := (history.lineage regular).settled tree member
  exact (history.tidy regular tree member).searchable settled.filled edited

/-- What the edits left undamaged was there before them. -/
theorem History.older_of_clean {available place : Nat} {old : Node}
    (later : supply ≤ available) (below : shell.root.Below place old)
    (clean : old.damaged = false) : old.stamp < available := by
  have settled := (history.lineage regular).settled tree member
  obtain ⟨_, belowTree⟩ := (Shell.editedByAll_of_editAll edited).exists_before
    settled.nested below clean
  exact Nat.lt_of_lt_of_le (settled.older belowTree) later

variable {parser : Parser} (known : parser.grammar = grammar)
  (incremental : parser.options.incremental = true) {text : List UInt8}
  {available : Nat} {parsed : Parsed}
  (found : parser.parse text (some shell) available = .ok parsed)

include known incremental found

/-- The tree is given back, and the shell has its nodes, or the next one is
derived with the shell at hand. -/
theorem History.returned_or_derived :
    shell.root = parsed.tree.root ∧ parsed.tree.root = tree.root ∨
      ∃ tokens rule, grammar.value.tokenize text = .ok tokens ∧
        parsed.tree.root = ((grammar.value.over parser.options.memoize
          (some shell.root) tokens).deriveRoot grammar.value.root rule
            available).1 := by
  have settled := (history.lineage regular).settled tree member
  have chain := Shell.editedByAll_of_editAll edited
  have derivedWith : shell.base.grammar = parser.grammar := by
    rw [chain.base, known]
    exact settled.derivedWith
  rcases Parser.exists_of_parse found incremental derivedWith with
    ⟨unedited, same⟩ | ⟨version, derived⟩
  · left
    rw [Shell.edits_of_editAll edited] at unedited
    cases unedited
    cases edited
    rw [same]
    exact ⟨rfl, rfl⟩
  · right
    rw [known] at derived
    exact Grammar.exists_of_derive derived

/-- A node of the next tree that is no error node is the one that was left
undamaged at its place, with its symbol and its length, if there is one. -/
theorem History.eq_of_undamaged {place : Nat} {node old : Node}
    (below : parsed.tree.root.Below place node)
    (named : node.symbol ≠ Symbol.error)
    (belowOld : shell.root.Below place old) (clean : old.damaged = false)
    (symbol : old.symbol = node.symbol) (length : old.length = node.length) :
    node = old := by
  have searchable := history.searchable regular member edited
  rcases history.returned_or_derived regular member edited known incremental
    found with ⟨root, same⟩ | ⟨tokens, rule, read, root⟩
  · have undamaged := (Node.everywhere_iff_below.mp
      (history.tidy regular tree member).undamaged).2
    have cleanToo : node.damaged = false := undamaged _ _ (same ▸ below)
    rw [← root] at below
    exact searchable.unique below belowOld cleanToo clean symbol.symm
  · have shared := @Setting.upholds_shared
      (grammar.value.over parser.options.memoize (some shell.root) tokens)
      available text shell.root rfl searchable read
    rw [root] at below
    exact shared.below_deriveRoot read regular below named old belowOld clean
      symbol length

/-- A leaf whose token is read again where the edits moved it is in the next
tree. -/
theorem History.below_of_survives {tokens : TokenList} {index : Nat}
    {token : Token} {leaf : Node}
    (read : grammar.value.tokenize text = .ok tokens)
    (here : tokens.get? index = some token)
    (survives : shell.root.Survives token leaf) :
    parsed.tree.root.Below token.span.start leaf := by
  rcases history.returned_or_derived regular member edited known incremental
    found with ⟨root, _⟩ | ⟨others, rule, readToo, root⟩
  · rw [← root]
    exact survives.below
  · cases read.symm.trans readToo
    rw [root]
    exact Setting.below_deriveRoot_of_survives rfl
      (history.searchable regular member edited) read regular _ _ _ here
      survives

end

/-- After any edits of a tree from a history, whatever the edits left undamaged
is found in the next tree where it can be.  A node that is no error node and has
the symbol, the place and the length of an undamaged node of the edited tree is
that node.  A leaf whose token is read again where the edits moved it is in the
next tree, under a rule or in an error node. -/
theorem History.reparse_shares {name : String}
    {declarations : List Declaration} {grammar : Stamped Grammar}
    (accepted : Grammar.ofDeclarations name declarations = .ok grammar.value)
    {trees : List Tree} {supply : Nat} (history : History grammar trees supply)
    {tree : Tree} (member : tree ∈ trees) {edits : List Edit} {shell : Shell}
    {first next : Nat} (edited : tree.editAll edits first = .ok (shell, next))
    {parser : Parser} (known : parser.grammar = grammar)
    (incremental : parser.options.incremental = true) {text : List UInt8}
    {available : Nat} (later : supply ≤ available) {parsed : Parsed}
    (found : parser.parse text (some shell) available = .ok parsed) :
    (∀ place node, parsed.tree.root.Below place node →
      node.symbol ≠ Symbol.error →
        ∀ old, shell.root.Below place old → old.damaged = false →
          old.symbol = node.symbol → old.length = node.length →
            node = old ∧ old.stamp < available) ∧
      ∀ tokens index token leaf, grammar.value.tokenize text = .ok tokens →
        tokens.get? index = some token → shell.root.Survives token leaf →
          parsed.tree.root.Below token.span.start leaf := by
  have regular := Grammar.regular_of_ofDeclarations accepted
  constructor
  · intro place node below named old belowOld clean symbol length
    constructor
    · exact history.eq_of_undamaged regular member edited known incremental
        found below named belowOld clean symbol length
    · exact history.older_of_clean regular member edited later belowOld clean
  · intro tokens index token leaf read here survives
    exact history.below_of_survives regular member edited known incremental
      found read here survives

/-- The leaf of a letter is in the tree that is derived with a blank before
it. -/
theorem Words.moved_letter_shared :
    ∃ (grammar : Stamped Grammar) (old new : Parsed) (shell : Shell)
      (next available : Nat) (leaf : Node),
      Grammar.ofDeclarations "words" declarations = .ok grammar.value ∧
        (Parser.ofGrammar grammar ⟨true, true⟩).parse [97] none 0 = .ok old ∧
          old.tree.editAll [Edit.insert 0 1] old.supply = .ok (shell, next) ∧
            (Parser.ofGrammar grammar ⟨true, true⟩).parse [32, 97] (some shell)
                available = .ok new ∧
              old.tree.root.Below 0 leaf ∧ new.tree.root.Below 1 leaf := by
  obtain ⟨grammar, accepted, describes⟩ := exists_grammar
  have regular := Grammar.regular_of_ofDeclarations accepted
  obtain ⟨letter, blank⟩ := tokenize_letter describes
  obtain ⟨old, found, spellsOut, _⟩ :=
    @Parser.exists_spellsOut "words" declarations
      (Parser.ofGrammar ⟨0, grammar⟩ ⟨true, true⟩) accepted [97] _ letter
      (by decide) 0
  have history : History ⟨0, grammar⟩ [old.tree] old.supply :=
    .parsed (.start 0) (Nat.le_refl 0) rfl found
  have settled := (history.lineage regular).settled old.tree List.mem_cons_self
  -- The leaf of the letter, as it was read.
  have read : (⟨⟨0⟩, ⟨0, 1⟩⟩ : Symbol × Span) ∈
      old.tree.root.leaves.map Placed.reading := by
    rw [spellsOut.leaves]
    exact List.mem_singleton_self _
  obtain ⟨⟨offset, leaf⟩, member, reading⟩ := List.mem_map.mp read
  obtain ⟨below, childless⟩ := Node.below_of_mem_leaves member
  simp only [Placed.reading, Placed.stop, Prod.mk.injEq, Span.mk.injEq]
    at reading below childless
  obtain ⟨symbol, rfl, stops⟩ := reading
  have filled := settled.filled.filled below
  have clean : leaf.damaged = false :=
    (Node.everywhere_iff_below.mp (history.tidy regular old.tree
      List.mem_cons_self).undamaged).2 _ _ below
  -- It moves with the blank.
  have bytes := Parser.bytes_of_parse found
  have produced : EditsProduce [Edit.insert 0 1] old.tree.bytes [32, 97] := by
    rw [bytes]
    exact .cons ⟨by decide, by decide, [32], rfl, rfl⟩ (.nil _)
  obtain ⟨shell, next, new, edited, again, _, _⟩ :=
    (Reached.parsed rfl found).exists_next regular history List.mem_cons_self
      (by rw [bytes]; rfl) produced blank ⟨true, true⟩
  have moved := (Shell.editedByAll_of_editAll edited).below_after
    settled.nested below filled ⟨by simp [Edit.affects, Edit.insert], trivial⟩
  obtain ⟨_, shared⟩ :=
    @History.reparse_shares "words" declarations ⟨0, grammar⟩
    accepted _ _ history old.tree List.mem_cons_self _ _ _ _ edited
    (Parser.ofGrammar ⟨0, grammar⟩ ⟨true, true⟩) rfl rfl _ _
    (Nat.le_max_left _ next) _ again
  have survives : shell.root.Survives ⟨⟨0⟩, ⟨1, 2⟩, 3⟩ leaf :=
    ⟨moved, clean, childless, symbol, (Nat.zero_add _).symm.trans stops⟩
  exact ⟨⟨0, grammar⟩, old, new, shell, next, _, leaf, accepted, found, edited,
    again, below, shared _ 0 _ leaf blank rfl survives⟩

end Reparse
