import Reparse.Proofs.Parse.Faithful
import Reparse.Tree.Path

/-!
# The tokens of a tree

Read from left to right, the leaves of a derived tree are the tokens of its
text.  `TokenList.SpelledBy` says for nodes side by side which tokens they stand
for; it is kept by everything that a derivation does with nodes, and all that
is known about places in a tree follows from it.
-/

namespace Reparse

/-- The symbol and the span of a token. -/
def Token.reading (token : Token) : Symbol × Span := (token.symbol, token.span)

/-- The symbol and the span of a node in the text. -/
def Placed.reading (placed : Placed Node) : Symbol × Span :=
  (placed.item.symbol, ⟨placed.offset, placed.stop⟩)

namespace Node

/-- The nodes without children below a node that starts at `start`. -/
def leavesFrom (start : Nat) (node : Node) : List (Placed Node) :=
  ((node.preorder 0 start).tail.filter fun visit => visit.node.isLeaf).map
    fun visit => ⟨visit.start, visit.node⟩

theorem leaves_eq (root : Node) : root.leaves = root.leavesFrom 0 := by
  rw [leaves, leavesFrom, visits_eq]

/-- The node covers the tokens `first..next` from the start of the first one to
the end of the last one, and its leaves are these tokens. -/
structure Bounds (tokens : TokenList) (start : Nat) (node : Node)
    (first next : Nat) : Prop where
  filled : first < next
  within : next ≤ tokens.size
  starts : start = tokens.startOf first
  stops : start + node.length = tokens.stopBefore next
  leaves : (node.leavesFrom start).map Placed.reading =
    (tokens.tokens.extract first next).toList.map Token.reading

/-- The leaves below the root are the tokens, and every other node below it
reaches from its first token to its last one. -/
structure SpellsOut (tokens : TokenList) (root : Node) : Prop where
  leaves : root.leaves.map Placed.reading =
    tokens.tokens.toList.map Token.reading
  filled : root.FilledBelow
  bounds : ∀ start node, root.Below start node → node.isLeaf = false →
    ∃ first next, node.Bounds tokens start first next
  nested : root.WellFormed

end Node

namespace TokenList

/-- The nodes, placed behind `base`, stand for the tokens `first..next`. -/
inductive SpelledBy (list : TokenList) :
    Nat → Nat → Nat → List (Placed Node) → Prop where
  | nil {base index : Nat} : SpelledBy list base index index []
  | leaf {base index next : Nat} {token : Token} {placed : Placed Node}
      {rest : List (Placed Node)} :
      list.get? index = some token → placed.item.symbol = token.symbol →
      placed.item.children = [] → base + placed.offset = token.span.start →
      base + placed.stop = token.span.stop →
      SpelledBy list base (index + 1) next rest →
      SpelledBy list base index next (placed :: rest)
  | node {base first middle next : Nat} {placed : Placed Node}
      {rest : List (Placed Node)} :
      first < middle → base + placed.offset = list.startOf first →
      base + placed.stop = list.stopBefore middle →
      SpelledBy list (base + placed.offset) first middle placed.item.children →
      SpelledBy list base middle next rest →
      SpelledBy list base first next (placed :: rest)

variable {list : TokenList} {base first middle next : Nat}
  {nodes later : List (Placed Node)}

theorem SpelledBy.le (spelled : list.SpelledBy base first next nodes) :
    first ≤ next := by
  induction spelled with
  | nil => exact Nat.le_refl _
  | leaf _ _ _ _ _ _ induction => exact Nat.le_of_succ_le induction
  | node before _ _ _ _ _ induction =>
      exact Nat.le_trans (Nat.le_of_lt before) induction

theorem SpelledBy.append (spelled : list.SpelledBy base first middle nodes)
    (spelledLater : list.SpelledBy base middle next later) :
    list.SpelledBy base first next (nodes ++ later) := by
  induction spelled with
  | nil => exact spelledLater
  | leaf here symbol none start stop _ induction =>
      exact .leaf here symbol none start stop (induction spelledLater)
  | node before start stop children _ _ induction =>
      exact .node before start stop children (induction spelledLater)

theorem toList_extract_cons {index : Nat} {token : Token}
    (here : list.get? index = some token) (before : index < next) :
    (list.tokens.extract index next).toList =
      token :: (list.tokens.extract (index + 1) next).toList := by
  obtain ⟨inside, same⟩ := Array.getElem?_eq_some_iff.mp here
  have one : list.tokens.extract index (index + 1) = #[token] := by
    rw [Array.extract_succ_right (Nat.lt_succ_self _) inside, same,
      Array.extract_eq_empty_of_le (Nat.min_le_left _ _)]
    rfl
  have split : list.tokens.extract index next =
      list.tokens.extract index (index + 1) ++
        list.tokens.extract (index + 1) next := by
    rw [Array.extract_append_extract]
    congr 1 <;> omega
  rw [split, one, Array.toList_append]
  rfl

theorem toList_extract_append (before : first ≤ middle)
    (after : middle ≤ next) :
    (list.tokens.extract first next).toList =
      (list.tokens.extract first middle).toList ++
        (list.tokens.extract middle next).toList := by
  rw [← Array.toList_append, Array.extract_append_extract,
    Nat.min_eq_left before, Nat.max_eq_right after]

theorem spelledBy_of_forall₂ {relates : Token → Placed Node → Prop}
    (stands : ∀ {index token placed}, list.get? index = some token →
      first ≤ index → relates token placed →
        placed.item.symbol = token.symbol ∧ placed.item.children = [] ∧
          base + placed.offset = token.span.start ∧
            base + placed.stop = token.span.stop)
    (before : first ≤ next) (within : next ≤ list.size)
    (related : List.Forall₂ relates (list.tokens.extract first next).toList
      nodes) :
    list.SpelledBy base first next nodes := by
  induction nodes generalizing first with
  | nil =>
      rcases Nat.lt_or_eq_of_le before with inside | rfl
      · obtain ⟨token, here⟩ :=
          get?_of_lt (Nat.lt_of_lt_of_le inside within)
        rw [toList_extract_cons here inside] at related
        cases related
      · exact .nil
  | cons placed nodes induction =>
      rcases Nat.lt_or_eq_of_le before with inside | rfl
      · obtain ⟨token, here⟩ :=
          get?_of_lt (Nat.lt_of_lt_of_le inside within)
        rw [toList_extract_cons here inside] at related
        cases related with
        | cons same related =>
            obtain ⟨symbol, none, start, stop⟩ :=
              stands here (Nat.le_refl _) same
            refine .leaf here symbol none start stop
              (induction ?_ inside related)
            intro index token placed found later
            exact stands found (Nat.le_of_succ_le later)
      · rw [Array.extract_empty_of_stop_le_start (Nat.le_refl _)] at related
        cases related

/-- Read from left to right, the leaves are the tokens. -/
theorem SpelledBy.leaves (spelled : list.SpelledBy base first next nodes)
    (depth : Nat) :
    (((Node.preorderList depth base nodes).filter fun visit =>
        visit.node.isLeaf).map fun visit =>
          Placed.reading ⟨visit.start, visit.node⟩) =
      (list.tokens.extract first next).toList.map Token.reading := by
  induction spelled generalizing depth with
  | nil => simp [Node.preorderList]
  | @leaf base index next token placed rest here symbol none start stop
      spelledRest induction =>
      have childless : placed.item.isLeaf = true := by
        rw [Node.isLeaf, none]
        rfl
      have reading : Placed.reading ⟨base + placed.offset, placed.item⟩ =
          token.reading := by
        have ends : (⟨base + placed.offset, placed.item⟩ : Placed Node).stop =
            token.span.stop := by
          rw [← stop, Placed.stop, Placed.stop, Nat.add_assoc]
        rw [Placed.reading, Token.reading, ends, symbol, start]
      rw [toList_extract_cons here spelledRest.le, List.map_cons,
        ← induction depth]
      cases placed with
      | mk offset node =>
          rw [Node.preorderList, Node.preorder_eq, none]
          simp [Node.preorderList, childless, ← reading]
  | @node base first middle next placed rest before start stop children
      spelledRest induction inductionRest =>
      -- A node over tokens has children, so that it is no leaf itself.
      have parent : placed.item.isLeaf = false := by
        cases empty : placed.item.children with
        | nil =>
            rw [empty] at children
            cases children
            exact absurd before (Nat.lt_irrefl _)
        | cons => rw [Node.isLeaf, empty]; rfl
      rw [toList_extract_append (Nat.le_of_lt before) spelledRest.le,
        List.map_append, ← induction (depth + 1), ← inductionRest depth]
      cases placed with
      | mk offset node =>
          rw [Node.preorderList, Node.preorder_eq]
          simp [parent]

/-- The node stands for a token, or for several ones that its children stand
for. -/
inductive Seats (list : TokenList) (start : Nat) (node : Node) : Prop where
  | leaf {index : Nat} {token : Token} :
      list.get? index = some token → node.children = [] →
      start = token.span.start → start + node.length = token.span.stop →
      Seats list start node
  | node {first next : Nat} :
      first < next → next ≤ list.size → start = list.startOf first →
      start + node.length = list.stopBefore next →
      list.SpelledBy start first next node.children → Seats list start node

theorem SpelledBy.seats (spelled : list.SpelledBy base first next nodes)
    (within : next ≤ list.size) :
    ∀ placed ∈ nodes, list.Seats (base + placed.offset) placed.item := by
  induction spelled with
  | nil => exact List.forall_mem_nil _
  | leaf here _ none start stop _ induction =>
      rw [Placed.stop, ← Nat.add_assoc] at stop
      exact List.forall_mem_cons.mpr
        ⟨.leaf here none start stop, induction within⟩
  | node before start stop children rest _ induction =>
      rw [Placed.stop, ← Nat.add_assoc] at stop
      exact List.forall_mem_cons.mpr
        ⟨.node before (Nat.le_trans rest.le within) start stop children,
          induction within⟩

/-- What lies below a node that stands for tokens stands for some of them. -/
theorem Seats.below {start offset : Nat} {node inner : Node}
    (seats : list.Seats start node) (below : node.Below offset inner) :
    list.Seats (start + offset) inner := by
  have children : ∀ {start : Nat} {node : Node}, list.Seats start node →
      ∀ placed ∈ node.children,
        list.Seats (start + placed.offset) placed.item := by
    intro start node seats
    cases seats with
    | leaf _ none =>
        rw [none]
        exact List.forall_mem_nil _
    | node _ within _ _ spelled => exact spelled.seats within
  induction below generalizing start with
  | child member => exact children seats _ member
  | deeper member _ induction =>
      rw [← Nat.add_assoc]
      exact induction (children seats _ member)

theorem Seats.bounds {start : Nat} {node : Node}
    (seats : list.Seats start node) (parent : node.isLeaf = false) :
    ∃ first next, node.Bounds list start first next := by
  cases seats with
  | leaf _ none =>
      rw [Node.isLeaf, none] at parent
      cases parent
  | node before within starts stops spelled =>
      refine ⟨_, _, before, within, starts, stops, ?_⟩
      rw [Node.leavesFrom, Node.preorder_eq, List.tail_cons, List.map_map]
      exact spelled.leaves 1

section

variable {grammar : Grammar} {text : List UInt8}
  (read : grammar.tokenize text = .ok list)

include read

/-- Nodes that stand for tokens side by side do not overlap. -/
theorem SpelledBy.inOrder {origin limit : Nat}
    (spelled : list.SpelledBy base first next nodes)
    (within : next ≤ list.size)
    (begins : first < next → base + origin ≤ list.startOf first)
    (idle : first = next → origin ≤ limit)
    (ends : list.edge next ≤ base + limit) :
    Node.InOrder limit origin nodes := by
  induction spelled generalizing origin limit with
  | nil => exact idle rfl
  | @leaf base index next token placed rest here _ _ start stop spelledRest
      induction =>
      have inside := spelledRest.le
      rw [startOf_of_get? here, ← start] at begins
      rw [← edge_succ here] at stop
      refine ⟨Nat.le_of_add_le_add_left (begins inside),
        induction within ?_ ?_ ends⟩
      · intro more
        rw [stop]
        exact Grammar.edge_le_startOf read (Nat.lt_of_lt_of_le more within)
      · intro last
        rw [last] at stop
        omega
  | @node base first middle next placed rest before start stop _ spelledRest
      _ induction =>
      have inside := spelledRest.le
      rw [← start] at begins
      rw [stopBefore_eq_edge before] at stop
      refine ⟨Nat.le_of_add_le_add_left
        (begins (Nat.lt_of_lt_of_le before inside)),
        induction within ?_ ?_ ends⟩
      · intro more
        rw [stop]
        exact Grammar.edge_le_startOf read (Nat.lt_of_lt_of_le more within)
      · intro last
        rw [last] at stop
        omega

theorem Seats.filled {start : Nat} {node : Node}
    (seats : list.Seats start node) : 0 < node.length := by
  cases seats with
  | leaf here _ starts stops =>
      have bounds := Grammar.span_bounds read here
      omega
  | @node first next before within starts stops _ =>
      have start := Grammar.edge_le_startOf read
        (Nat.lt_of_lt_of_le before within)
      obtain ⟨token, here⟩ := get?_of_lt (Nat.lt_of_lt_of_le before within)
      have bounds := Grammar.span_bounds read here
      have edges := Grammar.edge_le_edge read before within
      rw [edge_succ here] at edges
      rw [startOf_of_get? here] at starts
      rw [stopBefore_eq_edge before] at stops
      omega

theorem Seats.inOrder {start : Nat} {node : Node}
    (seats : list.Seats start node) :
    Node.InOrder node.length 0 node.children := by
  cases seats with
  | leaf _ none =>
      rw [none]
      exact Nat.zero_le _
  | node before within starts stops spelled =>
      rw [stopBefore_eq_edge before] at stops
      refine spelled.inOrder read within ?_ ?_ (Nat.le_of_eq stops.symm)
      · intro _
        exact Nat.le_of_eq starts
      · intro same
        exact absurd before (Nat.not_lt_of_le (Nat.le_of_eq same.symm))

/-- A root whose children stand for all the tokens spells them out. -/
theorem SpelledBy.spellsOut {root : Node}
    (spelled : list.SpelledBy 0 0 list.size root.children)
    (length : root.length = text.length) : root.SpellsOut list := by
  have within := Nat.le_refl list.size
  have seats : ∀ offset node, root.Below offset node →
      list.Seats offset node := by
    intro offset node below
    have children := spelled.seats within
    obtain ⟨placed, member, ⟨rfl, rfl⟩ | ⟨inner, rfl, deeper⟩⟩ :=
      Node.below_iff.mp below
    · rw [← Nat.zero_add placed.offset]
      exact children placed member
    · rw [← Nat.zero_add placed.offset]
      exact (children placed member).below deeper
  have leaves := spelled.leaves 1
  have all : list.tokens.extract 0 list.size = list.tokens :=
    Array.extract_size
  rw [all] at leaves
  refine ⟨?_, ?_, ?_, ?_⟩
  · rw [Node.leaves_eq, Node.leavesFrom, Node.preorder_eq, List.tail_cons,
      List.map_map]
    exact leaves
  · refine Node.everywhere_iff_below.mpr ⟨?_, ?_⟩
    · intro child member
      exact (seats _ _ (.child member)).filled read
    · intro offset node below child member
      exact ((seats _ _ below).below (.child member)).filled read
  · intro start node below parent
    exact (seats start node below).bounds parent
  · refine Node.everywhere_iff_below.mpr ⟨?_, ?_⟩
    · refine spelled.inOrder read within ?_ ?_ ?_
      · exact fun _ => Nat.zero_le _
      · exact fun _ => Nat.zero_le _
      · rw [length, Nat.zero_add]
        exact Grammar.edge_le_length read within
    · intro offset node below
      exact (seats offset node below).inOrder read

end

end TokenList

namespace Setting

section

variable {setting : Setting} {supply : Nat} {text : List UInt8}
  (read : setting.grammar.tokenize text = .ok setting.tokens)
  (nothing : ∀ symbol start, setting.findReusable? symbol start = none)

include read

/-- Enclosing nodes moves them to where the new node starts. -/
theorem spelledBy_moved {first next start : Nat} {nodes : List (Placed Node)}
    (spelled : setting.tokens.SpelledBy 0 first next nodes)
    (within : next ≤ setting.tokens.size)
    (begins : first < next → start ≤ setting.tokens.startOf first) :
    setting.tokens.SpelledBy start first next
      (nodes.map fun placed => ⟨placed.offset - start, placed.item⟩) := by
  induction nodes generalizing first with
  | nil =>
      cases spelled
      exact .nil
  | cons placed nodes induction =>
      -- What comes later starts later, so no offset is cut off at zero.
      have later : ∀ middle, first < middle → middle < next →
          start ≤ setting.tokens.startOf middle := by
        intro middle moved inside
        exact Nat.le_trans (begins (Nat.lt_trans moved inside))
          (Grammar.startOf_le_startOf read (Nat.le_of_lt moved)
            (Nat.lt_of_lt_of_le inside within))
      cases spelled with
      | leaf here symbol none starts stops rest =>
          have same := begins rest.le
          rw [TokenList.startOf_of_get? here, ← starts] at same
          simp only [Placed.stop] at stops
          refine .leaf here symbol none ?_ ?_
            (induction rest (later _ (Nat.lt_succ_self _)))
          · simp only
            omega
          · simp only [Placed.stop]
            omega
      | node before starts stops children rest =>
          have same := begins (Nat.lt_of_lt_of_le before rest.le)
          rw [← starts] at same
          have moved : start + (placed.offset - start) = 0 + placed.offset := by
            omega
          simp only [Placed.stop] at stops
          refine .node before ?_ ?_ ?_ (induction rest (later _ before))
          · simp only [moved]
            exact starts
          · simp only [Placed.stop]
            omega
          · simp only [moved]
            exact children

theorem spelledBy_leaf {position : Nat} {token : Token} {node : Node}
    (here : setting.tokens.get? position = some token)
    (symbol : node.symbol = token.symbol) (childless : node.children = [])
    (length : node.length = token.span.length) :
    setting.tokens.SpelledBy 0 position (position + 1)
      [⟨token.span.start, node⟩] := by
  have bounds := Grammar.span_bounds read here
  rw [Span.length] at length
  refine .leaf here symbol childless ?_ ?_ .nil
  · exact Nat.zero_add _
  · simp only [Placed.stop]
    omega

include nothing

omit read in
/-- With nothing at hand every leaf is a new one. -/
theorem LeafFor.built_of_nothing {token : Token} {node : Node}
    (leaf : setting.LeafFor supply token node) :
    node.symbol = token.symbol ∧ node.children = [] ∧
      node.length = token.span.length := by
  cases leaf with
  | taken found =>
      rw [nothing] at found
      cases found
  | built => exact ⟨rfl, rfl, rfl⟩

/-- The nodes of a match stand for the tokens that it consumes. -/
theorem Runs.spelledBy {rule : Rule Symbol} {position examined : Nat}
    {outcome : Option RuleMatch}
    (runs : setting.Runs supply rule position outcome examined)
    {found : RuleMatch} (matched : outcome = some found) :
    setting.tokens.SpelledBy 0 position found.next found.nodes := by
  induction runs generalizing found with
  | token isTerminal here same leaf =>
      cases matched
      obtain ⟨symbol, childless, length⟩ := leaf.built_of_nothing nothing
      exact spelledBy_leaf read here symbol childless length
  | otherToken | noRule | visibleFail | seqFail | seqFailLater | choiceNil =>
      cases matched
  | taken _ _ _ offered =>
      obtain ⟨_, _, _, found, _⟩ := reusable?_eq_some offered
      rw [nothing] at found
      cases found
  | hidden _ _ _ _ induction => exact induction matched
  | visibleEmpty | seqNil | starFail | starEmpty | optNone =>
      cases matched
      exact .nil
  | @visible symbol rule position next examined stamp nodes _ _ _ _ different _
      runs induction =>
      cases matched
      obtain ⟨before, inside⟩ := (runs.advance read rfl).resolve_left
        fun stuck => different stuck.1
      simp only at before inside
      have start := Grammar.edge_le_startOf read
        (Nat.lt_of_lt_of_le before inside)
      have stop := @TokenList.stopBefore_eq_edge setting.tokens _ _ before
      have edges := Grammar.edge_le_edge read before inside
      obtain ⟨token, here⟩ :=
        TokenList.get?_of_lt (Nat.lt_of_lt_of_le before inside)
      have bounds := Grammar.span_bounds read here
      rw [TokenList.edge_succ here] at edges
      have same := TokenList.startOf_of_get? here
      -- The node has the extent of the tokens, and its children, which lie
      -- behind the first one, are placed within it.
      refine .node before (Nat.zero_add _) ?_ ?_ .nil
      · simp only [TokenList.encloseAs, Placed.stop, same, stop]
        omega
      · rw [Nat.zero_add]
        exact spelledBy_moved read (induction rfl) inside
          fun _ => Nat.le_refl _
  | @seqCons item items first rest position _ _ runs runsLater induction
      inductionLater
  | @starStep item first rest position _ _ _ runs runsLater induction
      inductionLater =>
      cases matched
      exact (induction rfl).append (inductionLater rfl)
  | choiceHead _ induction | optSome _ induction =>
      cases matched
      exact induction rfl
  | choiceTail _ _ _ induction => exact induction matched

theorem ErrorsFor.spelledBy {first? : Option Nat} {stop : Nat}
    {errors : List (Placed Node)}
    (errorsFor : setting.ErrorsFor supply stop first? errors)
    (within : stop ≤ setting.tokens.size) :
    setting.tokens.SpelledBy 0 (first?.getD stop) stop errors := by
  cases errorsFor with
  | nothing => exact .nil
  | @node first stamp last leaves found leavesFor =>
      obtain ⟨before, lastHere⟩ := last_of_extract within found
      have inside := TokenList.lt_size_of_get? lastHere
      have starts := Grammar.startOf_le_startOf read
        (Nat.le_sub_one_of_lt before) inside
      rw [TokenList.startOf_of_get? lastHere] at starts
      have bounds := Grammar.span_bounds read lastHere
      have children : setting.tokens.SpelledBy (setting.tokens.startOf first)
          first stop leaves := by
        refine TokenList.spelledBy_of_forall₂ ?_ (Nat.le_of_lt before) within
          leavesFor
        intro index token placed here after leafWithin
        obtain ⟨symbol, childless, length⟩ :=
          leafWithin.leaf.built_of_nothing nothing
        have bounds := Grammar.span_bounds read here
        have later := Grammar.startOf_le_startOf read after
          (TokenList.lt_size_of_get? here)
        rw [TokenList.startOf_of_get? here] at later
        rw [Span.length] at length
        refine ⟨symbol, childless, ?_, ?_⟩
        · rw [leafWithin.offset]
          omega
        · rw [Placed.stop, leafWithin.offset]
          omega
      refine .node before (Nat.zero_add _) ?_ ?_ .nil
      · rw [TokenList.stopBefore, lastHere]
        simp only [Placed.stop, Option.map_some, Option.getD_some]
        omega
      · rw [Nat.zero_add]
        exact children

theorem RootRuns.spelledBy {item : Rule Symbol} {position : Nat}
    {first? : Option Nat} {nodes : List (Placed Node)}
    (rootRuns : setting.RootRuns supply item position first? nodes)
    (within : position ≤ setting.tokens.size) :
    setting.tokens.SpelledBy 0 (first?.getD position) setting.tokens.size
      nodes := by
  induction rootRuns with
  | @done position first? errors outside errorsFor =>
      have atEnd := Nat.le_antisymm within outside
      rw [atEnd]
      exact errorsFor.spelledBy read nothing (Nat.le_refl _)
  | item inside moved runs errorsFor rest induction =>
      obtain ⟨_, insideNext⟩ := (runs.advance read rfl).resolve_left
        fun stuck => absurd stuck.1 (Nat.ne_of_gt moved)
      have errors := errorsFor.spelledBy read nothing within
      exact errors.append
        ((runs.spelledBy read nothing rfl).append
          (induction insideNext))
  | skip inside _ _ _ induction => exact induction inside

end

end Setting

/-- The leaves of the tree of a text are its tokens. -/
theorem Parser.exists_spellsOut {name : String}
    {declarations : List Declaration} {parser : Parser}
    (accepted : Grammar.ofDeclarations name declarations =
      .ok parser.grammar.value)
    {text : List UInt8} {tokens : TokenList}
    (read : parser.grammar.value.tokenize text = .ok tokens)
    (fits : text.length ≤ longestText) (supply : Nat) :
    ∃ parsed, parser.parse text none supply = .ok parsed ∧
      parsed.tree.root.SpellsOut tokens ∧
        parsed.tree.root.length = text.length := by
  have regular := Grammar.regular_of_ofDeclarations accepted
  obtain ⟨built⟩ := Grammar.built_of_ofDeclarations accepted
  obtain ⟨parsed, derived⟩ := @Grammar.exists_derive parser.grammar
    parser.options.memoize text none 0 supply tokens _ read built.rule?_root
  obtain ⟨others, rule, grows⟩ := Grammar.grows_of_derive regular derived
  have same := read.symm.trans grows.read
  cases same
  obtain ⟨_, rootRuns⟩ := grows.children
  have spelled := rootRuns.spelledBy read
    (@Setting.findReusable?_alone
      (parser.grammar.value.over parser.options.memoize none tokens)
      parser.options.memoize)
    (Nat.zero_le _)
  have found := Parser.parse_none rfl fits |>.trans derived
  exact ⟨parsed, found, spelled.spellsOut read grows.length, grows.length⟩

end Reparse
