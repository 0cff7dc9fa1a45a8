import Reparse.Grammar.Nullability
import Reparse.Parse.Derivation
import Reparse.Parse.Matching
import Reparse.Proofs.Token.Edges
import Reparse.Proofs.Tree.Below

/-!
# Derivations that take nodes over

`Setting.Runs` says by value what a derivation does when nodes of an edited
tree are at hand.  It has the cases of `Matches` and one more, in which the
node of a visible rule is taken over instead of derived.  Nodes that are built
carry stamps from the supply, so that they are told from those taken over.
-/

namespace Reparse

namespace TokenList

/-- The node of `TokenList.enclose` under a stamp of its own. -/
def encloseAs (list : TokenList) (stamp : Nat) (symbol : Symbol)
    (first next examined : Nat) (nodes : List (Placed Node)) : Placed Node :=
  let start := list.startOf first
  let stop := list.stopBefore next
  ⟨start,
    { stamp := stamp
      symbol := symbol
      length := stop - start
      lookahead := examined - stop
      damaged := false
      children :=
        nodes.map fun placed => ⟨placed.offset - start, placed.item⟩ }⟩

end TokenList

namespace Setting

/-- The node may stand for the token: a leaf of the edited tree of the same
length, or a new one if there is none. -/
inductive LeafFor (setting : Setting) (supply : Nat) (token : Token) :
    Node → Prop where
  | taken {node : Node} :
      setting.findReusable? token.symbol token.span.start = some node →
      node.length = token.span.length → LeafFor setting supply token node
  | built {stamp : Nat} :
      supply ≤ stamp →
      (∀ node,
        setting.findReusable? token.symbol token.span.start = some node →
        node.length ≠ token.span.length) →
      LeafFor setting supply token
        (Node.leaf stamp token.symbol token.span.length
          (token.examinedEnd - token.span.stop))

/-- The rule, tried at a token, has this outcome, and the bytes up to
`examined` are recorded for it.  Stamps of new nodes are not below `supply`. -/
inductive Runs (setting : Setting) (supply : Nat) :
    Rule Symbol → Nat → Option RuleMatch → Nat → Prop where
  | token {symbol : Symbol} {position : Nat} {token : Token} {node : Node} :
      setting.grammar.isTerminal symbol = true →
      setting.tokens.get? position = some token → token.symbol = symbol →
      setting.LeafFor supply token node →
      Runs setting supply (.symbol symbol) position
        (some ⟨position + 1, [⟨token.span.start, node⟩]⟩) token.examinedEnd
  | otherToken {symbol : Symbol} {position : Nat} :
      setting.grammar.isTerminal symbol = true →
      (∀ token, setting.tokens.get? position = some token →
        token.symbol ≠ symbol) →
      Runs setting supply (.symbol symbol) position none
        (setting.tokens.examinedEnd position)
  | noRule {symbol : Symbol} {position : Nat} :
      setting.grammar.isTerminal symbol = false →
      setting.grammar.rule? symbol = none →
      Runs setting supply (.symbol symbol) position none 0
  | hidden {symbol : Symbol} {rule : Rule Symbol} {position examined : Nat}
      {outcome : Option RuleMatch} :
      setting.grammar.isTerminal symbol = false →
      setting.grammar.rule? symbol = some rule →
      setting.grammar.isHidden symbol = true →
      Runs setting supply rule position outcome examined →
      Runs setting supply (.symbol symbol) position outcome examined
  | taken {symbol : Symbol} {rule : Rule Symbol} {position : Nat}
      {node : Node} {next examined : Nat} {placed : Placed Node} :
      setting.grammar.isTerminal symbol = false →
      setting.grammar.rule? symbol = some rule →
      setting.grammar.isHidden symbol = false →
      setting.reusable? symbol position =
        some (node, .matched next examined (some placed)) →
      Runs setting supply (.symbol symbol) position (some ⟨next, [placed]⟩)
        examined
  | visibleFail {symbol : Symbol} {rule : Rule Symbol}
      {position examined : Nat} :
      setting.grammar.isTerminal symbol = false →
      setting.grammar.rule? symbol = some rule →
      setting.grammar.isHidden symbol = false →
      setting.reusable? symbol position = none →
      Runs setting supply rule position none examined →
      Runs setting supply (.symbol symbol) position none examined
  | visibleEmpty {symbol : Symbol} {rule : Rule Symbol}
      {position examined : Nat} {nodes : List (Placed Node)} :
      setting.grammar.isTerminal symbol = false →
      setting.grammar.rule? symbol = some rule →
      setting.grammar.isHidden symbol = false →
      setting.reusable? symbol position = none →
      Runs setting supply rule position (some ⟨position, nodes⟩) examined →
      Runs setting supply (.symbol symbol) position (some ⟨position, []⟩)
        examined
  | visible {symbol : Symbol} {rule : Rule Symbol}
      {position next examined stamp : Nat} {nodes : List (Placed Node)} :
      setting.grammar.isTerminal symbol = false →
      setting.grammar.rule? symbol = some rule →
      setting.grammar.isHidden symbol = false →
      setting.reusable? symbol position = none →
      next ≠ position → supply ≤ stamp →
      Runs setting supply rule position (some ⟨next, nodes⟩) examined →
      Runs setting supply (.symbol symbol) position
        (some ⟨next, [setting.tokens.encloseAs stamp symbol position next
          examined nodes]⟩) examined
  | seqNil {position : Nat} :
      Runs setting supply (.seq []) position (some ⟨position, []⟩) 0
  | seqFail {item : Rule Symbol} {items : List (Rule Symbol)}
      {position examined : Nat} :
      Runs setting supply item position none examined →
      Runs setting supply (.seq (item :: items)) position none examined
  | seqFailLater {item : Rule Symbol} {items : List (Rule Symbol)}
      {first : RuleMatch} {position examined later : Nat} :
      Runs setting supply item position (some first) examined →
      Runs setting supply (.seq items) first.next none later →
      Runs setting supply (.seq (item :: items)) position none
        (max examined later)
  | seqCons {item : Rule Symbol} {items : List (Rule Symbol)}
      {first rest : RuleMatch} {position examined later : Nat} :
      Runs setting supply item position (some first) examined →
      Runs setting supply (.seq items) first.next (some rest) later →
      Runs setting supply (.seq (item :: items)) position
        (some ⟨rest.next, first.nodes ++ rest.nodes⟩) (max examined later)
  | choiceNil {position : Nat} :
      Runs setting supply (.choice []) position none 0
  | choiceHead {alternative : Rule Symbol} {alternatives : List (Rule Symbol)}
      {found : RuleMatch} {position examined : Nat} :
      Runs setting supply alternative position (some found) examined →
      Runs setting supply (.choice (alternative :: alternatives)) position
        (some found) examined
  | choiceTail {alternative : Rule Symbol} {alternatives : List (Rule Symbol)}
      {outcome : Option RuleMatch} {position examined later : Nat} :
      Runs setting supply alternative position none examined →
      Runs setting supply (.choice alternatives) position outcome later →
      Runs setting supply (.choice (alternative :: alternatives)) position
        outcome (max examined later)
  | starFail {item : Rule Symbol} {position examined : Nat} :
      Runs setting supply item position none examined →
      Runs setting supply (.star item) position (some ⟨position, []⟩) examined
  | starEmpty {item : Rule Symbol} {position examined : Nat}
      {nodes : List (Placed Node)} :
      Runs setting supply item position (some ⟨position, nodes⟩) examined →
      Runs setting supply (.star item) position (some ⟨position, []⟩) examined
  | starStep {item : Rule Symbol} {first rest : RuleMatch}
      {position examined later : Nat} :
      first.next ≠ position →
      Runs setting supply item position (some first) examined →
      Runs setting supply (.star item) first.next (some rest) later →
      Runs setting supply (.star item) position
        (some ⟨rest.next, first.nodes ++ rest.nodes⟩) (max examined later)
  | optNone {item : Rule Symbol} {position examined : Nat} :
      Runs setting supply item position none examined →
      Runs setting supply (.opt item) position (some ⟨position, []⟩) examined
  | optSome {item : Rule Symbol} {found : RuleMatch}
      {position examined : Nat} :
      Runs setting supply item position (some found) examined →
      Runs setting supply (.opt item) position (some found) examined

/-- What it takes for a node to be taken over at a token. -/
theorem reusable?_eq_some {setting : Setting} {symbol : Symbol}
    {position : Nat} {node : Node} {outcome : Outcome}
    (found : setting.reusable? symbol position = some (node, outcome)) :
    ∃ token next,
      setting.tokens.get? position = some token ∧
        setting.findReusable? symbol token.span.start = some node ∧
          setting.tokens.indexAfter? (token.span.start + node.length) =
              some next ∧
            outcome =
              .matched next
                (token.span.start + node.length + node.lookahead)
                (some ⟨token.span.start, node⟩) := by
  simp only [reusable?, Option.bind_eq_bind, Option.bind_eq_some_iff,
    Option.pure_def, Option.some.injEq, Prod.mk.injEq] at found
  obtain ⟨token, here, offered, offer, next, boundary, rfl, rfl⟩ := found
  exact ⟨token, next, here, offer, boundary, rfl⟩

/-- A node at hand is an undamaged node of the edited tree. -/
theorem below_of_findReusable? {setting : Setting} {symbol : Symbol}
    {start : Nat} {node : Node}
    (found : setting.findReusable? symbol start = some node) :
    ∃ root, setting.previous = some root ∧ root.Below start node ∧
      node.symbol = symbol ∧ node.damaged = false ∧ 0 < node.length := by
  rw [findReusable?_eq, Option.bind_eq_some_iff] at found
  obtain ⟨root, previous, found⟩ := found
  exact ⟨root, previous, Node.below_of_search found⟩

/-- The leaf of a token carries its symbol. -/
theorem LeafFor.symbol_eq {setting : Setting} {supply : Nat} {token : Token}
    {node : Node} (leaf : setting.LeafFor supply token node) :
    node.symbol = token.symbol := by
  cases leaf with
  | taken found _ =>
      obtain ⟨_, _, _, symbol, _, _⟩ := below_of_findReusable? found
      exact symbol
  | built => rfl

/-- Nodes taken over lead to later tokens. -/
def Onward (setting : Setting) : Prop :=
  ∀ ⦃symbol : Symbol⦄ ⦃position next examined : Nat⦄ ⦃node : Node⦄
    ⦃placed : Option (Placed Node)⦄,
    setting.reusable? symbol position =
      some (node, .matched next examined placed) →
    position < next ∧ next ≤ setting.tokens.size

section

variable {setting : Setting} {supply : Nat} {text : List UInt8}

theorem onward_of_inOrder (ordered : setting.tokens.InOrder) :
    setting.Onward := by
  intro symbol position next examined node placed offered
  obtain ⟨token, after, here, offer, boundary, same⟩ :=
    reusable?_eq_some offered
  cases same
  obtain ⟨index, last, rfl, lastHere, ends⟩ :=
    (TokenList.indexAfter?_eq_some_iff ordered.increasing).mp boundary
  obtain ⟨_, _, _, _, _, filled⟩ := below_of_findReusable? offer
  refine ⟨?_, TokenList.lt_size_of_get? lastHere⟩
  apply Nat.lt_of_not_le
  intro early
  have before := ordered.apart index position last token early lastHere here
  omega

/-- A match leaves nodes only if it consumes a token, and a rule that matches
without one is nullable. -/
theorem Runs.advances (onward : setting.Onward) {rule : Rule Symbol}
    {position examined : Nat} {outcome : Option RuleMatch}
    (runs : setting.Runs supply rule position outcome examined)
    {found : RuleMatch} (matched : outcome = some found) :
    (found.next = position ∧ found.nodes = [] ∧
        setting.grammar.rules.Nullable rule) ∨
      (position < found.next ∧ found.next ≤ setting.tokens.size) := by
  -- A match that does not advance shows that its rule is nullable: this is
  -- what keeps ranks falling, so it is carried along.
  induction runs generalizing found with
  | token isTerminal here symbol leaf =>
      cases matched
      exact .inr ⟨Nat.lt_succ_self _, TokenList.lt_size_of_get? here⟩
  | otherToken => cases matched
  | noRule => cases matched
  | hidden isTerminal known isHidden runs induction =>
      rcases induction matched with ⟨same, none, nullable⟩ | later
      · exact .inl ⟨same, none, .symbol known nullable⟩
      · exact .inr later
  | taken isTerminal known isHidden offered =>
      cases matched
      exact .inr (onward offered)
  | visibleFail => cases matched
  | visibleEmpty isTerminal known isHidden offered runs induction =>
      cases matched
      rcases induction rfl with ⟨_, _, nullable⟩ | ⟨later, _⟩
      · exact .inl ⟨rfl, rfl, .symbol known nullable⟩
      · exact absurd later (Nat.lt_irrefl _)
  | visible isTerminal known isHidden offered different fresh runs induction =>
      cases matched
      rcases induction rfl with ⟨same, _, _⟩ | later
      · exact absurd same different
      · exact .inr later
  | seqNil =>
      cases matched
      exact .inl ⟨rfl, rfl, .seq (fun _ member => nomatch member)⟩
  | seqFail => cases matched
  | seqFailLater => cases matched
  | seqCons first later firstInduction laterInduction =>
      cases matched
      rcases firstInduction rfl with
        ⟨same, none, nullable⟩ | ⟨after, inside⟩
      · rw [same] at laterInduction
        rcases laterInduction rfl with
          ⟨sameRest, noneRest, nullableRest⟩ | after
        · refine .inl ⟨sameRest, ?_, ?_⟩
          · simp only [none, noneRest, List.append_nil]
          · cases nullableRest with
            | seq all =>
                refine .seq fun item member => ?_
                rcases List.mem_cons.mp member with here | rest
                · exact here ▸ nullable
                · exact all item rest
        · exact .inr after
      · rcases laterInduction rfl with ⟨same, _, _⟩ | ⟨further, within⟩
        · exact .inr ⟨same ▸ after, same ▸ inside⟩
        · exact .inr ⟨Nat.lt_trans after further, within⟩
  | choiceNil => cases matched
  | choiceHead runs induction =>
      cases matched
      rcases induction rfl with ⟨same, none, nullable⟩ | later
      · exact .inl ⟨same, none, .choice List.mem_cons_self nullable⟩
      · exact .inr later
  | choiceTail failed later _ induction =>
      rcases induction matched with ⟨same, none, nullable⟩ | later
      · cases nullable with
        | choice member nullable =>
            exact .inl ⟨same, none,
              .choice (List.mem_cons_of_mem _ member) nullable⟩
      · exact .inr later
  | starFail =>
      cases matched
      exact .inl ⟨rfl, rfl, .star _⟩
  | starEmpty =>
      cases matched
      exact .inl ⟨rfl, rfl, .star _⟩
  | starStep different first later firstInduction laterInduction =>
      cases matched
      rcases firstInduction rfl with ⟨same, _, _⟩ | ⟨after, inside⟩
      · exact absurd same different
      · rcases laterInduction rfl with ⟨same, _, _⟩ | ⟨further, within⟩
        · exact .inr ⟨same ▸ after, same ▸ inside⟩
        · exact .inr ⟨Nat.lt_trans after further, within⟩
  | optNone =>
      cases matched
      exact .inl ⟨rfl, rfl, .opt _⟩
  | optSome runs induction =>
      cases matched
      rcases induction rfl with ⟨same, none, _⟩ | later
      · exact .inl ⟨same, none, .opt _⟩
      · exact .inr later

variable (read : setting.grammar.tokenize text = .ok setting.tokens)

include read

/-- A node taken over ends where a later token does. -/
theorem edge_of_reusable? {symbol : Symbol} {position next examined : Nat}
    {node : Node} {placed : Placed Node}
    (found : setting.reusable? symbol position =
      some (node, .matched next examined (some placed))) :
    ∃ token, setting.tokens.get? position = some token ∧
      setting.findReusable? symbol token.span.start = some node ∧
        placed = ⟨token.span.start, node⟩ ∧
          examined = token.span.start + node.length + node.lookahead ∧
            position < next ∧ next ≤ setting.tokens.size ∧
              setting.tokens.edge next = token.span.start + node.length := by
  have later := onward_of_inOrder (TokenList.inOrder_of_tokenize read) found
  obtain ⟨token, after, here, offer, boundary, same⟩ := reusable?_eq_some found
  cases same
  obtain ⟨index, last, rfl, lastHere, ends⟩ :=
    (TokenList.indexAfter?_eq_some_iff
      (Grammar.increasing_of_tokenize read)).mp boundary
  exact ⟨token, here, offer, rfl, rfl, later.1, later.2,
    (TokenList.edge_succ lastHere).trans ends⟩

theorem onward_of_tokenize : setting.Onward :=
  onward_of_inOrder (TokenList.inOrder_of_tokenize read)

/-- `Runs.advances` for the tokens of a text. -/
theorem Runs.advance {rule : Rule Symbol} {position examined : Nat}
    {outcome : Option RuleMatch}
    (runs : setting.Runs supply rule position outcome examined)
    {found : RuleMatch} (matched : outcome = some found) :
    (found.next = position ∧ found.nodes = [] ∧
        setting.grammar.rules.Nullable rule) ∨
      (position < found.next ∧ found.next ≤ setting.tokens.size) :=
  runs.advances (onward_of_tokenize read) matched

end

/-- The node has bytes, and it lies between the first token and the edge behind
the last one. -/
structure Between (setting : Setting) (position next : Nat)
    (placed : Placed Node) : Prop where
  filled : 0 < placed.item.length
  after : setting.tokens.startOf position ≤ placed.offset
  before : placed.stop ≤ setting.tokens.edge next

section

variable {setting : Setting} {supply : Nat} {text : List UInt8}
  (read : setting.grammar.tokenize text = .ok setting.tokens)

include read

theorem between_of_length {position next : Nat} {placed : Placed Node}
    (moved : position < next) (within : next ≤ setting.tokens.size)
    (starts : placed.offset = setting.tokens.startOf position)
    (stops : placed.stop = setting.tokens.edge next) :
    setting.Between position next placed := by
  have edges := Grammar.startOf_lt_edge read moved within
  refine ⟨?_, Nat.le_of_eq starts.symm, Nat.le_of_eq stops⟩
  rw [← starts, ← stops] at edges
  exact Nat.pos_of_lt_add_right edges

/-- What was matched first lies between the outer tokens, and so does what was
matched behind it. -/
theorem between_append {later : Rule Symbol} {first rest : RuleMatch}
    {position further : Nat} (reached : position ≤ first.next)
    (runsLater : setting.Runs supply later first.next (some rest) further)
    (between : ∀ placed ∈ first.nodes,
      setting.Between position first.next placed)
    (betweenLater : ∀ placed ∈ rest.nodes,
      setting.Between first.next rest.next placed) :
    ∀ placed ∈ first.nodes ++ rest.nodes,
      setting.Between position rest.next placed := by
  have last := runsLater.advance read rfl
  refine List.forall_mem_append.mpr ⟨?_, ?_⟩
  · intro placed member
    obtain ⟨filled, after, before⟩ := between placed member
    refine ⟨filled, after, Nat.le_trans before ?_⟩
    rcases last with ⟨same, _, _⟩ | ⟨moved, inside⟩
    · exact Nat.le_of_eq (congrArg setting.tokens.edge same.symm)
    · exact Grammar.edge_le_edge read (Nat.le_of_lt moved) inside
  · intro placed member
    obtain ⟨filled, after, before⟩ := betweenLater placed member
    refine ⟨filled, Nat.le_trans ?_ after, before⟩
    rcases last with ⟨_, none, _⟩ | ⟨moved, inside⟩
    · rw [none] at member
      cases member
    · exact Grammar.startOf_le_startOf read reached
        (Nat.lt_of_lt_of_le moved inside)

theorem Runs.le_next {rule : Rule Symbol} {position examined : Nat}
    {outcome : Option RuleMatch}
    (runs : setting.Runs supply rule position outcome examined)
    {found : RuleMatch} (matched : outcome = some found) :
    position ≤ found.next := by
  rcases runs.advance read matched with ⟨same, _, _⟩ | ⟨moved, _⟩
  · exact Nat.le_of_eq same.symm
  · exact Nat.le_of_lt moved

/-- The nodes of a match lie between the tokens that it consumes. -/
theorem Runs.between {rule : Rule Symbol} {position examined : Nat}
    {outcome : Option RuleMatch}
    (runs : setting.Runs supply rule position outcome examined)
    {found : RuleMatch} (matched : outcome = some found) :
    ∀ placed ∈ found.nodes, setting.Between position found.next placed := by
  induction runs generalizing found with
  | @token symbol position token node isTerminal here same leaf =>
      cases matched
      have bounds := Grammar.span_bounds read here
      have length : node.length = token.span.length := by
        cases leaf with
        | taken _ sameLength => exact sameLength
        | built => rfl
      refine List.forall_mem_singleton.mpr (between_of_length read
        (Nat.lt_succ_self _) (TokenList.lt_size_of_get? here)
        (TokenList.startOf_of_get? here).symm ?_)
      simp only [TokenList.edge_succ here, Placed.stop, length, Span.length]
      omega
  | otherToken | noRule | visibleFail | seqFail | seqFailLater | choiceNil =>
      cases matched
  | hidden _ _ _ _ induction => exact induction matched
  | taken _ _ _ offered =>
      cases matched
      obtain ⟨token, here, _, rfl, _, moved, inside, edge⟩ :=
        edge_of_reusable? read offered
      exact List.forall_mem_singleton.mpr (between_of_length read moved inside
        (TokenList.startOf_of_get? here).symm edge.symm)
  | visibleEmpty | seqNil | starFail | starEmpty | optNone =>
      cases matched
      exact List.forall_mem_nil _
  | @visible symbol rule position next _ _ _ _ _ _ _ different _ runs _ =>
      cases matched
      obtain ⟨moved, inside⟩ := (runs.advance read rfl).resolve_left
        fun stuck => different stuck.1
      have stop := @TokenList.stopBefore_eq_edge setting.tokens _ _ moved
      have edges := Grammar.startOf_lt_edge read moved inside
      refine List.forall_mem_singleton.mpr
        (between_of_length read moved inside rfl ?_)
      simp only [TokenList.encloseAs, Placed.stop, stop]
      exact Nat.add_sub_cancel' (Nat.le_of_lt edges)
  | seqCons first later firstInduction laterInduction
  | starStep _ first later firstInduction laterInduction =>
      cases matched
      exact between_append read (first.le_next read rfl) later
        (firstInduction rfl) (laterInduction rfl)
  | choiceHead _ induction | optSome _ induction =>
      cases matched
      exact induction rfl
  | choiceTail _ _ _ induction => exact induction matched

end

/-- A node that is taken over and accounts for no byte past `reach` is taken
over at a token for which no byte past it was examined either. -/
def AnchoredUpTo (setting : Setting) (reach : Nat) : Prop :=
  ∀ {symbol : Symbol} {rule : Rule Symbol} {position next examined : Nat}
    {node : Node} {placed : Placed Node},
    setting.grammar.isTerminal symbol = false →
    setting.grammar.rule? symbol = some rule →
    setting.reusable? symbol position =
      some (node, .matched next examined (some placed)) →
    examined ≤ reach → setting.tokens.examinedEnd position ≤ reach

/-- A match that consumes a token depends on what was examined for it. -/
theorem Runs.examinedEnd_le {setting : Setting} {supply reach : Nat}
    {text : List UInt8}
    (read : setting.grammar.tokenize text = .ok setting.tokens)
    (anchored : setting.AnchoredUpTo reach)
    {rule : Rule Symbol} {position examined : Nat}
    {outcome : Option RuleMatch}
    (runs : setting.Runs supply rule position outcome examined)
    (within : position ≤ setting.tokens.size) {found : RuleMatch}
    (matched : outcome = some found) (consumed : position < found.next)
    (bound : examined ≤ reach) :
    setting.tokens.examinedEnd position ≤ reach := by
  induction runs generalizing found with
  | token isTerminal here symbol leaf =>
      simp only [TokenList.examinedEnd, here]
      exact bound
  | otherToken => cases matched
  | noRule => cases matched
  | hidden isTerminal known isHidden runs induction =>
      exact induction within matched consumed bound
  | taken isTerminal known isHidden offered =>
      exact anchored isTerminal known offered bound
  | visibleFail => cases matched
  | visibleEmpty =>
      cases matched
      exact absurd consumed (Nat.lt_irrefl _)
  | visible isTerminal known isHidden offered different fresh runs induction =>
      cases matched
      exact induction within rfl consumed bound
  | seqNil =>
      cases matched
      exact absurd consumed (Nat.lt_irrefl _)
  | seqFail => cases matched
  | seqFailLater => cases matched
  | seqCons first later firstInduction laterInduction =>
      cases matched
      rcases first.advance read rfl with ⟨same, _, _⟩ | ⟨after, _⟩
      · rw [same] at laterInduction
        exact laterInduction within rfl consumed (by omega)
      · exact firstInduction within rfl after (by omega)
  | choiceNil => cases matched
  | choiceHead runs induction =>
      cases matched
      exact induction within rfl consumed bound
  | choiceTail failed later _ induction =>
      exact induction within matched consumed (by omega)
  | starFail =>
      cases matched
      exact absurd consumed (Nat.lt_irrefl _)
  | starEmpty =>
      cases matched
      exact absurd consumed (Nat.lt_irrefl _)
  | starStep different first later firstInduction laterInduction =>
      cases matched
      rcases first.advance read rfl with ⟨same, _, _⟩ | ⟨after, _⟩
      · exact absurd same different
      · exact firstInduction within rfl after (by omega)
  | optNone =>
      cases matched
      exact absurd consumed (Nat.lt_irrefl _)
  | optSome runs induction =>
      cases matched
      exact induction within rfl consumed bound

end Setting

/-- The match with contents in place of nodes. -/
def RuleMatch.content (found : RuleMatch) : RuleMatch :=
  ⟨found.next, Node.contentList found.nodes⟩

theorem TokenList.enclose_content (list : TokenList) (stamp : Nat)
    (symbol : Symbol) (first next examined : Nat)
    (nodes : List (Placed Node)) :
    Node.contentList [list.encloseAs stamp symbol first next examined nodes] =
      [list.enclose symbol first next examined (Node.contentList nodes)] := by
  have children :
      Node.contentList
          (nodes.map fun placed =>
            ⟨placed.offset - list.startOf first, placed.item⟩) =
        (Node.contentList nodes).map fun placed =>
          ⟨placed.offset - list.startOf first, placed.item⟩ := by
    induction nodes with
    | nil => rfl
    | cons placed nodes induction =>
        simp only [List.map_cons, Node.contentList, induction]
  simp only [encloseAs, enclose, Node.contentList, Node.content, children]

/-- Without an edited tree a derivation does what `Matches` says. -/
theorem Setting.Runs.matched {setting : Setting} {supply : Nat}
    (alone : setting.previous = none) {rule : Rule Symbol}
    {position examined : Nat} {outcome : Option RuleMatch}
    (runs : setting.Runs supply rule position outcome examined) :
    Matches setting.grammar setting.tokens rule position
      (outcome.map RuleMatch.content) examined := by
  have nothing : ∀ symbol start, setting.findReusable? symbol start = none := by
    intro symbol start
    rw [findReusable?_eq, alone]
    rfl
  induction runs with
  | token isTerminal here same leaf =>
      cases leaf with
      | taken found =>
          rw [nothing] at found
          cases found
      | built => exact .token isTerminal here same
  | otherToken isTerminal different => exact .otherToken isTerminal different
  | noRule notTerminal noRule => exact .noRule notTerminal noRule
  | hidden notTerminal known isHidden _ induction =>
      exact .hidden notTerminal known isHidden induction
  | taken _ _ _ offered =>
      obtain ⟨_, _, _, found, _⟩ := reusable?_eq_some offered
      rw [nothing] at found
      cases found
  | visibleFail notTerminal known visible _ _ induction =>
      exact .visibleFail notTerminal known visible induction
  | visibleEmpty notTerminal known visible _ _ induction =>
      exact .visibleEmpty notTerminal known visible induction
  | visible notTerminal known visible _ different _ _ induction =>
      simp only [Option.map_some, RuleMatch.content,
        TokenList.enclose_content]
      exact .visible notTerminal known visible different induction
  | seqNil => exact .seqNil
  | seqFail _ induction => exact .seqFail induction
  | seqFailLater _ _ first later => exact .seqFailLater first later
  | seqCons _ _ first later =>
      simp only [Option.map_some, RuleMatch.content,
        Node.contentList_append] at first later ⊢
      exact .seqCons first later
  | choiceNil => exact .choiceNil
  | choiceHead _ induction => exact .choiceHead induction
  | choiceTail _ _ failed later => exact .choiceTail failed later
  | starFail _ induction => exact .starFail induction
  | starEmpty _ induction => exact .starEmpty induction
  | starStep different _ _ first later =>
      simp only [Option.map_some, RuleMatch.content,
        Node.contentList_append] at first later ⊢
      refine .starStep ?_ first later
      exact different
  | optNone _ induction => exact .optNone induction
  | optSome _ induction => exact .optSome induction

end Reparse
