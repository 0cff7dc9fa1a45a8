import Reparse.Proofs.Language.Marks
import Reparse.Proofs.Parse.Composition
import Reparse.Proofs.Parse.ErrorNodes
import Reparse.Proofs.Token.Examined

/-!
# How far nodes account for the text

A node accounts for its bytes and for those examined behind it.  A node that was
derived accounts for everything its children account for, and so does the root.
An error node accounts for no more than the last of its leaves does, even where
a leaf in front of that one was examined further.
-/

namespace Reparse

namespace Node

/-- The node accounts for the bytes that its children account for. -/
def CoversChildren (node : Node) : Prop :=
  ∀ child ∈ node.children,
    child.stop + child.item.lookahead ≤ node.length + node.lookahead

/-- The node accounts for the bytes that its last child accounts for, and for
no others. -/
def ReachesAsLast (node : Node) : Prop :=
  ∃ last, node.children.getLast? = some last ∧
    node.length + node.lookahead = last.stop + last.item.lookahead

/-- Every node accounts for the bytes of its children, unless it is an error
node, which accounts for those of its last child only. -/
def Extends (root : Node) : Prop :=
  root.Everywhere fun node =>
    (node.symbol ≠ Symbol.error → node.CoversChildren) ∧
      (node.symbol = Symbol.error → node.ReachesAsLast)

end Node

namespace Setting

section

variable {setting : Setting} {supply : Nat} {text : List UInt8}
  (regular : setting.grammar.Regular)
  (read : setting.grammar.tokenize text = .ok setting.tokens)
  (nothing : ∀ symbol start, setting.findReusable? symbol start = none)

include nothing

/-- The leaf of a token accounts for what was examined for the token. -/
theorem LeafFor.lookahead_eq {token : Token} {node : Node}
    (leaf : setting.LeafFor supply token node) :
    node.lookahead = token.examinedEnd - token.span.stop := by
  cases leaf with
  | taken found =>
      rw [nothing] at found
      cases found
  | built => rfl

include read

/-- No attempt looks further than the end of the text. -/
theorem Runs.examined_le {rule : Rule Symbol} {position examined : Nat}
    {outcome : Option RuleMatch}
    (runs : setting.Runs supply rule position outcome examined) :
    examined ≤ setting.tokens.endExamined := by
  have token (position : Nat) :=
    Grammar.examinedEnd_le_endExamined read position
  induction runs with
  | token _ here =>
      rw [← TokenList.examinedEnd_of_get? here]
      exact token _
  | otherToken => exact token _
  | noRule | seqNil | choiceNil => exact Nat.zero_le _
  | taken _ _ _ offered =>
      obtain ⟨_, _, _, found, _⟩ := reusable?_eq_some offered
      rw [nothing] at found
      cases found
  | hidden _ _ _ _ induction => exact induction
  | visibleFail _ _ _ _ _ induction => exact induction
  | visibleEmpty _ _ _ _ _ induction => exact induction
  | visible _ _ _ _ _ _ _ induction => exact induction
  | seqFail _ induction => exact induction
  | choiceHead _ induction => exact induction
  | starFail _ induction => exact induction
  | starEmpty _ induction => exact induction
  | optNone _ induction => exact induction
  | optSome _ induction => exact induction
  | seqFailLater _ _ first later => exact Nat.max_le.mpr ⟨first, later⟩
  | seqCons _ _ first later => exact Nat.max_le.mpr ⟨first, later⟩
  | choiceTail _ _ first later => exact Nat.max_le.mpr ⟨first, later⟩
  | starStep _ _ _ first later => exact Nat.max_le.mpr ⟨first, later⟩

/-- The leaf of a token reaches as far as the token was examined. -/
theorem LeafFor.reach {index : Nat} {token : Token} {node : Node}
    (leaf : setting.LeafFor supply token node)
    (here : setting.tokens.get? index = some token) :
    token.span.start + node.length + node.lookahead = token.examinedEnd := by
  obtain ⟨_, _, length⟩ := leaf.built_of_nothing nothing
  obtain ⟨_, _, _, examined⟩ := Grammar.span_bounds read here
  rw [leaf.lookahead_eq nothing, length, Span.length]
  omega

omit nothing in
/-- A built node reaches from its bytes to the last one examined. -/
theorem encloseAs_reach {symbol : Symbol} {rule : Rule Symbol}
    {position next examined stamp : Nat} {nodes : List (Placed Node)}
    (moved : position < next) (inside : next ≤ setting.tokens.size)
    (runs : setting.Runs supply rule position (some ⟨next, nodes⟩) examined) :
    setting.tokens.startOf position +
        ((setting.tokens.encloseAs stamp symbol position next examined
            nodes).item.length +
          (setting.tokens.encloseAs stamp symbol position next examined
            nodes).item.lookahead) =
      examined := by
  have recorded := runs.edge_le read (Nat.le_of_lt
    (Nat.lt_of_lt_of_le moved inside)) rfl moved
  have edges := Grammar.startOf_lt_edge read moved inside
  have stop := @TokenList.stopBefore_eq_edge setting.tokens _ _ moved
  simp only [TokenList.encloseAs, stop] at recorded ⊢
  omega

/-- Nothing that a match leaves reaches further than what was examined. -/
theorem composes_reach :
    setting.Composes supply fun _ _ examined nodes =>
      ∀ placed ∈ nodes,
        placed.stop + placed.item.lookahead ≤ examined := by
  constructor
  case nothing => exact fun _ => List.forall_mem_nil _
  case leaf =>
    intro position token node here leaf
    exact List.forall_mem_singleton.mpr
      (Nat.le_of_eq (leaf.reach read nothing here))
  case taken =>
    intro symbol position next examined node placed offered
    obtain ⟨_, _, _, found, _⟩ := reusable?_eq_some offered
    rw [nothing] at found
    cases found
  case enclosed =>
    intro symbol rule position next examined stamp nodes _ _ _ moved inside
      runs _
    have reach := @encloseAs_reach _ _ _ read symbol _ _ _ _ stamp _
      moved inside runs
    refine List.forall_mem_singleton.mpr (Nat.le_of_eq ?_)
    rw [Placed.stop, Nat.add_assoc]
    exact reach
  case append =>
    intro position middle next examined later first rest _ _ _ fits fitsLater
    refine List.forall_mem_append.mpr ⟨?_, ?_⟩
    · intro placed member
      exact Nat.le_trans (fits placed member) (Nat.le_max_left _ _)
    · intro placed member
      exact Nat.le_trans (fitsLater placed member) (Nat.le_max_right _ _)
  case further =>
    exact fun less fits placed member => Nat.le_trans (fits placed member) less

/-- An error node reaches as far as its last leaf. -/
theorem ErrorsFor.reach {first stop : Nat} {placed : Placed Node}
    (within : stop ≤ setting.tokens.size)
    (errorsFor : setting.ErrorsFor supply stop (some first) [placed]) :
    placed.stop + placed.item.lookahead ≤ setting.tokens.endExamined ∧
      placed.item.symbol = Symbol.error ∧ placed.item.ReachesAsLast := by
  cases errorsFor with
  | @node _ stamp last leaves found leavesFor =>
      obtain ⟨before, lastHere⟩ := last_of_extract within found
      have bounds := Grammar.span_bounds read lastHere
      have starts := Grammar.startOf_le_startOf read
        (Nat.le_sub_one_of_lt before) (TokenList.lt_size_of_get? lastHere)
      rw [TokenList.startOf_of_get? lastHere] at starts
      have reach := Grammar.examinedEnd_le_endExamined read (stop - 1)
      rw [TokenList.examinedEnd_of_get? lastHere] at reach
      obtain ⟨lastLeaf, lastMember, leafWithin⟩ :=
        exists_last_of_forall₂ leavesFor found
      have leafReach := leafWithin.leaf.reach read nothing lastHere
      refine ⟨?_, rfl, lastLeaf, lastMember, ?_⟩
      · simp only [Placed.stop]
        omega
      · simp only [Placed.stop, leafWithin.offset]
        omega

include regular

/-- What is built accounts for its children, or is an error node. -/
theorem upholds_extends :
    setting.Upholds supply fun _ node =>
      (node.symbol ≠ Symbol.error → node.CoversChildren) ∧
        (node.symbol = Symbol.error → node.ReachesAsLast) := by
  constructor
  case offered =>
    intro symbol start node found
    rw [nothing] at found
    cases found
  case leaf =>
    intro index stamp token here _
    have isTerminal := isTerminal_of_get? regular read here
    refine ⟨fun _ => List.forall_mem_nil _, fun isError => ?_⟩
    exact absurd isError (Grammar.ne_error_of_isTerminal isTerminal)
  case enclosed =>
    intro symbol rule position next examined stamp nodes _ known _ moved inside
      runs
    constructor
    · intro _ child member
      obtain ⟨original, memberBefore, rfl⟩ := List.mem_map.mp member
      have after := (runs.between read rfl original memberBefore).after
      have reach := runs.composed read (composes_reach read nothing)
        (Nat.le_of_lt (Nat.lt_of_lt_of_le moved inside)) rfl original
        memberBefore
      have whole := @encloseAs_reach _ _ _ read symbol _ _ _ _ stamp _
        moved inside runs
      simp only [Placed.stop] at reach whole ⊢
      omega
    · intro (isError : symbol = Symbol.error)
      rw [isError, regular.unruled] at known
      cases known
  case unexpected =>
    intro first stop placed within errorsFor
    obtain ⟨_, isError, reach⟩ := errorsFor.reach read nothing within
    exact ⟨fun named => absurd isError named, fun _ => reach⟩

theorem extends_deriveRoot {symbol : Symbol} (named : symbol ≠ Symbol.error)
    (item : Rule Symbol) (supply : Nat) :
    (setting.deriveRoot symbol item supply).1.Extends := by
  refine Node.everywhere_iff_below.mpr ⟨⟨fun _ => ?_, fun isError => ?_⟩, ?_⟩
  · have rootRuns := rootRuns_deriveRoot regular read symbol item supply
    have reach := @RootRuns.composed setting supply text read
      (fun _ _ nodes => ∀ placed ∈ nodes,
        placed.stop + placed.item.lookahead ≤ setting.tokens.endExamined)
      item (fun _ => List.forall_mem_nil _)
      (fun within runs placed member =>
        Nat.le_trans
          (runs.composed read (composes_reach read nothing) within rfl placed
            member)
          (runs.examined_le read nothing))
      (fun within errorsFor => by
        cases errorsFor with
        | node found leavesFor fresh =>
            exact List.forall_mem_singleton.mpr
              (ErrorsFor.reach read nothing within
                (.node found leavesFor fresh)).1)
      (fun _ _ _ first rest => List.forall_mem_append.mpr ⟨first, rest⟩)
      0 none _ rootRuns (Nat.le_refl _) (Nat.zero_le _)
    have past := Grammar.length_lt_endExamined read
    have length := (Grammar.readsOn_of_tokenize read).1
    intro child member
    have bound := reach child member
    simp only [deriveRoot]
    omega
  · exact absurd isError named
  · intro offset node below
    exact (upholds_extends regular read nothing).below_deriveRoot read regular
      below

end

end Setting

/-- In the tree of a text every node accounts for the bytes its children account
for, with the exception of error nodes: they account for the bytes of their
last leaf only. -/
theorem Parser.parse_extends {name : String}
    {declarations : List Declaration} {parser : Parser}
    (accepted : Grammar.ofDeclarations name declarations =
      .ok parser.grammar.value)
    {text : List UInt8} {tokens : TokenList}
    (read : parser.grammar.value.tokenize text = .ok tokens)
    (fits : text.length ≤ longestText) (supply : Nat) :
    ∃ parsed, parser.parse text none supply = .ok parsed ∧
      parsed.tree.root.Extends := by
  have regular := Grammar.regular_of_ofDeclarations accepted
  obtain ⟨built⟩ := Grammar.built_of_ofDeclarations accepted
  rw [Parser.parse_none rfl fits, Grammar.derive, read]
  simp only [built.rule?_root]
  exact ⟨_, rfl, @Setting.extends_deriveRoot
    (parser.grammar.value.over parser.options.memoize none tokens) text regular
    read (Setting.nothing_of_alone rfl) _
    (regular.ne_error_of_rule? built.rule?_root) _ supply⟩

namespace Marks

section

variable {grammar : Grammar} (describes : Describes grammar)

include describes

/-- No quotation begins at either of the two tokens. -/
theorem runs_none {supply position examined : Nat}
    {outcome : Option RuleMatch}
    (runs : (grammar.over false none tokens).Runs supply (.symbol ⟨0⟩) position
      outcome examined) : outcome = none := by
  have isTerminal := isTerminal_text describes
  cases runs with
  | @token _ _ token node _ here same _ =>
      obtain ⟨within, rfl⟩ := Array.getElem?_eq_some_iff.mp here
      rcases position with _ | _ | position
      · cases same
      · cases same
      · exact absurd within (Nat.not_lt.mpr (Nat.le_add_left 2 position))
  | otherToken => rfl
  | noRule notTerminal
  | hidden notTerminal
  | taken notTerminal
  | visibleFail notTerminal
  | visibleEmpty notTerminal
  | visible notTerminal =>
      cases isTerminal.symm.trans notTerminal

/-- So both tokens are set aside. -/
theorem rootRuns_skip {supply position : Nat} {first? : Option Nat}
    {nodes : List (Placed Node)} (inside : position < tokens.size)
    (rootRuns : (grammar.over false none tokens).RootRuns supply (.symbol ⟨0⟩)
      position first? nodes) :
    (grammar.over false none tokens).RootRuns supply (.symbol ⟨0⟩)
      (position + 1) (some (first?.getD position)) nodes := by
  cases rootRuns with
  | done outside => exact absurd inside (Nat.not_lt.mpr outside)
  | item _ _ runs => cases runs_none describes runs
  | skip _ _ _ rest => exact rest

theorem errorsFor_rootRuns {supply : Nat} {nodes : List (Placed Node)}
    (rootRuns : (grammar.over false none tokens).RootRuns supply (.symbol ⟨0⟩)
      0 none nodes) :
    (grammar.over false none tokens).ErrorsFor supply 2 (some 0) nodes := by
  have first := rootRuns_skip describes (by decide) rootRuns
  cases rootRuns_skip describes (by decide) first with
  | done _ errorsFor => exact errorsFor
  | item inside => exact absurd inside (Nat.lt_irrefl 2)
  | skip inside => exact absurd inside (Nat.lt_irrefl 2)

/-- The error node over both tokens ends with the stop, which was read without
looking as far as for the mark. -/
theorem not_covering
    (accepted : Grammar.ofDeclarations "marks" declarations = .ok grammar)
    (supply : Nat) :
    ¬((grammar.over false none tokens).deriveRoot grammar.root (.symbol ⟨0⟩)
      supply).1.Covering := by
  intro covering
  have nothing := @Setting.nothing_of_alone (grammar.over false none tokens) rfl
  have errorsFor := errorsFor_rootRuns describes
    (@Setting.rootRuns_deriveRoot (grammar.over false none tokens) _
      (Grammar.regular_of_ofDeclarations accepted)
      (tokenize_mark_stop describes) grammar.root (.symbol ⟨0⟩) supply)
  generalize children : ((grammar.over false none tokens).deriveRoot
    grammar.root (.symbol ⟨0⟩) supply).1.children = nodes at errorsFor
  cases errorsFor with
  | @node _ stamp last leaves found leavesFor _ =>
      have same : some last = some ⟨⟨2⟩, ⟨1, 2⟩, 2⟩ := found.symm
      cases same
      have leavesFor : List.Forall₂
          ((grammar.over false none tokens).LeafWithin supply 0)
          [⟨⟨1⟩, ⟨0, 1⟩, 3⟩, ⟨⟨2⟩, ⟨1, 2⟩, 2⟩] leaves := leavesFor
      have inner := (Node.everywhere_iff.mp covering).2 _
        (children ▸ List.mem_singleton_self _)
      cases leavesFor with
      | @cons _ mark _ _ markFor _ =>
          have covered := (Node.everywhere_iff.mp inner).1 mark
            List.mem_cons_self
          obtain ⟨_, _, length⟩ := markFor.leaf.built_of_nothing nothing
          have lookahead := markFor.leaf.lookahead_eq nothing
          simp only [Placed.stop, markFor.offset, length, lookahead,
            Span.length] at covered
          have impossible : 3 ≤ 2 := covered
          omega

end

/-- The tree of a mark and a stop: no error node accounts for all that its
leaves account for. -/
theorem mark_stop_extends :
    ∃ (grammar : Stamped Grammar) (parsed : Parsed),
      Grammar.ofDeclarations "marks" declarations = .ok grammar.value ∧
        grammar.value.tokenize [34, 59] = .ok tokens ∧
          (Parser.ofGrammar grammar ⟨true, false⟩).parse [34, 59] none 0 =
              .ok parsed ∧
            parsed.tree.root.Extends ∧ ¬parsed.tree.root.Covering := by
  obtain ⟨grammar, accepted, describes⟩ := exists_grammar
  have read := tokenize_mark_stop describes
  obtain ⟨parsed, found, holds⟩ := @Parser.parse_extends "marks" declarations
    (Parser.ofGrammar ⟨0, grammar⟩ ⟨true, false⟩) accepted _ _ read
    (by decide) 0
  refine ⟨⟨0, grammar⟩, parsed, accepted, read, found, holds, ?_⟩
  have derived := @Parser.derive_of_parse_none ⟨0, grammar⟩ _ _ _ _ rfl found
  simp only [Grammar.derive, read, rule?_root describes, Parser.ofGrammar]
    at derived
  cases derived
  exact not_covering describes accepted 0

end Marks

end Reparse
