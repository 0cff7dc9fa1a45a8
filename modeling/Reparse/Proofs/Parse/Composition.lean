import Reparse.Proofs.Parse.Roots

/-!
# What derivations put together

A derivation makes nodes in few ways: it puts the leaf of a token, takes a node
over, and encloses what it has matched; apart from that it only puts matches
next to each other.  What each of these keeps holds of all that a match leaves,
and of all that becomes a child of the root.  In particular a property of nodes
in their places holds of every node below the root if it holds of those taken
over and of those built.
-/

namespace Reparse

namespace Node

/-- The property holds of the node, which begins at `start`, and of everything
below it in its place. -/
def Throughout (holds : Nat → Node → Prop) (start : Nat) (node : Node) : Prop :=
  holds start node ∧
    ∀ offset inner, node.Below offset inner → holds (start + offset) inner

theorem throughout_iff {holds : Nat → Node → Prop} {start : Nat}
    {node : Node} :
    node.Throughout holds start ↔
      holds start node ∧ ∀ child ∈ node.children,
        child.item.Throughout holds (start + child.offset) := by
  refine and_congr_right fun _ => ⟨?_, ?_⟩
  · intro always child member
    refine ⟨always _ _ (.child member), fun offset inner below => ?_⟩
    rw [Nat.add_assoc]
    exact always _ _ (.deeper member below)
  · intro children offset inner below
    obtain ⟨child, member, ⟨rfl, rfl⟩ | ⟨depth, rfl, deeper⟩⟩ :=
      below_iff.mp below
    · exact (children child member).1
    · rw [← Nat.add_assoc]
      exact (children child member).2 depth inner deeper

theorem throughout_leaf {holds : Nat → Node → Prop} {start : Nat} {node : Node}
    (here : holds start node) (childless : node.children = []) :
    node.Throughout holds start := by
  apply throughout_iff.mpr
  rw [childless]
  exact ⟨here, List.forall_mem_nil _⟩

theorem throughout_of_everywhere {holds : Node → Prop} {node : Node}
    (everywhere : node.Everywhere holds) (start : Nat) :
    node.Throughout (fun _ => holds) start :=
  everywhere_iff_below.mp everywhere

end Node

namespace Setting

/-- A property of nodes left by a match from one token to another, with the
bytes up to some position recorded for it, that each way to make a match
keeps. -/
structure Composes (setting : Setting) (supply : Nat)
    (fits : Nat → Nat → Nat → List (Placed Node) → Prop) : Prop where
  nothing {position examined : Nat} :
    position ≤ setting.tokens.size → fits position position examined []
  leaf {position : Nat} {token : Token} {node : Node} :
    setting.tokens.get? position = some token →
    setting.LeafFor supply token node →
    fits position (position + 1) token.examinedEnd [⟨token.span.start, node⟩]
  taken {symbol : Symbol} {position next examined : Nat} {node : Node}
      {placed : Placed Node} :
    setting.reusable? symbol position =
      some (node, .matched next examined (some placed)) →
    fits position next examined [placed]
  enclosed {symbol : Symbol} {rule : Rule Symbol}
      {position next examined stamp : Nat} {nodes : List (Placed Node)} :
    setting.grammar.isTerminal symbol = false →
    setting.grammar.rule? symbol = some rule →
    setting.reusable? symbol position = none →
    position < next → next ≤ setting.tokens.size →
    setting.Runs supply rule position (some ⟨next, nodes⟩) examined →
    fits position next examined nodes →
    fits position next examined
      [setting.tokens.encloseAs stamp symbol position next examined nodes]
  append {position middle next examined later : Nat}
      {first rest : List (Placed Node)} :
    position ≤ middle → middle ≤ next → next ≤ setting.tokens.size →
    fits position middle examined first → fits middle next later rest →
    fits position next (max examined later) (first ++ rest)
  further {position next examined more : Nat} {nodes : List (Placed Node)} :
    examined ≤ more → fits position next examined nodes →
    fits position next more nodes

section

variable {setting : Setting} {supply : Nat} {text : List UInt8}

section

variable (read : setting.grammar.tokenize text = .ok setting.tokens)

include read

theorem Runs.next_le {rule : Rule Symbol} {position examined : Nat}
    {found : RuleMatch}
    (runs : setting.Runs supply rule position (some found) examined)
    (within : position ≤ setting.tokens.size) :
    found.next ≤ setting.tokens.size := by
  rcases runs.advance read rfl with ⟨same, _, _⟩ | ⟨_, inside⟩
  · exact same ▸ within
  · exact inside

/-- What each way to make a match keeps holds of every match. -/
theorem Runs.composed {fits : Nat → Nat → Nat → List (Placed Node) → Prop}
    (composes : setting.Composes supply fits) {rule : Rule Symbol}
    {position examined : Nat} {outcome : Option RuleMatch}
    (runs : setting.Runs supply rule position outcome examined)
    (within : position ≤ setting.tokens.size) {found : RuleMatch}
    (matched : outcome = some found) :
    fits position found.next examined found.nodes := by
  induction runs generalizing found with
  | token _ here same leaf =>
      cases matched
      exact composes.leaf here leaf
  | otherToken | noRule | visibleFail | seqFail | seqFailLater | choiceNil =>
      cases matched
  | hidden _ _ _ _ induction => exact induction within matched
  | taken _ _ _ offered =>
      cases matched
      exact composes.taken offered
  | visibleEmpty | seqNil | starFail | starEmpty | optNone =>
      cases matched
      exact composes.nothing within
  | visible notTerminal known _ refused different _ runs induction =>
      cases matched
      obtain ⟨moved, inside⟩ := (runs.advance read rfl).resolve_left
        fun stuck => different stuck.1
      exact composes.enclosed notTerminal known refused moved inside runs
        (induction within rfl)
  | seqCons first later firstInduction laterInduction
  | starStep _ first later firstInduction laterInduction =>
      cases matched
      have reached := first.next_le read within
      have onward := later.le_next read rfl
      exact composes.append (first.le_next read rfl) onward
        (later.next_le read reached) (firstInduction within rfl)
        (laterInduction reached rfl)
  | choiceHead _ induction | optSome _ induction =>
      cases matched
      exact induction within rfl
  -- Having tried another alternative can only have examined more.
  | choiceTail _ _ _ induction =>
      exact composes.further (Nat.le_max_right _ _) (induction within matched)

/-- What matches, error nodes and putting them next to each other keep holds of
the children of the root. -/
theorem RootRuns.composed {fits : Nat → Nat → List (Placed Node) → Prop}
    {item : Rule Symbol}
    (nothing : ∀ {position}, position ≤ setting.tokens.size →
      fits position position [])
    (matched : ∀ {position found examined},
      position ≤ setting.tokens.size →
      setting.Runs supply item position (some found) examined →
      fits position found.next found.nodes)
    (unexpected : ∀ {first stop errors}, stop ≤ setting.tokens.size →
      setting.ErrorsFor supply stop (some first) errors →
      fits first stop errors)
    (append : ∀ {position middle next first rest}, position ≤ middle →
      middle ≤ next → next ≤ setting.tokens.size →
      fits position middle first → fits middle next rest →
      fits position next (first ++ rest))
    {position : Nat} {first? : Option Nat} {nodes : List (Placed Node)}
    (rootRuns : setting.RootRuns supply item position first? nodes)
    (waiting : first?.getD position ≤ position)
    (within : position ≤ setting.tokens.size) :
    fits (first?.getD position) setting.tokens.size nodes := by
  have aside {stop : Nat} {first? : Option Nat} {errors : List (Placed Node)}
      (within : stop ≤ setting.tokens.size)
      (errorsFor : setting.ErrorsFor supply stop first? errors) :
      fits (first?.getD stop) stop errors := by
    cases first? with
    | none =>
        cases errorsFor
        exact nothing within
    | some first => exact unexpected within errorsFor
  induction rootRuns with
  | @done position first? errors atEnd errorsFor =>
      have same : position = setting.tokens.size := Nat.le_antisymm within atEnd
      subst same
      exact aside (Nat.le_refl _) errorsFor
  | item inside moved runs errorsFor _ induction =>
      have reached := runs.next_le read within
      have later := induction (Nat.le_refl _) reached
      apply append waiting within (Nat.le_refl _) (aside within errorsFor)
      exact append (Nat.le_of_lt moved) reached (Nat.le_refl _)
        (matched within runs) later
  | skip inside _ _ _ induction =>
      exact induction (Nat.le_succ_of_le waiting) inside

/-- In particular of the children of a derived root. -/
theorem Composes.deriveRoot {fits : Nat → Nat → List (Placed Node) → Prop}
    (composes : setting.Composes supply fun position next _ nodes =>
      fits position next nodes)
    (unexpected : ∀ {first stop errors}, stop ≤ setting.tokens.size →
      setting.ErrorsFor supply stop (some first) errors →
      fits first stop errors)
    (regular : setting.grammar.Regular) (symbol : Symbol)
    (item : Rule Symbol) :
    fits 0 setting.tokens.size
      (setting.deriveRoot symbol item supply).1.children :=
  (rootRuns_deriveRoot regular read symbol item supply).composed read
    (fun within => @Composes.nothing _ _ _ composes _ 0 within)
    (fun within runs => runs.composed read composes within rfl) unexpected
    (fun onward further within first rest =>
      @Composes.append _ _ _ composes _ _ _ 0 0 _ _ onward further within first
        rest)
    (Nat.le_refl _) (Nat.zero_le _)

end

/-- A property of nodes in their places that holds of everything taken over and
of everything built. -/
structure Upholds (setting : Setting) (supply : Nat)
    (holds : Nat → Node → Prop) : Prop where
  offered {symbol : Symbol} {start : Nat} {node : Node} :
    setting.findReusable? symbol start = some node →
    node.Throughout holds start
  leaf {index stamp : Nat} {token : Token} :
    setting.tokens.get? index = some token →
    (∀ node,
      setting.findReusable? token.symbol token.span.start = some node →
      node.length ≠ token.span.length) →
    holds token.span.start
      (Node.leaf stamp token.symbol token.span.length
        (token.examinedEnd - token.span.stop))
  enclosed {symbol : Symbol} {rule : Rule Symbol}
      {position next examined stamp : Nat} {nodes : List (Placed Node)} :
    setting.grammar.isTerminal symbol = false →
    setting.grammar.rule? symbol = some rule →
    setting.reusable? symbol position = none →
    position < next → next ≤ setting.tokens.size →
    setting.Runs supply rule position (some ⟨next, nodes⟩) examined →
    holds (setting.tokens.startOf position)
      (setting.tokens.encloseAs stamp symbol position next examined nodes).item
  unexpected {first stop : Nat} {placed : Placed Node} :
    stop ≤ setting.tokens.size →
    setting.ErrorsFor supply stop (some first) [placed] →
    holds placed.offset placed.item

section

variable {holds : Nat → Node → Prop} (upholds : setting.Upholds supply holds)

include upholds

theorem Upholds.throughout_leaf {index : Nat} {token : Token} {node : Node}
    (here : setting.tokens.get? index = some token)
    (leaf : setting.LeafFor supply token node) :
    node.Throughout holds token.span.start := by
  cases leaf with
  | taken found _ => exact upholds.offered found
  | built _ absent =>
      exact Node.throughout_leaf (upholds.leaf here absent) rfl

variable (read : setting.grammar.tokenize text = .ok setting.tokens)

include read

theorem Upholds.composes :
    setting.Composes supply fun _ _ _ nodes =>
      ∀ placed ∈ nodes, placed.item.Throughout holds placed.offset := by
  constructor
  case nothing => exact fun _ => List.forall_mem_nil _
  case leaf =>
    intro position token node here leaf
    exact List.forall_mem_singleton.mpr (upholds.throughout_leaf here leaf)
  case taken =>
    intro symbol position next examined node placed offered
    obtain ⟨token, here, found, rfl, _⟩ := edge_of_reusable? read offered
    exact List.forall_mem_singleton.mpr (upholds.offered found)
  case enclosed =>
    intro symbol rule position next examined stamp nodes notTerminal known
      refused moved inside runs fits
    have between := runs.between read rfl
    refine List.forall_mem_singleton.mpr (Node.throughout_iff.mpr ⟨?_, ?_⟩)
    · exact upholds.enclosed notTerminal known refused moved inside runs
    · intro child member
      obtain ⟨original, memberBefore, rfl⟩ := List.mem_map.mp member
      have after := (between original memberBefore).after
      have same : setting.tokens.startOf position +
          (original.offset - setting.tokens.startOf position) =
            original.offset :=
        Nat.add_sub_cancel' after
      have fit := fits original memberBefore
      simp only [TokenList.encloseAs, same]
      exact fit
  case append =>
    exact fun _ _ _ first rest => List.forall_mem_append.mpr ⟨first, rest⟩
  case further => exact fun _ fits => fits

theorem Upholds.throughout_errors {first stop : Nat}
    {errors : List (Placed Node)} (within : stop ≤ setting.tokens.size)
    (errorsFor : setting.ErrorsFor supply stop (some first) errors) :
    ∀ placed ∈ errors, placed.item.Throughout holds placed.offset := by
  cases errorsFor with
  | @node _ stamp last leaves found leavesFor fresh =>
      obtain ⟨_, lastHere⟩ := last_of_extract within found
      have top := upholds.unexpected within (.node found leavesFor fresh)
      refine List.forall_mem_singleton.mpr (Node.throughout_iff.mpr ⟨top, ?_⟩)
      intro leaf member
      obtain ⟨token, memberToken, leafWithin⟩ :=
        exists_of_forall₂_right leavesFor member
      obtain ⟨index, after, below, here⟩ := mem_extract memberToken
      obtain ⟨starts, _⟩ :=
        bounds_of_extract read within after below here lastHere
      have same : setting.tokens.startOf first +
          (token.span.start - setting.tokens.startOf first) =
            token.span.start :=
        Nat.add_sub_cancel' starts
      simp only [leafWithin.offset, same]
      exact upholds.throughout_leaf here leafWithin.leaf

/-- It holds of every node below the root of the derived tree. -/
theorem Upholds.below_deriveRoot (regular : setting.grammar.Regular)
    {symbol : Symbol} {item : Rule Symbol} {offset : Nat} {node : Node}
    (below : (setting.deriveRoot symbol item supply).1.Below offset node) :
    holds offset node := by
  have fits := (upholds.composes read).deriveRoot read
    (fun within errorsFor => upholds.throughout_errors read within errorsFor)
    regular symbol item
  obtain ⟨placed, member, ⟨rfl, rfl⟩ | ⟨depth, rfl, deeper⟩⟩ :=
    Node.below_iff.mp below
  · exact (fits placed member).1
  · exact (fits placed member).2 depth node deeper

end

end

end Setting

end Reparse
