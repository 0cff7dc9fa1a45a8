import Reparse.Parse.Checked
import Reparse.Proofs.Parse.Composition
import Reparse.Proofs.Parse.Termination
import Reparse.Proofs.Parse.Yield
import Reparse.Proofs.Tree.Order

/-!
# Derivations rely on nothing but order

A node taken over need not say anything true about the text below it.  It has
bytes and ends where a token does, and this is enough: the nodes of a derivation
lie in order between the edges of tokens, so the differences of their offsets
are no less than zero, and every token that is asked for is there.
-/

namespace Reparse

namespace Setting

section

variable {setting : Setting} {supply : Nat} {text : List UInt8}

theorem LeafFor.length_eq {token : Token} {node : Node}
    (leaf : setting.LeafFor supply token node) :
    node.length = token.span.length := by
  cases leaf with
  | taken _ same => exact same
  | built => rfl

variable (read : setting.grammar.tokenize text = .ok setting.tokens)

include read

/-- What a match leaves lies in order between the edges of its tokens. -/
theorem composes_inOrder :
    setting.Composes supply fun position next _ nodes =>
      Node.InOrder (setting.tokens.edge next) (setting.tokens.edge position)
        nodes := by
  constructor
  case nothing => exact fun _ => Nat.le_refl _
  case leaf =>
    intro position token node here leaf
    obtain ⟨starts, filled, _, _⟩ := Grammar.span_bounds read here
    refine ⟨starts, ?_⟩
    simp only [Node.InOrder, Placed.stop, leaf.length_eq, Span.length,
      TokenList.edge_succ here]
    omega
  case taken =>
    intro symbol position next examined node placed offered
    obtain ⟨token, here, _, rfl, _, _, _, stops⟩ :=
      edge_of_reusable? read offered
    exact ⟨(Grammar.span_bounds read here).1, Nat.le_of_eq stops.symm⟩
  case enclosed =>
    intro symbol rule position next examined stamp nodes _ _ _ moved inside _ _
    have filled := Grammar.startOf_lt_edge read moved inside
    refine ⟨Grammar.edge_le_startOf read (Nat.lt_of_lt_of_le moved inside), ?_⟩
    simp only [Node.InOrder, Placed.stop, TokenList.encloseAs,
      TokenList.stopBefore_eq_edge moved]
    omega
  case append => exact fun _ _ _ first rest => first.append rest
  case further => exact fun _ ordered => ordered

/-- Enclosed in a node, they lie in order within it. -/
theorem Runs.inOrder_placeWithin {rule : Rule Symbol}
    {position next examined : Nat} {nodes : List (Placed Node)}
    (runs : setting.Runs supply rule position (some ⟨next, nodes⟩) examined)
    (moved : position < next) (inside : next ≤ setting.tokens.size) :
    Node.InOrder
      (setting.tokens.stopBefore next - setting.tokens.startOf position) 0
      (placeWithin (setting.tokens.startOf position) nodes) := by
  have within := Nat.le_of_lt (Nat.lt_of_lt_of_le moved inside)
  have ordered := runs.composed read (composes_inOrder read) within rfl
  have after := fun placed member => (runs.between read rfl placed member).after
  rw [TokenList.stopBefore_eq_edge moved]
  exact (ordered.moved after).lower (Nat.zero_le _)

theorem leaves_inOrder {start index stop : Nat} {leaves : List (Placed Node)}
    (before : index ≤ stop) (within : stop ≤ setting.tokens.size)
    (after : ∀ later token, index ≤ later →
      setting.tokens.get? later = some token → start ≤ token.span.start)
    (leavesFor : List.Forall₂ (setting.LeafWithin supply start)
      (setting.tokens.tokens.extract index stop).toList leaves) :
    Node.InOrder (setting.tokens.edge stop - start)
      (setting.tokens.edge index - start) leaves := by
  induction leaves generalizing index with
  | nil =>
      apply Nat.sub_le_sub_right
      exact Grammar.edge_le_edge read before within
  | cons leaf leaves induction =>
      rcases Nat.lt_or_eq_of_le before with inside | rfl
      · obtain ⟨token, here⟩ :=
          TokenList.get?_of_lt (Nat.lt_of_lt_of_le inside within)
        rw [TokenList.toList_extract_cons here inside] at leavesFor
        cases leavesFor with
        | cons leafWithin leavesFor =>
            obtain ⟨starts, filled, _, _⟩ := Grammar.span_bounds read here
            have behind := after index token (Nat.le_refl _) here
            have stops :
                leaf.stop = setting.tokens.edge (index + 1) - start := by
              rw [Placed.stop, leafWithin.offset, leafWithin.leaf.length_eq,
                TokenList.edge_succ here, Span.length]
              omega
            constructor
            · rw [leafWithin.offset]
              exact Nat.sub_le_sub_right starts start
            · rw [stops]
              refine induction inside ?_ leavesFor
              intro later other beyond found
              exact after later other (Nat.le_of_succ_le beyond) found
      · rw [Array.extract_empty_of_stop_le_start (Nat.le_refl _)] at leavesFor
        cases leavesFor

/-- The leaves of tokens set aside lie in order within the error node. -/
theorem leaves_inOrder_error {first stop : Nat} {last : Token}
    {leaves : List (Placed Node)} (within : stop ≤ setting.tokens.size)
    (before : first < stop)
    (lastHere : setting.tokens.get? (stop - 1) = some last)
    (leavesFor : List.Forall₂
      (setting.LeafWithin supply (setting.tokens.startOf first))
      (setting.tokens.tokens.extract first stop).toList leaves) :
    Node.InOrder (last.span.stop - setting.tokens.startOf first) 0 leaves := by
  rw [← edge_of_last before lastHere]
  refine (leaves_inOrder read (Nat.le_of_lt before) within ?_ leavesFor).lower
    (Nat.zero_le _)
  intro later token after here
  rw [← TokenList.startOf_of_get? here]
  exact Grammar.startOf_le_startOf read after (TokenList.lt_size_of_get? here)

/-- An error node lies between the edges of its tokens. -/
theorem ErrorsFor.inOrder {first stop : Nat} {errors : List (Placed Node)}
    (within : stop ≤ setting.tokens.size)
    (errorsFor : setting.ErrorsFor supply stop (some first) errors) :
    Node.InOrder (setting.tokens.edge stop) (setting.tokens.edge first)
      errors := by
  cases errorsFor with
  | @node _ stamp last leaves found leavesFor fresh =>
      obtain ⟨before, lastHere⟩ := last_of_extract within found
      have filled := Grammar.startOf_lt_edge read before within
      have stops := edge_of_last before lastHere
      refine ⟨Grammar.edge_le_startOf read
        (Nat.lt_of_lt_of_le before within), ?_⟩
      simp only [Node.InOrder, Placed.stop]
      omega

section

variable (offered : ∀ {symbol : Symbol} {start : Nat} {node : Node},
  setting.findReusable? symbol start = some node →
    node.WellFormed ∧ node.Undamaged)

include offered

theorem upholds_wellFormed :
    setting.Upholds supply fun _ node =>
      node.damaged = false ∧ Node.InOrder node.length 0 node.children := by
  constructor
  case offered =>
    intro symbol start node found
    obtain ⟨wellFormed, undamaged⟩ := offered found
    obtain ⟨here, below⟩ := Node.throughout_of_everywhere wellFormed start
    obtain ⟨clean, cleanBelow⟩ := Node.throughout_of_everywhere undamaged start
    exact ⟨⟨clean, here⟩, fun offset inner deeper =>
      ⟨cleanBelow offset inner deeper, below offset inner deeper⟩⟩
  case leaf => exact fun _ _ => ⟨rfl, Nat.zero_le _⟩
  case enclosed =>
    intro symbol rule position next examined stamp nodes _ _ _ moved inside runs
    exact ⟨rfl, runs.inOrder_placeWithin read moved inside⟩
  case unexpected =>
    intro first stop placed within errorsFor
    cases errorsFor with
    | node found leavesFor _ =>
        obtain ⟨before, lastHere⟩ := last_of_extract within found
        exact ⟨rfl, leaves_inOrder_error read within before lastHere leavesFor⟩

/-- A derived tree is well formed and undamaged. -/
theorem wellFormed_deriveRoot (regular : setting.grammar.Regular)
    (symbol : Symbol) (item : Rule Symbol) (supply : Nat) :
    (setting.deriveRoot symbol item supply).1.WellFormed ∧
      (setting.deriveRoot symbol item supply).1.Undamaged := by
  have ordered : Node.InOrder (setting.tokens.edge setting.tokens.size)
      (setting.tokens.edge 0)
      (setting.deriveRoot symbol item supply).1.children :=
    (composes_inOrder read).deriveRoot read
      (fun within errorsFor => errorsFor.inOrder read within)
      regular symbol item
  have length : (setting.deriveRoot symbol item supply).1.length =
      text.length :=
    (Grammar.readsOn_of_tokenize read).1
  have below := fun offset node =>
    @Upholds.below_deriveRoot setting supply text _
      (upholds_wellFormed read offered) read regular symbol item offset node
  constructor
  · refine Node.everywhere_iff_below.mpr ⟨?_, fun offset node deeper =>
      (below offset node deeper).2⟩
    rw [length]
    exact (ordered.raise (Grammar.edge_le_length read (Nat.le_refl _))).lower
      (Nat.zero_le _)
  · exact Node.everywhere_iff_below.mpr ⟨rfl, fun offset node deeper =>
      (below offset node deeper).1⟩

end

end

end Setting

end Reparse
