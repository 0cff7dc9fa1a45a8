import Mathlib.Data.List.Forall2
import Reparse.Proofs.Parse.Evaluation

/-!
# The children of the root

`Setting.RootRuns` says by value what becomes of the tokens at the root: where
the item matches its nodes are kept, and a run of tokens at which it does not
becomes an error node.  The loop over the tokens puts exactly such nodes on the
stack.
-/

namespace Reparse

namespace Setting

/-- The token at an index stands as a leaf within a parent at `start`. -/
structure LeafWithin (setting : Setting) (supply start : Nat) (token : Token)
    (placed : Placed Node) : Prop where
  offset : placed.offset = token.span.start - start
  leaf : setting.LeafFor supply token placed.item

/-- What becomes of the tokens set aside from `first?` on up to `stop`: nothing
if there are none, and else an error node over them. -/
inductive ErrorsFor (setting : Setting) (supply stop : Nat) :
    Option Nat → List (Placed Node) → Prop where
  | nothing : ErrorsFor setting supply stop none []
  | node {first stamp : Nat} {last : Token} {leaves : List (Placed Node)} :
      (setting.tokens.tokens.extract first stop).toList.getLast? = some last →
      List.Forall₂
        (setting.LeafWithin supply (setting.tokens.startOf first))
        (setting.tokens.tokens.extract first stop).toList leaves →
      supply ≤ stamp →
      ErrorsFor setting supply stop (some first)
        [⟨setting.tokens.startOf first,
          { stamp := stamp
            symbol := Symbol.error
            length := last.span.stop - setting.tokens.startOf first
            lookahead := last.examinedEnd - last.span.stop
            damaged := false
            children := leaves }⟩]

/-- From a token on, with the tokens from `first?` on set aside, these nodes
become children of the root. -/
inductive RootRuns (setting : Setting) (supply : Nat) (item : Rule Symbol) :
    Nat → Option Nat → List (Placed Node) → Prop where
  | done {position : Nat} {first? : Option Nat} {errors : List (Placed Node)} :
      setting.tokens.size ≤ position →
      setting.ErrorsFor supply setting.tokens.size first? errors →
      RootRuns setting supply item position first? errors
  | item {position examined : Nat} {first? : Option Nat} {found : RuleMatch}
      {errors rest : List (Placed Node)} :
      position < setting.tokens.size → position < found.next →
      setting.Runs supply item position (some found) examined →
      setting.ErrorsFor supply position first? errors →
      RootRuns setting supply item found.next none rest →
      RootRuns setting supply item position first?
        (errors ++ (found.nodes ++ rest))
  | skip {position examined : Nat} {first? : Option Nat}
      {outcome : Option RuleMatch} {rest : List (Placed Node)} :
      position < setting.tokens.size →
      setting.Runs supply item position outcome examined →
      (∀ found, outcome = some found → found.next = position) →
      RootRuns setting supply item (position + 1)
        (some (first?.getD position)) rest →
      RootRuns setting supply item position first? rest

section

variable {setting : Setting} {supply : Nat}

theorem mem_extract {first stop : Nat} {token : Token}
    (member : token ∈ (setting.tokens.tokens.extract first stop).toList) :
    ∃ index, first ≤ index ∧ index < stop ∧
      setting.tokens.get? index = some token := by
  obtain ⟨place, inside, same⟩ := List.getElem_of_mem member
  rw [Array.length_toList, Array.size_extract] at inside
  rw [Array.getElem_toList, Array.getElem_extract] at same
  refine ⟨first + place, Nat.le_add_right .., by omega, ?_⟩
  rw [TokenList.get?, Array.getElem?_eq_some_iff]
  exact ⟨by omega, same⟩

theorem last_of_extract {first stop : Nat} {last : Token}
    (within : stop ≤ setting.tokens.size)
    (found : (setting.tokens.tokens.extract first stop).toList.getLast? =
      some last) :
    first < stop ∧ setting.tokens.get? (stop - 1) = some last := by
  rw [List.getLast?_eq_getElem?, Array.getElem?_toList, Array.length_toList]
    at found
  obtain ⟨inside, same⟩ := Array.getElem?_eq_some_iff.mp found
  rw [Array.getElem_extract] at same
  rw [Array.size_extract] at inside
  simp only [TokenList.size] at within
  have place : first + ((setting.tokens.tokens.extract first stop).size - 1) =
      stop - 1 := by
    rw [Array.size_extract]
    omega
  refine ⟨by omega, ?_⟩
  rw [TokenList.get?, Array.getElem?_eq_some_iff]
  exact ⟨by omega, by simpa only [place] using same⟩

theorem edge_of_last {first stop : Nat} {last : Token} (before : first < stop)
    (lastHere : setting.tokens.get? (stop - 1) = some last) :
    setting.tokens.edge stop = last.span.stop := by
  rw [← TokenList.edge_succ lastHere,
    Nat.sub_add_cancel (Nat.zero_lt_of_lt before)]

/-- A token set aside lies between the first one and the last one. -/
theorem bounds_of_extract {text : List UInt8}
    (read : setting.grammar.tokenize text = .ok setting.tokens)
    {first stop index : Nat} {token last : Token}
    (within : stop ≤ setting.tokens.size) (after : first ≤ index)
    (below : index < stop) (here : setting.tokens.get? index = some token)
    (lastHere : setting.tokens.get? (stop - 1) = some last) :
    setting.tokens.startOf first ≤ token.span.start ∧
      token.span.stop ≤ last.span.stop := by
  have edges := Grammar.edge_le_edge read (Nat.succ_le_of_lt below) within
  rw [TokenList.edge_succ here, edge_of_last below lastHere] at edges
  have starts := Grammar.startOf_le_startOf read after
    (TokenList.lt_size_of_get? here)
  rw [TokenList.startOf_of_get? here] at starts
  exact ⟨starts, edges⟩

/-- The leaves of tokens set aside stand for them. -/
theorem leavesWithin_errorLeaves {start : Nat} {tokens : List Token}
    {state : DerivationState} (trusted : setting.Trusted supply state) :
    List.Forall₂ (setting.LeafWithin supply start) tokens
        (setting.errorLeaves start tokens state).1 ∧
      setting.Trusted supply (setting.errorLeaves start tokens state).2 ∧
        (setting.errorLeaves start tokens state).2.scratch =
          state.scratch := by
  induction tokens generalizing state with
  | nil => exact ⟨.nil, trusted, rfl⟩
  | cons token tokens induction =>
      obtain ⟨leaf, trustedLeaf, scratchLeaf, _⟩ := leafFor_leaf trusted token
      obtain ⟨leaves, trustedRest, scratchRest⟩ := induction trustedLeaf
      simp only [errorLeaves]
      exact ⟨.cons ⟨rfl, leaf⟩ leaves, trustedRest,
        scratchRest.trans scratchLeaf⟩

theorem trusted_flushErrors {mark stop : Nat} {first? : Option Nat}
    {state : DerivationState} (trusted : setting.Trusted supply state) :
    setting.Trusted supply (setting.flushErrors mark first? stop state) := by
  cases first? with
  | none => exact trusted
  | some first =>
      simp only [flushErrors, insertError]
      split
      · exact trusted
      · obtain ⟨_, trustedLeaves, _⟩ :=
          @leavesWithin_errorLeaves setting supply
            (setting.tokens.startOf first)
            (setting.tokens.tokens.extract first stop).toList state trusted
        exact ⟨Nat.le_succ_of_le trustedLeaves.fresh, trustedLeaves.memo⟩

theorem toList_insertIdxIfInBounds {α : Type} {items : Array α} {item : α}
    {below above : List α} {mark : Nat}
    (divided : items.toList = below ++ above) (atMark : mark = below.length) :
    (items.insertIdxIfInBounds mark item).toList =
      below ++ (item :: above) := by
  have within : mark ≤ items.size := by
    rw [← Array.length_toList, divided, List.length_append]
    omega
  rw [Array.insertIdxIfInBounds, dif_pos within, Array.toList_insertIdx,
    divided, atMark]
  clear divided atMark within
  induction below with
  | nil => rfl
  | cons first below induction =>
      simp only [List.cons_append, List.length_cons, List.insertIdx_succ_cons,
        induction]

/-- Tokens set aside end up in an error node below the nodes found since. -/
theorem errorsFor_flushErrors {state : DerivationState} {stop mark : Nat}
    {first? : Option Nat} {below above : List (Placed Node)}
    (trusted : setting.Trusted supply state)
    (within : stop ≤ setting.tokens.size)
    (waiting : ∀ first, first? = some first → first < stop)
    (scratch : state.scratch.toList = below ++ above)
    (atMark : mark = below.length) :
    ∃ errors, setting.ErrorsFor supply stop first? errors ∧
      (setting.flushErrors mark first? stop state).scratch.toList =
          below ++ (errors ++ above) ∧
        setting.Trusted supply
          (setting.flushErrors mark first? stop state) := by
  cases first? with
  | none => exact ⟨[], .nothing, scratch, trusted⟩
  | some first =>
      have before := waiting first rfl
      have filled : (setting.tokens.tokens.extract first stop).size ≠ 0 := by
        simp only [TokenList.size] at within
        rw [Array.size_extract]
        omega
      simp only [flushErrors, insertError]
      split
      · next none =>
          rw [Array.back?_eq_none_iff] at none
          rw [none] at filled
          exact absurd rfl filled
      · next last found =>
          obtain ⟨leaves, trustedLeaves, scratchLeaves⟩ :=
            @leavesWithin_errorLeaves setting supply
              (setting.tokens.startOf first)
              (setting.tokens.tokens.extract first stop).toList state trusted
          rw [← Array.getLast?_toList] at found
          refine ⟨_, .node found leaves trustedLeaves.fresh, ?_,
            Nat.le_succ_of_le trustedLeaves.fresh, trustedLeaves.memo⟩
          rw [← scratchLeaves] at scratch
          exact toList_insertIdxIfInBounds scratch atMark

theorem waiting_none {position : Nat} :
    ∀ first, (none : Option Nat) = some first → first < position := by
  intro first same
  cases same

theorem waiting_getD {position : Nat} {first? : Option Nat}
    (waiting : ∀ first, first? = some first → first < position) :
    ∀ first, some (first?.getD position) = some first →
      first < position + 1 := by
  intro first same
  cases same
  cases first? with
  | none => exact Nat.lt_succ_self _
  | some first => exact Nat.lt_succ_of_lt (waiting first rfl)

theorem size_of_toList {before after : DerivationState} {mark : Nat}
    (kept : after.scratch.toList = before.scratch.toList)
    (atTop : mark = before.scratch.size) : mark = after.scratch.size := by
  rw [atTop, ← Array.length_toList, ← kept, Array.length_toList]

/-- An attempt that consumes no token leaves nothing but its outcome. -/
theorem Delivers.stuck (onward : setting.Onward) {item : Rule Symbol}
    {position mark : Nat} {next? : Option Nat} {state after : DerivationState}
    (delivers : setting.Delivers supply item position state.scratch.toList
      state (next?, after))
    (idle : ∀ next, next? = some next → ¬position < next)
    (atTop : mark = state.scratch.size) :
    setting.Trusted supply (after.truncate mark) ∧
      (after.truncate mark).scratch.toList = state.scratch.toList ∧
        ∃ outcome examined,
          setting.Runs supply item position outcome examined ∧
            ∀ found, outcome = some found → found.next = position := by
  have same := atTop.trans Array.length_toList.symm
  cases delivers with
  | failed runs trusted scratch _ =>
      rw [← List.append_nil state.scratch.toList] at scratch
      refine ⟨trusted_truncate trusted mark, (above_of_append scratch same).2,
        _, _, runs, ?_⟩
      intro found matched
      cases matched
  | matched runs trusted scratch _ =>
      refine ⟨trusted_truncate trusted mark, (above_of_append scratch same).2,
        _, _, runs, ?_⟩
      intro found matched
      cases matched
      exact ((runs.advances onward rfl).resolve_right
        fun moved => idle _ rfl moved.1).1

/-- The loop over the tokens leaves the children of the root on the stack. -/
theorem rootRuns_deriveItems {text : List UInt8}
    (regular : setting.grammar.Regular)
    (read : setting.grammar.tokenize text = .ok setting.tokens)
    {item : Rule Symbol} {position mark : Nat} {first? : Option Nat}
    {state : DerivationState} (within : position ≤ setting.tokens.size)
    (trusted : setting.Trusted supply state)
    (waiting : ∀ first, first? = some first → first < position)
    (atTop : mark = state.scratch.size) :
    ∃ nodes, setting.RootRuns supply item position first? nodes ∧
      (setting.deriveItems item position first? mark state).scratch.toList =
          state.scratch.toList ++ nodes ∧
        setting.Trusted supply
          (setting.deriveItems item position first? mark state) := by
  fun_induction setting.deriveItems item position first? mark state with
  | case1 position first? mark state inside next after found moved state'
      induction =>
      have delivers :=
        delivers_eval regular (onward_of_tokenize read) position
          trusted (admits_anyRank regular item)
      rw [found] at delivers
      cases delivers with
      | matched runs trustedAfter scratch _ =>
          obtain ⟨_, insideNext⟩ :=
            (runs.advance read rfl).resolve_left
              fun stuck => absurd stuck.1 (Nat.ne_of_gt moved)
          -- The tokens skipped before the item become its error nodes.
          obtain ⟨errors, errorsFor, scratchErrors, trustedErrors⟩ :=
            errorsFor_flushErrors trustedAfter within waiting scratch
              (atTop.trans Array.length_toList.symm)
          obtain ⟨rest, rootRuns, scratchRest, trustedLast⟩ :=
            induction insideNext trustedErrors waiting_none rfl
          refine ⟨_, .item inside moved runs errorsFor rootRuns, ?_,
            trustedLast⟩
          rw [scratchRest, scratchErrors, List.append_assoc, List.append_assoc]
  -- A match of nothing is treated as a failure: the token is skipped.
  | case2 position first? mark state inside next after found stuck induction =>
      have delivers :=
        delivers_eval regular (onward_of_tokenize read) position
          trusted (admits_anyRank regular item)
      rw [found] at delivers
      obtain ⟨trustedAfter, kept, _, _, runs, same⟩ :=
        delivers.stuck (onward_of_tokenize read)
          (fun other moved => Option.some.inj moved ▸ stuck) atTop
      obtain ⟨rest, rootRuns, scratchRest, trustedLast⟩ :=
        induction inside trustedAfter (waiting_getD waiting)
          (size_of_toList kept atTop)
      rw [kept] at scratchRest
      exact ⟨rest, .skip inside runs same rootRuns, scratchRest, trustedLast⟩
  | case3 position first? mark state inside after found induction =>
      have delivers :=
        delivers_eval regular (onward_of_tokenize read) position
          trusted (admits_anyRank regular item)
      rw [found] at delivers
      obtain ⟨trustedAfter, kept, _, _, runs, same⟩ :=
        delivers.stuck (onward_of_tokenize read)
          (fun other moved => absurd moved (Option.some_ne_none other).symm)
          atTop
      obtain ⟨rest, rootRuns, scratchRest, trustedLast⟩ :=
        induction inside trustedAfter (waiting_getD waiting)
          (size_of_toList kept atTop)
      rw [kept] at scratchRest
      exact ⟨rest, .skip inside runs same rootRuns, scratchRest, trustedLast⟩
  | case4 position first? mark state outside =>
      have atEnd : position = setting.tokens.size := by omega
      rw [← atEnd]
      obtain ⟨errors, errorsFor, scratch, trustedLast⟩ :=
        @errorsFor_flushErrors setting supply state position mark first?
          state.scratch.toList [] trusted within waiting
          (List.append_nil _).symm (atTop.trans Array.length_toList.symm)
      rw [List.append_nil] at scratch
      refine ⟨errors, .done (Nat.le_of_not_lt outside) ?_, scratch,
        trustedLast⟩
      rw [← atEnd]
      exact errorsFor

/-- The children of a derived root. -/
theorem rootRuns_deriveRoot {text : List UInt8}
    (regular : setting.grammar.Regular)
    (read : setting.grammar.tokenize text = .ok setting.tokens)
    (symbol : Symbol) (item : Rule Symbol) (supply : Nat) :
    setting.RootRuns supply item 0 none
      (setting.deriveRoot symbol item supply).1.children := by
  obtain ⟨nodes, rootRuns, scratch, _⟩ :=
    @rootRuns_deriveItems setting supply text regular read item 0 0 none _
      (Nat.zero_le _) (trusted_initial setting supply) waiting_none rfl
  have children : (setting.deriveRoot symbol item supply).1.children = nodes :=
    scratch
  rw [children]
  exact rootRuns

end

end Setting

end Reparse
