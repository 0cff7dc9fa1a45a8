import Reparse.Proofs.Parse.Preservation
import Reparse.Proofs.Tree.Identity

/-!
# The nodes taken over are accounted for

A derivation notes the stamp of every node that it takes over, also of those
that it drops again.  So the stamps noted are known ones, and every known node
that a new node holds is among them: counting the nodes taken over gives what
counting the known ones gives.
-/

namespace Reparse

namespace Node

/-- Every known node met on the way down through new ones is one of those taken
over. -/
inductive Accounted (known taken : Nat → Bool) : Node → Prop where
  | taken {node : Node} :
      known node.stamp = true → taken node.stamp = true →
      Accounted known taken node
  | built {node : Node} :
      known node.stamp = false →
      (∀ placed ∈ node.children, Accounted known taken placed.item) →
      Accounted known taken node

variable {known taken : Nat → Bool} {node : Node}

theorem Accounted.mono {more : Nat → Bool}
    (accounted : node.Accounted known taken)
    (grows : ∀ stamp, taken stamp = true → more stamp = true) :
    node.Accounted known more := by
  induction accounted with
  | taken isKnown isTaken => exact .taken isKnown (grows _ isTaken)
  | built isNew _ induction => exact .built isNew induction

theorem ofNodeList_congr {first second : Nat → Bool}
    {children : List (Placed Node)}
    (same : ∀ placed ∈ children, Statistics.ofNode first placed.item =
      Statistics.ofNode second placed.item) :
    Statistics.ofNodeList first children =
      Statistics.ofNodeList second children := by
  induction children with
  | nil => rfl
  | cons placed rest induction =>
      obtain ⟨here, later⟩ := List.forall_mem_cons.mp same
      rw [Statistics.ofNodeList, Statistics.ofNodeList, here, induction later]

/-- The nodes taken over and the known ones are the same for the statistics. -/
theorem Accounted.ofNode_eq (accounted : node.Accounted known taken)
    (within : ∀ stamp, taken stamp = true → known stamp = true) :
    Statistics.ofNode taken node = Statistics.ofNode known node := by
  induction accounted with
  | @taken node isKnown isTaken =>
      cases node
      rw [Statistics.ofNode, Statistics.ofNode, if_pos isTaken, if_pos isKnown]
  | @built node isNew _ induction =>
      have notTaken : ¬taken node.stamp = true := by
        intro isTaken
        rw [within _ isTaken] at isNew
        cases isNew
      cases node
      rw [Statistics.ofNode, Statistics.ofNode, if_neg notTaken,
        if_neg (Bool.eq_false_iff.mp isNew), ofNodeList_congr induction]

end Node

namespace DerivationState

/-- All that lies on the stack or is remembered is accounted for. -/
structure Accounts (known : Nat → Bool) (state : DerivationState) : Prop where
  taken : ∀ stamp, state.reused.contains stamp = true → known stamp = true
  older : ∀ stamp, known stamp = true → stamp < state.supply
  holds : state.Holds fun placed =>
    placed.item.Accounted known state.reused.contains

section

variable {known : Nat → Bool} {state : DerivationState}

theorem accounts_initial {supply : Nat}
    (older : ∀ stamp, known stamp = true → stamp < supply) :
    Accounts known (initial supply) := by
  refine ⟨?_, older, holds_initial supply⟩
  intro stamp taken
  simp [initial] at taken

theorem contains_reuse {node : Node} (stamp : Nat)
    (taken : state.reused.contains stamp = true) :
    (state.reuse node).reused.contains stamp = true := by
  rw [reuse, Std.HashSet.contains_insert, taken, Bool.or_true]

theorem accounts_reuse {node : Node} (accounts : state.Accounts known)
    (isKnown : known node.stamp = true) :
    (state.reuse node).Accounts known ∧
      node.Accounted known (state.reuse node).reused.contains := by
  refine ⟨⟨?_, accounts.older, ?_⟩, .taken isKnown ?_⟩
  · intro stamp taken
    rw [reuse, Std.HashSet.contains_insert] at taken
    rcases Bool.or_eq_true_iff.mp taken with same | before
    · rw [← eq_of_beq same]
      exact isKnown
    · exact accounts.taken stamp before
  · have more := accounts.holds.mono fun placed accounted =>
      accounted.mono (@contains_reuse state node)
    exact ⟨more.scratch, more.memo⟩
  · rw [reuse, Std.HashSet.contains_insert, beq_self_eq_true, Bool.true_or]

theorem accounts_remember_apply {outcome : Outcome}
    (accounts : state.Accounts known)
    (accounted : outcome.Holds fun placed =>
      placed.item.Accounted known state.reused.contains)
    (memoize : Bool) (symbol : Symbol) (position : Nat) :
    ((state.remember memoize symbol position outcome).apply
      outcome).2.Accounts known := by
  obtain ⟨supply, reused⟩ :=
    @remember_apply_eq state memoize symbol position outcome
  constructor
  · rw [reused]
    exact accounts.taken
  · rw [supply]
    exact accounts.older
  · rw [reused]
    exact accounts.holds.remember_apply accounted memoize symbol position

/-- A stamp from the supply is not known. -/
theorem Accounts.isNew (accounts : state.Accounts known) :
    known state.supply = false := by
  rw [Bool.eq_false_iff]
  intro isKnown
  exact Nat.lt_irrefl _ (accounts.older _ isKnown)

theorem Accounts.withSupply_succ (accounts : state.Accounts known) :
    ({ state with supply := state.supply + 1 } : DerivationState).Accounts
      known :=
  ⟨accounts.taken,
    fun stamp isKnown => Nat.lt_succ_of_lt (accounts.older stamp isKnown),
    accounts.holds.scratch, accounts.holds.memo⟩

end

end DerivationState

namespace Setting

open DerivationState

section

variable {setting : Setting} {known : Nat → Bool}
  (offered : ∀ symbol start node,
    setting.findReusable? symbol start = some node → known node.stamp = true)

include offered

theorem accounts_leaf {state : DerivationState}
    (accounts : state.Accounts known) (token : Token) :
    (setting.leaf token state).2.Accounts known ∧
      (setting.leaf token state).1.Accounted known
        (setting.leaf token state).2.reused.contains := by
  have new : (state.newLeaf token).2.Accounts known ∧
      (state.newLeaf token).1.Accounted known
        (state.newLeaf token).2.reused.contains := by
    refine ⟨accounts.withSupply_succ, .built accounts.isNew ?_⟩
    intro placed member
    cases member
  unfold leaf
  split
  · next node found =>
      split
      · exact accounts_reuse accounts (offered _ _ _ found)
      · exact new
  · exact new

theorem accounts_terminal {state : DerivationState}
    (accounts : state.Accounts known) (symbol : Symbol) (position : Nat) :
    (setting.terminal symbol position state).2.Accounts known := by
  have examined :
      (state.examine (setting.tokens.examinedEnd position)).Accounts known :=
    ⟨accounts.taken, accounts.older, accounts.holds.scratch,
      accounts.holds.memo⟩
  unfold terminal
  simp only
  split
  · exact examined
  · next token here =>
      split
      · obtain ⟨accountsLeaf, accounted⟩ :=
          accounts_leaf offered examined token
        exact ⟨accountsLeaf.taken, accountsLeaf.older,
          accountsLeaf.holds.push accounted⟩
      · exact examined

omit offered in
theorem accounts_close {state : DerivationState}
    (accounts : state.Accounts known) (symbol : Symbol)
    (position mark outer : Nat) (result : Option Nat) :
    (setting.close symbol position mark outer result state).2.Accounts known ∧
      (setting.close symbol position mark outer result state).1.Holds
        fun placed => placed.item.Accounted known
          (setting.close symbol position mark outer result
            state).2.reused.contains := by
  have around : ({ state with examined := outer } : DerivationState).Accounts
      known :=
    ⟨accounts.taken, accounts.older, accounts.holds.scratch,
      accounts.holds.memo⟩
  have cut : (({ state with examined := outer } :
      DerivationState).truncate mark).Accounts known :=
    ⟨around.taken, around.older, around.holds.truncate mark⟩
  cases result with
  | none => exact ⟨around, Outcome.holds_failed _⟩
  | some next =>
      simp only [close]
      split
      · exact ⟨cut, Outcome.holds_nothing _ _⟩
      -- The stamp of the node is a new one, and its children lay on the stack.
      · refine ⟨cut.withSupply_succ,
          Outcome.holds_node (.built accounts.isNew ?_)⟩
        intro child member
        obtain ⟨original, inside, rfl⟩ := List.mem_map.mp member
        exact around.holds.above mark original inside

omit offered in
theorem contains_errorLeaves {start stamp : Nat} {tokens : List Token}
    {state : DerivationState} (taken : state.reused.contains stamp = true) :
    (setting.errorLeaves start tokens state).2.reused.contains stamp =
      true := by
  induction tokens generalizing state with
  | nil => exact taken
  | cons token tokens induction =>
      simp only [errorLeaves]
      apply induction
      unfold leaf
      split
      · split
        · exact contains_reuse stamp taken
        · exact taken
      · exact taken

theorem accounts_errorLeaves {start : Nat} {tokens : List Token}
    {state : DerivationState} (accounts : state.Accounts known) :
    (setting.errorLeaves start tokens state).2.Accounts known ∧
      ∀ placed ∈ (setting.errorLeaves start tokens state).1,
        placed.item.Accounted known
          (setting.errorLeaves start tokens state).2.reused.contains := by
  induction tokens generalizing state with
  | nil =>
      refine ⟨accounts, ?_⟩
      intro placed member
      cases member
  | cons token tokens induction =>
      obtain ⟨accountsLeaf, accounted⟩ := accounts_leaf offered accounts token
      obtain ⟨accountsRest, accountedRest⟩ := induction accountsLeaf
      simp only [errorLeaves]
      refine ⟨accountsRest, ?_⟩
      intro placed member
      rcases List.mem_cons.mp member with rfl | later
      · exact accounted.mono fun _ taken => contains_errorLeaves taken
      · exact accountedRest placed later

theorem accounts_flushErrors {mark stop : Nat} {first? : Option Nat}
    {state : DerivationState} (accounts : state.Accounts known) :
    (setting.flushErrors mark first? stop state).Accounts known := by
  cases first? with
  | none => exact accounts
  | some first =>
      simp only [flushErrors, insertError]
      split
      · exact accounts
      · obtain ⟨accountsLeaves, accounted⟩ :=
          @accounts_errorLeaves setting known offered
            (setting.tokens.startOf first)
            (setting.tokens.tokens.extract first stop).toList state accounts
        exact ⟨accountsLeaves.taken, accountsLeaves.withSupply_succ.older,
          accountsLeaves.withSupply_succ.holds.insert
            (.built accountsLeaves.isNew accounted)⟩

theorem keeps_accounts (supply : Nat) :
    setting.Keeps supply (Accounts known) := by
  constructor
  · intro state accounts examined
    exact ⟨accounts.taken, accounts.older, accounts.holds.scratch,
      accounts.holds.memo⟩
  · intro state accounts mark
    exact ⟨accounts.taken, accounts.older, accounts.holds.truncate mark⟩
  · intro state accounts symbol position
    exact accounts_terminal offered accounts symbol position
  · intro state symbol position outcome accounts remembered
    exact accounts_remember_apply accounts
      (accounts.holds.of_remembered? remembered) false symbol position
  · intro state symbol position node outcome accounts available
    obtain ⟨token, next, here, found, boundary, rfl⟩ :=
      reusable?_eq_some available
    obtain ⟨accountsNode, accounted⟩ :=
      accounts_reuse accounts (offered _ _ _ found)
    exact accounts_remember_apply accountsNode
      (Outcome.holds_node accounted) setting.memoize symbol position
  · intro state closed symbol position mark outer next? outcome accounts _ same
    have close := @accounts_close setting known state accounts symbol position
      mark outer next?
    rw [same] at close
    exact accounts_remember_apply close.1 close.2 setting.memoize symbol
      position
  · intro state first? mark stop accounts _ _
    exact accounts_flushErrors offered accounts

end

end Setting

end Reparse
