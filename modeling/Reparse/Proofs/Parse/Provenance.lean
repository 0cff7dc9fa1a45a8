import Mathlib.Logic.Function.Basic
import Reparse.Proofs.Parse.Faithful
import Reparse.Proofs.Parse.Preservation
import Reparse.Proofs.Tree.Survival

/-!
# Where the nodes of a derivation come from

A derivation takes nodes over or builds them.  A register says which node was
given a stamp from the supply, and where it begins: no stamp is given twice, so
that two nodes built under one stamp are the same node at the same place.
-/

namespace Reparse

/-- The nodes that stamps were given to, and where they begin. -/
abbrev Register := Nat → Option (Placed Node)

namespace Register

/-- What is in the first register is in the second one. -/
def Within (register larger : Register) : Prop :=
  ∀ stamp placed, register stamp = some placed → larger stamp = some placed

theorem within_refl (register : Register) : register.Within register :=
  fun _ _ => id

theorem Within.trans {register larger largest : Register}
    (first : register.Within larger) (second : larger.Within largest) :
    register.Within largest :=
  fun stamp placed found => second stamp placed (first stamp placed found)

end Register

namespace Node

/-- Down to the nodes that may be taken over where they are met, the nodes are
registered there. -/
inductive Traced (legacy : Nat → Node → Prop) (register : Register) :
    Nat → Node → Prop where
  | taken {start : Nat} {node : Node} :
      legacy start node → Traced legacy register start node
  | built {start : Nat} {node : Node} :
      register node.stamp = some ⟨start, node⟩ →
      (∀ child ∈ node.children,
        0 < child.item.length ∧ child.stop ≤ node.length) →
      (∀ child ∈ node.children,
        Traced legacy register (start + child.offset) child.item) →
      Traced legacy register start node

section

variable {legacy : Nat → Node → Prop} {register : Register} {start : Nat}
  {node : Node}

theorem Traced.mono {larger : Register}
    (traced : node.Traced legacy register start)
    (within : register.Within larger) : node.Traced legacy larger start := by
  induction traced with
  | taken isLegacy => exact .taken isLegacy
  | built registered around _ induction =>
      exact .built (within _ _ registered) around induction

theorem Traced.everywhere (traced : node.Traced legacy register start)
    (nothing : ∀ start node, ¬legacy start node) :
    node.Everywhere fun inner =>
      ∃ place, register inner.stamp = some ⟨place, inner⟩ := by
  induction traced with
  | taken isLegacy => exact absurd isLegacy (nothing _ _)
  | built registered _ _ induction =>
      exact everywhere_iff.mpr ⟨⟨_, registered⟩, induction⟩

end

/-- What lies below a node that may be taken over may be taken over as well, has
bytes, and lies within what is around it. -/
structure Legacy (legacy : Nat → Node → Prop) : Prop where
  below : ∀ {start offset : Nat} {node inner : Node}, legacy start node →
    node.Below offset inner → legacy (start + offset) inner
  nested : ∀ {start : Nat} {node : Node}, legacy start node → node.Nested
  filled : ∀ {start : Nat} {node : Node}, legacy start node →
    node.FilledBelow

section

variable {legacy : Nat → Node → Prop} (isLegacy : Legacy legacy)
  {register : Register} {start : Nat} {node : Node}

include isLegacy

theorem Traced.inner {offset : Nat} {inner : Node}
    (traced : node.Traced legacy register start)
    (below : node.Below offset inner) :
    inner.Traced legacy register (start + offset) := by
  induction below generalizing start with
  | child member =>
      cases traced with
      | taken isTaken => exact .taken (isLegacy.below isTaken (.child member))
      | built _ _ children => exact children _ member
  | deeper member below induction =>
      rw [← Nat.add_assoc]
      cases traced with
      | taken isTaken =>
          have outer := isLegacy.below isTaken (.child member)
          exact .taken (isLegacy.below outer below)
      | built _ _ children => exact induction (children _ member)

theorem Traced.nested (traced : node.Traced legacy register start) :
    node.Nested := by
  induction traced with
  | taken isTaken => exact isLegacy.nested isTaken
  | built _ around _ induction =>
      exact nested_iff.mpr ⟨fun child member => (around child member).2,
        induction⟩

theorem Traced.filledBelow (traced : node.Traced legacy register start) :
    node.FilledBelow := by
  induction traced with
  | taken isTaken => exact isLegacy.filled isTaken
  | built _ around _ induction =>
      exact everywhere_iff.mpr ⟨fun child member => (around child member).1,
        induction⟩

end

end Node

/-- The node has bytes, ends within the first `limit` ones, and is traced. -/
structure Provenance (legacy : Nat → Node → Prop) (limit : Nat)
    (register : Register) (placed : Placed Node) : Prop where
  filled : 0 < placed.item.length
  inside : placed.stop ≤ limit
  traced : placed.item.Traced legacy register placed.offset

theorem Provenance.mono {legacy : Nat → Node → Prop} {limit : Nat}
    {register larger : Register} (within : register.Within larger)
    {placed : Placed Node} (known : Provenance legacy limit register placed) :
    Provenance legacy limit larger placed :=
  ⟨known.filled, known.inside, known.traced.mono within⟩

namespace DerivationState

/-- The register has stamps given from `first` on, and the nodes at hand are
traced with it. -/
structure Registers (legacy : Nat → Node → Prop) (limit first : Nat)
    (register : Register) (state : DerivationState) : Prop where
  fresh : first ≤ state.supply
  given : ∀ stamp placed, register stamp = some placed →
    first ≤ stamp ∧ stamp < state.supply
  holds : state.Holds (Provenance legacy limit register)

section

variable {legacy : Nat → Node → Prop} {limit first : Nat}
  {register : Register} {state : DerivationState}

theorem registers_initial (first : Nat) :
    Registers legacy limit first (fun _ => none) (initial first) := by
  refine ⟨Nat.le_refl _, ?_, holds_initial first⟩
  intro stamp placed found
  cases found

/-- The next stamp can be given to a node whose children are traced. -/
theorem Registers.give (registers : state.Registers legacy limit first register)
    (start : Nat) (node : Node) (stamp : node.stamp = state.supply)
    (around : ∀ child ∈ node.children,
      0 < child.item.length ∧ child.stop ≤ node.length)
    (traced : ∀ child ∈ node.children,
      child.item.Traced legacy register (start + child.offset)) :
    ∃ larger, register.Within larger ∧
      larger node.stamp = some ⟨start, node⟩ ∧
        ({ state with supply := state.supply + 1 } : DerivationState).Registers
            legacy limit first larger ∧
          node.Traced legacy larger start := by
  have within : register.Within
      (Function.update register state.supply (some ⟨start, node⟩)) := by
    intro other placed found
    have earlier := (registers.given other placed found).2
    rw [Function.update_of_ne (Nat.ne_of_lt earlier)]
    exact found
  have entered : Function.update register state.supply (some ⟨start, node⟩)
      node.stamp = some ⟨start, node⟩ := by
    rw [stamp, Function.update_self]
  refine ⟨_, within, entered, ⟨Nat.le_succ_of_le registers.fresh, ?_, ?_⟩,
    .built entered around fun child member => (traced child member).mono within⟩
  · intro other placed found
    by_cases same : other = state.supply
    · rw [same]
      exact ⟨registers.fresh, Nat.lt_succ_self _⟩
    · rw [Function.update_of_ne same] at found
      obtain ⟨after, before⟩ := registers.given other placed found
      exact ⟨after, Nat.lt_succ_of_lt before⟩
  · have holds := registers.holds.mono fun _ => Provenance.mono within
    exact ⟨holds.scratch, holds.memo⟩

theorem Registers.remember_apply {outcome : Outcome}
    (registers : state.Registers legacy limit first register)
    (known : outcome.Holds (Provenance legacy limit register))
    (memoize : Bool) (symbol : Symbol) (position : Nat) :
    ((state.remember memoize symbol position outcome).apply
      outcome).2.Registers legacy limit first register := by
  obtain ⟨supply, _⟩ :=
    @remember_apply_eq state memoize symbol position outcome
  refine ⟨?_, ?_, registers.holds.remember_apply known memoize symbol position⟩
  · rw [supply]
    exact registers.fresh
  · rw [supply]
    exact registers.given

end

end DerivationState

namespace Setting

open DerivationState

section

variable {setting : Setting} {text : List UInt8}
  (read : setting.grammar.tokenize text = .ok setting.tokens)
  {legacy : Nat → Node → Prop}
  (offered : ∀ symbol start node,
    setting.findReusable? symbol start = some node → legacy start node)
  {limit first : Nat} {register : Register} {state : DerivationState}

include offered in
theorem registers_leaf
    (registers : state.Registers legacy limit first register) (token : Token) :
    ∃ larger, register.Within larger ∧
      (setting.leaf token state).2.Registers legacy limit first larger ∧
        (setting.leaf token state).1.length = token.span.length ∧
          (setting.leaf token state).1.Traced legacy larger
            token.span.start := by
  have new : ∃ larger, register.Within larger ∧
      (state.newLeaf token).2.Registers legacy limit first larger ∧
        (state.newLeaf token).1.length = token.span.length ∧
          (state.newLeaf token).1.Traced legacy larger token.span.start := by
    obtain ⟨larger, within, _, given, traced⟩ :=
      registers.give token.span.start (state.newLeaf token).1 rfl
        (List.forall_mem_nil _) (List.forall_mem_nil _)
    exact ⟨larger, within, given, rfl, traced⟩
  unfold leaf
  split
  · next node found =>
      split
      · next sameLength =>
          have kept : (state.reuse node).Registers legacy limit first
              register :=
            ⟨registers.fresh, registers.given, registers.holds.scratch,
              registers.holds.memo⟩
          exact ⟨register, register.within_refl, kept, sameLength,
            .taken (offered _ _ _ found)⟩
      · exact new
  · exact new

include read offered in
theorem registers_terminal
    (registers : state.Registers legacy text.length first register)
    (symbol : Symbol) (position : Nat) :
    ∃ larger, (setting.terminal symbol position state).2.Registers legacy
      text.length first larger := by
  have examined :
      (state.examine (setting.tokens.examinedEnd position)).Registers legacy
        text.length first register :=
    ⟨registers.fresh, registers.given, registers.holds.scratch,
      registers.holds.memo⟩
  unfold terminal
  simp only
  split
  · exact ⟨register, examined⟩
  · next token here =>
      split
      · obtain ⟨larger, _, given, length, traced⟩ :=
          registers_leaf offered examined token
        have bounds := Grammar.span_bounds read here
        refine ⟨larger, given.fresh, given.given,
          given.holds.push ⟨?_, ?_, traced⟩⟩
        · simp only [length, Span.length]
          omega
        · simp only [Placed.stop, length, Span.length]
          omega
      · exact ⟨register, examined⟩

omit offered in
theorem around_placeWithin {position next : Nat} {nodes : List (Placed Node)}
    (between : ∀ placed ∈ nodes, setting.Between position next placed) :
    ∀ child ∈ placeWithin (setting.tokens.startOf position) nodes,
      0 < child.item.length ∧
        child.stop ≤
          setting.tokens.edge next - setting.tokens.startOf position := by
  intro child member
  obtain ⟨original, memberNodes, rfl⟩ := List.mem_map.mp member
  obtain ⟨filled, after, before⟩ := between original memberNodes
  simp only [Placed.stop] at before ⊢
  omega

omit offered in
theorem traced_placeWithin {position next : Nat} {nodes : List (Placed Node)}
    (between : ∀ placed ∈ nodes, setting.Between position next placed)
    (known : ∀ placed ∈ nodes, Provenance legacy limit register placed) :
    ∀ child ∈ placeWithin (setting.tokens.startOf position) nodes,
      child.item.Traced legacy register
        (setting.tokens.startOf position + child.offset) := by
  intro child member
  obtain ⟨original, memberNodes, rfl⟩ := List.mem_map.mp member
  obtain ⟨_, after, _⟩ := between original memberNodes
  simp only [Nat.add_sub_cancel' after]
  exact (known original memberNodes).traced

include read in
/-- The node around what was found between two tokens is a new one. -/
theorem registers_close {supply : Nat} {symbol : Symbol}
    {position mark outer : Nat} {next? : Option Nat}
    (registers : state.Registers legacy text.length first register)
    (matched : ∀ next, next? = some next → ∃ rule examined,
      setting.Runs supply rule position (some ⟨next, state.above mark⟩)
        examined) :
    ∃ larger,
      (setting.close symbol position mark outer next? state).2.Registers legacy
          text.length first larger ∧
        (setting.close symbol position mark outer next? state).1.Holds
          (Provenance legacy text.length larger) := by
  have around : ({ state with examined := outer } : DerivationState).Registers
      legacy text.length first register :=
    ⟨registers.fresh, registers.given, registers.holds.scratch,
      registers.holds.memo⟩
  have cut : (({ state with examined := outer } :
      DerivationState).truncate mark).Registers legacy text.length first
        register :=
    ⟨around.fresh, around.given, around.holds.truncate mark⟩
  cases next? with
  | none => exact ⟨register, around, Outcome.holds_failed _⟩
  | some next =>
      obtain ⟨rule, examined, runs⟩ := matched next rfl
      have between := runs.between read rfl
      simp only [close]
      split
      · exact ⟨register, cut, Outcome.holds_nothing _ _⟩
      · next different =>
          obtain ⟨moved, inside⟩ := (runs.advance read rfl).resolve_left
            fun stuck => different stuck.1
          have edges : setting.tokens.startOf position <
              setting.tokens.edge next :=
            Grammar.startOf_lt_edge read moved inside
          have limit : setting.tokens.edge next ≤ text.length :=
            Grammar.edge_le_length read inside
          rw [@TokenList.stopBefore_eq_edge setting.tokens _ _ moved]
          obtain ⟨larger, _, _, given, traced⟩ :=
            cut.give (setting.tokens.startOf position)
              { stamp := state.supply
                symbol := symbol
                length := setting.tokens.edge next -
                  setting.tokens.startOf position
                lookahead := state.examined - setting.tokens.edge next
                damaged := false
                children := placeWithin (setting.tokens.startOf position)
                  (state.above mark) }
              rfl (around_placeWithin between)
              (traced_placeWithin between (registers.holds.above mark))
          refine ⟨larger, given, Outcome.holds_node ⟨?_, ?_, traced⟩⟩
          · exact Nat.sub_pos_of_lt edges
          · simp only [Placed.stop]
            omega

include offered in
theorem registers_errorLeaves {start stop : Nat} {tokens : List Token}
    (registers : state.Registers legacy limit first register)
    (bounds : ∀ token ∈ tokens, start ≤ token.span.start ∧
      token.span.start < token.span.stop ∧ token.span.stop ≤ stop) :
    ∃ larger, register.Within larger ∧
      (setting.errorLeaves start tokens state).2.Registers legacy limit first
          larger ∧
        (∀ child ∈ (setting.errorLeaves start tokens state).1,
          0 < child.item.length ∧ child.stop ≤ stop - start) ∧
          ∀ child ∈ (setting.errorLeaves start tokens state).1,
            child.item.Traced legacy larger (start + child.offset) := by
  induction tokens generalizing state register with
  | nil =>
      exact ⟨register, register.within_refl, registers,
        List.forall_mem_nil _, List.forall_mem_nil _⟩
  | cons token tokens induction =>
      obtain ⟨⟨after, filled, before⟩, boundsRest⟩ :=
        List.forall_mem_cons.mp bounds
      obtain ⟨middle, within, given, length, traced⟩ :=
        registers_leaf offered registers token
      obtain ⟨larger, withinRest, givenRest, around, leaves⟩ :=
        induction given boundsRest
      simp only [errorLeaves]
      refine ⟨larger, within.trans withinRest, givenRest,
        List.forall_mem_cons.mpr ⟨?_, around⟩,
        List.forall_mem_cons.mpr ⟨?_, leaves⟩⟩
      · simp only [Placed.stop, length, Span.length]
        omega
      · simp only [Nat.add_sub_cancel' after]
        exact traced.mono withinRest

include read offered in
theorem registers_flushErrors {first? : Option Nat} {mark stop : Nat}
    (registers : state.Registers legacy text.length first register)
    (within : stop ≤ setting.tokens.size) :
    ∃ larger, (setting.flushErrors mark first? stop state).Registers legacy
      text.length first larger := by
  cases first? with
  | none => exact ⟨register, registers⟩
  | some earliest =>
      simp only [flushErrors, insertError]
      split
      · exact ⟨register, registers⟩
      · next last found =>
          rw [← Array.getLast?_toList] at found
          obtain ⟨before, lastHere⟩ := last_of_extract within found
          have lastBounds := Grammar.span_bounds read lastHere
          have bounds : ∀ token ∈
              (setting.tokens.tokens.extract earliest stop).toList,
              setting.tokens.startOf earliest ≤ token.span.start ∧
                token.span.start < token.span.stop ∧
                  token.span.stop ≤ last.span.stop := by
            intro token member
            obtain ⟨index, after, below, here⟩ := mem_extract member
            obtain ⟨starts, stops⟩ :=
              bounds_of_extract read within after below here lastHere
            exact ⟨starts, (Grammar.span_bounds read here).2.1, stops⟩
          have lastInside :=
            bounds last (List.mem_of_getLast? found)
          obtain ⟨middle, _, given, around, leaves⟩ :=
            registers_errorLeaves offered registers bounds
          obtain ⟨larger, _, _, givenNode, traced⟩ :=
            given.give (setting.tokens.startOf earliest)
              { stamp := _
                symbol := Symbol.error
                length := last.span.stop - setting.tokens.startOf earliest
                lookahead := last.examinedEnd - last.span.stop
                damaged := false
                children := _ }
              rfl around leaves
          refine ⟨larger, givenNode.fresh, givenNode.given,
            givenNode.holds.insert ⟨?_, ?_, traced⟩⟩
          · exact Nat.sub_pos_of_lt
              (Nat.lt_of_le_of_lt lastInside.1 lastInside.2.1)
          · simp only [Placed.stop]
            omega

include read offered in
theorem keeps_registers (supply first : Nat) :
    setting.Keeps supply fun state =>
      ∃ register, state.Registers legacy text.length first register := by
  constructor
  · rintro state ⟨register, registers⟩ examined
    exact ⟨register, registers.fresh, registers.given, registers.holds.scratch,
      registers.holds.memo⟩
  · rintro state ⟨register, registers⟩ mark
    exact ⟨register, registers.fresh, registers.given,
      registers.holds.truncate mark⟩
  · rintro state ⟨register, registers⟩ symbol position
    exact registers_terminal read offered registers symbol position
  · rintro state symbol position outcome ⟨register, registers⟩ remembered
    exact ⟨register, registers.remember_apply
      (registers.holds.of_remembered? remembered) false symbol position⟩
  · rintro state symbol position node outcome ⟨register, registers⟩ available
    obtain ⟨_, next, _, _, _, rfl⟩ := reusable?_eq_some available
    obtain ⟨token, _, found, same, _, _, inside, edge⟩ :=
      edge_of_reusable? read available
    obtain ⟨_, _, _, _, _, filled⟩ := below_of_findReusable? found
    have limit := Grammar.edge_le_length read inside
    have kept : (state.reuse node).Registers legacy text.length first
        register :=
      ⟨registers.fresh, registers.given, registers.holds.scratch,
        registers.holds.memo⟩
    have known : Provenance legacy text.length register
        ⟨token.span.start, node⟩ :=
      ⟨filled, Nat.le_trans (Nat.le_of_eq edge.symm) limit,
        .taken (offered _ _ _ found)⟩
    rw [same]
    exact ⟨register, kept.remember_apply (Outcome.holds_node known)
      setting.memoize symbol position⟩
  · rintro state closed symbol position mark outer next? outcome
      ⟨register, registers⟩ matched same
    obtain ⟨larger, given, known⟩ :=
      @registers_close _ _ read _ _ _ _ supply symbol position mark outer
        next? registers matched
    rw [same] at given known
    exact ⟨larger, given.remember_apply known setting.memoize symbol position⟩
  · rintro state first? mark stop ⟨register, registers⟩ _ within
    exact registers_flushErrors read offered registers within

end

end Setting

/-- In a tree that was derived, every node is one that may be taken over where
it is met, or one that got its stamp there and then. -/
theorem Grammar.traced_of_derive {grammar : Stamped Grammar}
    (regular : grammar.value.Regular) {memoize : Bool} {text : List UInt8}
    {previous : Option Node} {version supply : Nat} {parsed : Parsed}
    (derived : Grammar.derive grammar memoize text previous version supply =
      .ok parsed) {legacy : Nat → Node → Prop}
    (offered : ∀ symbol start node,
      previous.bind (fun root => (root.search symbol start).found) =
        some node → legacy start node) :
    ∃ register : Register,
      (∀ stamp placed, register stamp = some placed →
        supply ≤ stamp ∧ stamp < parsed.supply) ∧
      register parsed.tree.root.stamp = some ⟨0, parsed.tree.root⟩ ∧
        parsed.tree.root.Traced legacy register 0 := by
  rw [Grammar.derive] at derived
  split at derived
  · cases derived
  · next tokens read =>
      split at derived
      · cases derived
      · next rule known =>
          cases derived
          have length := (readsOn_of_tokenize read).1
          obtain ⟨register, registers⟩ := Setting.keeps_deriveItems
            (@Setting.keeps_registers
              (grammar.value.over memoize previous tokens) text read legacy
              (fun symbol start node found => by
                rw [Setting.findReusable?_eq] at found
                exact offered symbol start node found) supply supply)
            regular read (Nat.zero_le _) Setting.waiting_none
            (Setting.trusted_initial _ supply)
            ⟨_, DerivationState.registers_initial supply⟩
          obtain ⟨larger, _, entered, given, traced⟩ :=
            registers.give 0 ((grammar.value.over memoize previous
              tokens).deriveRoot grammar.value.root rule.rootItem supply).1 rfl
              (by
                intro child member
                have known := registers.holds.scratch child member
                exact ⟨known.filled,
                  Nat.le_trans known.inside (Nat.le_of_eq length.symm)⟩)
              (by
                intro child member
                rw [Nat.zero_add]
                exact (registers.holds.scratch child member).traced)
          refine ⟨larger, fun stamp placed found => ?_, entered, traced⟩
          obtain ⟨after, before⟩ := given.given stamp placed found
          exact ⟨after, Nat.lt_succ_of_lt before⟩

/-- Without nodes at hand all nodes are new. -/
theorem Grammar.everywhere_new_of_derive {grammar : Stamped Grammar}
    (regular : grammar.value.Regular) {memoize : Bool} {text : List UInt8}
    {version supply : Nat} {parsed : Parsed}
    (derived : Grammar.derive grammar memoize text none version supply =
      .ok parsed) :
    parsed.tree.root.Everywhere fun node => supply ≤ node.stamp := by
  obtain ⟨register, given, _, traced⟩ :=
    @traced_of_derive _ regular _ _ _ _ _ _ derived (fun _ _ => False)
      (fun _ _ _ offered => nomatch offered)
  have registered := Node.everywhere_iff_forall_visits.mp
    (traced.everywhere fun _ _ => not_false)
  apply Node.everywhere_iff_forall_visits.mpr
  intro visit member
  obtain ⟨place, found⟩ := registered visit member
  exact (given _ _ found).1

end Reparse
