import Reparse.Proofs.Parse.Provenance
import Reparse.Proofs.Parse.Rounds
import Reparse.Proofs.Tree.Equality
import Reparse.Proofs.Tree.Identity

/-!
# Trees of one history

All trees of a history are related: wherever two of them have nodes of one
stamp, these are the same node, and it lies over the same bytes in both texts.
This holds without any condition on what was examined, since a node is taken
over only together with its bytes.  So identity can be trusted in a history, and
the comparison of nodes with it.
-/

namespace Reparse

/-- What is met below a traced root was taken over or is registered where it
lies. -/
theorem Node.Traced.taken_or_built {legacy : Nat → Node → Prop}
    {register : Register} {root node : Node} {place : Nat}
    (traced : root.Traced legacy register 0)
    (lawful : Node.Legacy legacy) (below : root.Below place node) :
    legacy place node ∨ register node.stamp = some ⟨place, node⟩ := by
  have inner := traced.inner lawful below
  rw [Nat.zero_add] at inner
  cases inner with
  | taken inherited => exact .inl inherited
  | built registered => exact .inr registered

namespace Tree

/-- Nodes of one stamp are the same node over the same bytes, and trees whose
roots have one stamp are the same for the same text. -/
structure Kin (left right : Tree) : Prop where
  root : left.root.stamp = right.root.stamp →
    left.root = right.root ∧ left.bytes = right.bytes
  below : ∀ {place offset : Nat} {node twin : Node},
    left.root.Below place node → right.root.Below offset twin →
    node.stamp = twin.stamp →
    node = twin ∧
      AgreeFor node.length (left.bytes.drop place) (right.bytes.drop offset)

theorem Kin.symm {left right : Tree} (kin : left.Kin right) :
    right.Kin left := by
  constructor
  · intro same
    obtain ⟨root, bytes⟩ := kin.root same.symm
    exact ⟨root.symm, bytes.symm⟩
  · intro place offset node twin below belowTwin same
    obtain ⟨rfl, agree⟩ := kin.below belowTwin below same.symm
    exact ⟨rfl, agree.symm⟩

/-- The root of the first tree is not met below the second one. -/
def Apart (left right : Tree) : Prop :=
  ∀ place node, right.root.Below place node → node.stamp ≠ left.root.stamp

/-- No root of one of the trees is met below one of them. -/
def Separate (trees : List Tree) : Prop :=
  ∀ left ∈ trees, ∀ right ∈ trees, left.Apart right

theorem Separate.cons {trees : List Tree} (separate : Separate trees)
    {tree : Tree} (self : tree.Apart tree)
    (fromOthers : ∀ other ∈ trees, tree.Apart other)
    (others : ∀ other ∈ trees, other.Apart tree) :
    Separate (tree :: trees) := by
  intro left memberLeft right memberRight
  rcases List.mem_cons.mp memberLeft with rfl | laterLeft
  · rcases List.mem_cons.mp memberRight with rfl | laterRight
    · exact self
    · exact fromOthers right laterRight
  · rcases List.mem_cons.mp memberRight with rfl | laterRight
    · exact others left laterLeft
    · exact separate left laterLeft right laterRight

theorem Kin.unambiguous {left right : Tree} (kin : left.Kin right)
    (apart : left.Apart right) (apartToo : right.Apart left) :
    left.root.Unambiguous right.root := by
  apply Node.everywhere_iff_below.mpr
  constructor
  · apply Node.everywhere_iff_below.mpr
    constructor
    · intro identical
      exact (kin.root (beq_iff_eq.mp identical)).1
    · intro place node below identical
      exact absurd (beq_iff_eq.mp identical).symm (apart place node below)
  · intro place node below
    apply Node.everywhere_iff_below.mpr
    constructor
    · intro identical
      exact absurd (beq_iff_eq.mp identical) (apartToo place node below)
    · intro offset twin belowTwin identical
      exact (kin.below below belowTwin (beq_iff_eq.mp identical)).1

/-- What a derivation makes sure of. -/
structure Settled (grammar : Stamped Grammar) (supply : Nat) (tree : Tree) :
    Prop where
  derivedWith : tree.grammar = grammar
  lexable : ∃ tokens, grammar.value.tokenize tree.bytes = .ok tokens
  rooted : ∃ rule, grammar.value.rule? grammar.value.root = some rule
  whole : tree.root.length = tree.bytes.length
  nested : tree.root.Nested
  filled : tree.root.FilledBelow
  rootOlder : tree.root.stamp < supply
  older : ∀ {place : Nat} {node : Node}, tree.root.Below place node →
    node.stamp < supply

theorem Settled.mono {grammar : Stamped Grammar} {supply later : Nat}
    {tree : Tree} (settled : tree.Settled grammar supply)
    (before : supply ≤ later) : tree.Settled grammar later :=
  ⟨settled.derivedWith, settled.lexable, settled.rooted, settled.whole,
    settled.nested, settled.filled,
    Nat.lt_of_lt_of_le settled.rootOlder before,
    fun below => Nat.lt_of_lt_of_le (settled.older below) before⟩

theorem Settled.hasStamp_eq_false {grammar : Stamped Grammar}
    {supply stamp : Nat} {tree : Tree} (settled : tree.Settled grammar supply)
    (later : supply ≤ stamp) : tree.root.hasStamp stamp = false := by
  apply Node.hasStamp_eq_false
  apply Node.everywhere_iff_below.mpr
  constructor
  · exact Nat.ne_of_lt (Nat.lt_of_lt_of_le settled.rootOlder later)
  · intro place node below
    exact Nat.ne_of_lt (Nat.lt_of_lt_of_le (settled.older below) later)

/-- The node lies below one of the trees, over the bytes that it has in the
text. -/
def Inherited (trees : List Tree) (text : List UInt8) (start : Nat)
    (node : Node) : Prop :=
  ∃ tree ∈ trees, ∃ origin, tree.root.Below origin node ∧
    AgreeFor node.length (tree.bytes.drop origin) (text.drop start)

/-- The trees are settled and related to each other. -/
structure Lineage (grammar : Stamped Grammar) (trees : List Tree)
    (supply : Nat) : Prop where
  settled : ∀ tree ∈ trees, tree.Settled grammar supply
  kin : ∀ left ∈ trees, ∀ right ∈ trees, left.Kin right

section

variable {grammar : Stamped Grammar} {trees : List Tree} {supply : Nat}
  (lineage : Lineage grammar trees supply)

include lineage

theorem Lineage.legacy (text : List UInt8) :
    Node.Legacy (Inherited trees text) := by
  constructor
  · rintro start offset node inner ⟨tree, member, origin, below, agree⟩ deeper
    have nested := (below.within (lineage.settled tree member).nested).2
    have inside := (deeper.within nested).1
    have agreeInner := agree.drop offset
    rw [List.drop_drop, List.drop_drop] at agreeInner
    exact ⟨tree, member, origin + offset, below.trans deeper,
      agreeInner.mono (by omega)⟩
  · rintro start node ⟨tree, member, origin, below, _⟩
    exact (below.within (lineage.settled tree member).nested).2
  · rintro start node ⟨tree, member, origin, below, _⟩
    exact Node.everywhere_of_below (lineage.settled tree member).filled below

theorem Lineage.older_of_inherited {text : List UInt8} {start : Nat}
    {node : Node} (inherited : Inherited trees text start node) :
    node.stamp < supply := by
  obtain ⟨tree, member, _, below, _⟩ := inherited
  exact (lineage.settled tree member).older below

theorem Lineage.kin_of_inherited {text other : List UInt8}
    {start offset : Nat} {node twin : Node}
    (inherited : Inherited trees text start node)
    (inheritedTwin : Inherited trees other offset twin)
    (same : node.stamp = twin.stamp) :
    node = twin ∧
      AgreeFor node.length (text.drop start) (other.drop offset) := by
  obtain ⟨left, memberLeft, origin, below, agree⟩ := inherited
  obtain ⟨right, memberRight, place, belowTwin, agreeTwin⟩ := inheritedTwin
  obtain ⟨rfl, between⟩ :=
    (lineage.kin left memberLeft right memberRight).below below belowTwin same
  exact ⟨rfl, (agree.symm.trans between).trans agreeTwin⟩

omit lineage in
theorem inherited_of_below {tree : Tree} (member : tree ∈ trees) {place : Nat}
    {node : Node} (below : tree.root.Below place node) :
    Inherited trees tree.bytes place node :=
  ⟨tree, member, place, below, AgreeFor.refl _ _⟩

theorem Lineage.cons {tree : Tree} {later : Nat} (before : supply ≤ later)
    (settled : tree.Settled grammar later) (self : tree.Kin tree)
    (others : ∀ other ∈ trees, tree.Kin other) :
    Lineage grammar (tree :: trees) later := by
  constructor
  · refine List.forall_mem_cons.mpr ⟨settled, fun other member => ?_⟩
    exact (lineage.settled other member).mono before
  · refine List.forall_mem_cons.mpr
      ⟨List.forall_mem_cons.mpr ⟨self, others⟩, fun left memberLeft => ?_⟩
    exact List.forall_mem_cons.mpr
      ⟨(others left memberLeft).symm, lineage.kin left memberLeft⟩

/-- A tree that is given back as it is adds nothing. -/
theorem Lineage.again {tree : Tree} (member : tree ∈ trees) {later : Nat}
    (before : supply ≤ later) : Lineage grammar (tree :: trees) later :=
  lineage.cons before ((lineage.settled tree member).mono before)
    (lineage.kin tree member tree member) (lineage.kin tree member)

/-- A derived tree is related to those from which its nodes were taken over. -/
theorem Lineage.derive (regular : grammar.value.Regular) {memoize : Bool}
    {text : List UInt8} {previous : Option Node} {version available : Nat}
    {parsed : Parsed} (before : supply ≤ available)
    (derived : Grammar.derive grammar memoize text previous version available =
      .ok parsed)
    (offered : ∀ symbol start node,
      previous.bind (fun root => (root.search symbol start).found) =
        some node → Inherited trees text start node) :
    Lineage grammar (parsed.tree :: trees) parsed.supply := by
  obtain ⟨tokens, rule, grows⟩ := Grammar.grows_of_derive regular derived
  obtain ⟨register, given, rootGiven, traced⟩ :=
    Grammar.traced_of_derive regular derived offered
  have legacy := lineage.legacy text
  obtain ⟨rootNew, rootOlder⟩ := given _ _ rootGiven
  have known : ∀ {place : Nat} {node : Node},
      parsed.tree.root.Below place node →
        Inherited trees text place node ∨
          supply ≤ node.stamp ∧ node.stamp < parsed.supply ∧
            register node.stamp = some ⟨place, node⟩ := by
    intro place node below
    rcases traced.taken_or_built legacy below with inherited | registered
    · exact .inl inherited
    · obtain ⟨after, earlier⟩ := given _ _ registered
      exact .inr ⟨Nat.le_trans before after, earlier, registered⟩
  refine lineage.cons (by omega) ?_ ?_ fun other member => ?_
  · refine ⟨grows.derivedWith, ?_, ⟨rule, grows.known⟩, ?_,
      traced.nested legacy, traced.filledBelow legacy, rootOlder, ?_⟩
    · rw [grows.bytes]
      exact ⟨tokens, grows.read⟩
    · rw [grows.bytes]
      exact grows.length
    · intro place node below
      rcases known below with inherited | ⟨_, earlier, _⟩
      · have older := lineage.older_of_inherited inherited
        omega
      · exact earlier
  -- Two nodes of the new tree are both inherited or both new.
  · refine ⟨fun _ => ⟨rfl, rfl⟩, ?_⟩
    intro place offset node twin below belowTwin same
    rw [grows.bytes]
    rcases known below with inherited | ⟨new, _, registered⟩
    · rcases known belowTwin with inheritedTwin | ⟨newTwin, _, _⟩
      · exact lineage.kin_of_inherited inherited inheritedTwin same
      · have older := lineage.older_of_inherited inherited
        omega
    · rcases known belowTwin with inheritedTwin | ⟨_, _, registeredTwin⟩
      · have older := lineage.older_of_inherited inheritedTwin
        omega
      · rw [same, registeredTwin] at registered
        cases registered
        exact ⟨rfl, AgreeFor.refl _ _⟩
  -- What it shares with an older tree is inherited.
  · have settledOther := lineage.settled other member
    constructor
    · intro same
      have older := settledOther.rootOlder
      omega
    · intro place offset node twin below belowTwin same
      rcases known below with inherited | ⟨new, _, _⟩
      · rw [grows.bytes]
        exact lineage.kin_of_inherited inherited
          (inherited_of_below member belowTwin) same
      · have older := settledOther.older belowTwin
        omega

/-- The root of a derived tree is new, and no root of a tree derived before is
taken over. -/
theorem Lineage.separate_derive (regular : grammar.value.Regular)
    {memoize : Bool} {text : List UInt8} {previous : Option Node}
    {version available : Nat} {parsed : Parsed} (before : supply ≤ available)
    (derived : Grammar.derive grammar memoize text previous version available =
      .ok parsed)
    (offered : ∀ symbol start node,
      previous.bind (fun root => (root.search symbol start).found) =
        some node → Inherited trees text start node)
    (separate : Separate trees) : Separate (parsed.tree :: trees) := by
  obtain ⟨register, given, rootGiven, traced⟩ :=
    Grammar.traced_of_derive regular derived offered
  have legacy := lineage.legacy text
  obtain ⟨rootNew, _⟩ := given _ _ rootGiven
  apply separate.cons
  · intro place node below same
    rcases traced.taken_or_built legacy below with inherited | registered
    · have older := lineage.older_of_inherited inherited
      omega
    · rw [same, rootGiven] at registered
      cases registered
      exact Nat.lt_irrefl _ below.count_lt
  · intro other member place node below same
    have older := (lineage.settled other member).older below
    omega
  · intro other member place node below same
    rcases traced.taken_or_built legacy below with inherited | registered
    · obtain ⟨tree, memberTree, _, belowTree, _⟩ := inherited
      exact separate other member tree memberTree _ _ belowTree same
    · obtain ⟨new, _⟩ := given _ _ registered
      have older := (lineage.settled other member).rootOlder
      omega

/-- What edits leave undamaged is offered together with its bytes. -/
theorem Lineage.inherited_of_search {tree : Tree} (member : tree ∈ trees)
    {edits : List Edit} {shell : Shell} {text : List UInt8} {first next : Nat}
    (edited : tree.editAll edits first = .ok (shell, next))
    (produced : EditsProduce edits tree.bytes text) {symbol : Symbol}
    {start : Nat} {node : Node}
    (found : (shell.root.search symbol start).found = some node) :
    Inherited trees text start node := by
  obtain ⟨below, _, undamaged, filled⟩ := Node.below_of_search found
  obtain ⟨origin, belowBase, agree⟩ :=
    (Shell.editedByAll_of_editAll edited).agreeFor_before produced
      (lineage.settled tree member).nested below undamaged filled
  exact ⟨tree, member, origin, belowBase, agree⟩

end

end Tree

/-- What is kept by giving a tree back, and by every derivation that takes over
only nodes of earlier trees with the bytes they have there, holds of every
history.  The relation between the trees is kept along with it, since from it
follows that each parse is such a derivation. -/
theorem History.lineage_and {grammar : Stamped Grammar}
    (regular : grammar.value.Regular) {motive : List Tree → Nat → Prop}
    (start : ∀ supply, motive [] supply)
    (again : ∀ {trees : List Tree} {supply later : Nat} {tree : Tree},
      Tree.Lineage grammar trees supply → motive trees supply → tree ∈ trees →
        supply ≤ later → motive (tree :: trees) later)
    (derive : ∀ {trees : List Tree} {supply available version : Nat}
      {memoize : Bool} {text : List UInt8} {previous : Option Node}
      {parsed : Parsed},
      Tree.Lineage grammar trees supply → motive trees supply →
        supply ≤ available →
        Grammar.derive grammar memoize text previous version available =
          .ok parsed →
        (∀ symbol start node,
          previous.bind (fun root => (root.search symbol start).found) =
            some node → Tree.Inherited trees text start node) →
          motive (parsed.tree :: trees) parsed.supply)
    {trees : List Tree} {supply : Nat}
    (history : History grammar trees supply) :
    Tree.Lineage grammar trees supply ∧ motive trees supply := by
  have nothing : ∀ {trees : List Tree} {text : List UInt8} symbol start node,
      (none : Option Node).bind (fun root => (root.search symbol start).found) =
        some node → Tree.Inherited trees text start node := by
    intro trees text symbol start node offered
    cases offered
  induction history with
  | start supply =>
      exact ⟨⟨List.forall_mem_nil _, List.forall_mem_nil _⟩, start supply⟩
  | parsed _ before known found induction =>
      obtain ⟨lineage, holds⟩ := induction
      have derived := Parser.derive_of_parse_none known found
      exact ⟨lineage.derive regular before derived nothing,
        derive lineage holds before derived nothing⟩
  | @reparsed parser _ tree edits shell text _ first next available _ _ member
      edited produced before known found induction =>
      obtain ⟨lineage, holds⟩ := induction
      have whole := (lineage.settled tree member).whole
      rcases @Parser.parse_some _ _ _ _ _ _ _ _ available edited produced known
        whole (Parser.fits_of_parse found) with
        ⟨_, same⟩ | ⟨version, same⟩ | ⟨_, version, same⟩
      · rw [same] at found
        cases found
        exact ⟨lineage.again member before, again lineage holds member before⟩
      · rw [same] at found
        exact ⟨lineage.derive regular before found nothing,
          derive lineage holds before found nothing⟩
      · rw [same] at found
        have offered : ∀ symbol start node,
            (some shell.root).bind
              (fun root => (root.search symbol start).found) = some node →
              Tree.Inherited _ text start node :=
          fun _ _ _ => lineage.inherited_of_search member edited produced
        exact ⟨lineage.derive regular before found offered,
          derive lineage holds before found offered⟩

section

variable {grammar : Stamped Grammar} (regular : grammar.value.Regular)
  {trees : List Tree} {supply : Nat} (history : History grammar trees supply)

include regular history

/-- The trees of a history are related to each other. -/
theorem History.lineage : Tree.Lineage grammar trees supply := by
  have related := @History.lineage_and _ regular (fun _ _ => True)
    (fun _ => trivial) (fun _ _ _ _ => trivial)
    (fun _ _ _ _ _ => trivial) _ _ history
  exact related.1

/-- In a history no root is met below a tree. -/
theorem History.separate : Tree.Separate trees := by
  have separate := @History.lineage_and _ regular
    (fun trees _ => Tree.Separate trees) (fun _ => List.forall_mem_nil _)
    (fun _ separate member _ => separate.cons (separate _ member _ member)
      (separate _ member) (fun other memberOther =>
        separate other memberOther _ member))
    (fun lineage separate before derived offered =>
      lineage.separate_derive regular before derived offered separate)
    _ _ history
  exact separate.2

/-- In a history no stamp stands for two nodes. -/
theorem History.unambiguous {left right : Tree} (leftMember : left ∈ trees)
    (rightMember : right ∈ trees) : left.root.Unambiguous right.root := by
  have kin := (history.lineage regular).kin left leftMember right rightMember
  have separate := history.separate regular
  exact kin.unambiguous (separate left leftMember right rightMember)
    (separate right rightMember left leftMember)

/-- Two trees of a history pass the comparison exactly when they agree in
everything but identity. -/
theorem History.equal_iff_content {left right : Tree}
    (leftMember : left ∈ trees) (rightMember : right ∈ trees) :
    left.root.equal right.root = true ↔
      left.root.content = right.root.content :=
  Node.equal_iff_content (history.unambiguous regular leftMember rightMember)

/-- An edit that is accepted and leads to a text that can be read is followed by
another round. -/
theorem Reached.exists_next {tree : Tree}
    (reached : Reached grammar tree supply) (member : tree ∈ trees)
    {edit : Edit} (accepted : edit.check tree.bytes.length = .ok ())
    {text : List UInt8} (produced : EditsProduce [edit] tree.bytes text)
    {tokens : TokenList} (read : grammar.value.tokenize text = .ok tokens)
    (options : ParserOptions) :
    ∃ shell edited later,
      tree.editAll [edit] supply = .ok (shell, edited) ∧
        (Parser.ofGrammar grammar options).parse text (some shell)
            (max supply edited) = .ok later ∧
          Reached grammar later.tree later.supply ∧
            History grammar (later.tree :: trees) later.supply := by
  have settled := (history.lineage regular).settled tree member
  obtain ⟨rule, rooted⟩ := settled.rooted
  rw [← settled.whole] at accepted
  obtain ⟨shell, edited, afterEdit⟩ := Tree.exists_editAll accepted supply
  obtain ⟨later, found⟩ := @Parser.exists_parse_some grammar
    (Parser.ofGrammar grammar options) text tree [edit] shell supply edited
    (max supply edited) afterEdit produced rfl settled.whole reached.fits tokens
    read rule rooted
  refine ⟨shell, edited, later, afterEdit, found, ?_, ?_⟩
  · exact .reparsed reached afterEdit produced (Nat.le_max_right _ _) rfl found
  · exact .reparsed history member afterEdit produced (Nat.le_max_left _ _) rfl
      found

end

end Reparse
