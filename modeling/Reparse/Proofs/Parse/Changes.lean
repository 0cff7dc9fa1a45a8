import Reparse.Proofs.Parse.Kinship
import Reparse.Proofs.Parse.Lookahead
import Reparse.Proofs.Tree.Correspondence

/-!
# Changes between trees of one history

The comparison of two trees of a history passes over the nodes that they have in
common.  Since these lie over the same bytes in both texts, it finds what a
comparison of all nodes finds: no change is missed, and a tree with the shape of
a fresh one is told from an older one as the fresh one is.
-/

namespace Reparse

/-- The roots of two trees. -/
def PlacedPair.roots (old new : Tree) : PlacedPair := ⟨old.root, new.root, 0, 0⟩

/-- Trees without a common node are compared completely. -/
theorem PlacedPair.akin_of_unshared {old new : Tree}
    (unshared : ∀ visit ∈ new.root.visits,
      old.root.hasStamp visit.node.stamp = false) :
    (roots old new).Akin old new := by
  have everywhere : new.root.Everywhere fun node =>
      old.root.hasStamp node.stamp = false :=
    Node.everywhere_iff_forall_visits.mpr unshared
  obtain ⟨top, below⟩ := Node.everywhere_iff_below.mp everywhere
  constructor
  · intro same
    have common := Node.hasStamp_self old.root
    simp only [roots] at same
    rw [same, top] at common
    cases common
  · intro place offset node twin belowOld belowNew same
    have common := Node.hasStamp_of_below belowOld
    simp only [roots] at common
    rw [same, below _ _ belowNew] at common
    cases common

namespace Tree

theorem changedRanges_eq {old new : Tree}
    (alike : old.grammar = new.grammar)
    (akin : (PlacedPair.roots old new).Akin old new) :
    old.changedRanges new =
      Difference.normalize ((PlacedPair.roots old new).compared old new) := by
  have identical : old.sameGrammar new = true := by
    rw [sameGrammar, Stamped.identical, alike]
    exact beq_self_eq_true _
  rw [changedRanges, if_pos identical, Difference.changedSpans_eq,
    List.flatMap_singleton]
  exact congrArg Difference.normalize (PlacedPair.reported_eq_compared akin)

section

variable {grammar : Stamped Grammar} {trees : List Tree} {supply : Nat}
  (lineage : Lineage grammar trees supply) {old new : Tree}
  (memberOld : old ∈ trees) (memberNew : new ∈ trees)

include lineage memberOld memberNew

theorem Lineage.akin : (PlacedPair.roots old new).Akin old new := by
  have settledOld := lineage.settled old memberOld
  have settledNew := lineage.settled new memberNew
  have kin := lineage.kin old memberOld new memberNew
  have wholeOld := settledOld.whole
  have wholeNew := settledNew.whole
  constructor
  · intro same
    obtain ⟨root, bytes⟩ := kin.root same
    refine ⟨root, settledOld.nested, ?_, ?_, ?_⟩
    · simp only [PlacedPair.roots]
      omega
    · simp only [PlacedPair.roots, root]
      omega
    · simp only [PlacedPair.roots, bytes]
      exact AgreeFor.refl _ _
  · intro place offset node twin below belowTwin same
    obtain ⟨rfl, agree⟩ := kin.below below belowTwin same
    obtain ⟨withinOld, nested⟩ := below.within settledOld.nested
    have withinNew := (belowTwin.within settledNew.nested).1
    simp only [PlacedPair.roots] at withinOld withinNew
    refine ⟨rfl, nested, ?_, ?_, ?_⟩
    · simp only [PlacedPair.roots]
      omega
    · simp only [PlacedPair.roots]
      omega
    · simp only [PlacedPair.roots, Nat.zero_add]
      exact agree

theorem Lineage.changedRanges_eq :
    old.changedRanges new =
      Difference.normalize ((PlacedPair.roots old new).compared old new) := by
  apply Tree.changedRanges_eq
  · rw [(lineage.settled old memberOld).derivedWith,
      (lineage.settled new memberNew).derivedWith]
  · exact lineage.akin memberOld memberNew

/-- A reported span lies within a changed range, unless the new text is
empty. -/
theorem Lineage.exists_range (filled : 0 < new.length) {span : Span}
    (reported : span ∈ (PlacedPair.roots old new).compared old new) :
    ∃ range ∈ old.changedRanges new,
      range.start ≤ span.start ∧ span.stop ≤ range.stop := by
  rw [lineage.changedRanges_eq memberOld memberNew]
  apply Difference.exists_range reported
  rcases PlacedPair.mem_compared reported with rfl | ⟨offset, node, below, rfl⟩
  · rw [Span.isEmpty, beq_eq_false_iff_ne]
    simp only [PlacedPair.newSpan, PlacedPair.roots]
    rw [length] at filled
    omega
  · have filledNode :=
      (lineage.settled new memberNew).filled.filled below
    rw [Span.isEmpty, beq_eq_false_iff_ne]
    simp only [Placed.span, Placed.stop]
    omega

omit memberOld in
theorem Lineage.rel_locate? {path : List Nat}
    (unreported : ∀ upper, upper <+: path → ∀ placed,
      new.root.locate? 0 upper = some placed →
      placed.span ∉ (PlacedPair.roots old new).compared old new) :
    Option.Rel (old.Corresponds new) (old.root.locate? 0 path)
      (new.root.locate? 0 path) := by
  have settled := lineage.settled new memberNew
  have whole := settled.whole
  apply @PlacedPair.rel_locate? old new (PlacedPair.roots old new)
  · simp only [PlacedPair.roots]
    omega
  · exact settled.nested
  · exact unreported

/-- The nodes on the way to one outside of all changed ranges correspond. -/
theorem Lineage.rel_of_outside {path : List Nat} {placed : Placed Node}
    (notRoot : path ≠ []) (found : new.root.locate? 0 path = some placed)
    (outside : ∀ range ∈ old.changedRanges new,
      ¬(range.start ≤ placed.offset ∧ placed.stop ≤ range.stop))
    {upper : List Nat} (before : upper <+: path) :
    Option.Rel (old.Corresponds new) (old.root.locate? 0 upper)
      (new.root.locate? 0 upper) := by
  have settled := lineage.settled new memberNew
  have filled : 0 < new.length := by
    cases path with
    | nil => exact absurd rfl notRoot
    | cons index path =>
        obtain ⟨_, below, _⟩ := Node.below_of_locate? found
        have filledNode := settled.filled.filled below
        have inside := (below.within settled.nested).1
        rw [length]
        omega
  apply lineage.rel_locate? memberNew
  intro further beforeUpper around above reported
  obtain ⟨starts, stops⟩ := Node.locate?_around settled.nested
    (beforeUpper.trans before) above found
  obtain ⟨range, member, rangeStarts, rangeStops⟩ :=
    lineage.exists_range memberOld memberNew filled reported
  apply outside range member
  exact ⟨Nat.le_trans rangeStarts starts, Nat.le_trans stops rangeStops⟩

end

end Tree

section

variable {name : String} {declarations : List Declaration}
  {grammar : Stamped Grammar}
  (accepted : Grammar.ofDeclarations name declarations = .ok grammar.value)
  {trees : List Tree} {supply : Nat}
  (history : History grammar trees supply) {old new : Tree}
  (memberOld : old ∈ trees) (memberNew : new ∈ trees)

include accepted history memberOld memberNew

/-- A leaf of the new tree outside of all changed ranges was there before: its
path leads to a leaf of the same symbol and the same bytes, past nodes that have
the same symbols and as many children.  There are no changed ranges exactly when
this holds of all paths. -/
theorem History.changedRanges_complete :
    (∀ path leaf, path ≠ [] → new.root.locate? 0 path = some leaf →
      leaf.item.isLeaf = true →
      (∀ range ∈ old.changedRanges new,
        ¬(range.start ≤ leaf.offset ∧ leaf.stop ≤ range.stop)) →
      (∃ twin bytes, old.root.locate? 0 path = some twin ∧
        twin.item.isLeaf = true ∧ twin.item.symbol = leaf.item.symbol ∧
          old.text? twin.span = some bytes ∧
            new.text? leaf.span = some bytes) ∧
        ∀ upper, upper <+: path → ∃ above around,
          old.root.locate? 0 upper = some above ∧
            new.root.locate? 0 upper = some around ∧
              above.item.symbol = around.item.symbol ∧
                above.item.childCount = around.item.childCount) ∧
      (0 < new.length →
        (old.changedRanges new = [] ↔
          ∀ path, Option.Rel (old.Corresponds new) (old.root.locate? 0 path)
            (new.root.locate? 0 path))) := by
  have regular := Grammar.regular_of_ofDeclarations accepted
  have lineage := history.lineage regular
  constructor
  · intro path leaf notRoot found isLeaf outside
    have correspond : ∀ upper, upper <+: path → Option.Rel
        (old.Corresponds new) (old.root.locate? 0 upper)
        (new.root.locate? 0 upper) := fun upper =>
      lineage.rel_of_outside memberOld memberNew notRoot found outside
    constructor
    · have atEnd := correspond path (List.prefix_refl _)
      rw [found] at atEnd
      generalize twinHere : old.root.locate? 0 path = twin? at atEnd
      cases atEnd with
      | @some twin _ corresponds =>
          have twinLeaf := corresponds.isLeaf isLeaf
          obtain ⟨bytes, oldText, newText⟩ := corresponds.bytes twinLeaf
          exact ⟨twin, bytes, rfl, twinLeaf, corresponds.symbol, oldText,
            newText⟩
    · intro upper before
      obtain ⟨around, above⟩ := Node.exists_locate?_of_prefix before found
      have onTheWay := correspond upper before
      rw [above] at onTheWay
      generalize twinHere : old.root.locate? 0 upper = twin? at onTheWay
      cases onTheWay with
      | @some twin _ corresponds =>
          exact ⟨twin, around, rfl, above, corresponds.symbol,
            corresponds.childCount⟩
  · intro filled
    constructor
    · intro none path
      apply lineage.rel_locate? memberNew
      intro upper _ placed _ reported
      obtain ⟨range, member, _⟩ :=
        lineage.exists_range memberOld memberNew filled reported
      rw [none] at member
      cases member
    · intro correspond
      rw [lineage.changedRanges_eq memberOld memberNew,
        @PlacedPair.compared_eq_nil old new (PlacedPair.roots old new)
          correspond]
      exact Difference.normalize_eq_nil (List.forall_mem_nil _)

end

namespace Words

theorem compared_letters {old new : Tree} {first second : Nat}
    (symbol : old.root.symbol = new.root.symbol)
    (children : old.root.children =
      [⟨0, ⟨first + 1, ⟨2⟩, 1, 1, false, [⟨0, Node.leaf first ⟨0⟩ 1 1⟩]⟩⟩])
    (childrenToo : new.root.children =
      [⟨1, ⟨second + 1, ⟨2⟩, 1, 1, false, [⟨0, Node.leaf second ⟨0⟩ 1 1⟩]⟩⟩])
    (bytes : old.bytes = [97]) (bytesToo : new.bytes = [32, 97]) :
    (PlacedPair.roots old new).compared old new = [] := by
  have leaves : (⟨Node.leaf first ⟨0⟩ 1 1, Node.leaf second ⟨0⟩ 1 1, 0, 1⟩ :
      PlacedPair).compared old new = [] := by
    rw [PlacedPair.compared_eq]
    simp [PlacedPair.differsInShape, PlacedPair.differsInText, Node.leaf,
      Node.childCount, Node.isLeaf, PlacedPair.oldSpan, PlacedPair.newSpan,
      Tree.text?_eq, bytes, bytesToo, Span.length]
  have words : (⟨⟨first + 1, ⟨2⟩, 1, 1, false, [⟨0, Node.leaf first ⟨0⟩ 1 1⟩]⟩,
      ⟨second + 1, ⟨2⟩, 1, 1, false, [⟨0, Node.leaf second ⟨0⟩ 1 1⟩]⟩, 0, 1⟩ :
      PlacedPair).compared old new = [] := by
    rw [PlacedPair.compared_eq]
    simp [PlacedPair.differsInShape, Node.childCount, Node.isLeaf,
      PlacedPair.children, leaves]
  rw [PlacedPair.compared_eq]
  simp [PlacedPair.roots, PlacedPair.differsInShape, symbol, Node.childCount,
    Node.isLeaf, PlacedPair.children, children, childrenToo, words]

theorem moved_letter_complete :
    ∃ (grammar : Stamped Grammar) (old new : Tree) (supply : Nat),
      Grammar.ofDeclarations "words" declarations = .ok grammar.value ∧
        History grammar [new, old] supply ∧ old.bytes = [97] ∧
          new.bytes = [32, 97] ∧ old.changedRanges new = [] ∧
            (∃ twin bytes, old.root.locate? 0 [0, 0] = some twin ∧
              twin.item.isLeaf = true ∧ twin.item.symbol = ⟨0⟩ ∧
                old.text? twin.span = some bytes ∧
                  new.text? ⟨1, 2⟩ = some bytes) ∧
              ∀ path, Option.Rel (old.Corresponds new)
                (old.root.locate? 0 path) (new.root.locate? 0 path) := by
  obtain ⟨grammar, accepted, describes⟩ := exists_grammar
  obtain ⟨letter, behind⟩ := tokenize_letter describes
  obtain ⟨first, found, symbol, children⟩ :=
    @exists_letter ⟨0, grammar⟩ describes _ _ letter (by decide) 0
  obtain ⟨second, foundToo, symbolToo, childrenToo⟩ :=
    @exists_letter ⟨0, grammar⟩ describes _ _ behind (by decide) first.supply
  have bytes := Parser.bytes_of_parse found
  have bytesToo := Parser.bytes_of_parse foundToo
  have history : History ⟨0, grammar⟩ [second.tree, first.tree] second.supply :=
    .parsed (.parsed (.start 0) (Nat.le_refl 0) rfl found) (Nat.le_refl _) rfl
      foundToo
  have lineage := history.lineage (Grammar.regular_of_ofDeclarations accepted)
  have memberOld : first.tree ∈ [second.tree, first.tree] :=
    List.mem_cons_of_mem _ List.mem_cons_self
  have filled : 0 < second.tree.length := by
    rw [Tree.length, (lineage.settled _ List.mem_cons_self).whole, bytesToo]
    decide
  have same : first.tree.changedRanges second.tree = [] := by
    rw [lineage.changedRanges_eq memberOld List.mem_cons_self,
      compared_letters (symbol.trans symbolToo.symm) children childrenToo bytes
        bytesToo]
    exact Difference.normalize_eq_nil (List.forall_mem_nil _)
  obtain ⟨complete, exact⟩ := history.changedRanges_complete accepted
    memberOld List.mem_cons_self
  have outside : ∀ range ∈ first.tree.changedRanges second.tree,
      ¬(range.start ≤ 1 ∧ 2 ≤ range.stop) := by
    rw [same]
    exact List.forall_mem_nil _
  have found : second.tree.root.locate? 0 [0, 0] =
      some ⟨1, Node.leaf first.supply ⟨0⟩ 1 1⟩ := by
    simp [Node.locate?, Node.child?, childrenToo]
  obtain ⟨twin, _⟩ := complete [0, 0] _ (List.cons_ne_nil _ _) found rfl outside
  exact ⟨⟨0, grammar⟩, first.tree, second.tree, second.supply, accepted,
    history, bytes, bytesToo, same, twin, (exact filled).mp same⟩

end Words

/-- The tree was parsed from scratch, or after edits of a tree that was reached
without taking nodes over too early.  Nothing is asked of the last parse. -/
inductive FollowsClosely (grammar : Stamped Grammar) : Tree → Prop where
  | parsed {parser : Parser} {text : List UInt8} {supply : Nat}
      {parsed : Parsed} :
      parser.grammar = grammar →
      parser.parse text none supply = .ok parsed →
      FollowsClosely grammar parsed.tree
  | reparsed {parser : Parser} {tree : Tree} {edits : List Edit}
      {shell : Shell} {text : List UInt8} {before edited available : Nat}
      {parsed : Parsed} :
      ReachedClosely grammar tree before →
      tree.editAll edits before = .ok (shell, edited) →
      EditsProduce edits tree.bytes text →
      parser.grammar = grammar →
      parser.parse text (some shell) available = .ok parsed →
      FollowsClosely grammar parsed.tree

/-- A tree that follows closely has the shape of one parsed from scratch. -/
theorem FollowsClosely.shape_eq {grammar : Stamped Grammar} {tree : Tree}
    (follows : FollowsClosely grammar tree) (regular : grammar.value.Regular)
    {full : Parser} (known : full.grammar = grammar) {available : Nat}
    {fresh : Parsed}
    (found : full.parse tree.bytes none available = .ok fresh) :
    tree.root.shape = fresh.tree.root.shape := by
  cases follows with
  | parsed knownToo parsed =>
      have derived := Parser.derive_of_parse_none knownToo parsed
      have scratch := Parser.derive_of_parse_none known found
      obtain ⟨again, afresh, alike, _⟩ :=
        (faithful_of_derive_none regular derived).afresh full.options.memoize 0
          available
      rw [scratch] at afresh
      cases afresh
      exact alike
  | @reparsed parser base edits shell text before edited later _ closely
      afterEdits produced knownToo parsed =>
      have faithful := closely.faithful regular
      have concurs := @Parser.concurs_of_parse _ _ _ available _ _ _ _ _ later
        faithful afterEdits produced knownToo regular full known
      have bytes := Parser.bytes_of_parse parsed
      rw [bytes] at found
      rw [parsed, found] at concurs
      exact concurs.1.1

section

variable {name : String} {declarations : List Declaration}
  {grammar : Stamped Grammar}
  (accepted : Grammar.ofDeclarations name declarations = .ok grammar.value)
  {trees : List Tree} {supply : Nat}
  (history : History grammar trees supply) {old new : Tree}
  (memberOld : old ∈ trees) (memberNew : new ∈ trees)

include accepted history memberOld memberNew

/-- Passing over common nodes hides no change, and so a tree is told from an
older one as the tree of a fresh parse is, which has no node in common with that
one: it is if it has the same shape, and it has if it follows closely. -/
theorem History.changedRanges_afresh {full : Parser}
    (known : full.grammar = grammar) {available : Nat}
    (unused : supply ≤ available) :
    old.changedRanges new =
        Difference.normalize ((PlacedPair.roots old new).compared old new) ∧
      ∃ fresh, full.parse new.bytes none available = .ok fresh ∧
        (∀ visit ∈ fresh.tree.root.visits,
          old.root.hasStamp visit.node.stamp = false) ∧
          (new.root.shape = fresh.tree.root.shape →
            old.changedRanges new = old.changedRanges fresh.tree) ∧
            (FollowsClosely grammar new →
              old.changedRanges new = old.changedRanges fresh.tree) := by
  have regular := Grammar.regular_of_ofDeclarations accepted
  have lineage := history.lineage regular
  have settled := lineage.settled new memberNew
  have settledOld := lineage.settled old memberOld
  obtain ⟨tokens, lexable⟩ := settled.lexable
  obtain ⟨rule, rooted⟩ := settled.rooted
  have afresh : ∃ fresh, full.parse new.bytes none available = .ok fresh := by
    rw [Parser.parse_none known (history.fits new memberNew)]
    exact Grammar.exists_derive lexable rooted
  obtain ⟨fresh, found⟩ := afresh
  have bytes := Parser.bytes_of_parse found
  have derived := Parser.derive_of_parse_none known found
  obtain ⟨_, _, grows⟩ := Grammar.grows_of_derive regular derived
  have unshared : ∀ visit ∈ fresh.tree.root.visits,
      old.root.hasStamp visit.node.stamp = false := by
    intro visit member
    have later := Node.everywhere_iff_forall_visits.mp
      (Grammar.everywhere_new_of_derive regular derived) visit member
    exact settledOld.hasStamp_eq_false (Nat.le_trans unused later)
  have alike : old.grammar = fresh.tree.grammar :=
    settledOld.derivedWith.trans grows.derivedWith.symm
  have whole := lineage.changedRanges_eq memberOld memberNew
  have wholeFresh := Tree.changedRanges_eq alike
    (PlacedPair.akin_of_unshared unshared)
  have agree : new.root.shape = fresh.tree.root.shape →
      old.changedRanges new = old.changedRanges fresh.tree := by
    intro shape
    rw [whole, wholeFresh]
    exact congrArg Difference.normalize
      (@PlacedPair.compared_congr old new (PlacedPair.roots old new) _
        bytes.symm _ shape)
  refine ⟨whole, fresh, found, unshared, agree, ?_⟩
  intro follows
  exact agree (follows.shape_eq regular known found)

end

namespace Words

/-- A letter is parsed, a blank is put before it, and the text is parsed
again. -/
theorem exists_history :
    ∃ (grammar : Stamped Grammar) (old new : Tree) (supply : Nat),
      Grammar.ofDeclarations "words" declarations = .ok grammar.value ∧
        History grammar [new, old] supply ∧ old.bytes = [97] ∧
          new.bytes = [32, 97] ∧ FollowsClosely grammar new := by
  obtain ⟨grammar, accepted, describes⟩ := exists_grammar
  have regular := Grammar.regular_of_ofDeclarations accepted
  obtain ⟨letter, blank⟩ := tokenize_letter describes
  obtain ⟨parsed, found, bytes, reached, start⟩ :=
    @Reached.exists_first ⟨0, grammar⟩ _ (rule?_root describes) _ _ letter
      (by decide) ⟨true, true⟩
  have produced :
      EditsProduce [Edit.insert 0 1] parsed.tree.bytes [32, 97] := by
    rw [bytes]
    exact .cons ⟨by decide, by decide, [32], rfl, rfl⟩ (.nil _)
  obtain ⟨_, _, later, afterEdit, again, _, history⟩ :=
    reached.exists_next regular start List.mem_cons_self (by rw [bytes]; rfl)
      produced blank ⟨true, true⟩
  exact ⟨⟨0, grammar⟩, parsed.tree, later.tree, later.supply, accepted, history,
    bytes, Parser.bytes_of_parse again,
    .reparsed (.parsed rfl found) afterEdit produced rfl again⟩

/-- After an incremental parse the letter is told from the older one as it is
after a parse from scratch. -/
theorem moved_letter_afresh :
    ∃ (grammar : Stamped Grammar) (old new : Tree) (supply : Nat)
      (fresh : Parsed),
      Grammar.ofDeclarations "words" declarations = .ok grammar.value ∧
        History grammar [new, old] supply ∧ old.bytes = [97] ∧
          FollowsClosely grammar new ∧
            (Parser.ofGrammar grammar ⟨true, true⟩).parse [32, 97] none
              supply = .ok fresh ∧
              old.changedRanges new = old.changedRanges fresh.tree := by
  obtain ⟨grammar, old, new, supply, accepted, history, oldBytes, newBytes,
    follows⟩ := exists_history
  obtain ⟨_, fresh, found, _, _, agree⟩ :=
    @History.changedRanges_afresh _ _ _ accepted _ _ history old new
      (List.mem_cons_of_mem _ List.mem_cons_self) List.mem_cons_self
      (Parser.ofGrammar grammar ⟨true, true⟩) rfl _ (Nat.le_refl _)
  rw [newBytes] at found
  exact ⟨grammar, old, new, supply, fresh, accepted, history, oldBytes, follows,
    found, agree follows⟩

end Words

end Reparse
