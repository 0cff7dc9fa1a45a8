import Reparse.Proofs.Parse.Memory
import Reparse.Proofs.Parse.Provenance
import Reparse.Proofs.Parse.Rounds
import Reparse.Proofs.Tree.Counts

/-!
# Statistics say what identity says

A derivation takes over undamaged nodes of the edited tree, and those are nodes
of the tree before the edits, with all that is below them.  Everything else gets
a new stamp.  So the nodes taken over can be read off the finished tree,
whatever was taken over in attempts that were given up.
-/

namespace Reparse

namespace Node

/-- An edit marks its copies as damaged; everything else was there before. -/
theorem exists_below_of_damage {edit : Edit} {root node : Node}
    {start newStart supply offset : Nat}
    (below : (root.damage edit start newStart supply).1.Below offset node)
    (clean : node.damaged = false) : ∃ before, root.Below before node := by
  induction root using induction_on_children generalizing start newStart supply
    offset with
  | step root induction =>
      obtain ⟨copy, memberCopy, place⟩ := below_iff.mp below
      rw [(damage_eq edit start newStart supply root).1] at memberCopy
      obtain ⟨child, member, next, rfl⟩ := mem_damageList memberCopy
      simp only [copied] at place
      split at place
      · obtain ⟨_, rfl⟩ | ⟨inner, _, deeper⟩ := place
        · rw [(damage_eq ..).2.2.2] at clean
          cases clean
        · obtain ⟨before, belowChild⟩ := induction child member deeper
          exact ⟨_, .deeper member belowChild⟩
      · obtain ⟨_, rfl⟩ | ⟨inner, _, deeper⟩ := place
        · exact ⟨_, .child member⟩
        · exact ⟨_, .deeper member deeper⟩

theorem everywhere_hasStamp {root node : Node} {offset : Nat}
    (below : root.Below offset node) :
    node.Everywhere fun inner => root.hasStamp inner.stamp = true :=
  everywhere_iff_below.mpr ⟨hasStamp_of_below below,
    fun _ _ deeper => hasStamp_of_below (below.trans deeper)⟩

/-- Nodes of which some are taken over and the others are not known have only
known nodes below known ones. -/
theorem Traced.closed {known : Nat → Bool} {register : Register}
    {start : Nat} {node : Node}
    (traced : node.Traced
      (fun _ inner => inner.Everywhere fun node => known node.stamp = true)
      register start)
    (new : ∀ stamp placed, register stamp = some placed →
      known stamp = false) :
    node.Everywhere (ClosedAt known) := by
  induction traced with
  | @taken start node everywhere =>
      apply everywhere_iff_below.mpr
      obtain ⟨_, below⟩ := everywhere_iff_below.mp everywhere
      exact ⟨fun _ child member => below _ _ (.child member),
        fun _ _ above _ child member => below _ _ (above.trans (.child member))⟩
  | built registered _ _ induction =>
      refine everywhere_iff.mpr ⟨?_, induction⟩
      intro isKnown
      rw [new _ _ registered] at isKnown
      cases isKnown

end Node

theorem Shell.EditedByAll.exists_below {edits : List Edit}
    {before after : Shell} (edited : Shell.EditedByAll edits before after)
    {place : Nat} {node : Node} (below : after.root.Below place node)
    (clean : node.damaged = false) :
    ∃ offset, before.root.Below offset node := by
  induction edited generalizing place with
  | nil => exact ⟨place, below⟩
  | cons first _ induction =>
      obtain ⟨offset, belowMiddle⟩ := induction below
      obtain ⟨supply, root⟩ := first.root
      rw [root] at belowMiddle
      exact Node.exists_below_of_damage belowMiddle clean

/-- The statistics of a derivation count the known nodes of its tree. -/
theorem Grammar.statistics_of_derive {grammar : Stamped Grammar}
    (regular : grammar.value.Regular) {memoize : Bool} {text : List UInt8}
    {previous : Option Node} {version supply : Nat} {known : Nat → Bool}
    (older : ∀ stamp, known stamp = true → stamp < supply)
    (offered : ∀ symbol start node,
      previous.bind (fun root => (root.search symbol start).found) =
        some node → node.Everywhere fun inner => known inner.stamp = true)
    {parsed : Parsed}
    (derived : Grammar.derive grammar memoize text previous version supply =
      .ok parsed) :
    known parsed.tree.root.stamp = false ∧
      parsed.statistics =
        ⟨parsed.tree.root.paths.countP (parsed.tree.root.topmostAt known),
          parsed.tree.root.paths.countP fun path =>
            !parsed.tree.root.knownAt known path⟩ := by
  obtain ⟨_, _, _, _, _, _, _, counted⟩ := byValue_of_derive regular older
    (fun symbol start node found =>
      (Node.everywhere_iff.mp (offered symbol start node found)).1) derived
  obtain ⟨register, given, entered, traced⟩ :=
    @traced_of_derive _ regular _ _ _ _ _ _ derived
      (fun _ node => node.Everywhere fun inner => known inner.stamp = true)
      offered
  have new : ∀ stamp placed, register stamp = some placed →
      known stamp = false := by
    intro stamp placed found
    apply Bool.eq_false_iff.mpr
    intro isKnown
    exact Nat.not_lt.mpr (given stamp placed found).1 (older stamp isKnown)
  exact ⟨new _ _ entered, counted.trans (Node.ofNode_eq_countP
    (traced.closed new))⟩

/-- Without nodes at hand all nodes are built. -/
theorem Grammar.statistics_of_derive_none {grammar : Stamped Grammar}
    (regular : grammar.value.Regular) {memoize : Bool} {text : List UInt8}
    {version supply : Nat} {parsed : Parsed}
    (derived : Grammar.derive grammar memoize text none version supply =
      .ok parsed) : parsed.statistics = ⟨0, parsed.tree.nodeCount⟩ := by
  obtain ⟨_, counted⟩ := @statistics_of_derive _ regular _ _ none _ _
    (fun _ => false) (fun _ never => absurd never Bool.false_ne_true)
    (fun _ _ _ never => nomatch never) _ derived
  have nowhere : parsed.tree.root.knownAt (fun _ => false) =
      fun _ => false := by
    funext path
    simp [Node.knownAt]
  have noneTopmost : parsed.tree.root.topmostAt (fun _ => false) =
      fun _ => false := by
    funext path
    simp [Node.topmostAt, nowhere]
  simp only [noneTopmost, nowhere, List.countP_false, Bool.not_false,
    List.countP_true, Node.length_paths] at counted
  exact counted

namespace Parser

/-- Whether the stamp is that of a node of the tree under edit. -/
def isOld (previous : Option Shell) (stamp : Nat) : Bool :=
  previous.any fun shell => shell.base.root.hasStamp stamp

/-- A parser gives the tree under edit back or derives a tree. -/
theorem exists_derive_of_parse {parser : Parser} {text : List UInt8}
    {previous : Option Shell} {supply : Nat} {parsed : Parsed}
    (found : parser.parse text previous supply = .ok parsed)
    (another : ∀ shell, previous = some shell → parsed.tree ≠ shell.base) :
    ∃ version, Grammar.derive parser.grammar parser.options.memoize text
      ((parser.usable? previous).map Shell.root) version supply =
        .ok parsed := by
  rw [parse] at found
  split at found
  · cases found
  · cases used : parser.usable? previous with
    | none =>
        simp only [used] at found
        exact ⟨_, found⟩
    | some shell =>
        have same := (Option.filter_eq_some_iff.mp used).1
        simp only [used] at found
        split at found
        · cases found
          exact absurd rfl (another shell same)
        · exact ⟨_, found⟩

/-- What is offered to a derivation belongs to the tree under edit. -/
theorem everywhere_isOld_of_search {parser : Parser} {previous : Option Shell}
    (edited : ∀ shell, previous = some shell →
      ∃ edits, Shell.EditedByAll edits (Shell.ofTree shell.base) shell)
    {symbol : Symbol} {start : Nat} {node : Node}
    (found : ((parser.usable? previous).map Shell.root).bind
      (fun root => (root.search symbol start).found) = some node) :
    node.Everywhere fun inner => isOld previous inner.stamp = true := by
  obtain ⟨root, usable, hit⟩ := Option.bind_eq_some_iff.mp found
  obtain ⟨shell, used, rfl⟩ := Option.map_eq_some_iff.mp usable
  have same := (Option.filter_eq_some_iff.mp used).1
  obtain ⟨edits, chain⟩ := edited shell same
  obtain ⟨below, _, clean, _⟩ := Node.below_of_search hit
  obtain ⟨offset, belowBase⟩ := chain.exists_below below clean
  rw [same]
  exact Node.everywhere_hasStamp belowBase

/-- After a parse that gives another tree than the one under edit, the parser
counts as built the nodes that are not nodes of the tree under edit, and as
taken over the nodes of that tree whose parent is not one.  The root is always
built, and without a tree to take nodes over from all nodes are.  A parse that
fails leaves the statistics as they were. -/
theorem statistics_count_by_identity {name : String}
    {declarations : List Declaration} {parser : Parser}
    (accepted : Grammar.ofDeclarations name declarations =
      .ok parser.grammar.value)
    {previous : Option Shell} {supply : Nat}
    (edited : ∀ shell, previous = some shell →
      ∃ edits, Shell.EditedByAll edits (Shell.ofTree shell.base) shell)
    (older : ∀ stamp, isOld previous stamp = true → stamp < supply)
    (memory : Memory) (text : List UInt8) :
    let outcome := (parser.parseIn memory text previous supply).1
    (∀ parsed, outcome = .ok parsed →
      (∀ shell, previous = some shell → parsed.tree ≠ shell.base) →
      let root := parsed.tree.root
      (parser.afterParse outcome).statistics =
          ⟨root.paths.countP fun path =>
            root.knownAt (isOld previous) path &&
              !root.knownAt (isOld previous) path.dropLast,
          root.paths.countP fun path => !root.knownAt (isOld previous) path⟩ ∧
        root.knownAt (isOld previous) [] = false ∧
          (parser.usable? previous = none →
            (parser.afterParse outcome).statistics =
              ⟨0, parsed.tree.nodeCount⟩)) ∧
      ∀ error, outcome = .error error →
        (parser.afterParse outcome).statistics = parser.statistics := by
  have regular := Grammar.regular_of_ofDeclarations accepted
  simp only [parseIn_fst]
  constructor
  · intro parsed found another
    obtain ⟨version, derived⟩ := exists_derive_of_parse found another
    obtain ⟨isNew, counted⟩ := Grammar.statistics_of_derive regular older
      (fun _ _ _ => everywhere_isOld_of_search edited) derived
    rw [found]
    refine ⟨?_, isNew, ?_⟩
    · have topmost : parsed.tree.root.topmostAt (isOld previous) =
          fun path => parsed.tree.root.knownAt (isOld previous) path &&
            !parsed.tree.root.knownAt (isOld previous) path.dropLast := by
        funext path
        cases path with
        | nil => simp [Node.topmostAt, Node.knownAt_nil, isNew]
        | cons index path => rfl
      rw [topmost] at counted
      exact counted
    · intro unused
      rw [unused, Option.map_none] at derived
      exact Grammar.statistics_of_derive_none regular derived
  · intro error failed
    rw [failed]
    rfl

end Parser

namespace Words

/-- A blank is put before a letter: the nodes of the tree for both are counted
as those of the tree before, or as new ones.  A text of another length is
refused, and the statistics are those of a parser that has not parsed yet. -/
theorem movedLetter_counted :
    ∃ (grammar : Stamped Grammar) (parsed : Parsed) (error : ParseError),
      let parser := Parser.ofGrammar grammar ⟨true, true⟩
      let shell := movedLetter grammar
      let root := parsed.tree.root
      let old := Parser.isOld (some shell)
      Grammar.ofDeclarations "words" declarations = .ok grammar.value ∧
        parser.parse [32, 97] (some shell) 3 = .ok parsed ∧
          parsed.tree ≠ shell.base ∧
            parsed.statistics =
                ⟨root.paths.countP fun path =>
                  root.knownAt old path && !root.knownAt old path.dropLast,
                root.paths.countP fun path => !root.knownAt old path⟩ ∧
              parser.parse [97] (some shell) 3 = .error error ∧
                (parser.afterParse (.error error)).statistics =
                  Statistics.initial := by
  obtain ⟨grammar, accepted, describes⟩ := exists_grammar
  let stamped : Stamped Grammar := ⟨0, grammar⟩
  let parser := Parser.ofGrammar stamped ⟨true, true⟩
  have edited : ∀ shell, some (movedLetter stamped) = some shell →
      ∃ edits, Shell.EditedByAll edits (Shell.ofTree shell.base) shell := by
    intro shell same
    cases same
    have small : 2 < offsetLimit := by decide
    have step : Shell.EditedBy (Edit.insert 0 1)
        (Shell.ofTree (movedLetter stamped).base) (movedLetter stamped) :=
      ⟨⟨by decide, by decide, Nat.zero_le _, small⟩, rfl, ⟨2, rfl⟩⟩
    exact ⟨_, .cons step (.nil _)⟩
  have older : ∀ stamp, Parser.isOld (some (movedLetter stamped)) stamp = true →
      stamp < 3 := by
    intro stamp isOld
    simp only [Parser.isOld, Option.any_some, movedLetter, Node.leaf,
      Node.hasStamp, Node.hasStampList, Bool.or_false, Bool.or_eq_true,
      beq_iff_eq] at isOld
    omega
  obtain ⟨parsed, found⟩ := @Parser.exists_parse parser [32, 97]
    (some (movedLetter stamped)) 3 (tokens 1) _
    (tokenize_letter describes).2 (rule?_root describes) (by decide)
    fun shell same => by
      cases same
      rfl
  have another : ∀ shell, some (movedLetter stamped) = some shell →
      parsed.tree ≠ shell.base := by
    intro shell same unchanged
    cases same
    have bytes := Parser.bytes_of_parse found
    rw [unchanged] at bytes
    cases bytes
  obtain ⟨counted, _⟩ := @Parser.statistics_count_by_identity "words"
    declarations parser accepted _ 3 edited older Memory.empty [32, 97]
  obtain ⟨_, unchanged⟩ := @Parser.statistics_count_by_identity "words"
    declarations parser accepted _ 3 edited older Memory.empty [97]
  simp only [Parser.parseIn_fst] at counted unchanged
  have refused : parser.parse [97] (some (movedLetter stamped)) 3 = .error _ :=
    rfl
  have count := (counted parsed found another).1
  have still := unchanged _ refused
  rw [found] at count
  rw [refused] at still
  exact ⟨stamped, parsed, _, accepted, found, another _ rfl, count, refused,
    still⟩

end Words

end Reparse
