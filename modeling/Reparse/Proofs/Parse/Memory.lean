import Reparse.Parse.Memory
import Reparse.Proofs.Parse.Accounts
import Reparse.Proofs.Parse.ByValue
import Reparse.Proofs.Parse.Faithful
import Reparse.Proofs.Parse.Termination

/-!
# Memory makes no difference

A parser that remembers outcomes and one that does not find the same tree, take
the same nodes over and count them alike, whatever earlier parses have left
behind.  Both find what attempts by value find, and on the stack a rule does no
more than put nodes on top.
-/

namespace Reparse

/-- A rule that fails leaves the stack as it was, and one that matches puts
nodes on top of it, none if it consumed no token. -/
def DerivationState.OnlyPushes (position : Nat) (before : DerivationState) :
    Option Nat × DerivationState → Prop
  | (none, after) => after.scratch = before.scratch
  | (some next, after) =>
      ∃ nodes : Array (Placed Node),
        after.scratch = before.scratch ++ nodes ∧
          (next = position → nodes = #[])

/-- Two parses cannot be told apart but by the stamps of the nodes that they
built. -/
inductive SameOutcome (previous : Option Shell) :
    Except ParseError Parsed → Except ParseError Parsed → Prop where
  | refused {error : ParseError} :
      SameOutcome previous (.error error) (.error error)
  | parsed {left right : Parsed} :
      left.tree.root.content = right.tree.root.content →
      (∀ shell, previous = some shell →
        shell.root.takenFrom left.tree.root =
          shell.root.takenFrom right.tree.root) →
      left.statistics = right.statistics →
      SameOutcome previous (.ok left) (.ok right)

namespace Setting

section

variable {setting : Setting} {supply : Nat}

theorem Delivers.onlyPushes (onward : setting.Onward) {rule : Rule Symbol}
    {position : Nat} {before : DerivationState}
    {result : Option Nat × DerivationState}
    (delivers : setting.Delivers supply rule position before.scratch.toList
      before result) : before.OnlyPushes position result := by
  cases delivers with
  | failed _ _ scratch _ => exact Array.toList_inj.mp scratch
  | @matched next examined nodes after runs _ scratch _ =>
      refine ⟨nodes.toArray, ?_, ?_⟩
      · apply Array.toList_inj.mp
        rw [scratch, Array.toList_append]
      · intro same
        rcases runs.advances onward rfl with ⟨_, empty, _⟩ | ⟨moved, _⟩
        · exact congrArg List.toArray empty
        · exact absurd same (Nat.ne_of_gt moved)

/-- Every rule run in the course of a derivation comes to an end and leaves
alone what was on the stack. -/
theorem Undertakes.onlyPushes (regular : setting.grammar.Regular)
    (onward : setting.Onward) {item : Rule Symbol} {start : DerivationState}
    {activation : Activation}
    (undertakes : setting.Undertakes item start activation)
    (trusted : setting.Trusted supply start) :
    ∃ result,
      setting.run activation.rule activation.position activation.state =
          some result ∧
        activation.state.OnlyPushes activation.position result := by
  have trustedHere := undertakes.trusted regular onward trusted
  have ends := run_eq_eval regular onward activation.rule activation.position
    trustedHere
  exact ⟨_, ends,
    (delivers_run regular onward trustedHere ends).onlyPushes onward⟩

end

section

variable {setting : Setting} {supply : Nat} {known : Nat → Bool}
  (older : ∀ stamp, known stamp = true → stamp < supply)

include older

/-- The root of a derivation is the one around the children by value. -/
theorem recognized_deriveRoot {text : List UInt8}
    (regular : setting.grammar.Regular)
    (read : setting.grammar.tokenize text = .ok setting.tokens)
    (symbol : Symbol) (item : Rule Symbol) :
    ∃ nodes,
      setting.grammar.attemptItems setting.tokens (setting.stock known) item 0
          none = some nodes ∧
        (setting.deriveRoot symbol item supply).1.recognized known =
          { stamp := 0
            symbol := symbol
            length := setting.tokens.sourceLength
            lookahead :=
              setting.tokens.endExamined - setting.tokens.sourceLength
            damaged := false
            children := nodes } := by
  obtain ⟨nodes, rootRuns, scratch, trusted⟩ :=
    @rootRuns_deriveItems setting supply text regular read item 0 0 none
      (DerivationState.initial supply) (Nat.zero_le _)
      (trusted_initial setting supply) waiting_none rfl
  have children : (setting.deriveItems item 0 none 0
      (DerivationState.initial supply)).scratch.toList = nodes := scratch
  refine ⟨_, rootRuns.attemptItems_eq older, ?_⟩
  simp only [deriveRoot, Node.recognized, Node.restamp, children,
    keepKnown_of_le older trusted.fresh]

/-- Counting the nodes taken over counts the known ones. -/
theorem statistics_deriveRoot {text : List UInt8}
    (regular : setting.grammar.Regular)
    (read : setting.grammar.tokenize text = .ok setting.tokens)
    (offered : ∀ symbol start node,
      setting.findReusable? symbol start = some node → known node.stamp = true)
    (symbol : Symbol) (item : Rule Symbol) :
    Statistics.ofNode
        (setting.deriveRoot symbol item supply).2.reused.contains
        (setting.deriveRoot symbol item supply).1 =
      Statistics.ofNode known (setting.deriveRoot symbol item supply).1 := by
  have accounts := @keeps_deriveItems setting supply _
    (keeps_accounts offered supply) regular text read item 0 0 none _
    (Nat.zero_le _) waiting_none (trusted_initial setting supply)
    (DerivationState.accounts_initial older)
  have accounted : (setting.deriveRoot symbol item supply).1.Accounted known
      (setting.deriveRoot symbol item supply).2.reused.contains :=
    .built accounts.isNew accounts.holds.scratch
  exact accounted.ofNode_eq accounts.taken

end

end Setting

namespace Grammar

section

variable {grammar : Stamped Grammar} {memoize : Bool} {text : List UInt8}
  {previous : Option Node} {version supply : Nat} {known : Nat → Bool}

/-- A tree derived with known nodes at hand is the one by value, and counting
the known nodes in it gives its statistics. -/
theorem byValue_of_derive (regular : grammar.value.Regular)
    (older : ∀ stamp, known stamp = true → stamp < supply)
    (offered : ∀ symbol start node,
      previous.bind (fun root => (root.search symbol start).found) =
        some node → known node.stamp = true)
    {parsed : Parsed}
    (derived : Grammar.derive grammar memoize text previous version supply =
      .ok parsed) :
    ∃ tokens rule nodes, grammar.value.tokenize text = .ok tokens ∧
      grammar.value.rule? grammar.value.root = some rule ∧
        grammar.value.attemptItems tokens
            ((grammar.value.over memoize previous tokens).stock known)
            rule.rootItem 0 none = some nodes ∧
          parsed.tree.root.recognized known =
              { stamp := 0
                symbol := grammar.value.root
                length := tokens.sourceLength
                lookahead := tokens.endExamined - tokens.sourceLength
                damaged := false
                children := nodes } ∧
            parsed.statistics = Statistics.ofNode known parsed.tree.root := by
  rw [Grammar.derive] at derived
  split at derived
  · cases derived
  · next tokens read =>
      split at derived
      · cases derived
      · next rule ruled =>
          cases derived
          let setting := grammar.value.over memoize previous tokens
          have offeredHere : ∀ symbol start node,
              setting.findReusable? symbol start = some node →
                known node.stamp = true := by
            intro symbol start node found
            rw [Setting.findReusable?_eq] at found
            exact offered symbol start node found
          obtain ⟨nodes, attempted, recognized⟩ :=
            @Setting.recognized_deriveRoot setting supply known older text
              regular read grammar.value.root rule.rootItem
          exact ⟨tokens, rule, nodes, read, ruled, attempted, recognized,
            Setting.statistics_deriveRoot older regular read offeredHere _ _⟩

/-- Whether outcomes are remembered, and which stamps are left for new nodes,
makes no difference to what is known of the tree. -/
theorem alike_of_derive (regular : grammar.value.Regular) {memoizeToo : Bool}
    {versionToo supplyToo : Nat}
    (older : ∀ stamp, known stamp = true → stamp < supply ∧ stamp < supplyToo)
    (offered : ∀ symbol start node,
      previous.bind (fun root => (root.search symbol start).found) =
        some node → known node.stamp = true)
    {left right : Parsed}
    (derived : Grammar.derive grammar memoize text previous version supply =
      .ok left)
    (derivedToo : Grammar.derive grammar memoizeToo text previous versionToo
      supplyToo = .ok right) :
    left.tree.root.recognized known = right.tree.root.recognized known ∧
      left.statistics = right.statistics := by
  obtain ⟨tokens, rule, nodes, read, ruled, attempted, recognized,
      statistics⟩ :=
    byValue_of_derive regular (fun stamp isKnown => (older stamp isKnown).1)
      offered derived
  obtain ⟨tokensToo, ruleToo, nodesToo, readToo, ruledToo, attemptedToo,
      recognizedToo, statisticsToo⟩ :=
    byValue_of_derive regular (fun stamp isKnown => (older stamp isKnown).2)
      offered derivedToo
  cases read.symm.trans readToo
  cases ruled.symm.trans ruledToo
  -- Attempts by value do not ask whether outcomes are remembered.
  cases attempted.symm.trans attemptedToo
  have same := recognized.trans recognizedToo.symm
  refine ⟨same, ?_⟩
  rw [statistics, statisticsToo, Node.ofNode_of_recognized same]

theorem sameOutcome_derive (regular : grammar.value.Regular)
    {shell? : Option Shell} {memoizeToo : Bool} {versionToo supplyToo : Nat}
    (within : ∀ root, previous = some root →
      ∃ shell, shell? = some shell ∧ shell.root = root)
    (older : ∀ shell, shell? = some shell →
      ∀ stamp, shell.root.hasStamp stamp = true →
        stamp < supply ∧ stamp < supplyToo) :
    SameOutcome shell?
      (Grammar.derive grammar memoize text previous version supply)
      (Grammar.derive grammar memoizeToo text previous versionToo
        supplyToo) := by
  cases first : Grammar.derive grammar memoize text previous version supply with
  | error error =>
      rw [derive_eq_error first]
      exact .refused
  | ok left =>
      cases second : Grammar.derive grammar memoizeToo text previous versionToo
        supplyToo with
      | error error =>
          rw [derive_eq_error second] at first
          cases first
      | ok right =>
          let known (stamp : Nat) : Bool :=
            shell?.any fun shell => shell.root.hasStamp stamp
          have knownOlder : ∀ stamp, known stamp = true →
              stamp < supply ∧ stamp < supplyToo := by
            intro stamp isKnown
            obtain ⟨shell, same, stamped⟩ := (Option.any_eq_true _ _).mp isKnown
            exact older shell same stamp stamped
          have offered : ∀ symbol start node,
              previous.bind (fun root => (root.search symbol start).found) =
                some node → known node.stamp = true := by
            intro symbol start node found
            obtain ⟨root, isRoot, found⟩ := Option.bind_eq_some_iff.mp found
            obtain ⟨shell, same, rfl⟩ := within root isRoot
            rw [Option.any_eq_true]
            exact ⟨shell, same,
              Node.hasStamp_of_below (Node.below_of_search found).1⟩
          obtain ⟨recognized, statistics⟩ :=
            alike_of_derive regular knownOlder offered first second
          refine .parsed (Node.content_of_recognized recognized) ?_ statistics
          intro shell same
          subst same
          exact Node.takenFrom_of_recognized recognized

theorem content_of_derive_none (regular : grammar.value.Regular)
    {tokens : TokenList} {rule : Rule Symbol} {parsed : Parsed}
    (read : grammar.value.tokenize text = .ok tokens)
    (ruled : grammar.value.rule? grammar.value.root = some rule)
    (derived : Grammar.derive grammar memoize text none version supply =
      .ok parsed) :
    ∃ nodes,
      grammar.value.attemptItems tokens Stock.empty rule.rootItem 0 none =
          some nodes ∧
        parsed.tree.root.content =
          { stamp := 0
            symbol := grammar.value.root
            length := tokens.sourceLength
            lookahead := tokens.endExamined - tokens.sourceLength
            damaged := false
            children := nodes } := by
  have older : ∀ stamp, (fun _ : Nat => false) stamp = true →
      stamp < supply := by
    intro stamp isKnown
    cases isKnown
  have offered : ∀ symbol start node,
      (none : Option Node).bind (fun root => (root.search symbol start).found) =
        some node → (fun _ : Nat => false) node.stamp = true := by
    intro symbol start node found
    cases found
  obtain ⟨tokensToo, ruleToo, nodes, readToo, ruledToo, attempted, recognized,
      _⟩ := byValue_of_derive regular older offered derived
  cases read.symm.trans readToo
  cases ruled.symm.trans ruledToo
  rw [Setting.stock_eq_empty] at attempted
  · refine ⟨nodes, attempted, ?_⟩
    rw [← recognized]
    exact (Node.restamp_zero _).symm
  · exact @Setting.findReusable?_alone
      (grammar.value.over memoize none tokens) memoize

end

end Grammar

namespace Parser

section

variable {left right : Parser} {text : List UInt8} {previous : Option Shell}
  {leftSupply rightSupply : Nat}

theorem sameOutcome_parse (regular : left.grammar.value.Regular)
    (sameGrammar : right.grammar = left.grammar)
    (sameReuse : right.options.incremental = left.options.incremental)
    (older : ∀ shell, previous = some shell →
      ∀ stamp, shell.root.hasStamp stamp = true →
        stamp < leftSupply ∧ stamp < rightSupply) :
    SameOutcome previous (left.parse text previous leftSupply)
      (right.parse text previous rightSupply) := by
  have sameUse : right.usable? previous = left.usable? previous := by
    rw [usable?, usable?, sameGrammar, sameReuse]
  rw [parse, parse, sameUse, sameGrammar]
  cases refusal? text previous with
  | some error => exact .refused
  | none =>
      cases used : left.usable? previous with
      | none =>
          apply Grammar.sameOutcome_derive regular _ older
          intro root same
          cases same
      | some shell =>
          have isPrevious := (Option.filter_eq_some_iff.mp used).1
          simp only
          split
          · exact .parsed rfl (fun _ _ => rfl) rfl
          · apply Grammar.sameOutcome_derive regular _ older
            intro root same
            cases same
            exact ⟨shell, isPrevious, rfl⟩

end

end Parser

/-- Parsers that differ in nothing but whether they remember outcomes, and in
what earlier parses have left in their memory, cannot be told apart, whichever
stamps they give to new nodes.  A text that can be read and is not too long is
parsed unless the edits lead to one of another length, and without a shell the
tree is the one that attempts by value find.  In the course of a derivation
every rule comes to an end and only pushes on the stack. -/
theorem Parser.parseIn_sameOutcome {name : String}
    {declarations : List Declaration} {left right : Parser}
    {text : List UInt8} {tokens : TokenList} {previous : Option Shell}
    {leftSupply rightSupply : Nat}
    (accepted : Grammar.ofDeclarations name declarations =
      .ok left.grammar.value)
    (sameGrammar : right.grammar = left.grammar)
    (sameReuse : right.options.incremental = left.options.incremental)
    (read : left.grammar.value.tokenize text = .ok tokens)
    (older : ∀ shell, previous = some shell →
      ∀ stamp, shell.root.hasStamp stamp = true →
        stamp < leftSupply ∧ stamp < rightSupply)
    (leftMemory rightMemory : Memory) :
    SameOutcome previous
        (left.parseIn leftMemory text previous leftSupply).1
        (right.parseIn rightMemory text previous rightSupply).1 ∧
      (text.length ≤ Parser.longestText →
        (∀ shell, previous = some shell → shell.length = text.length) →
          ∃ parsed,
            (left.parseIn leftMemory text previous leftSupply).1 =
              .ok parsed) ∧
        (text.length ≤ Parser.longestText →
          ∃ item parsed nodes,
            left.grammar.value.rule? left.grammar.value.root =
                some (.star item) ∧
              (left.parseIn leftMemory text none leftSupply).1 = .ok parsed ∧
                left.grammar.value.attemptItems tokens Stock.empty item 0 none =
                    some nodes ∧
                  parsed.tree.root.content =
                    { stamp := 0
                      symbol := left.grammar.value.root
                      length := tokens.sourceLength
                      lookahead := tokens.endExamined - tokens.sourceLength
                      damaged := false
                      children := nodes }) ∧
          ∀ memoize root item activation,
            (left.grammar.value.over memoize root tokens).Undertakes item
                (leftMemory.begin leftSupply) activation →
              ∃ result,
                (left.grammar.value.over memoize root tokens).run
                    activation.rule activation.position activation.state =
                    some result ∧
                  activation.state.OnlyPushes activation.position result := by
  have regular := Grammar.regular_of_ofDeclarations accepted
  obtain ⟨built⟩ := Grammar.built_of_ofDeclarations accepted
  have ruled := built.rule?_root
  rw [parseIn_fst, parseIn_fst, parseIn_fst]
  refine ⟨sameOutcome_parse regular sameGrammar sameReuse older,
    exists_parse read ruled, ?_, ?_⟩
  · intro fits
    obtain ⟨parsed, derived⟩ := @Grammar.exists_derive left.grammar
      left.options.memoize text none 0 leftSupply tokens _ read ruled
    obtain ⟨nodes, attempted, content⟩ :=
      Grammar.content_of_derive_none regular read ruled derived
    refine ⟨built.item, parsed, nodes, ruled, ?_, attempted, content⟩
    rw [Parser.parse_none rfl fits]
    exact derived
  · intro memoize root item activation undertakes
    rw [Memory.begin_eq_initial] at undertakes
    let setting := left.grammar.value.over memoize root tokens
    exact undertakes.onlyPushes regular (Setting.onward_of_tokenize read)
      (Setting.trusted_initial setting leftSupply)

namespace Words

/-- A letter with a blank put before it: the text around the letter is damaged,
and the letter itself is not. -/
def movedLetter (grammar : Stamped Grammar) : Shell where
  base :=
    { root := ⟨1, ⟨1⟩, 1, 1, false, [⟨0, Node.leaf 0 ⟨0⟩ 1 1⟩]⟩
      grammar := grammar
      source := ⟨0, #[97]⟩
      version := 0 }
  root := ⟨2, ⟨1⟩, 2, 1, true, [⟨1, Node.leaf 0 ⟨0⟩ 1 1⟩]⟩
  edits := [⟨0, 0, 1⟩]

theorem lt_of_hasStamp_movedLetter {grammar : Stamped Grammar} {stamp : Nat}
    (stamped : (movedLetter grammar).root.hasStamp stamp = true) :
    stamp < 3 := by
  simp only [movedLetter, Node.leaf, Node.hasStamp, Node.hasStampList,
    Bool.or_false, Bool.or_eq_true, beq_iff_eq] at stamped
  omega

/-- The letter that was moved is found alike by a parser that remembers outcomes
and by one that does not and has something left on its stack. -/
theorem movedLetter_sameOutcome :
    ∃ (grammar : Stamped Grammar) (left right : Parsed),
      Grammar.ofDeclarations "words" declarations = .ok grammar.value ∧
        ((Parser.ofGrammar grammar ⟨true, true⟩).parseIn Memory.empty [32, 97]
          (some (movedLetter grammar)) 3).1 = .ok left ∧
          ((Parser.ofGrammar grammar ⟨true, false⟩).parseIn
            ⟨#[⟨0, Node.leaf 9 ⟨0⟩ 1 1⟩], ∅⟩ [32, 97]
            (some (movedLetter grammar)) 7).1 = .ok right ∧
            left.tree.root.content = right.tree.root.content ∧
              (movedLetter grammar).root.takenFrom left.tree.root =
                  (movedLetter grammar).root.takenFrom right.tree.root ∧
                left.statistics = right.statistics := by
  obtain ⟨grammar, accepted, describes⟩ := exists_grammar
  let stamped : Stamped Grammar := ⟨0, grammar⟩
  have older : ∀ shell, some (movedLetter stamped) = some shell →
      ∀ stamp, shell.root.hasStamp stamp = true → stamp < 3 ∧ stamp < 7 := by
    intro shell same stamp has
    cases same
    have below := lt_of_hasStamp_movedLetter has
    exact ⟨below, Nat.lt_trans below (by decide)⟩
  obtain ⟨outcome, parsed, _⟩ := @Parser.parseIn_sameOutcome "words"
    declarations (Parser.ofGrammar stamped ⟨true, true⟩)
    (Parser.ofGrammar stamped ⟨true, false⟩) [32, 97] (tokens 1)
    (some (movedLetter stamped)) 3 7 accepted rfl rfl
    (tokenize_letter describes).2 older Memory.empty
    ⟨#[⟨0, Node.leaf 9 ⟨0⟩ 1 1⟩], ∅⟩
  obtain ⟨left, found⟩ := parsed (by decide) fun shell same => by
    cases same
    rfl
  rw [found] at outcome
  generalize foundToo : ((Parser.ofGrammar stamped ⟨true, false⟩).parseIn
    ⟨#[⟨0, Node.leaf 9 ⟨0⟩ 1 1⟩], ∅⟩ [32, 97]
      (some (movedLetter stamped)) 7).1 =
    other at outcome
  cases outcome with
  | parsed content taken statistics =>
      exact ⟨stamped, left, _, accepted, found, foundToo, content,
        taken _ rfl, statistics⟩

end Words

end Reparse
