import Reparse.Proofs.Language.Marks
import Reparse.Proofs.Parse.Grammatical

/-!
# Error nodes

The children of a root that is derived from a text alone are, in order, the
nodes of the item where it matches and one error node for each longest run of
tokens at which it does not.  Error nodes stand nowhere else, and there are none
exactly if the item, repeated like any other, gets through all tokens.
-/

namespace Reparse

/-- A rule has one outcome at a token. -/
theorem Matches.unique {grammar : Grammar} {tokens : TokenList}
    {rule : Rule Symbol} {position examined examinedToo : Nat}
    {outcome outcomeToo : Option RuleMatch}
    (first : Matches grammar tokens rule position outcome examined)
    (second : Matches grammar tokens rule position outcomeToo examinedToo) :
    outcomeToo = outcome ∧ examinedToo = examined := by
  -- Both come about in the same way, or a part of the rule would have two
  -- outcomes.
  induction first generalizing outcomeToo examinedToo <;> cases second <;> grind

theorem RootParts.unique {grammar : Grammar} {tokens : TokenList}
    {item : Rule Symbol} {position : Nat} {parts partsToo : List RootPart}
    (first : RootParts grammar tokens item position parts)
    (second : RootParts grammar tokens item position partsToo) :
    partsToo = parts := by
  induction first generalizing partsToo with
  | done outside =>
      cases second with
      | done => rfl
      | item inside | failed inside | nothing inside =>
          exact absurd inside (Nat.not_lt_of_le outside)
  | item inside moved found _ induction =>
      cases second with
      | done outside => exact absurd inside (Nat.not_lt_of_le outside)
      | item _ _ foundToo later =>
          obtain ⟨same, _⟩ := found.unique foundToo
          cases same
          rw [induction later]
      | failed _ failed =>
          cases (found.unique failed).1
      | nothing _ nothing =>
          cases (found.unique nothing).1
          exact absurd moved (Nat.lt_irrefl _)
  | failed inside failed _ induction =>
      cases second with
      | done outside => exact absurd inside (Nat.not_lt_of_le outside)
      | item _ _ found => cases (failed.unique found).1
      | failed _ _ later => rw [induction later]
      | nothing _ _ later => rw [induction later]
  | nothing inside nothing _ induction =>
      cases second with
      | done outside => exact absurd inside (Nat.not_lt_of_le outside)
      | item _ moved found =>
          cases (nothing.unique found).1
          exact absurd moved (Nat.lt_irrefl _)
      | failed _ _ later => rw [induction later]
      | nothing _ _ later => rw [induction later]

/-- At the token the rule fails or matches nothing. -/
def Fruitless (grammar : Grammar) (tokens : TokenList) (rule : Rule Symbol)
    (position : Nat) : Prop :=
  ∃ outcome examined, Matches grammar tokens rule position outcome examined ∧
    ∀ found, outcome = some found → found.next = position

namespace RootPart

def IsUnexpected : RootPart → Prop
  | .item _ => False
  | .unexpected _ _ => True

/-- Puts the tokens `first..position` in front of the parts of what follows
them. -/
def setAside (first position : Nat) : List RootPart → List RootPart
  | .unexpected _ stop :: parts => .unexpected first stop :: parts
  | parts => .unexpected first position :: parts

/-- Puts the tokens from `first?` on, if there are any, in front. -/
def behind (first? : Option Nat) (position : Nat) (parts : List RootPart) :
    List RootPart :=
  match first? with
  | none => parts
  | some first => setAside first position parts

theorem behind_consUnexpected (first? : Option Nat) (position : Nat)
    (parts : List RootPart) :
    behind first? position (consUnexpected position parts) =
      behind (some (first?.getD position)) (position + 1) parts := by
  cases first? with
  | none => cases parts with
    | nil => rfl
    | cons part parts => cases part <;> rfl
  | some first => cases parts with
    | nil => rfl
    | cons part parts => cases part <;> rfl

theorem nodes_behind {first? : Option Nat} {position : Nat}
    {parts : List RootPart} {tokens : TokenList}
    (begun : ∀ first stop, parts.head? ≠ some (.unexpected first stop)) :
    (behind first? position parts).flatMap (nodes tokens) =
      (first?.toList.flatMap fun first =>
        (errorNode? tokens first position).toList) ++
          parts.flatMap (nodes tokens) := by
  cases first? with
  | none => rfl
  | some first =>
      rw [Option.toList_some, List.flatMap_singleton]
      cases parts with
      | nil =>
          exact (List.flatMap_singleton ..).trans (List.append_nil _).symm
      | cons part parts =>
          cases part with
          | item nodes => exact List.flatMap_cons ..
          | unexpected start stop => exact absurd rfl (begun start stop)

theorem isSome_errorNode? {tokens : TokenList} {first stop : Nat}
    (before : first < stop) (within : stop ≤ tokens.size) :
    (errorNode? tokens first stop).isSome = true := by
  obtain ⟨token, here⟩ :=
    TokenList.get?_of_lt (Nat.lt_of_lt_of_le before within)
  rw [errorNode?, TokenList.toList_extract_cons here before,
    List.getLast?_cons]
  rfl

/-- What a part stands for. -/
inductive Justified (grammar : Grammar) (tokens : TokenList)
    (item : Rule Symbol) : RootPart → Prop where
  | item {position examined : Nat} {found : RuleMatch} :
      position < tokens.size → position < found.next →
      Matches grammar tokens item position (some found) examined →
      Justified grammar tokens item (.item found.nodes)
  | unexpected {first stop : Nat} :
      first < stop → stop ≤ tokens.size →
      (∀ index, first ≤ index → index < stop →
        Fruitless grammar tokens item index) →
      (errorNode? tokens first stop).isSome = true →
      Justified grammar tokens item (.unexpected first stop)

end RootPart

/-- The parts from a token on: each is there for a reason, and none goes on
where the one before it could have. -/
structure Arranged (grammar : Grammar) (tokens : TokenList)
    (item : Rule Symbol) (position : Nat) (parts : List RootPart) : Prop where
  justified : ∀ part ∈ parts, part.Justified grammar tokens item
  begins : ∀ first stop, parts.head? = some (.unexpected first stop) →
    first = position
  apart : parts.IsChain fun left right =>
    ¬(left.IsUnexpected ∧ right.IsUnexpected)

section

variable {grammar : Grammar} {tokens : TokenList} {item : Rule Symbol}
  {position : Nat} {parts : List RootPart}

theorem Arranged.cons_item {next : Nat} {nodes : List (Placed Node)}
    (arranged : Arranged grammar tokens item next parts)
    (justified : RootPart.Justified grammar tokens item (.item nodes)) :
    Arranged grammar tokens item position (.item nodes :: parts) := by
  constructor
  · exact List.forall_mem_cons.mpr ⟨justified, arranged.justified⟩
  · intro first stop same
    cases same
  · apply List.isChain_cons.mpr
    exact ⟨fun _ _ both => both.1, arranged.apart⟩

theorem Arranged.consUnexpected
    (arranged : Arranged grammar tokens item (position + 1) parts)
    (inside : position < tokens.size)
    (fruitless : Fruitless grammar tokens item position) :
    Arranged grammar tokens item position
      (RootPart.consUnexpected position parts) := by
  have alone : RootPart.Justified grammar tokens item
      (.unexpected position (position + 1)) := by
    refine .unexpected (Nat.lt_succ_self _) inside ?_
      (RootPart.isSome_errorNode? (Nat.lt_succ_self _) inside)
    intro index after below
    obtain rfl := Nat.le_antisymm after (Nat.le_of_lt_succ below)
    exact fruitless
  obtain ⟨justified, begins, apart⟩ := arranged
  cases parts with
  | nil =>
      refine ⟨List.forall_mem_singleton.mpr alone, ?_, .singleton _⟩
      rintro first stop ⟨⟩
      rfl
  | cons part parts =>
      obtain ⟨first, others⟩ := List.forall_mem_cons.mp justified
      cases part with
      | item nodes =>
          refine ⟨List.forall_mem_cons.mpr ⟨alone, justified⟩, ?_, ?_⟩
          · rintro first stop ⟨⟩
            rfl
          · apply List.isChain_cons.mpr
            refine ⟨?_, apart⟩
            rintro next ⟨⟩ both
            exact both.2
      | unexpected start stop =>
          obtain rfl := begins start stop rfl
          cases first with
          | unexpected before within each =>
              refine ⟨List.forall_mem_cons.mpr ⟨?_, others⟩, ?_, ?_⟩
              · have longer := Nat.lt_of_succ_lt before
                refine .unexpected longer within ?_
                  (RootPart.isSome_errorNode? longer within)
                intro index after below
                by_cases same : index = position
                · rw [same]
                  exact fruitless
                · exact each index
                    (Nat.lt_of_le_of_ne after (Ne.symm same)) below
              · rintro first stop ⟨⟩
                rfl
              · exact List.isChain_cons.mpr (List.isChain_cons.mp apart)

theorem RootParts.arranged
    (rootParts : RootParts grammar tokens item position parts) :
    Arranged grammar tokens item position parts := by
  induction rootParts with
  | done =>
      refine ⟨List.forall_mem_nil _, ?_, .nil⟩
      rintro first stop ⟨⟩
  | item inside moved found _ induction =>
      exact induction.cons_item (.item inside moved found)
  | failed inside failed _ induction =>
      apply induction.consUnexpected inside
      exact ⟨_, _, failed, fun found matched => nomatch matched⟩
  | nothing inside found _ induction =>
      apply induction.consUnexpected inside
      refine ⟨_, _, found, ?_⟩
      rintro other ⟨⟩
      rfl

end

namespace Setting

section

variable {setting : Setting} {supply : Nat} {text : List UInt8}
  (nothing : ∀ symbol start, setting.findReusable? symbol start = none)

include nothing

theorem LeafFor.content {token : Token} {node : Node}
    (leaf : setting.LeafFor supply token node) :
    node.content = (TokenList.leafOf token).item := by
  cases leaf with
  | taken found =>
      rw [nothing] at found
      cases found
  | built => rfl

theorem leaves_content {start : Nat} {tokens : List Token}
    {leaves : List (Placed Node)}
    (leavesWithin :
      List.Forall₂ (setting.LeafWithin supply start) tokens leaves) :
    Node.contentList leaves = tokens.map fun token =>
      ⟨token.span.start - start, (TokenList.leafOf token).item⟩ := by
  induction leavesWithin with
  | nil => rfl
  | cons leafWithin _ induction =>
      rw [Node.contentList, List.map_cons, induction, leafWithin.offset,
        leafWithin.leaf.content nothing]

theorem ErrorsFor.content {first? : Option Nat} {stop : Nat}
    {errors : List (Placed Node)}
    (errorsFor : setting.ErrorsFor supply stop first? errors) :
    Node.contentList errors = first?.toList.flatMap fun first =>
      (RootPart.errorNode? setting.tokens first stop).toList := by
  cases errorsFor with
  | nothing => rfl
  | node found leavesWithin =>
      simp only [Option.toList_some, List.flatMap_singleton,
        RootPart.errorNode?, found, Option.map_some, Node.contentList,
        Node.content, leaves_content nothing leavesWithin]

end

section

variable {setting : Setting} {supply : Nat} {text : List UInt8}
  (read : setting.grammar.tokenize text = .ok setting.tokens)
  (alone : setting.previous = none)

include alone

omit read in
theorem nothing_of_alone (symbol : Symbol) (start : Nat) :
    setting.findReusable? symbol start = none := by
  rw [findReusable?_eq, alone]
  rfl

include read

/-- What becomes of the tokens at the root, by value. -/
theorem RootRuns.parts {item : Rule Symbol} {position : Nat}
    {first? : Option Nat} {nodes : List (Placed Node)}
    (rootRuns : setting.RootRuns supply item position first? nodes)
    (within : position ≤ setting.tokens.size) :
    ∃ parts, RootParts setting.grammar setting.tokens item position parts ∧
      Node.contentList nodes =
        (RootPart.behind first? position parts).flatMap
          (RootPart.nodes setting.tokens) := by
  have nothing := nothing_of_alone alone
  induction rootRuns with
  | done outside errorsFor =>
      refine ⟨[], .done outside, ?_⟩
      rw [RootPart.nodes_behind (by rintro first stop ⟨⟩),
        errorsFor.content nothing, Nat.le_antisymm within outside]
      exact (List.append_nil _).symm
  | @item position examined first? found errors rest inside moved runs
      errorsFor _ induction =>
      obtain ⟨_, insideNext⟩ := (runs.advance read rfl).resolve_left
        fun stuck => absurd stuck.1 (Nat.ne_of_gt moved)
      obtain ⟨parts, rootParts, contents⟩ := induction insideNext
      refine ⟨_, @RootParts.item _ _ _ _ _ found.content _ inside moved
        (runs.matched alone) rootParts, ?_⟩
      rw [RootPart.nodes_behind (by rintro first stop ⟨⟩),
        Node.contentList_append, Node.contentList_append, contents,
        errorsFor.content nothing]
      rfl
  | @skip position examined first? outcome rest inside runs idle _
      induction =>
      obtain ⟨parts, rootParts, contents⟩ := induction inside
      rw [contents, ← RootPart.behind_consUnexpected]
      refine ⟨_, ?_, rfl⟩
      have matched := runs.matched alone
      cases outcome with
      | none => exact .failed inside matched rootParts
      | some found =>
          have same := idle found rfl
          rw [Option.map_some, RuleMatch.content, same] at matched
          exact .nothing inside matched rootParts

end

end Setting

/-- Neither the node nor anything below it is an error node. -/
def Node.Unerring (root : Node) : Prop :=
  root.Everywhere fun node => node.symbol ≠ Symbol.error

/-- The node may be an error node around others, but nothing below it is one. -/
structure Node.ErringAtTop (node : Node) : Prop where
  filled : node.symbol = Symbol.error → node.children ≠ []
  children : ∀ placed ∈ node.children, placed.item.Unerring

theorem Node.Unerring.erringAtTop {node : Node} (unerring : node.Unerring) :
    node.ErringAtTop := by
  obtain ⟨named, children⟩ := Node.everywhere_iff.mp unerring
  exact ⟨fun isError => absurd isError named, children⟩

/-- Two nodes side by side are not both error nodes. -/
def Node.Apart (left right : Placed Node) : Prop :=
  ¬(left.item.symbol = Symbol.error ∧ right.item.symbol = Symbol.error)

theorem Node.apart_of_unerring {nodes : List (Placed Node)}
    (unerring : ∀ placed ∈ nodes, placed.item.Unerring) :
    nodes.IsChain Node.Apart := by
  induction nodes with
  | nil => exact .nil
  | cons placed nodes induction =>
      obtain ⟨first, rest⟩ := List.forall_mem_cons.mp unerring
      apply List.isChain_cons.mpr
      refine ⟨?_, induction rest⟩
      intro next _ both
      exact (Node.everywhere_iff.mp first).1 both.1

/-- Nodes that are no error nodes keep those before them from those behind. -/
theorem Node.apart_append {left middle right : List (Placed Node)}
    (apart : left.IsChain Node.Apart)
    (unerring : ∀ placed ∈ middle, placed.item.Unerring)
    (filled : middle ≠ []) (apartToo : right.IsChain Node.Apart) :
    (left ++ (middle ++ right)).IsChain Node.Apart := by
  have named : ∀ placed ∈ middle, placed.item.symbol ≠ Symbol.error := by
    intro placed member
    exact (Node.everywhere_iff.mp (unerring placed member)).1
  apply List.isChain_append.mpr
  refine ⟨apart, List.isChain_append.mpr ⟨Node.apart_of_unerring unerring,
    apartToo, ?_⟩, ?_⟩
  · intro last atEnd next _ both
    exact named last (List.mem_of_getLast? atEnd) both.1
  · intro last _ next atHead both
    cases middle with
    | nil => exact filled rfl
    | cons first middle =>
        cases atHead
        exact named _ List.mem_cons_self both.2

theorem Grammar.Regular.ne_error_of_rule? {grammar : Grammar}
    (regular : grammar.Regular) {symbol : Symbol} {rule : Rule Symbol}
    (known : grammar.rule? symbol = some rule) : symbol ≠ Symbol.error := by
  rintro rfl
  rw [regular.unruled] at known
  cases known

theorem Grammar.ne_error_of_isTerminal {grammar : Grammar} {symbol : Symbol}
    (isTerminal : grammar.isTerminal symbol = true) :
    symbol ≠ Symbol.error := by
  rintro rfl
  cases isTerminal

namespace Setting

section

variable {setting : Setting} {supply : Nat} {text : List UInt8}
  (nothing : ∀ symbol start, setting.findReusable? symbol start = none)
  (regular : setting.grammar.Regular)

include nothing

theorem LeafFor.unerring {token : Token} {node : Node}
    (leaf : setting.LeafFor supply token node)
    (isTerminal : setting.grammar.isTerminal token.symbol = true) :
    node.Unerring := by
  obtain ⟨symbol, childless, _⟩ := leaf.built_of_nothing nothing
  apply Node.everywhere_iff.mpr
  rw [symbol, childless]
  exact ⟨Grammar.ne_error_of_isTerminal isTerminal, List.forall_mem_nil _⟩

include regular

/-- Rules never leave error nodes. -/
theorem Runs.unerring {rule : Rule Symbol} {position examined : Nat}
    {outcome : Option RuleMatch}
    (runs : setting.Runs supply rule position outcome examined)
    {found : RuleMatch} (matched : outcome = some found) :
    ∀ placed ∈ found.nodes, placed.item.Unerring := by
  induction runs generalizing found with
  | token isTerminal here same leaf =>
      cases matched
      rw [← same] at isTerminal
      exact List.forall_mem_singleton.mpr (leaf.unerring nothing isTerminal)
  | otherToken | noRule | visibleFail | seqFail | seqFailLater | choiceNil =>
      cases matched
  | taken _ _ _ offered =>
      obtain ⟨_, _, _, found, _⟩ := reusable?_eq_some offered
      rw [nothing] at found
      cases found
  | hidden _ _ _ _ induction => exact induction matched
  | visibleEmpty | seqNil | starFail | starEmpty | optNone =>
      cases matched
      exact List.forall_mem_nil _
  | visible _ known _ _ _ _ _ induction =>
      cases matched
      refine List.forall_mem_singleton.mpr (Node.everywhere_iff.mpr ?_)
      constructor
      · rintro rfl
        rw [regular.unruled] at known
        cases known
      · intro placed member
        obtain ⟨original, memberBefore, rfl⟩ := List.mem_map.mp member
        exact induction rfl original memberBefore
  | seqCons _ _ induction inductionLater
  | starStep _ _ _ induction inductionLater =>
      cases matched
      exact List.forall_mem_append.mpr ⟨induction rfl, inductionLater rfl⟩
  | choiceHead _ induction | optSome _ induction =>
      cases matched
      exact induction rfl
  | choiceTail _ _ _ induction => exact induction matched

variable (read : setting.grammar.tokenize text = .ok setting.tokens)

include read

theorem ErrorsFor.erringAtTop {first? : Option Nat} {stop : Nat}
    {errors : List (Placed Node)}
    (errorsFor : setting.ErrorsFor supply stop first? errors) :
    ∀ placed ∈ errors, placed.item.ErringAtTop := by
  cases errorsFor with
  | nothing => exact List.forall_mem_nil _
  | node found leavesWithin =>
      refine List.forall_mem_singleton.mpr ?_
      constructor
      · rintro - ⟨⟩
        rw [List.forall₂_nil_right_iff.mp leavesWithin] at found
        cases found
      · intro leaf member
        obtain ⟨token, memberToken, leafWithin⟩ :=
          exists_of_forall₂_right leavesWithin member
        obtain ⟨index, _, _, here⟩ := mem_extract memberToken
        exact leafWithin.leaf.unerring nothing
          (isTerminal_of_get? regular read here)

theorem RootRuns.erringAtTop {item : Rule Symbol} {position : Nat}
    {first? : Option Nat} {nodes : List (Placed Node)}
    (rootRuns : setting.RootRuns supply item position first? nodes) :
    ∀ placed ∈ nodes, placed.item.ErringAtTop := by
  induction rootRuns with
  | done _ errorsFor => exact errorsFor.erringAtTop nothing regular read
  | item _ _ runs errorsFor _ induction =>
      have errors := errorsFor.erringAtTop nothing regular read
      have nodes := runs.unerring nothing regular rfl
      refine List.forall_mem_append.mpr
        ⟨errors, List.forall_mem_append.mpr ⟨?_, induction⟩⟩
      intro placed member
      exact (nodes placed member).erringAtTop
  | skip _ _ _ _ induction => exact induction

/-- Between two error nodes there is a match of the item. -/
theorem RootRuns.apart {item : Rule Symbol} {position : Nat}
    {first? : Option Nat} {nodes : List (Placed Node)}
    (rootRuns : setting.RootRuns supply item position first? nodes) :
    nodes.IsChain Node.Apart := by
  induction rootRuns with
  | done _ errorsFor =>
      cases errorsFor with
      | nothing => exact .nil
      | node => exact .singleton _
  | @item position examined first? found errors rest inside moved runs
      errorsFor _ induction =>
      have unerring := runs.unerring nothing regular rfl
      have spelled := runs.spelledBy read nothing rfl
      have filled : found.nodes ≠ [] := by
        intro none
        rw [none] at spelled
        cases spelled
        exact Nat.lt_irrefl _ moved
      refine Node.apart_append ?_ unerring filled induction
      cases errorsFor with
      | nothing => exact .nil
      | node => exact .singleton _
  | skip _ _ _ _ induction => exact induction

end

/-- Tokens set aside end up in an error node. -/
theorem RootRuns.exists_error {setting : Setting} {supply position : Nat}
    {item : Rule Symbol} {first? : Option Nat} {nodes : List (Placed Node)}
    (rootRuns : setting.RootRuns supply item position first? nodes)
    (waiting : first?.isSome = true) :
    ∃ placed ∈ nodes, placed.item.symbol = Symbol.error := by
  induction rootRuns with
  | done _ errorsFor =>
      cases errorsFor with
      | nothing => cases waiting
      | node => exact ⟨_, List.mem_singleton_self _, rfl⟩
  | item _ _ _ errorsFor _ _ =>
      cases errorsFor with
      | nothing => cases waiting
      | node => exact ⟨_, List.mem_cons_self, rfl⟩
  | skip _ _ _ _ induction => exact induction rfl

section

variable {setting : Setting} {supply : Nat} {text : List UInt8}
  (regular : setting.grammar.Regular)
  (read : setting.grammar.tokenize text = .ok setting.tokens)

include regular read

omit regular in
/-- A repetition ends where its item does not consume anything. -/
theorem exists_evalStar_of_idle {item : Rule Symbol} {position mark : Nat}
    {next? : Option Nat} {state after : DerivationState}
    (found : setting.eval item position setting.anyRank state = (next?, after))
    (delivers : setting.Delivers supply item position state.scratch.toList
      state (next?, after))
    (idle : ∀ next, next? = some next → ¬position < next)
    (atTop : mark = state.scratch.size) :
    ∃ last, setting.evalStar item position setting.anyRank mark state =
        (some position, last) ∧
      last.scratch.toList = state.scratch.toList := by
  rw [evalStar, found]
  cases next? with
  | none =>
      cases delivers with
      | failed _ _ scratch => exact ⟨after, rfl, scratch⟩
  | some next =>
      obtain ⟨_, kept, _⟩ :=
        delivers.stuck (onward_of_tokenize read) idle atTop
      refine ⟨after.truncate mark, dif_neg ?_, kept⟩
      intro moved
      exact idle next rfl moved.1

/-- Where a repetition ends before the last token, the token is skipped and
ends up in an error node. -/
theorem exists_error_of_idle {item : Rule Symbol} {position mark : Nat}
    {next? : Option Nat} {state after : DerivationState}
    (inside : position < setting.tokens.size)
    (found : setting.eval item position setting.anyRank state = (next?, after))
    (delivers : setting.Delivers supply item position state.scratch.toList
      state (next?, after))
    (idle : ∀ next, next? = some next → ¬position < next)
    (atTop : mark = state.scratch.size) :
    (setting.evalStar item position setting.anyRank mark state).1 ≠
        some setting.tokens.size ∧
      ∃ placed ∈ (setting.deriveItems item (position + 1)
          (some (none.getD position)) mark
          (after.truncate mark)).scratch.toList,
        placed.item.symbol = Symbol.error := by
  constructor
  · obtain ⟨last, ended, _⟩ :=
      exists_evalStar_of_idle read found delivers idle atTop
    rw [ended]
    intro through
    exact Nat.ne_of_lt inside (Option.some.inj through)
  · obtain ⟨trusted, kept, _⟩ :=
      delivers.stuck (onward_of_tokenize read) idle atTop
    obtain ⟨nodes, rootRuns, scratch, _⟩ :=
      @rootRuns_deriveItems setting supply text regular read item _ _ _ _
        inside trusted (waiting_getD waiting_none) (size_of_toList kept atTop)
    obtain ⟨placed, member, isError⟩ := rootRuns.exists_error rfl
    refine ⟨placed, ?_, isError⟩
    rw [scratch]
    exact List.mem_append_right _ member

/-- As long as no token is skipped the loop over the tokens is a repetition
like any other. -/
theorem deriveItems_or_exists_error {item : Rule Symbol} {position mark : Nat}
    {first? : Option Nat} {state : DerivationState}
    (within : position ≤ setting.tokens.size)
    (trusted : setting.Trusted supply state) (fresh : first? = none)
    (atTop : mark = state.scratch.size) :
    ((setting.evalStar item position setting.anyRank mark state).1 =
          some setting.tokens.size ∧
        (setting.deriveItems item position first? mark state).scratch.toList =
          (setting.evalStar item position setting.anyRank mark
            state).2.scratch.toList) ∨
      ((setting.evalStar item position setting.anyRank mark state).1 ≠
          some setting.tokens.size ∧
        ∃ placed ∈ (setting.deriveItems item position first? mark
            state).scratch.toList,
          placed.item.symbol = Symbol.error) := by
  have onward := onward_of_tokenize read
  have delivers := delivers_eval regular onward position trusted
    (admits_anyRank regular item)
  fun_induction setting.deriveItems item position first? mark state with
  | case1 position first? mark state inside next after found moved state'
      induction =>
      subst fresh
      rw [found] at delivers
      have insideNext := delivers.next_le onward moved
      rw [evalStar, found]
      simp only [moved, insideNext, and_self, dite_true]
      exact induction insideNext delivers.trusted rfl rfl
        (delivers_eval regular onward next delivers.trusted
          (admits_anyRank regular item))
  | case2 position first? mark state inside next after found stuck _ =>
      subst fresh
      rw [found] at delivers
      right
      apply exists_error_of_idle regular read inside found delivers _ atTop
      rintro other ⟨⟩
      exact stuck
  | case3 position first? mark state inside after found _ =>
      subst fresh
      rw [found] at delivers
      right
      apply exists_error_of_idle regular read inside found delivers _ atTop
      rintro other ⟨⟩
  | case4 position first? mark state outside =>
      subst fresh
      have atEnd := Nat.le_antisymm within (Nat.le_of_not_lt outside)
      cases found : setting.eval item position setting.anyRank state with
      | mk next? after =>
          rw [found] at delivers
          -- Behind the last token nothing can be consumed.
          have idle : ∀ next, next? = some next → ¬position < next := by
            rintro next rfl moved
            have further := delivers.next_le onward moved
            rw [← atEnd] at further
            exact Nat.not_le_of_lt moved further
          obtain ⟨last, ended, kept⟩ :=
            exists_evalStar_of_idle read found delivers idle atTop
          left
          rw [ended]
          exact ⟨congrArg some atEnd, kept.symm⟩

end

/-- The root is what the tokens call for: the nodes of the item and, between
them and nowhere else, an error node for each longest run of tokens without
one.  If the item, repeated like any other rule, gets through all tokens, its
nodes are the children. -/
structure Recovers (setting : Setting) (supply : Nat) (item : Rule Symbol)
    (root : Node) : Prop where
  parts : ∃ parts,
    (∀ others, RootParts setting.grammar setting.tokens item 0 others ↔
      others = parts) ∧
      Arranged setting.grammar setting.tokens item 0 parts ∧
        Node.contentList root.children =
          parts.flatMap (RootPart.nodes setting.tokens)
  named : root.symbol ≠ Symbol.error
  atTop : ∀ placed ∈ root.children, placed.item.ErringAtTop
  apart : root.children.IsChain Node.Apart
  unerring : root.Unerring ↔
    (setting.eval (.star item) 0 setting.anyRank
      (DerivationState.initial supply)).1 = some setting.tokens.size
  repeated :
    (setting.eval (.star item) 0 setting.anyRank
        (DerivationState.initial supply)).1 = some setting.tokens.size →
      root.children =
        (setting.eval (.star item) 0 setting.anyRank
          (DerivationState.initial supply)).2.scratch.toList

/-- The parts of the root are known once they have been found in any way. -/
theorem Recovers.contentList_eq {setting : Setting} {supply : Nat}
    {item : Rule Symbol} {root : Node}
    (recovers : setting.Recovers supply item root) {parts : List RootPart}
    (rootParts :
      RootParts setting.grammar setting.tokens item 0 parts) :
    Node.contentList root.children =
      parts.flatMap (RootPart.nodes setting.tokens) := by
  obtain ⟨others, only, _, contents⟩ := recovers.parts
  rw [(only parts).mp rootParts]
  exact contents

section

variable {setting : Setting} {text : List UInt8}
  (regular : setting.grammar.Regular)
  (read : setting.grammar.tokenize text = .ok setting.tokens)
  (alone : setting.previous = none)

include regular read alone

/-- No rule leaves an error node on the stack. -/
theorem unerring_eval (rule : Rule Symbol) (supply : Nat) {next : Nat}
    {after : DerivationState}
    (found : setting.eval rule 0 setting.anyRank
      (DerivationState.initial supply) = (some next, after)) :
    ∀ placed ∈ after.scratch.toList, placed.item.Unerring := by
  have delivers := delivers_eval regular (onward_of_tokenize read) 0
    (trusted_initial setting supply) (admits_anyRank regular rule)
  rw [found] at delivers
  cases delivers with
  | matched runs _ scratch _ =>
      rw [scratch]
      exact runs.unerring (nothing_of_alone alone) regular rfl

theorem recovers_deriveRoot {symbol : Symbol} (named : symbol ≠ Symbol.error)
    (item : Rule Symbol) (supply : Nat) :
    setting.Recovers supply item
      (setting.deriveRoot symbol item supply).1 := by
  have nothing := nothing_of_alone alone
  have trusted := trusted_initial setting supply
  have rootRuns := rootRuns_deriveRoot regular read symbol item supply
  have loop := @deriveItems_or_exists_error setting supply text regular read
    item 0 0 none _ (Nat.zero_le _) trusted rfl rfl
  have repetition : setting.evalStar item 0 setting.anyRank 0
        (DerivationState.initial supply) =
      setting.eval (.star item) 0 setting.anyRank
        (DerivationState.initial supply) := by
    rw [eval]
    rfl
  rw [repetition] at loop
  constructor
  · obtain ⟨parts, rootParts, contents⟩ :=
      rootRuns.parts read alone (Nat.zero_le _)
    refine ⟨parts, ?_, rootParts.arranged, contents⟩
    intro others
    constructor
    · exact rootParts.unique
    · rintro rfl
      exact rootParts
  · exact named
  · exact rootRuns.erringAtTop nothing regular read
  · exact rootRuns.apart nothing regular read
  · rw [Node.Unerring, Node.everywhere_iff]
    constructor
    · rintro ⟨_, unerring⟩
      rcases loop with ⟨through, _⟩ | ⟨_, placed, member, isError⟩
      · exact through
      · have below := Node.everywhere_iff.mp (unerring placed member)
        exact absurd isError below.1
    · intro through
      refine ⟨named, ?_⟩
      rcases loop with ⟨_, same⟩ | ⟨stopped, _⟩
      · intro placed member
        apply unerring_eval regular read alone _ supply
          (Prod.ext through rfl) placed
        rw [← same]
        exact member
      · exact absurd through stopped
  · intro through
    rcases loop with ⟨_, same⟩ | ⟨stopped, _⟩
    · exact same
    · exact absurd through stopped

end

end Setting

/-- The children of a root that is derived from a text alone are those of its
parts. -/
theorem Grammar.contentList_of_derive_none {grammar : Stamped Grammar}
    (regular : grammar.value.Regular) {memoize : Bool} {text : List UInt8}
    {version supply : Nat} {parsed : Parsed}
    (derived : Grammar.derive grammar memoize text none version supply =
      .ok parsed)
    {tokens : TokenList} (read : grammar.value.tokenize text = .ok tokens)
    {rule : Rule Symbol}
    (known : grammar.value.rule? grammar.value.root = some rule)
    {parts : List RootPart}
    (rootParts : RootParts grammar.value tokens rule.rootItem 0 parts) :
    Node.contentList parsed.tree.root.children =
      parts.flatMap (RootPart.nodes tokens) := by
  rw [Grammar.derive, read] at derived
  simp only [known] at derived
  cases derived
  have recovers := @Setting.recovers_deriveRoot
    (grammar.value.over memoize none tokens) text regular read rfl _
    (regular.ne_error_of_rule? known) rule.rootItem supply
  exact recovers.contentList_eq rootParts

/-- A text that can be read is parsed, and its tree has error nodes just where
tokens had to be set aside. -/
theorem Parser.parse_recovers {name : String}
    {declarations : List Declaration} {parser : Parser}
    (accepted : Grammar.ofDeclarations name declarations =
      .ok parser.grammar.value)
    {text : List UInt8} {tokens : TokenList}
    (read : parser.grammar.value.tokenize text = .ok tokens)
    (fits : text.length ≤ longestText) (supply : Nat) :
    ∃ rule parsed,
      parser.grammar.value.rule? parser.grammar.value.root = some rule ∧
        parser.parse text none supply = .ok parsed ∧
          (parser.grammar.value.over parser.options.memoize none
            tokens).Recovers supply rule.rootItem parsed.tree.root := by
  have regular := Grammar.regular_of_ofDeclarations accepted
  obtain ⟨built⟩ := Grammar.built_of_ofDeclarations accepted
  rw [Parser.parse_none rfl fits, Grammar.derive, read]
  simp only [built.rule?_root]
  exact ⟨_, _, rfl, rfl, @Setting.recovers_deriveRoot
    (parser.grammar.value.over parser.options.memoize none tokens) text regular
    read rfl _ (regular.ne_error_of_rule? built.rule?_root) _ supply⟩

/-- A quotation is an item, and a stop is none. -/
theorem Marks.rootParts_quotations {grammar : Grammar}
    (describes : Describes grammar) :
    RootParts grammar quotationTokens (.symbol ⟨0⟩) 0
      [.item [TokenList.leafOf ⟨⟨0⟩, ⟨0, 3⟩, 3⟩], .unexpected 1 3,
        .item [TokenList.leafOf ⟨⟨0⟩, ⟨5, 8⟩, 8⟩]] := by
  have isTerminal := isTerminal_text describes
  have last := RootParts.item (by decide) (by decide)
    (.token isTerminal rfl rfl) (@RootParts.done grammar quotationTokens
      (.symbol ⟨0⟩) 4 (Nat.le_refl 4))
  have another := RootParts.failed (by decide)
    (.otherToken isTerminal (by rintro token ⟨⟩ ⟨⟩)) last
  have stops := RootParts.failed (by decide)
    (.otherToken isTerminal (by rintro token ⟨⟩ ⟨⟩)) another
  exact .item (by decide) (by decide) (.token isTerminal rfl rfl) stops

/-- Two stops between two quotations are set aside in one error node. -/
theorem Marks.quotations_recover :
    ∃ (grammar : Stamped Grammar) (parsed : Parsed),
      Grammar.ofDeclarations "marks" declarations = .ok grammar.value ∧
        (Parser.ofGrammar grammar ⟨true, false⟩).parse quotations none 0 =
            .ok parsed ∧
          (grammar.value.over false none quotationTokens).Recovers 0
              (.symbol ⟨0⟩) parsed.tree.root ∧
            Node.contentList parsed.tree.root.children =
                [⟨0, .leaf 0 ⟨0⟩ 3 0⟩,
                  ⟨3, ⟨0, Symbol.error, 2, 0, false,
                    [⟨0, .leaf 0 ⟨2⟩ 1 0⟩, ⟨1, .leaf 0 ⟨2⟩ 1 0⟩]⟩⟩,
                  ⟨5, .leaf 0 ⟨0⟩ 3 0⟩] := by
  obtain ⟨grammar, accepted, describes⟩ := exists_grammar
  obtain ⟨rule, parsed, known, found, recovers⟩ := @Parser.parse_recovers
    "marks" declarations (Parser.ofGrammar ⟨0, grammar⟩ ⟨true, false⟩) accepted
    _ _ (tokenize_quotations describes) (by decide) 0
  cases known.symm.trans (rule?_root describes)
  have children := recovers.contentList_eq (rootParts_quotations describes)
  exact ⟨⟨0, grammar⟩, parsed, accepted, found, recovers, children⟩

end Reparse
