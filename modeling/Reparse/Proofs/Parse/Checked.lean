import Reparse.Proofs.Parse.Rounds
import Reparse.Proofs.Parse.WellFormed

/-!
# No check fails

What a derivation relies on holds in every state that it gets to, whatever the
nodes at hand.  A parse of an edited tree therefore comes to a well-formed tree
without a difference below zero, a sum too large or an index outside, and no new
node is refused its children.
-/

namespace Reparse

theorem Node.assemble?_eq_some {stamp length lookahead : Nat} {symbol : Symbol}
    {children : List (Placed Node)} (ordered : InOrder length 0 children) :
    assemble? stamp symbol length lookahead children =
      some ⟨stamp, symbol, length, lookahead, false, children⟩ :=
  if_pos ordered

theorem guard_eq_some {condition : Prop} [Decidable condition]
    (holds : condition) : (guard condition : Option Unit) = some () :=
  if_pos holds

namespace Setting

section

variable {setting : Setting} {supply : Nat} {text : List UInt8}

theorem leafChecked_eq {token : Token}
    (ordered : token.span.start ≤ token.span.stop) (state : DerivationState) :
    setting.leafChecked token state = some (setting.leaf token state) := by
  have childless : ∀ length, Node.InOrder length 0 [] := Nat.zero_le
  simp only [leafChecked, leaf, minus?_eq_some ordered,
    Node.assemble?_eq_some (childless _), Option.bind_eq_bind,
    Option.bind_some]
  cases setting.findReusable? token.symbol token.span.start with
  | none => rfl
  | some node =>
      by_cases same : node.length = token.span.stop - token.span.start
      · simp only [same, Span.length, if_true]
        rfl
      · simp only [same, Span.length, if_false]
        rfl

theorem placeWithinChecked_eq {start : Nat} {nodes : List (Placed Node)}
    (after : ∀ placed ∈ nodes, start ≤ placed.offset) :
    placeWithinChecked start nodes = some (placeWithin start nodes) := by
  induction nodes with
  | nil => rfl
  | cons placed nodes induction =>
      obtain ⟨here, later⟩ := List.forall_mem_cons.mp after
      rw [placeWithinChecked, minus?_eq_some here, induction later]
      rfl

theorem reusableChecked_eq
    (small : ∀ {symbol : Symbol} {start : Nat} {node : Node},
      setting.findReusable? symbol start = some node →
        start + node.length + node.lookahead < offsetLimit)
    (symbol : Symbol) (position : Nat) :
    setting.reusableChecked symbol position =
      some (setting.reusable? symbol position) := by
  rw [reusableChecked, reusable?]
  cases setting.tokens.get? position with
  | none => rfl
  | some token =>
      simp only [Option.bind_eq_bind, Option.bind_some]
      cases found : setting.findReusable? symbol token.span.start with
      | none => rfl
      | some node =>
          have bound := small found
          simp only [Option.bind_some,
            plus?_eq_some (Nat.lt_of_le_of_lt (Nat.le_add_right _ _) bound)]
          cases setting.tokens.indexAfter? (token.span.start + node.length) with
          | none => rfl
          | some next =>
              simp only [plus?_eq_some bound]
              rfl

theorem errorLeavesChecked_eq {start : Nat} {indices : List Nat}
    {tokens : List Token}
    (known : List.Forall₂ (fun index token =>
      setting.tokens.get? index = some token ∧ start ≤ token.span.start ∧
        token.span.start ≤ token.span.stop) indices tokens)
    (state : DerivationState) :
    setting.errorLeavesChecked start indices state =
      some (setting.errorLeaves start tokens state) := by
  induction known generalizing state with
  | nil => rfl
  | cons first _ induction =>
      obtain ⟨here, after, ordered⟩ := first
      simp only [errorLeavesChecked, here, minus?_eq_some after,
        leafChecked_eq ordered, Option.bind_eq_bind, Option.bind_some,
        induction]
      rfl

variable (read : setting.grammar.tokenize text = .ok setting.tokens)

include read

theorem terminalChecked_eq (symbol : Symbol) (position : Nat)
    (state : DerivationState) :
    setting.terminalChecked symbol position state =
      some (setting.terminal symbol position state) := by
  rw [terminalChecked, terminal]
  cases here : setting.tokens.get? position with
  | none => rfl
  | some token =>
      have filled := (Grammar.span_bounds read here).2.1
      simp only [leafChecked_eq (Nat.le_of_lt filled), Option.bind_eq_bind,
        Option.bind_some]
      split <;> rfl

/-- The first token of a match and the last one. -/
theorem exists_ends {position next : Nat} (moved : position < next)
    (inside : next ≤ setting.tokens.size) :
    ∃ first last, setting.tokens.get? position = some first ∧
      setting.tokens.get? (next - 1) = some last ∧
        setting.tokens.startOf position = first.span.start ∧
          setting.tokens.stopBefore next = last.span.stop ∧
            first.span.start < last.span.stop := by
  obtain ⟨first, here⟩ :=
    TokenList.get?_of_lt (Nat.lt_of_lt_of_le moved inside)
  obtain ⟨last, lastHere⟩ := @TokenList.get?_of_lt setting.tokens (next - 1)
    (by omega)
  have start := TokenList.startOf_of_get? here
  have stop := edge_of_last moved lastHere
  have filled := Grammar.startOf_lt_edge read moved inside
  rw [start, stop] at filled
  rw [← TokenList.stopBefore_eq_edge moved] at stop
  exact ⟨first, last, here, lastHere, start, stop, filled⟩

/-- Closing a rule that was run fails no check. -/
theorem closeChecked_eq {symbol : Symbol} {rule : Rule Symbol}
    {position : Nat} {kept : List (Placed Node)}
    {state derived : DerivationState} {result : Option Nat}
    (delivers : setting.Delivers supply rule position kept state
      (result, derived)) (outer : Nat) :
    setting.closeChecked symbol position state.scratch.size outer result
        derived =
      some (setting.close symbol position state.scratch.size outer result
        derived) := by
  have room : ∀ next, result = some next →
      state.scratch.size ≤ derived.scratch.size := by
    intro next matched
    subst matched
    exact delivers.size_le
  cases delivers with
  | failed => rfl
  | @matched next examined nodes _ runs trusted scratch _ =>
      rw [closeChecked, close]
      by_cases same : next = position
      · simp only [same, if_true]
        rfl
      · obtain ⟨moved, inside⟩ : position < next ∧ next ≤ setting.tokens.size :=
          (runs.advance read rfl).resolve_left fun stuck => same stuck.1
        obtain ⟨first, last, here, lastHere, start, stop, filled⟩ :=
          exists_ends read moved inside
        have ordered := runs.inOrder_placeWithin read moved inside
        have after := fun placed member =>
          (runs.between read rfl placed member).after
        rw [start] at ordered after
        rw [stop] at ordered
        have above : ({ derived with examined := outer } :
            DerivationState).above state.scratch.size = nodes :=
          (above_of_append scratch Array.length_toList.symm).1
        simp only [same, if_false, here, lastHere, above, start, stop,
          guard_eq_some (room next rfl),
          minus?_eq_some (Nat.one_le_of_lt moved),
          minus?_eq_some (Nat.le_of_lt filled), placeWithinChecked_eq after,
          Node.assemble?_eq_some ordered, Option.bind_eq_bind,
          Option.bind_some]
        rfl

/-- The tokens of a run by their indices. -/
theorem forall₂_range' {first stop start : Nat} (before : first ≤ stop)
    (within : stop ≤ setting.tokens.size)
    (after : ∀ index token, first ≤ index →
      setting.tokens.get? index = some token → start ≤ token.span.start) :
    List.Forall₂ (fun index token =>
      setting.tokens.get? index = some token ∧ start ≤ token.span.start ∧
        token.span.start ≤ token.span.stop)
      (List.range' first (stop - first))
      (setting.tokens.tokens.extract first stop).toList := by
  obtain ⟨count, rfl⟩ := Nat.exists_eq_add_of_le before
  rw [Nat.add_sub_cancel_left]
  induction count generalizing first with
  | zero =>
      rw [Nat.add_zero, Array.extract_empty_of_stop_le_start (Nat.le_refl _)]
      exact .nil
  | succ count induction =>
      have inside : first < first + (count + 1) := by omega
      obtain ⟨token, here⟩ :=
        TokenList.get?_of_lt (Nat.lt_of_lt_of_le inside within)
      have filled := (Grammar.span_bounds read here).2.1
      rw [List.range'_succ, TokenList.toList_extract_cons here inside]
      refine .cons ⟨here, after _ _ (Nat.le_refl _) here,
        Nat.le_of_lt filled⟩ ?_
      have same : first + (count + 1) = first + 1 + count := by omega
      rw [same] at within ⊢
      refine induction ?_ (Nat.le_add_right _ _) within
      intro index other later found
      exact after index other (Nat.le_of_succ_le later) found

omit read in
theorem back?_extract {first stop : Nat} {last : Token} (before : first < stop)
    (within : stop ≤ setting.tokens.size)
    (lastHere : setting.tokens.get? (stop - 1) = some last) :
    (setting.tokens.tokens.extract first stop).back? = some last := by
  simp only [TokenList.size] at within
  have place : first + (stop - first - 1) = stop - 1 := by omega
  rw [Array.back?, Array.size_extract, Nat.min_eq_left within,
    Array.getElem?_extract, if_pos (by omega), place]
  exact lastHere

/-- Wrapping tokens set aside into an error node fails no check. -/
theorem flushErrorsChecked_eq {mark stop : Nat} {first? : Option Nat}
    {state : DerivationState} (trusted : setting.Trusted supply state)
    (within : stop ≤ setting.tokens.size)
    (waiting : ∀ first, first? = some first → first < stop)
    (room : mark ≤ state.scratch.size) :
    setting.flushErrorsChecked mark first? stop state =
      some (setting.flushErrors mark first? stop state) := by
  cases first? with
  | none => rfl
  | some first =>
      have before := waiting first rfl
      obtain ⟨head, last, here, lastHere, start, _, filled⟩ :=
        exists_ends read before within
      have after : ∀ index token, first ≤ index →
          setting.tokens.get? index = some token →
            setting.tokens.startOf first ≤ token.span.start := by
        intro index token later found
        rw [← TokenList.startOf_of_get? found]
        exact Grammar.startOf_le_startOf read later
          (TokenList.lt_size_of_get? found)
      have known := forall₂_range' read (Nat.le_of_lt before) within after
      have backFound := back?_extract before within lastHere
      obtain ⟨leavesFor, trustedLeaves, scratch⟩ :=
        @leavesWithin_errorLeaves setting supply
          (setting.tokens.startOf first)
          (setting.tokens.tokens.extract first stop).toList state trusted
      have ordered := leaves_inOrder_error read within before lastHere leavesFor
      rw [← scratch] at room
      rw [start] at known ordered room
      simp only [flushErrorsChecked, insertErrorChecked, flushErrors,
        insertError, here, lastHere, backFound, start,
        minus?_eq_some (Nat.one_le_of_lt before),
        minus?_eq_some (Nat.le_of_lt filled), errorLeavesChecked_eq known,
        Node.assemble?_eq_some ordered, guard_eq_some room,
        Option.bind_eq_bind, Option.bind_some]
      rfl

variable {item : Rule Symbol} (regular : setting.grammar.Regular)

include regular

theorem Reaches.bounds {start : DerivationState} {position : Nat}
    {first? : Option Nat} {state : DerivationState}
    (reaches : setting.Reaches item start position first? state)
    (trusted : setting.Trusted supply start) :
    position ≤ setting.tokens.size ∧
      ∀ first, first? = some first → first < position := by
  have onward := onward_of_tokenize read
  induction reaches with
  | start => exact ⟨Nat.zero_le _, waiting_none⟩
  | item reaches _ found moved _ =>
      have delivers := delivers_run regular onward
        (reaches.trusted regular onward trusted) found
      exact ⟨delivers.next_le onward moved, waiting_none⟩
  | skip _ inside _ _ induction => exact ⟨inside, waiting_getD induction.2⟩

/-- No check fails in any state that a derivation gets to. -/
theorem unfailing_of_read
    (small : ∀ {symbol : Symbol} {start : Nat} {node : Node},
      setting.findReusable? symbol start = some node →
        start + node.length + node.lookahead < offsetLimit) (supply : Nat) :
    setting.Unfailing item (DerivationState.initial supply) := by
  have onward := onward_of_tokenize read
  have initial := trusted_initial setting supply
  constructor
  case terminal => exact terminalChecked_eq read _ _ _
  case reusable => exact reusableChecked_eq small _ _
  case close =>
    intro symbol rule position state derived result undertakes known found
    have trusted := undertakes.trusted regular onward initial
    have delivers := @delivers_run setting supply regular onward rule position
      { state with examined := 0 } _ ⟨trusted.fresh, trusted.memo⟩ found
    exact closeChecked_eq read delivers state.examined
  case flush =>
    intro position next first? state after reaches inside found moved
    have delivers := delivers_run regular onward
      (reaches.trusted regular onward initial) found
    have waiting := (reaches.bounds read regular initial).2
    exact flushErrorsChecked_eq read delivers.trusted (Nat.le_of_lt inside)
      waiting delivers.size_le
  case finish =>
    intro position first? state reaches outside
    obtain ⟨within, waiting⟩ := reaches.bounds read regular initial
    have atEnd := Nat.le_antisymm within outside
    subst atEnd
    exact flushErrorsChecked_eq read (reaches.trusted regular onward initial)
      within waiting (Nat.le_refl _)

end

end Setting

namespace Parser

/-- What a parse of the tokens after edits works with. -/
def settingFor (parser : Parser) (shell : Shell) (tokens : TokenList) :
    Setting :=
  parser.grammar.value.over parser.options.memoize
    ((parser.usable? (some shell)).map Shell.root) tokens

/-- The nodes at hand are undamaged nodes of the edited tree. -/
theorem below_of_settingFor {parser : Parser} {shell : Shell}
    {tokens : TokenList} {symbol : Symbol} {start : Nat} {node : Node}
    (found : (parser.settingFor shell tokens).findReusable? symbol start =
      some node) :
    shell.root.Below start node ∧ node.damaged = false := by
  obtain ⟨root, same, below, _, clean, _⟩ :=
    Setting.below_of_findReusable? found
  obtain ⟨other, usable, rfl⟩ := Option.map_eq_some_iff.mp same
  cases (Option.filter_eq_some_iff.mp usable).1
  exact ⟨below, clean⟩

/-- A shell of the right length leads to a derivation, unless there is nothing
to do. -/
theorem parse_eq_derive {parser : Parser} {text : List UInt8} {shell : Shell}
    (fits : text.length ≤ longestText) (length : shell.length = text.length)
    (changed : shell.edits ≠ [] ∨ shell.base.bytes ≠ text) (available : Nat) :
    parser.parse text (some shell) available =
      Grammar.derive parser.grammar parser.options.memoize text
        ((parser.usable? (some shell)).map Shell.root)
        (nextVersion (some shell)) available := by
  rw [parse, refusal?_eq_none fits length]
  simp only
  cases usable : parser.usable? (some shell) with
  | none => rfl
  | some other =>
      have same : shell = other :=
        Option.some.inj (Option.filter_eq_some_iff.mp usable).1
      subst same
      have differs : (shell.isUnchanged && shell.base.bytes == text) =
          false := by
        rw [Bool.and_eq_false_iff, beq_eq_false_iff_ne, Shell.isUnchanged,
          List.isEmpty_eq_false_iff]
        exact changed
      simp only [differs, Option.map_some]
      rfl

/-- A parse after edits gives a well-formed tree even if the edited tree has
nothing to do with the text, as long as it is well formed itself, what was
looked at for its nodes lies within reach of an offset, and the text of a tree
without edits is not too long; edits make none too long.  Nothing that is done
on the way fails a check: no difference of offsets is negative, no index lies
outside, and no node is made of children out of order. -/
theorem reparse_wellFormed {name : String} {declarations : List Declaration}
    {parser : Parser}
    (accepted : Grammar.ofDeclarations name declarations =
      .ok parser.grammar.value)
    {base : Tree} (wellFormed : base.root.WellFormed)
    (undamaged : base.root.Undamaged) {edits : List Edit} {shell : Shell}
    {supply next : Nat} (edited : base.editAll edits supply = .ok (shell, next))
    {text : List UInt8} {tokens : TokenList}
    (read : parser.grammar.value.tokenize text = .ok tokens)
    (length : shell.length = text.length)
    (changed : edits ≠ [] ∨ base.bytes ≠ text)
    (fits : edits = [] → text.length ≤ longestText)
    (small : ∀ place node, shell.root.Below place node →
      place + node.length + node.lookahead < offsetLimit) (available : Nat) :
    ∃ parsed rule, parser.parse text (some shell) available = .ok parsed ∧
      parser.grammar.value.rule? parser.grammar.value.root = some rule ∧
        parsed.tree.root.symbol = parser.grammar.value.root ∧
          parsed.tree.root.length = text.length ∧
            parsed.tree.root.WellFormed ∧ parsed.tree.root.Undamaged ∧
              (parser.settingFor shell tokens).Unfailing rule.rootItem
                (DerivationState.initial available) := by
  have regular := Grammar.regular_of_ofDeclarations accepted
  obtain ⟨built⟩ := Grammar.built_of_ofDeclarations accepted
  have chain := Shell.editedByAll_of_editAll edited
  have differs : shell.edits ≠ [] ∨ shell.base.bytes ≠ text := by
    rw [Shell.edits_of_editAll edited, chain.base]
    exact changed
  have fitsAfter : text.length ≤ longestText := by
    rw [← length]
    apply Shell.length_le_of_editAll edited
    intro unedited
    subst unedited
    cases edited
    exact Nat.le_trans (Nat.le_of_eq length) (fits rfl)
  -- What the edits left undamaged is as the tree before them had it.
  have offered : ∀ {symbol start node},
      (parser.settingFor shell tokens).findReusable? symbol start =
        some node → node.WellFormed ∧ node.Undamaged := by
    intro symbol start node found
    obtain ⟨below, clean⟩ := below_of_settingFor found
    obtain ⟨offset, belowBase⟩ :=
      chain.exists_before (Node.nested_of_wellFormed wellFormed) below clean
    exact ⟨Node.everywhere_of_below wellFormed belowBase,
      Node.everywhere_of_below undamaged belowBase⟩
  obtain ⟨sound, clean⟩ := @Setting.wellFormed_deriveRoot
    (parser.settingFor shell tokens) text read offered regular
    parser.grammar.value.root _ available
  have unfailing := fun item => @Setting.unfailing_of_read
    (parser.settingFor shell tokens) text read item regular
    (fun found => small _ _ (below_of_settingFor found).1) available
  rw [parse_eq_derive fitsAfter length differs, Grammar.derive, read]
  simp only [built.rule?_root]
  exact ⟨_, _, rfl, rfl, rfl, (Grammar.readsOn_of_tokenize read).1, sound,
    clean, unfailing _⟩

end Parser

namespace Words

/-- A tree made by hand: its word has no name below it. -/
def emptyWord (grammar : Stamped Grammar) : Tree :=
  ⟨⟨1, ⟨1⟩, 1, 1, false, [⟨0, .leaf 0 ⟨2⟩ 1 0⟩]⟩, grammar, ⟨2, #[98]⟩, 0⟩

/-- It is taken for the tree of another letter. -/
theorem emptyWord_wellFormed :
    ∃ (grammar : Stamped Grammar) (shell : Shell) (parsed : Parsed),
      Grammar.ofDeclarations "words" declarations = .ok grammar.value ∧
        (emptyWord grammar).editAll [] 2 = .ok (shell, 2) ∧
          (Parser.ofGrammar grammar ⟨true, true⟩).parse [97] (some shell) 2 =
              .ok parsed ∧
            parsed.tree.root.WellFormed ∧ parsed.tree.root.Undamaged := by
  obtain ⟨grammar, accepted, describes⟩ := exists_grammar
  have wellFormed : (emptyWord ⟨0, grammar⟩).root.WellFormed := by
    simp [emptyWord, Node.WellFormed, Node.Everywhere, Node.EverywhereList,
      Node.InOrder, Node.leaf, Placed.stop]
  have undamaged : (emptyWord ⟨0, grammar⟩).root.Undamaged := by
    simp [emptyWord, Node.Undamaged, Node.Everywhere, Node.EverywhereList,
      Node.leaf]
  have small : ∀ place node, (emptyWord ⟨0, grammar⟩).root.Below place node →
      place + node.length + node.lookahead < offsetLimit := by
    intro place node below
    obtain ⟨placed, member, here⟩ := Node.below_iff.mp below
    cases List.mem_singleton.mp member
    obtain ⟨rfl, rfl⟩ | ⟨_, _, deeper⟩ := here
    · decide
    · obtain ⟨_, inner, _⟩ := Node.below_iff.mp deeper
      cases inner
  obtain ⟨parsed, _, found, _, _, _, sound, clean, _⟩ :=
    @Parser.reparse_wellFormed "words" declarations
      (Parser.ofGrammar ⟨0, grammar⟩ ⟨true, true⟩) accepted
      (emptyWord ⟨0, grammar⟩) wellFormed undamaged [] _ 2 2 rfl [97] _
      (tokenize_letter describes).1 rfl
      (.inr (by simp [emptyWord, Tree.bytes])) (fun _ => by decide) small 2
  exact ⟨⟨0, grammar⟩, _, parsed, accepted, rfl, found, sound, clean⟩

end Words

end Reparse
