import Reparse.Parse.ByValue
import Reparse.Proofs.Parse.Recovery
import Reparse.Proofs.Tree.Identity

/-!
# Derivations return what attempts by value return

Whatever a derivation does on its stack and with its memory, its outcome is the
one that an attempt by value has, as soon as the stamps of new nodes are
forgotten.  An attempt by value is a function, so two derivations over the same
tokens with the same nodes at hand cannot differ.
-/

namespace Reparse

/-- The match with all stamps forgotten that are not known. -/
def RuleMatch.recognized (known : Nat → Bool) (found : RuleMatch) : RuleMatch :=
  ⟨found.next, Node.restampList (Node.keepKnown known) found.nodes⟩

@[simp]
theorem RuleMatch.next_recognized (known : Nat → Bool) (found : RuleMatch) :
    (found.recognized known).next = found.next := rfl

theorem RuleMatch.recognized_followedBy (known : Nat → Bool)
    (first : RuleMatch) (outcome : Option RuleMatch) :
    (first.recognized known).followedBy
        (outcome.map (RuleMatch.recognized known)) =
      (first.followedBy outcome).map (RuleMatch.recognized known) := by
  cases outcome with
  | none => rfl
  | some rest =>
      simp only [followedBy, Option.map_some, RuleMatch.recognized,
        Node.restampList_append]

namespace Setting

/-- What the edited tree has at hand. -/
def stock (setting : Setting) (known : Nat → Bool) : Stock where
  leaf token :=
    match setting.findReusable? token.symbol token.span.start with
    | none => (TokenList.leafOf token).item
    | some node =>
        if node.length = token.span.length then node.recognized known
        else (TokenList.leafOf token).item
  match? symbol position :=
    match setting.reusable? symbol position with
    | some (_, .matched next examined (some placed)) =>
        some (⟨next, [⟨placed.offset, placed.item.recognized known⟩]⟩, examined)
    | _ => none

/-- Without an edited tree nothing is at hand. -/
theorem stock_eq_empty {setting : Setting} {known : Nat → Bool}
    (nothing : ∀ symbol start, setting.findReusable? symbol start = none) :
    setting.stock known = Stock.empty := by
  have refused : ∀ symbol position,
      setting.reusable? symbol position = none := by
    intro symbol position
    rw [Option.eq_none_iff_forall_not_mem]
    rintro ⟨node, outcome⟩ offered
    obtain ⟨_, _, _, found, _⟩ := reusable?_eq_some offered
    rw [nothing] at found
    cases found
  simp only [stock, Stock.empty, nothing, refused]

section

variable {setting : Setting} {supply : Nat} {known : Nat → Bool}
  (older : ∀ stamp, known stamp = true → stamp < supply)

include older

theorem keepKnown_of_le {stamp : Nat} (new : supply ≤ stamp) :
    Node.keepKnown known stamp = 0 := by
  rw [Node.keepKnown, if_neg]
  intro isKnown
  exact absurd new (Nat.not_le_of_lt (older stamp isKnown))

theorem LeafFor.recognized {token : Token} {node : Node}
    (leaf : setting.LeafFor supply token node) :
    node.recognized known = (setting.stock known).leaf token := by
  cases leaf with
  | taken found sameLength => simp only [stock, found, sameLength, if_true]
  | @built stamp new otherLength =>
      have forgotten : (Node.leaf stamp token.symbol token.span.length
          (token.examinedEnd - token.span.stop)).recognized known =
            (TokenList.leafOf token).item := by
        rw [Node.recognized, Node.leaf, Node.restamp,
          keepKnown_of_le older new]
        rfl
      rw [forgotten]
      simp only [stock]
      split
      · rfl
      · next other found => rw [if_neg (otherLength other found)]

theorem recognized_encloseAs {symbol : Symbol} {first next examined : Nat}
    {stamp : Nat} {nodes : List (Placed Node)} (new : supply ≤ stamp) :
    Node.restampList (Node.keepKnown known)
        [setting.tokens.encloseAs stamp symbol first next examined nodes] =
      [setting.tokens.enclose symbol first next examined
        (Node.restampList (Node.keepKnown known) nodes)] := by
  simp only [TokenList.encloseAs, TokenList.enclose, Node.restampList,
    Node.restamp, keepKnown_of_le older new, Node.restampList_eq_map,
    List.map_map]
  rfl

omit older in
/-- A visible symbol with nothing at hand is attempted by its rule. -/
theorem attempt_refused {symbol : Symbol} {rule : Rule Symbol} {position : Nat}
    (notTerminal : setting.grammar.isTerminal symbol = false)
    (ruled : setting.grammar.rule? symbol = some rule)
    (visible : setting.grammar.isHidden symbol = false)
    (refused : setting.reusable? symbol position = none) :
    setting.grammar.attempt setting.tokens (setting.stock known)
        (.symbol symbol) position =
      (do
        match ← setting.grammar.attempt setting.tokens (setting.stock known)
          rule position with
        | (none, examined) => return (none, examined)
        | (some found, examined) =>
            if found.next = position then
              return (some ⟨position, []⟩, examined)
            else
              let node := setting.tokens.enclose symbol position found.next
                examined found.nodes
              return (some ⟨found.next, [node]⟩, examined)) := by
  have notOffered : (setting.stock known).match? symbol position = none := by
    simp only [stock, refused]
  have notHidden : ¬setting.grammar.isHidden symbol = true := by
    rw [visible]
    exact Bool.false_ne_true
  rw [Grammar.attempt, Grammar.attemptSymbol, notTerminal, ruled]
  refine (if_neg notHidden).trans ?_
  split
  · next found examined offered =>
      rw [notOffered] at offered
      cases offered
  · rfl

/-- A derivation has the outcome of the attempt by value. -/
theorem Runs.attempt_eq {rule : Rule Symbol} {position examined : Nat}
    {outcome : Option RuleMatch}
    (runs : setting.Runs supply rule position outcome examined) :
    setting.grammar.attempt setting.tokens (setting.stock known) rule position =
      some (outcome.map (RuleMatch.recognized known), examined) := by
  induction runs with
  | token isTerminal here same leaf =>
      rw [Grammar.attempt, Grammar.attemptSymbol, if_pos isTerminal, here]
      simp only [same, if_true, ← leaf.recognized older]
      rfl
  | @otherToken symbol position isTerminal other =>
      rw [Grammar.attempt, Grammar.attemptSymbol, if_pos isTerminal]
      split
      · rfl
      · next token here => rw [if_neg (other token here)]; rfl
  | noRule notTerminal noRule =>
      rw [Grammar.attempt, Grammar.attemptSymbol, notTerminal, noRule]
      rfl
  | hidden notTerminal known isHidden _ induction =>
      rw [Grammar.attempt, Grammar.attemptSymbol, notTerminal, known]
      simp only [isHidden, if_true, Bool.false_eq_true, if_false]
      exact induction
  | taken notTerminal known visible offered =>
      rw [Grammar.attempt, Grammar.attemptSymbol, notTerminal, known]
      simp only [visible, stock, offered, Bool.false_eq_true, if_false]
      rfl
  | visibleFail notTerminal known visible refused _ induction =>
      rw [attempt_refused notTerminal known visible refused, induction]
      rfl
  | visibleEmpty notTerminal known visible refused _ induction =>
      rw [attempt_refused notTerminal known visible refused, induction]
      exact if_pos rfl
  | visible notTerminal known visible refused different new _ induction =>
      rw [attempt_refused notTerminal known visible refused, induction]
      refine (if_neg different).trans ?_
      simp only [Option.map_some, RuleMatch.recognized,
        recognized_encloseAs older new]
      rfl
  | seqNil =>
      rw [Grammar.attempt, Grammar.attemptSeq]
      rfl
  | seqFail _ induction =>
      rw [Grammar.attempt, Grammar.attemptSeq, induction]
      rfl
  | seqFailLater _ _ induction laterInduction =>
      rw [Grammar.attempt] at laterInduction
      rw [Grammar.attempt, Grammar.attemptSeq, induction]
      simp only [Option.map_some, Option.bind_eq_bind, Option.bind_some,
        RuleMatch.next_recognized, laterInduction]
      rfl
  | @seqCons item items first rest _ _ _ _ _ induction laterInduction =>
      rw [Grammar.attempt] at laterInduction
      rw [Grammar.attempt, Grammar.attemptSeq, induction]
      have behind := RuleMatch.recognized_followedBy known first (some rest)
      rw [Option.map_some] at behind
      simp only [Option.map_some, Option.bind_eq_bind, Option.bind_some,
        RuleMatch.next_recognized, laterInduction, behind]
      rfl
  | choiceNil =>
      rw [Grammar.attempt, Grammar.attemptChoice]
      rfl
  | choiceHead _ induction =>
      rw [Grammar.attempt, Grammar.attemptChoice, induction]
      rfl
  | choiceTail _ _ induction laterInduction =>
      rw [Grammar.attempt] at laterInduction
      rw [Grammar.attempt, Grammar.attemptChoice, induction]
      simp only [Option.map_none, Option.bind_eq_bind, Option.bind_some,
        laterInduction]
      rfl
  | starFail _ induction =>
      rw [Grammar.attempt, Grammar.attemptStar, induction]
      rfl
  | starEmpty _ induction =>
      rw [Grammar.attempt, Grammar.attemptStar, induction]
      exact if_pos rfl
  | @starStep item first rest _ _ _ different _ _ induction laterInduction =>
      rw [Grammar.attempt] at laterInduction
      rw [Grammar.attempt, Grammar.attemptStar, induction]
      refine (if_neg different).trans ?_
      have behind := RuleMatch.recognized_followedBy known first (some rest)
      rw [Option.map_some] at behind
      simp only [Option.map_some, Option.bind_eq_bind, Option.bind_some,
        RuleMatch.next_recognized, laterInduction, behind]
      rfl
  | optNone _ induction =>
      rw [Grammar.attempt, induction]
      rfl
  | optSome _ induction =>
      rw [Grammar.attempt, induction]
      rfl

theorem leaves_recognized {start : Nat} {tokens : List Token}
    {leaves : List (Placed Node)}
    (leavesWithin :
      List.Forall₂ (setting.LeafWithin supply start) tokens leaves) :
    Node.restampList (Node.keepKnown known) leaves =
      tokens.map fun token =>
        ⟨token.span.start - start, (setting.stock known).leaf token⟩ := by
  induction leavesWithin with
  | nil => rfl
  | cons leafWithin _ induction =>
      rw [Node.restampList, List.map_cons, induction, leafWithin.offset,
        ← leafWithin.leaf.recognized older]
      rfl

theorem ErrorsFor.errorsFrom_eq {first? : Option Nat} {stop : Nat}
    {errors : List (Placed Node)}
    (errorsFor : setting.ErrorsFor supply stop first? errors) :
    Grammar.errorsFrom setting.tokens (setting.stock known) first? stop =
      Node.restampList (Node.keepKnown known) errors := by
  cases errorsFor with
  | nothing => rfl
  | node found leavesFor new =>
      simp only [Grammar.errorsFrom, found, Node.restampList, Node.restamp,
        keepKnown_of_le older new, leaves_recognized older leavesFor]

theorem RootRuns.attemptItems_eq {item : Rule Symbol} {position : Nat}
    {first? : Option Nat} {nodes : List (Placed Node)}
    (rootRuns : setting.RootRuns supply item position first? nodes) :
    setting.grammar.attemptItems setting.tokens (setting.stock known) item
        position first? =
      some (Node.restampList (Node.keepKnown known) nodes) := by
  induction rootRuns with
  | done outside errorsFor =>
      rw [Grammar.attemptItems, if_neg (Nat.not_lt_of_le outside),
        errorsFor.errorsFrom_eq older]
      rfl
  | item inside moved runs errorsFor _ induction =>
      rw [Grammar.attemptItems, if_pos inside, runs.attempt_eq older]
      refine (if_pos moved).trans ?_
      simp only [RuleMatch.next_recognized, induction,
        errorsFor.errorsFrom_eq older, Node.restampList_append]
      rfl
  | @skip position examined first? outcome rest inside runs stuck _ induction =>
      rw [Grammar.attemptItems, if_pos inside, runs.attempt_eq older]
      cases outcome with
      | none => exact induction
      | some found =>
          have same := stuck found rfl
          refine (if_neg ?_).trans induction
          rw [RuleMatch.next_recognized, same]
          exact Nat.lt_irrefl _

end

end Setting

end Reparse
