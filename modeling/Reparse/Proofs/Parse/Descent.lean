import Reparse.Proofs.Parse.Composition

/-!
# Ranks fall along first children

A node and its first child begin at the same place.  The symbol of the child was
called before a token was consumed, so its rank is smaller than that of the
node, unless it is a token.  In what is derived no node therefore has another
one of its own symbol below it at the same place.
-/

namespace Reparse

/-- A token has nothing below it, and what begins where the node does is a token
or has a symbol of smaller rank. -/
structure Node.Descends (grammar : Grammar) (node : Node) : Prop where
  childless : grammar.isTerminal node.symbol = true → node.children = []
  first : ∀ child ∈ node.children, child.offset = 0 →
    grammar.isTerminal child.item.symbol = true ∨
      grammar.rank child.item.symbol < grammar.rank node.symbol

namespace Node

section

variable {grammar : Grammar} {root node : Node}
  (descends : root.Everywhere (Descends grammar)) (below : root.Below 0 node)

include descends below

theorem rank_lt_of_below :
    grammar.isTerminal node.symbol = true ∨
      grammar.rank node.symbol < grammar.rank root.symbol := by
  generalize here : 0 = offset at below
  induction below with
  | child member =>
      exact (everywhere_iff.mp descends).1.first _ member here.symm
  | @deeper root node placed offset member deeper induction =>
      obtain ⟨top, children⟩ := everywhere_iff.mp descends
      rcases top.first placed member (by omega) with isTerminal | smaller
      -- There is nothing below a token.
      · have none :=
          (everywhere_iff.mp (children placed member)).1.childless isTerminal
        obtain ⟨inner, memberInner, _⟩ := below_iff.mp deeper
        rw [none] at memberInner
        cases memberInner
      · rcases induction (children placed member) (by omega) with
          isTerminal | smallerInner
        · exact .inl isTerminal
        · exact .inr (Nat.lt_trans smallerInner smaller)

theorem symbol_ne_of_below : node.symbol ≠ root.symbol := by
  intro same
  rcases rank_lt_of_below descends below with isTerminal | smaller
  · rw [same] at isTerminal
    have none := (everywhere_iff.mp descends).1.childless isTerminal
    obtain ⟨inner, member, _⟩ := below_iff.mp below
    rw [none] at member
    cases member
  · rw [same] at smaller
    exact Nat.lt_irrefl _ smaller

end

end Node

namespace Setting

section

variable {setting : Setting} {supply : Nat} {text : List UInt8}
  (read : setting.grammar.tokenize text = .ok setting.tokens)

include read

/-- What is matched behind a token begins behind it. -/
theorem Runs.starts_later {rule : Rule Symbol} {position middle examined : Nat}
    {found : RuleMatch}
    (runs : setting.Runs supply rule middle (some found) examined)
    (moved : position < middle) :
    ∀ placed ∈ found.nodes,
      setting.tokens.startOf position < placed.offset := by
  intro placed member
  rcases runs.advance read rfl with ⟨_, none, _⟩ | ⟨further, within⟩
  · rw [none] at member
    cases member
  · have inside := Nat.lt_of_lt_of_le further within
    have after := (runs.between read rfl placed member).after
    have starts :=
      Grammar.startOf_lt_edge read moved (Nat.le_of_lt inside)
    have edge := Grammar.edge_le_startOf read inside
    exact Nat.lt_of_lt_of_le starts (Nat.le_trans edge after)

variable (regular : setting.grammar.Regular)

include regular

/-- What a rule leaves at the token where it is run is a token, or was called
with one of the ranks allowed there. -/
theorem Runs.rank_lt {rule : Rule Symbol} {position examined bound : Nat}
    {outcome : Option RuleMatch}
    (runs : setting.Runs supply rule position outcome examined)
    (admits : setting.Admits bound rule) {found : RuleMatch}
    (matched : outcome = some found) :
    ∀ placed ∈ found.nodes,
      placed.offset = setting.tokens.startOf position →
        setting.grammar.isTerminal placed.item.symbol = true ∨
          setting.grammar.rank placed.item.symbol < bound := by
  have ranked : ∀ {called : Symbol} {rule : Rule Symbol} {bound : Nat},
      setting.grammar.rule? called = some rule →
      setting.Admits bound (.symbol called) →
        setting.grammar.rank called < bound := by
    intro called rule bound known admits
    exact admits called (.symbol (Option.isSome_iff_exists.mpr ⟨rule, known⟩))
  induction runs generalizing found bound with
  | token isTerminal _ same leaf =>
      cases matched
      refine List.forall_mem_singleton.mpr fun _ => .inl ?_
      rw [leaf.symbol_eq, same]
      exact isTerminal
  | otherToken | noRule | visibleFail | seqFail | seqFailLater | choiceNil =>
      cases matched
  | hidden _ known _ _ induction =>
      intro placed member starts
      refine (induction (admits_rule regular known) matched placed member
        starts).imp_right fun smaller => ?_
      exact Nat.lt_trans smaller (ranked known admits)
  | taken _ known _ offered =>
      cases matched
      obtain ⟨_, _, found, rfl, _⟩ := edge_of_reusable? read offered
      refine List.forall_mem_singleton.mpr fun _ => .inr ?_
      obtain ⟨_, _, _, symbol, _, _⟩ := below_of_findReusable? found
      rw [symbol]
      exact ranked known admits
  | visibleEmpty | seqNil | starFail | starEmpty | optNone =>
      cases matched
      exact List.forall_mem_nil _
  | visible _ known =>
      cases matched
      exact List.forall_mem_singleton.mpr fun _ => .inr (ranked known admits)
  | @seqCons item items first rest position _ _ runsFirst runsRest
      firstInduction restInduction =>
      cases matched
      refine List.forall_mem_append.mpr
        ⟨firstInduction admits.first rfl, fun placed member starts => ?_⟩
      -- The rest begins at the token only behind an item that is nullable.
      rcases runsFirst.advance read rfl with
        ⟨same, _, nullable⟩ | ⟨moved, _⟩
      · rw [← same] at starts
        exact restInduction (admits.rest nullable) rfl placed member starts
      · have later := runsRest.starts_later read moved placed member
        exact absurd starts (Nat.ne_of_gt later)
  | choiceHead _ induction =>
      cases matched
      exact induction
        (fun called call => admits called (.choice List.mem_cons_self call)) rfl
  | choiceTail _ _ _ induction => exact induction admits.tail matched
  | @starStep item first rest position _ _ different runsFirst runsRest
      firstInduction _ =>
      cases matched
      have moved : position < first.next :=
        ((runsFirst.advance read rfl).resolve_left
          fun stuck => different stuck.1).1
      refine List.forall_mem_append.mpr ⟨firstInduction
        (fun called call => admits called (.star call)) rfl,
        fun placed member starts => ?_⟩
      have later := runsRest.starts_later read moved placed member
      exact absurd starts (Nat.ne_of_gt later)
  | optSome _ induction =>
      cases matched
      exact induction (fun called call => admits called (.opt call)) rfl

theorem upholds_descends
    (offered : ∀ {symbol : Symbol} {start : Nat} {node : Node},
      setting.findReusable? symbol start = some node →
        node.Everywhere (Node.Descends setting.grammar)) :
    setting.Upholds supply fun _ node => node.Descends setting.grammar := by
  constructor
  case offered =>
    exact fun found => Node.throughout_of_everywhere (offered found) _
  case leaf => exact fun _ _ => ⟨fun _ => rfl, List.forall_mem_nil _⟩
  case enclosed =>
    intro symbol rule position next examined stamp nodes notTerminal known _
      moved inside runs
    constructor
    · intro isTerminal
      rw [TokenList.encloseAs, notTerminal] at isTerminal
      cases isTerminal
    · intro child member starts
      obtain ⟨placed, memberBefore, rfl⟩ := List.mem_map.mp member
      have after := (runs.between read rfl placed memberBefore).after
      refine runs.rank_lt read regular (admits_rule regular known) rfl placed
        memberBefore ?_
      exact Nat.le_antisymm (Nat.le_of_sub_eq_zero starts) after
  case unexpected =>
    intro first stop placed within errorsFor
    cases errorsFor with
    | node found leavesFor _ =>
        constructor
        · intro isTerminal
          cases isTerminal
        · intro leaf member _
          obtain ⟨token, memberToken, leafWithin⟩ :=
            exists_of_forall₂_right leavesFor member
          obtain ⟨index, _, _, here⟩ := mem_extract memberToken
          rw [leafWithin.leaf.symbol_eq]
          exact .inl (isTerminal_of_get? regular read here)

end

end Setting

end Reparse
