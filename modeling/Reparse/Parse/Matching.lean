import Reparse.Token.List
import Reparse.Tree.Shape

/-!
# Matching by value

What it means for a rule to match at a token, said without stack, memory and
ranks: every match is given with the nodes it leaves, and every outcome with the
furthest byte it depended on.  The nodes carry no identity.
-/

namespace Reparse

/-- A match: the index of the next token and the nodes, at their places in the
text. -/
structure RuleMatch where
  next : Nat
  nodes : List (Placed Node)

namespace TokenList

def leafOf (token : Token) : Placed Node :=
  ⟨token.span.start,
    Node.leaf 0 token.symbol token.span.length
      (token.examinedEnd - token.span.stop)⟩

/-- The node of a symbol over the tokens `first..next`, at its place in the
text, for a derivation that examined the bytes up to `examined`. -/
def enclose (list : TokenList) (symbol : Symbol) (first next examined : Nat)
    (nodes : List (Placed Node)) : Placed Node :=
  let start := list.startOf first
  let stop := list.stopBefore next
  ⟨start,
    { stamp := 0
      symbol := symbol
      length := stop - start
      lookahead := examined - stop
      damaged := false
      children :=
        nodes.map fun placed => ⟨placed.offset - start, placed.item⟩ }⟩

end TokenList

/-- The rule, tried at a token, has this outcome and depends on the bytes up to
`examined`. -/
inductive Matches (grammar : Grammar) (tokens : TokenList) :
    Rule Symbol → Nat → Option RuleMatch → Nat → Prop where
  | token {symbol : Symbol} {position : Nat} {token : Token} :
      grammar.isTerminal symbol = true → tokens.get? position = some token →
      token.symbol = symbol →
      Matches grammar tokens (.symbol symbol) position
        (some ⟨position + 1, [TokenList.leafOf token]⟩) token.examinedEnd
  | otherToken {symbol : Symbol} {position : Nat} :
      grammar.isTerminal symbol = true →
      (∀ token, tokens.get? position = some token → token.symbol ≠ symbol) →
      Matches grammar tokens (.symbol symbol) position none
        (tokens.examinedEnd position)
  | noRule {symbol : Symbol} {position : Nat} :
      grammar.isTerminal symbol = false → grammar.rule? symbol = none →
      Matches grammar tokens (.symbol symbol) position none 0
  | hidden {symbol : Symbol} {rule : Rule Symbol} {position examined : Nat}
      {outcome : Option RuleMatch} :
      grammar.isTerminal symbol = false → grammar.rule? symbol = some rule →
      grammar.isHidden symbol = true →
      Matches grammar tokens rule position outcome examined →
      Matches grammar tokens (.symbol symbol) position outcome examined
  | visibleFail {symbol : Symbol} {rule : Rule Symbol}
      {position examined : Nat} :
      grammar.isTerminal symbol = false → grammar.rule? symbol = some rule →
      grammar.isHidden symbol = false →
      Matches grammar tokens rule position none examined →
      Matches grammar tokens (.symbol symbol) position none examined
  | visibleEmpty {symbol : Symbol} {rule : Rule Symbol}
      {position examined : Nat} {nodes : List (Placed Node)} :
      grammar.isTerminal symbol = false → grammar.rule? symbol = some rule →
      grammar.isHidden symbol = false →
      Matches grammar tokens rule position (some ⟨position, nodes⟩) examined →
      Matches grammar tokens (.symbol symbol) position
        (some ⟨position, []⟩) examined
  | visible {symbol : Symbol} {rule : Rule Symbol}
      {position next examined : Nat} {nodes : List (Placed Node)} :
      grammar.isTerminal symbol = false → grammar.rule? symbol = some rule →
      grammar.isHidden symbol = false → next ≠ position →
      Matches grammar tokens rule position (some ⟨next, nodes⟩) examined →
      Matches grammar tokens (.symbol symbol) position
        (some ⟨next,
          [tokens.enclose symbol position next examined nodes]⟩)
        examined
  | seqNil {position : Nat} :
      Matches grammar tokens (.seq []) position (some ⟨position, []⟩) 0
  | seqFail {item : Rule Symbol} {items : List (Rule Symbol)}
      {position examined : Nat} :
      Matches grammar tokens item position none examined →
      Matches grammar tokens (.seq (item :: items)) position none examined
  | seqFailLater {item : Rule Symbol} {items : List (Rule Symbol)}
      {first : RuleMatch} {position examined later : Nat} :
      Matches grammar tokens item position (some first) examined →
      Matches grammar tokens (.seq items) first.next none later →
      Matches grammar tokens (.seq (item :: items)) position none
        (max examined later)
  | seqCons {item : Rule Symbol} {items : List (Rule Symbol)}
      {first rest : RuleMatch} {position examined later : Nat} :
      Matches grammar tokens item position (some first) examined →
      Matches grammar tokens (.seq items) first.next (some rest) later →
      Matches grammar tokens (.seq (item :: items)) position
        (some ⟨rest.next, first.nodes ++ rest.nodes⟩) (max examined later)
  | choiceNil {position : Nat} :
      Matches grammar tokens (.choice []) position none 0
  | choiceHead {alternative : Rule Symbol} {alternatives : List (Rule Symbol)}
      {found : RuleMatch} {position examined : Nat} :
      Matches grammar tokens alternative position (some found) examined →
      Matches grammar tokens (.choice (alternative :: alternatives)) position
        (some found) examined
  | choiceTail {alternative : Rule Symbol} {alternatives : List (Rule Symbol)}
      {outcome : Option RuleMatch} {position examined later : Nat} :
      Matches grammar tokens alternative position none examined →
      Matches grammar tokens (.choice alternatives) position outcome later →
      Matches grammar tokens (.choice (alternative :: alternatives))
        position outcome (max examined later)
  | starFail {item : Rule Symbol} {position examined : Nat} :
      Matches grammar tokens item position none examined →
      Matches grammar tokens (.star item) position
        (some ⟨position, []⟩) examined
  | starEmpty {item : Rule Symbol} {position examined : Nat}
      {nodes : List (Placed Node)} :
      Matches grammar tokens item position (some ⟨position, nodes⟩) examined →
      Matches grammar tokens (.star item) position
        (some ⟨position, []⟩) examined
  | starStep {item : Rule Symbol} {first rest : RuleMatch}
      {position examined later : Nat} :
      first.next ≠ position →
      Matches grammar tokens item position (some first) examined →
      Matches grammar tokens (.star item) first.next (some rest) later →
      Matches grammar tokens (.star item) position
        (some ⟨rest.next, first.nodes ++ rest.nodes⟩) (max examined later)
  | optNone {item : Rule Symbol} {position examined : Nat} :
      Matches grammar tokens item position none examined →
      Matches grammar tokens (.opt item) position (some ⟨position, []⟩) examined
  | optSome {item : Rule Symbol} {found : RuleMatch} {position examined : Nat} :
      Matches grammar tokens item position (some found) examined →
      Matches grammar tokens (.opt item) position (some found) examined

/-- A part of the root: the nodes of one match of its item, or a run of
unexpected tokens. -/
inductive RootPart where
  | item (nodes : List (Placed Node))
  | unexpected (first stop : Nat)

namespace RootPart

/-- Puts the token at an index in front of the parts of what follows it.  A run
of unexpected tokens that begins right after it takes it in. -/
def consUnexpected (index : Nat) : List RootPart → List RootPart
  | .unexpected _ stop :: parts => .unexpected index stop :: parts
  | parts => .unexpected index (index + 1) :: parts

def errorNode? (tokens : TokenList) (first stop : Nat) : Option (Placed Node) :=
  let members := (tokens.tokens.extract first stop).toList
  members.getLast?.map fun last =>
    let start := tokens.startOf first
    ⟨start,
      { stamp := 0
        symbol := Symbol.error
        length := last.span.stop - start
        lookahead := last.examinedEnd - last.span.stop
        damaged := false
        children := members.map fun token =>
          ⟨token.span.start - start, (TokenList.leafOf token).item⟩ }⟩

def nodes (tokens : TokenList) : RootPart → List (Placed Node)
  | .item nodes => nodes
  | .unexpected first stop => (errorNode? tokens first stop).toList

end RootPart

/-- From a token on, the root consists of these parts. -/
inductive RootParts (grammar : Grammar) (tokens : TokenList)
    (item : Rule Symbol) : Nat → List RootPart → Prop where
  | done {position : Nat} :
      tokens.size ≤ position → RootParts grammar tokens item position []
  | item {position examined : Nat} {found : RuleMatch} {parts : List RootPart} :
      position < tokens.size → position < found.next →
      Matches grammar tokens item position (some found) examined →
      RootParts grammar tokens item found.next parts →
      RootParts grammar tokens item position (.item found.nodes :: parts)
  | failed {position examined : Nat} {parts : List RootPart} :
      position < tokens.size →
      Matches grammar tokens item position none examined →
      RootParts grammar tokens item (position + 1) parts →
      RootParts grammar tokens item position
        (RootPart.consUnexpected position parts)
  | nothing {position examined : Nat} {nodes : List (Placed Node)}
      {parts : List RootPart} :
      position < tokens.size →
      Matches grammar tokens item position (some ⟨position, nodes⟩) examined →
      RootParts grammar tokens item (position + 1) parts →
      RootParts grammar tokens item position
        (RootPart.consUnexpected position parts)

end Reparse
