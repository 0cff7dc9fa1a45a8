import Reparse.Parse.Matching

/-!
# Attempts by value

The evaluator of parsing expressions without a stack, a memory or a state: an
attempt of a rule at a token returns its nodes.  A sequence matches as a whole
or not at all, a choice commits to the first alternative that matches, and a
repetition takes as many items as it can and stops at one that consumes nothing.

What is at hand of another tree is a parameter.  With nothing at hand this is
the meaning of a grammar.
-/

namespace Reparse

/-- What is at hand: the leaves of tokens, and matches of symbols with the
furthest byte they depend on. -/
structure Stock where
  leaf : Token → Node
  match? : Symbol → Nat → Option (RuleMatch × Nat)

def Stock.empty : Stock where
  leaf token := (TokenList.leafOf token).item
  match? _ _ := none

/-- What follows a match, put behind it. -/
def RuleMatch.followedBy (first : RuleMatch) (outcome : Option RuleMatch) :
    Option RuleMatch :=
  outcome.map fun rest => ⟨rest.next, first.nodes ++ rest.nodes⟩

namespace Grammar

mutual

/-- Attempts a rule at a token.  There is no outcome if the attempt does not
come to an end. -/
def attempt (grammar : Grammar) (tokens : TokenList) (stock : Stock)
    (rule : Rule Symbol) (position : Nat) : Option (Option RuleMatch × Nat) :=
  match rule with
  | .symbol symbol => grammar |>.attemptSymbol tokens stock symbol position
  | .seq items => grammar |>.attemptSeq tokens stock items position
  | .choice alternatives =>
      grammar |>.attemptChoice tokens stock alternatives position
  | .star item => grammar |>.attemptStar tokens stock item position
  | .opt item => do
      match ← grammar |>.attempt tokens stock item position with
      | (none, examined) => return (some ⟨position, []⟩, examined)
      | (some found, examined) => return (some found, examined)
partial_fixpoint

def attemptSeq (grammar : Grammar) (tokens : TokenList) (stock : Stock)
    (items : List (Rule Symbol)) (position : Nat) :
    Option (Option RuleMatch × Nat) :=
  match items with
  | [] => some (some ⟨position, []⟩, 0)
  | item :: rest => do
      match ← grammar |>.attempt tokens stock item position with
      | (none, examined) => return (none, examined)
      | (some first, examined) =>
          let (outcome, later) ←
            grammar |>.attemptSeq tokens stock rest first.next
          return (first.followedBy outcome, max examined later)
partial_fixpoint

def attemptChoice (grammar : Grammar) (tokens : TokenList) (stock : Stock)
    (alternatives : List (Rule Symbol)) (position : Nat) :
    Option (Option RuleMatch × Nat) :=
  match alternatives with
  | [] => some (none, 0)
  | alternative :: rest => do
      match ← grammar |>.attempt tokens stock alternative position with
      | (some found, examined) => return (some found, examined)
      | (none, examined) =>
          let (outcome, later) ←
            grammar |>.attemptChoice tokens stock rest position
          return (outcome, max examined later)
partial_fixpoint

def attemptStar (grammar : Grammar) (tokens : TokenList) (stock : Stock)
    (item : Rule Symbol) (position : Nat) :
    Option (Option RuleMatch × Nat) := do
  match ← grammar |>.attempt tokens stock item position with
  | (none, examined) => return (some ⟨position, []⟩, examined)
  | (some first, examined) =>
      if first.next = position then return (some ⟨position, []⟩, examined)
      else
        let (outcome, later) ←
          grammar |>.attemptStar tokens stock item first.next
        return (first.followedBy outcome, max examined later)
partial_fixpoint

/-- What a symbol stands for.  A visible symbol leaves one node, or none if it
consumes nothing. -/
def attemptSymbol (grammar : Grammar) (tokens : TokenList) (stock : Stock)
    (symbol : Symbol) (position : Nat) : Option (Option RuleMatch × Nat) :=
  if grammar.isTerminal symbol then
    match tokens.get? position with
    | none => some (none, tokens.examinedEnd position)
    | some token =>
        if token.symbol = symbol then
          some (some ⟨position + 1, [⟨token.span.start, stock.leaf token⟩]⟩,
            token.examinedEnd)
        else some (none, tokens.examinedEnd position)
  else
    match grammar.rule? symbol with
    | none => some (none, 0)
    | some rule =>
        if grammar.isHidden symbol then
          grammar |>.attempt tokens stock rule position
        else
          match stock.match? symbol position with
          | some (found, examined) => some (some found, examined)
          | none => do
              match ← grammar |>.attempt tokens stock rule position with
              | (none, examined) => return (none, examined)
              | (some found, examined) =>
                  if found.next = position then
                    return (some ⟨position, []⟩, examined)
                  else
                    let node :=
                      tokens.enclose symbol position found.next examined
                        found.nodes
                    return (some ⟨found.next, [node]⟩, examined)
partial_fixpoint

end

/-- The error node over the tokens from `first?` on, if there are any. -/
def errorsFrom (tokens : TokenList) (stock : Stock) (first? : Option Nat)
    (stop : Nat) : List (Placed Node) :=
  match first? with
  | none => []
  | some first =>
      let members := (tokens.tokens.extract first stop).toList
      match members.getLast? with
      | none => []
      | some last =>
          let start := tokens.startOf first
          [⟨start,
            { stamp := 0
              symbol := Symbol.error
              length := last.span.stop - start
              lookahead := last.examinedEnd - last.span.stop
              damaged := false
              children := members.map fun token =>
                ⟨token.span.start - start, stock.leaf token⟩ }⟩]

/-- The children of a root: what the attempts of its item leave, with an error
node over each run of tokens at which it does not match or consumes nothing.
Those from `first?` on are waiting. -/
def attemptItems (grammar : Grammar) (tokens : TokenList) (stock : Stock)
    (item : Rule Symbol) (position : Nat) (first? : Option Nat) :
    Option (List (Placed Node)) := do
  if position < tokens.size then
    match ← grammar.attempt tokens stock item position with
    | (none, _) =>
        grammar |>.attemptItems tokens stock item (position + 1)
          (some (first?.getD position))
    | (some found, _) =>
        if position < found.next then
          let rest ← grammar |>.attemptItems tokens stock item found.next none
          return errorsFrom tokens stock first? position ++
            (found.nodes ++ rest)
        else
          grammar |>.attemptItems tokens stock item (position + 1)
            (some (first?.getD position))
  else return errorsFrom tokens stock first? tokens.size
partial_fixpoint

end Grammar

end Reparse
