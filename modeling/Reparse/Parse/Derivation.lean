import Std.Data.HashSet
import Reparse.Parse.Catalogue
import Reparse.Token.List

/-!
# Derivations

A derivation runs the rules of a grammar over a list of tokens.  A sequence
matches as a whole or not at all, a choice takes the first alternative that
matches, and a repetition goes on as long as its item consumes something.  Nodes
under construction lie on a scratch stack: what succeeds leaves its nodes on
top, and what fails leaves the stack as it was.

Beside the stack the derivation keeps the furthest byte that any decision
depended on.  Every node remembers how far past its end that was, which is what
tells later whether an edit can have changed its derivation.

A rule invoked at a token may invoke other rules at the same token only if their
rank is smaller, so the invocations at one token come to an end; once a token is
consumed every rank is allowed again.
-/

namespace Reparse

structure Setting where
  grammar : Grammar
  tokens : TokenList
  /-- The root of the edited tree whose undamaged nodes may be taken over. -/
  previous : Option Node
  catalogue : Catalogue previous
  memoize : Bool

/-- What became of a visible rule at a token. -/
inductive Outcome where
  | failed (examined : Nat)
  /-- The index of the next token, and the node unless no token was consumed. -/
  | matched (next examined : Nat) (node : Option (Placed Node))

structure DerivationState where
  supply : Nat
  /-- The nodes that wait for their parents, at their places in the text. -/
  scratch : Array (Placed Node)
  memo : Std.HashMap (Symbol × Nat) Outcome
  /-- Behind the furthest byte examined for the innermost node under
  construction. -/
  examined : Nat
  /-- The stamps of the nodes taken over. -/
  reused : Std.HashSet Nat

namespace DerivationState

def initial (supply : Nat) : DerivationState := ⟨supply, #[], ∅, 0, ∅⟩

/-- Records that the bytes up to `stop` were examined. -/
def examine (state : DerivationState) (stop : Nat) : DerivationState :=
  { state with examined := max state.examined stop }

def push (state : DerivationState) (placed : Placed Node) : DerivationState :=
  { state with scratch := state.scratch.push placed }

/-- Takes nodes off the stack until `mark` are left. -/
def truncate (state : DerivationState) (mark : Nat) : DerivationState :=
  { state with scratch := state.scratch.shrink mark }

/-- The nodes above `mark`, the lowest first. -/
def above (state : DerivationState) (mark : Nat) : List (Placed Node) :=
  (state.scratch.extract mark state.scratch.size).toList

def reuse (state : DerivationState) (node : Node) : DerivationState :=
  { state with reused := state.reused.insert node.stamp }

def remember (state : DerivationState) (memoize : Bool) (symbol : Symbol)
    (position : Nat) (outcome : Outcome) : DerivationState :=
  if memoize then
    { state with memo := state.memo.insert (symbol, position) outcome }
  else state

def remembered? (state : DerivationState) (memoize : Bool) (symbol : Symbol)
    (position : Nat) : Option Outcome :=
  if memoize then state.memo[(symbol, position)]? else none

/-- Acts on an outcome: what it examined counts, and its node goes on the
stack. -/
def apply (state : DerivationState) : Outcome → Option Nat × DerivationState
  | .failed examined => (none, state.examine examined)
  | .matched next examined none => (some next, state.examine examined)
  | .matched next examined (some placed) =>
      (some next, (state.examine examined).push placed)

def newLeaf (state : DerivationState) (token : Token) :
    Node × DerivationState :=
  (Node.leaf state.supply token.symbol token.span.length
    (token.examinedEnd - token.span.stop),
    { state with supply := state.supply + 1 })

end DerivationState

namespace Setting

/-- How far ranks go, so that every rule may be invoked. -/
def anyRank (setting : Setting) : Nat := setting.grammar.symbolCount

def findReusable? (setting : Setting) (symbol : Symbol) (start : Nat) :
    Option Node :=
  setting.catalogue.find? symbol start

theorem findReusable?_eq (setting : Setting) (symbol : Symbol) (start : Nat) :
    setting.findReusable? symbol start =
      setting.previous.bind fun root => (root.search symbol start).found :=
  setting.catalogue.find?_eq_search symbol start

/-- The leaf of a token, taken over from the edited tree if it has one of the
same length. -/
def leaf (setting : Setting) (token : Token) (state : DerivationState) :
    Node × DerivationState :=
  match setting.findReusable? token.symbol token.span.start with
  | some node =>
      if node.length = token.span.length then (node, state.reuse node)
      else state.newLeaf token
  | none => state.newLeaf token

def terminal (setting : Setting) (symbol : Symbol) (position : Nat)
    (state : DerivationState) : Option Nat × DerivationState :=
  let state := state.examine (setting.tokens.examinedEnd position)
  match setting.tokens.get? position with
  | none => (none, state)
  | some token =>
      if token.symbol = symbol then
        let (node, state) := setting.leaf token state
        (some (position + 1), state.push ⟨token.span.start, node⟩)
      else (none, state)

/-- A node of the edited tree that stands for the rule at a token, provided that
one of the new tokens ends where the node does. -/
def reusable? (setting : Setting) (symbol : Symbol) (position : Nat) :
    Option (Node × Outcome) := do
  let token ← setting.tokens.get? position
  let start := token.span.start
  let node ← setting.findReusable? symbol start
  let stop := start + node.length
  let next ← setting.tokens.indexAfter? stop
  return (node, .matched next (stop + node.lookahead) (some ⟨start, node⟩))

def placeWithin (start : Nat) (nodes : List (Placed Node)) :
    List (Placed Node) :=
  nodes.map fun placed => ⟨placed.offset - start, placed.item⟩

/-- Ends the run of a visible rule that began at token `position` with `mark`
nodes on the stack: the nodes above the mark become the children of a new node.
`outer` is what had been examined for the node around it. -/
def close (setting : Setting) (symbol : Symbol) (position mark outer : Nat)
    (result : Option Nat) (state : DerivationState) :
    Outcome × DerivationState :=
  let examined := state.examined
  let state := { state with examined := outer }
  match result with
  | none => (.failed examined, state)
  | some next =>
      if next = position then (.matched next examined none, state.truncate mark)
      else
        let start := setting.tokens.startOf position
        let stop := setting.tokens.stopBefore next
        let node : Node :=
          { stamp := state.supply
            symbol := symbol
            length := stop - start
            lookahead := examined - stop
            damaged := false
            children := placeWithin start (state.above mark) }
        (.matched next examined (some ⟨start, node⟩),
          { state.truncate mark with supply := state.supply + 1 })

mutual

/-- Runs a rule at a token.  The outcome is the index of the next token, if the
rule matches. -/
def eval (setting : Setting) (rule : Rule Symbol) (position bound : Nat)
    (state : DerivationState) : Option Nat × DerivationState :=
  match rule with
  | .symbol name => invoke setting name position bound state
  | .seq items => evalSeq setting items position bound state.scratch.size state
  | .choice alternatives => evalChoice setting alternatives position bound state
  | .star item => evalStar setting item position bound state.scratch.size state
  | .opt item =>
      match eval setting item position bound state with
      | (none, state) => (some position, state)
      | (some next, state) => (some next, state)
termination_by (setting.tokens.size - position, bound, 2 * sizeOf rule)

/-- Runs the items of a sequence one after the other.  When one fails, what the
sequence has put on the stack above `mark` is taken off again. -/
def evalSeq (setting : Setting) (items : List (Rule Symbol))
    (position bound mark : Nat) (state : DerivationState) :
    Option Nat × DerivationState :=
  match items with
  | [] => (some position, state)
  | item :: rest =>
      match eval setting item position bound state with
      | (none, state) => (none, state.truncate mark)
      | (some next, state) =>
          if _ : position < next ∧ next ≤ setting.tokens.size then
            evalSeq setting rest next setting.anyRank mark state
          else evalSeq setting rest position bound mark state
termination_by (setting.tokens.size - position, bound, 2 * sizeOf items + 1)

def evalChoice (setting : Setting) (alternatives : List (Rule Symbol))
    (position bound : Nat) (state : DerivationState) :
    Option Nat × DerivationState :=
  match alternatives with
  | [] => (none, state)
  | alternative :: rest =>
      match eval setting alternative position bound state with
      | (none, state) => evalChoice setting rest position bound state
      | (some next, state) => (some next, state)
termination_by (setting.tokens.size - position, bound,
  2 * sizeOf alternatives + 1)

/-- Runs an item until it fails or consumes nothing.  The last round began with
`mark` nodes on the stack. -/
def evalStar (setting : Setting) (item : Rule Symbol)
    (position bound mark : Nat) (state : DerivationState) :
    Option Nat × DerivationState :=
  match eval setting item position bound state with
  | (none, state) => (some position, state)
  | (some next, state) =>
      if _ : position < next ∧ next ≤ setting.tokens.size then
        evalStar setting item next setting.anyRank state.scratch.size state
      else (some position, state.truncate mark)
termination_by (setting.tokens.size - position, bound, 2 * sizeOf item + 1)

/-- Runs what a symbol stands for.  A hidden rule is run in place; the outcome
of a visible one is remembered, taken over from the edited tree, or derived. -/
def invoke (setting : Setting) (symbol : Symbol) (position bound : Nat)
    (state : DerivationState) : Option Nat × DerivationState :=
  if setting.grammar.isTerminal symbol then
    setting.terminal symbol position state
  else
    match setting.grammar.rule? symbol with
    | none => (none, state)
    | some rule =>
        if _ : setting.grammar.rank symbol < bound then
          if setting.grammar.isHidden symbol then
            eval setting rule position (setting.grammar.rank symbol) state
          else
            match state.remembered? setting.memoize symbol position with
            | some outcome => state.apply outcome
            | none =>
                match setting.reusable? symbol position with
                | some (node, outcome) =>
                    ((state.reuse node).remember setting.memoize symbol
                      position outcome).apply outcome
                | none =>
                    derive setting symbol rule position
                      (setting.grammar.rank symbol) state.scratch.size
                      state.examined state
        else (none, state)
termination_by (setting.tokens.size - position, bound, 0)

/-- Runs the rule of a visible symbol and builds its node.  At the beginning
there are `mark` nodes on the stack, and `outer` has been examined for the node
around it. -/
def derive (setting : Setting) (symbol : Symbol) (rule : Rule Symbol)
    (position bound mark outer : Nat) (state : DerivationState) :
    Option Nat × DerivationState :=
  match eval setting rule position bound { state with examined := 0 } with
  | (result, derived) =>
      let (outcome, closed) :=
        setting.close symbol position mark outer result derived
      (closed.remember setting.memoize symbol position outcome).apply outcome
termination_by (setting.tokens.size - position, bound, 2 * sizeOf rule + 1)

end

def errorLeaves (setting : Setting) (start : Nat) :
    List Token → DerivationState → List (Placed Node) × DerivationState
  | [], state => ([], state)
  | token :: tokens, state =>
      let (node, state) := setting.leaf token state
      let (nodes, state) := errorLeaves setting start tokens state
      (⟨token.span.start - start, node⟩ :: nodes, state)

/-- Wraps the tokens `first..stop` into an error node and puts it into the stack
above the lowest `mark` nodes. -/
def insertError (setting : Setting) (mark first stop : Nat)
    (state : DerivationState) : DerivationState :=
  let tokens := setting.tokens.tokens.extract first stop
  match tokens.back? with
  | none => state
  | some last =>
      let start := setting.tokens.startOf first
      let (children, state) := setting.errorLeaves start tokens.toList state
      let node : Node :=
        { stamp := state.supply
          symbol := Symbol.error
          length := last.span.stop - start
          lookahead := last.examinedEnd - last.span.stop
          damaged := false
          children := children }
      { state with
        supply := state.supply + 1
        scratch := state.scratch.insertIdxIfInBounds mark ⟨start, node⟩ }

def flushErrors (setting : Setting) (mark : Nat) (first? : Option Nat)
    (stop : Nat) (state : DerivationState) : DerivationState :=
  match first? with
  | none => state
  | some first => setting.insertError mark first stop state

/-- Matches the item again and again.  A token at which it cannot match is set
aside, and a run of such tokens becomes one error node.  At the beginning there
are `mark` nodes on the stack, and the tokens from `first?` up to the position
are set aside. -/
def deriveItems (setting : Setting) (item : Rule Symbol) (position : Nat)
    (first? : Option Nat) (mark : Nat) (state : DerivationState) :
    DerivationState :=
  if _ : position < setting.tokens.size then
    match setting.eval item position setting.anyRank state with
    | (some next, state) =>
        if _ : position < next then
          let state := setting.flushErrors mark first? position state
          setting.deriveItems item next none state.scratch.size state
        else
          setting.deriveItems item (position + 1)
            (some (first?.getD position)) mark (state.truncate mark)
    | (none, state) =>
        setting.deriveItems item (position + 1) (some (first?.getD position))
          mark (state.truncate mark)
  else setting.flushErrors mark first? setting.tokens.size state
termination_by setting.tokens.size - position

/-- The root of the derived tree, and the state in which its children were
found. -/
def deriveRoot (setting : Setting) (symbol : Symbol) (item : Rule Symbol)
    (supply : Nat) : Node × DerivationState :=
  let state :=
    setting.deriveItems item 0 none 0 (DerivationState.initial supply)
  let length := setting.tokens.sourceLength
  ({ stamp := state.supply
     symbol := symbol
     length := length
     lookahead := setting.tokens.endExamined - length
     damaged := false
     children := state.scratch.toList },
    { state with supply := state.supply + 1 })

end Setting

end Reparse
