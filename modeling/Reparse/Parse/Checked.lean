import Reparse.Parse.Recursion
import Reparse.Text.Offset
import Reparse.Tree.WellFormed

/-!
# Operations that check what they rely on

Offsets are words below `offsetLimit`, tokens and waiting nodes lie in arrays,
and a node is made of children that lie in order within it.  The operations of a
derivation rely on all of this without looking.  Here each of them looks, and
comes to nothing where a sum is no offset, a difference would be negative, an
index lies outside or children are out of order.
-/

namespace Reparse

namespace Node

/-- Decides `Node.InOrder` from the first child on. -/
def decideInOrder (limit : Nat) :
    (origin : Nat) → (children : List (Placed Node)) →
      Decidable (InOrder limit origin children)
  | origin, [] => inferInstanceAs (Decidable (origin ≤ limit))
  | origin, child :: rest =>
      have := decideInOrder limit child.stop rest
      inferInstanceAs
        (Decidable (origin ≤ child.offset ∧ InOrder limit child.stop rest))

instance (limit origin : Nat) (children : List (Placed Node)) :
    Decidable (InOrder limit origin children) :=
  decideInOrder limit origin children

def assemble? (stamp : Nat) (symbol : Symbol) (length lookahead : Nat)
    (children : List (Placed Node)) : Option Node :=
  if InOrder length 0 children then
    some ⟨stamp, symbol, length, lookahead, false, children⟩
  else none

end Node

namespace Setting

/-- `Setting.leaf` with the length of the token checked. -/
def leafChecked (setting : Setting) (token : Token) (state : DerivationState) :
    Option (Node × DerivationState) := do
  let length ← minus? token.span.stop token.span.start
  let fresh ←
    Node.assemble? state.supply token.symbol length
      (token.examinedEnd - token.span.stop) []
  match setting.findReusable? token.symbol token.span.start with
  | some node =>
      if node.length = length then return (node, state.reuse node)
      else return (fresh, { state with supply := state.supply + 1 })
  | none => return (fresh, { state with supply := state.supply + 1 })

/-- `Setting.terminal` with a checked leaf. -/
def terminalChecked (setting : Setting) (symbol : Symbol) (position : Nat)
    (state : DerivationState) : Option (Option Nat × DerivationState) := do
  let state := state.examine (setting.tokens.examinedEnd position)
  match setting.tokens.get? position with
  | none => return (none, state)
  | some token =>
      if token.symbol = symbol then
        let (node, state) ← setting.leafChecked token state
        return (some (position + 1), state.push ⟨token.span.start, node⟩)
      else return (none, state)

/-- `Setting.reusable?` with both sums checked. -/
def reusableChecked (setting : Setting) (symbol : Symbol) (position : Nat) :
    Option (Option (Node × Outcome)) := do
  match setting.tokens.get? position with
  | none => return none
  | some token =>
      let start := token.span.start
      match setting.findReusable? symbol start with
      | none => return none
      | some node =>
          let stop ← plus? start node.length
          match setting.tokens.indexAfter? stop with
          | none => return none
          | some next =>
              let examined ← plus? stop node.lookahead
              return some (node, .matched next examined (some ⟨start, node⟩))

/-- `Setting.placeWithin` with every offset checked. -/
def placeWithinChecked (start : Nat) :
    List (Placed Node) → Option (List (Placed Node))
  | [] => some []
  | placed :: rest => do
      let offset ← minus? placed.offset start
      let later ← placeWithinChecked start rest
      return ⟨offset, placed.item⟩ :: later

/-- `Setting.close` with the indices of tokens and waiting nodes, the
differences and the new node checked. -/
def closeChecked (setting : Setting) (symbol : Symbol)
    (position mark outer : Nat) (result : Option Nat)
    (state : DerivationState) : Option (Outcome × DerivationState) := do
  let examined := state.examined
  let state := { state with examined := outer }
  match result with
  | none => return (.failed examined, state)
  | some next =>
      if next = position then
        return (.matched next examined none, state.truncate mark)
      else
        let first ← setting.tokens.get? position
        let before ← minus? next 1
        let last ← setting.tokens.get? before
        let start := first.span.start
        let stop := last.span.stop
        guard (mark ≤ state.scratch.size)
        let children ← placeWithinChecked start (state.above mark)
        let length ← minus? stop start
        let node ←
          Node.assemble? state.supply symbol length (examined - stop) children
        return (.matched next examined (some ⟨start, node⟩),
          { state.truncate mark with supply := state.supply + 1 })

/-- `Setting.errorLeaves` for the tokens at some indices, with indices, offsets
and leaves checked. -/
def errorLeavesChecked (setting : Setting) (start : Nat) :
    List Nat → DerivationState → Option (List (Placed Node) × DerivationState)
  | [], state => some ([], state)
  | index :: indices, state => do
      let token ← setting.tokens.get? index
      let offset ← minus? token.span.start start
      let (node, state) ← setting.leafChecked token state
      let (nodes, state) ← setting.errorLeavesChecked start indices state
      return (⟨offset, node⟩ :: nodes, state)

/-- `Setting.insertError` with the indices of tokens and waiting nodes, the
differences and the new node checked. -/
def insertErrorChecked (setting : Setting) (mark first stop : Nat)
    (state : DerivationState) : Option DerivationState := do
  let head ← setting.tokens.get? first
  let before ← minus? stop 1
  let last ← setting.tokens.get? before
  let start := head.span.start
  let (children, state) ←
    setting.errorLeavesChecked start (List.range' first (stop - first)) state
  let length ← minus? last.span.stop start
  let node ←
    Node.assemble? state.supply Symbol.error length
      (last.examinedEnd - last.span.stop) children
  guard (mark ≤ state.scratch.size)
  return { state with
    supply := state.supply + 1
    scratch := state.scratch.insertIdxIfInBounds mark ⟨start, node⟩ }

/-- `Setting.flushErrors` with a checked error node. -/
def flushErrorsChecked (setting : Setting) (mark : Nat) (first? : Option Nat)
    (stop : Nat) (state : DerivationState) : Option DerivationState :=
  match first? with
  | none => some state
  | some first => setting.insertErrorChecked mark first stop state

/-- In the course of the loop over the tokens, begun in the state `start`, no
check comes to nothing: each operation that is run does the same with its checks
as without them. -/
structure Unfailing (setting : Setting) (item : Rule Symbol)
    (start : DerivationState) : Prop where
  terminal : ∀ {symbol : Symbol} {position : Nat} {state : DerivationState},
    setting.terminalChecked symbol position state =
      some (setting.terminal symbol position state)
  reusable : ∀ {symbol : Symbol} {position : Nat},
    setting.reusableChecked symbol position =
      some (setting.reusable? symbol position)
  close : ∀ {symbol : Symbol} {rule : Rule Symbol} {position : Nat}
    {state derived : DerivationState} {result : Option Nat},
    setting.Undertakes item start ⟨.symbol symbol, position, state⟩ →
      setting.grammar.rule? symbol = some rule →
        setting.run rule position { state with examined := 0 } =
            some (result, derived) →
          setting.closeChecked symbol position state.scratch.size state.examined
              result derived =
            some (setting.close symbol position state.scratch.size
              state.examined result derived)
  flush : ∀ {position next : Nat} {first? : Option Nat}
    {state after : DerivationState},
    setting.Reaches item start position first? state →
      position < setting.tokens.size →
        setting.run item position state = some (some next, after) →
          position < next →
            setting.flushErrorsChecked state.scratch.size first? position
                after =
              some (setting.flushErrors state.scratch.size first? position
                after)
  finish : ∀ {position : Nat} {first? : Option Nat} {state : DerivationState},
    setting.Reaches item start position first? state →
      setting.tokens.size ≤ position →
        setting.flushErrorsChecked state.scratch.size first?
            setting.tokens.size state =
          some (setting.flushErrors state.scratch.size first?
            setting.tokens.size state)

end Setting

end Reparse
