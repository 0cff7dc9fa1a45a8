import Reparse.Parse.Derivation

/-!
# Derivations without ranks

The functions of a derivation as their rules alone make them call each other.
Nothing bounds these calls, so a run that never comes to an end is a possible
outcome: it is the one without a value.
-/

namespace Reparse

namespace Setting

mutual

def run (setting : Setting) (rule : Rule Symbol) (position : Nat)
    (state : DerivationState) : Option (Option Nat × DerivationState) :=
  match rule with
  | .symbol name => setting |>.runSymbol name position state
  | .seq items => setting |>.runSeq items position state.scratch.size state
  | .choice alternatives => setting |>.runChoice alternatives position state
  | .star item => setting |>.runStar item position state
  | .opt item => do
      let (next?, state) ← setting |>.run item position state
      return (some (next?.getD position), state)
partial_fixpoint

/-- Runs the items of a sequence one after the other.  When one fails, what the
sequence has put on the stack above `mark` is taken off again. -/
def runSeq (setting : Setting) (items : List (Rule Symbol))
    (position mark : Nat) (state : DerivationState) :
    Option (Option Nat × DerivationState) :=
  match items with
  | [] => some (some position, state)
  | item :: rest => do
      match ← setting |>.run item position state with
      | (none, state) => return (none, state.truncate mark)
      | (some next, state) => setting |>.runSeq rest next mark state
partial_fixpoint

def runChoice (setting : Setting) (alternatives : List (Rule Symbol))
    (position : Nat) (state : DerivationState) :
    Option (Option Nat × DerivationState) :=
  match alternatives with
  | [] => some (none, state)
  | alternative :: rest => do
      match ← setting |>.run alternative position state with
      | (none, state) => setting |>.runChoice rest position state
      | (some next, state) => return (some next, state)
partial_fixpoint

/-- Runs an item until it fails or consumes nothing. -/
def runStar (setting : Setting) (item : Rule Symbol) (position : Nat)
    (state : DerivationState) : Option (Option Nat × DerivationState) := do
  let mark := state.scratch.size
  match ← setting |>.run item position state with
  | (none, state) => return (some position, state)
  | (some next, state) =>
      if position < next then setting |>.runStar item next state
      else return (some position, state.truncate mark)
partial_fixpoint

def runSymbol (setting : Setting) (symbol : Symbol) (position : Nat)
    (state : DerivationState) : Option (Option Nat × DerivationState) :=
  if setting.grammar.isTerminal symbol then
    some (setting.terminal symbol position state)
  else
    match setting.grammar.rule? symbol with
    | none => some (none, state)
    | some rule =>
        if setting.grammar.isHidden symbol then
          setting |>.run rule position state
        else
          match state.remembered? setting.memoize symbol position with
          | some outcome => some (state.apply outcome)
          | none =>
              match setting.reusable? symbol position with
              | some (node, outcome) =>
                  some (((state.reuse node).remember setting.memoize symbol
                    position outcome).apply outcome)
              | none => do
                  let (result, derived) ←
                    setting |>.run rule position { state with examined := 0 }
                  let (outcome, closed) :=
                    setting.close symbol position state.scratch.size
                      state.examined result derived
                  return (closed.remember setting.memoize symbol position
                    outcome).apply outcome
partial_fixpoint

end

/-- Matches the item again and again.  The tokens from `first?` up to the
position are set aside. -/
def runItems (setting : Setting) (item : Rule Symbol) (position : Nat)
    (first? : Option Nat) (state : DerivationState) :
    Option DerivationState := do
  let mark := state.scratch.size
  if position < setting.tokens.size then
    match ← setting.run item position state with
    | (some next, after) =>
        if position < next then
          setting |>.runItems item next none
            (setting.flushErrors mark first? position after)
        else
          setting |>.runItems item (position + 1) (some (first?.getD position))
            (after.truncate mark)
    | (none, after) =>
        setting |>.runItems item (position + 1) (some (first?.getD position))
          (after.truncate mark)
  else return setting.flushErrors mark first? setting.tokens.size state
partial_fixpoint

structure Activation where
  rule : Rule Symbol
  position : Nat
  state : DerivationState

/-- While the first one is under way, it hands over to the second one.  What is
left of a sequence, of a choice or of a repetition counts as handed over to. -/
inductive Activates (setting : Setting) : Activation → Activation → Prop where
  | hidden {symbol : Symbol} {rule : Rule Symbol} {position : Nat}
      {state : DerivationState} :
      setting.grammar.isTerminal symbol = false →
      setting.grammar.rule? symbol = some rule →
      setting.grammar.isHidden symbol = true →
      Activates setting ⟨.symbol symbol, position, state⟩
        ⟨rule, position, state⟩
  | visible {symbol : Symbol} {rule : Rule Symbol} {position : Nat}
      {state : DerivationState} :
      setting.grammar.isTerminal symbol = false →
      setting.grammar.rule? symbol = some rule →
      setting.grammar.isHidden symbol = false →
      state.remembered? setting.memoize symbol position = none →
      setting.reusable? symbol position = none →
      Activates setting ⟨.symbol symbol, position, state⟩
        ⟨rule, position, { state with examined := 0 }⟩
  | seqFirst {item : Rule Symbol} {rest : List (Rule Symbol)} {position : Nat}
      {state : DerivationState} :
      Activates setting ⟨.seq (item :: rest), position, state⟩
        ⟨item, position, state⟩
  | seqRest {item : Rule Symbol} {rest : List (Rule Symbol)}
      {position next : Nat} {state after : DerivationState} :
      setting.run item position state = some (some next, after) →
      Activates setting ⟨.seq (item :: rest), position, state⟩
        ⟨.seq rest, next, after⟩
  | choiceFirst {alternative : Rule Symbol} {rest : List (Rule Symbol)}
      {position : Nat} {state : DerivationState} :
      Activates setting ⟨.choice (alternative :: rest), position, state⟩
        ⟨alternative, position, state⟩
  | choiceRest {alternative : Rule Symbol} {rest : List (Rule Symbol)}
      {position : Nat} {state after : DerivationState} :
      setting.run alternative position state = some (none, after) →
      Activates setting ⟨.choice (alternative :: rest), position, state⟩
        ⟨.choice rest, position, after⟩
  | starFirst {item : Rule Symbol} {position : Nat} {state : DerivationState} :
      Activates setting ⟨.star item, position, state⟩ ⟨item, position, state⟩
  | starRest {item : Rule Symbol} {position next : Nat}
      {state after : DerivationState} :
      setting.run item position state = some (some next, after) →
      position < next →
      Activates setting ⟨.star item, position, state⟩ ⟨.star item, next, after⟩
  | opt {item : Rule Symbol} {position : Nat} {state : DerivationState} :
      Activates setting ⟨.opt item, position, state⟩ ⟨item, position, state⟩

/-- The loop over the tokens, begun in the state `start`, gets to a token in
some state.  The tokens from `first?` on are then set aside. -/
inductive Reaches (setting : Setting) (item : Rule Symbol)
    (start : DerivationState) : Nat → Option Nat → DerivationState → Prop where
  | start : Reaches setting item start 0 none start
  | item {position next : Nat} {first? : Option Nat}
      {state after : DerivationState} :
      Reaches setting item start position first? state →
      position < setting.tokens.size →
      setting.run item position state = some (some next, after) →
      position < next →
      Reaches setting item start next none
        (setting.flushErrors state.scratch.size first? position after)
  | skip {position : Nat} {first? next? : Option Nat}
      {state after : DerivationState} :
      Reaches setting item start position first? state →
      position < setting.tokens.size →
      setting.run item position state = some (next?, after) →
      (∀ next, next? = some next → ¬position < next) →
      Reaches setting item start (position + 1)
        (some (first?.getD position)) (after.truncate state.scratch.size)

/-- In the course of the loop over the tokens, begun in the state `start`, the
rule is run. -/
inductive Undertakes (setting : Setting) (item : Rule Symbol)
    (start : DerivationState) : Activation → Prop where
  | round {position : Nat} {first? : Option Nat} {state : DerivationState} :
      setting.Reaches item start position first? state →
      position < setting.tokens.size →
      Undertakes setting item start ⟨item, position, state⟩
  | inner {first second : Activation} :
      Undertakes setting item start first → setting.Activates first second →
      Undertakes setting item start second

end Setting

end Reparse
