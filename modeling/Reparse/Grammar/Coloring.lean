import Reparse.Grammar.LeftRecursion

/-!
# Left recursion by sweeps and colors

The check for left recursion as the loops alone make it run.  Flags are raised
in place, sweep after sweep, until a sweep raises none; then the calls are
followed depth first, where each symbol on the stack keeps the index of its next
call and a color says how far the search has got with a symbol.  Nothing bounds
the loops, so a run that never comes to an end is a possible outcome: it is the
one without a value.
-/

namespace Reparse

namespace RuleTable

/-- The flags of the symbols that can match without a token, and whether one was
raised since the sweep began. -/
structure Sweep where
  flags : Array Bool
  changed : Bool

/-- Raises the flag of a symbol if its rule can be empty, given the flags raised
so far. -/
def sweepAt (rules : RuleTable) (sweep : Sweep) (index : Nat) : Sweep :=
  match rules.rule? ⟨index⟩ with
  | some rule =>
      if !sweep.flags.getD index false &&
          rule.isNullable fun symbol => sweep.flags.getD symbol.id false then
        ⟨sweep.flags.setIfInBounds index true, true⟩
      else sweep
  | none => sweep

def sweep (rules : RuleTable) (flags : Array Bool) : Sweep :=
  (List.range rules.size).foldl rules.sweepAt ⟨flags, false⟩

/-- Sweeps until nothing changes. -/
def settle (rules : RuleTable) (flags : Array Bool) : Option (Array Bool) :=
  let swept := rules.sweep flags
  if swept.changed then rules |>.settle swept.flags else some swept.flags
partial_fixpoint

/-- The symbols that each symbol may call before it consumes a token, given the
flags. -/
def callsGiven (rules : RuleTable) (nullable : Array Bool) :
    Array (List Symbol) :=
  rules.map fun rule? =>
    match rule? with
    | some rule =>
        rule.leadingCalls (fun symbol => nullable.getD symbol.id false)
          rules.hasRule
    | none => []

end RuleTable

namespace LeftRecursion

/-- How far the search has got with a symbol. -/
inductive Color where
  | unvisited
  | onStack
  | done
deriving DecidableEq

/-- A symbol on the stack and the index of its next call. -/
structure Visit where
  symbol : Symbol
  edge : Nat

/-- The color of a symbol; a number outside the table needs no search. -/
def color (colors : Array Color) (symbol : Symbol) : Color :=
  colors.getD symbol.id .done

/-- The calls of every symbol in the order they are followed. -/
abbrev Edges := Array (List Symbol)

/-- Searches until the stack is empty.  A call of a symbol on the stack is
reported. -/
def Edges.search (edges : Edges) (stack : List Visit) (colors : Array Color) :
    ExceptT Symbol Option (Array Color) :=
  match stack with
  | [] => pure colors
  | ⟨symbol, edge⟩ :: stack =>
      match (edges.getD symbol.id [])[edge]? with
      | some target =>
          match color colors target with
          | .unvisited =>
              edges |>.search (⟨target, 0⟩ :: ⟨symbol, edge + 1⟩ :: stack)
                (colors.setIfInBounds target.id .onStack)
          | .onStack => throw target
          | .done => edges |>.search (⟨symbol, edge + 1⟩ :: stack) colors
      | none => edges |>.search stack (colors.setIfInBounds symbol.id .done)
partial_fixpoint

def Edges.searchFrom (edges : Edges) (colors : Array Color) (index : Nat) :
    ExceptT Symbol Option (Array Color) :=
  if color colors ⟨index⟩ = .unvisited then
    edges.search [⟨⟨index⟩, 0⟩] (colors.setIfInBounds index .onStack)
  else pure colors

/-- Reports a symbol whose call closes a cycle, if the search meets one. -/
def check (rules : RuleTable) : ExceptT Symbol Option Unit := do
  let nullable ← rules.settle (Array.replicate rules.size false)
  let edges : Edges := rules.callsGiven nullable
  let _ ← (List.range rules.size).foldlM edges.searchFrom
    (Array.replicate rules.size Color.unvisited)

end LeftRecursion

end Reparse
