/-!
# Grammar symbols

Every token and every rule of a grammar is named by a small number.  The largest
number is kept for the nodes that hold tokens no rule accepts.
-/

namespace Reparse

/-- The number of a token or a rule within its grammar. -/
structure Symbol where
  id : Nat
deriving DecidableEq, Hashable, Inhabited

namespace Symbol

/-- How many symbols a grammar may declare. -/
def capacity : Nat := 65535

/-- The symbol of nodes that hold unexpected tokens. -/
def error : Symbol := ⟨capacity⟩

def isError (symbol : Symbol) : Bool := symbol == error

def compare (left right : Symbol) : Ordering := Ord.compare left.id right.id

def describe (symbol : Symbol) : String :=
  if symbol.isError then "SymbolId::ERROR"
  else "SymbolId(" ++ toString symbol.id ++ ")"

end Symbol

end Reparse
