import Reparse.Text.Decimal
import Reparse.Tree.Node

/-!
# Parse statistics

A parsed tree is made of subtrees taken over from the tree before and of nodes
built anew.  A subtree taken over counts once, however large it is.
-/

namespace Reparse

structure Statistics where
  /-- Subtrees taken over from the tree before. -/
  reused : Nat
  /-- Nodes built by the parse. -/
  reparsed : Nat
deriving DecidableEq

namespace Statistics

def initial : Statistics := ⟨0, 0⟩

def add (left right : Statistics) : Statistics :=
  ⟨left.reused + right.reused, left.reparsed + right.reparsed⟩

mutual

def ofNode (isReused : Nat → Bool) : Node → Statistics
  | ⟨stamp, _, _, _, _, children⟩ =>
      if isReused stamp then ⟨1, 0⟩
      else (ofNodeList isReused children).add ⟨0, 1⟩

def ofNodeList (isReused : Nat → Bool) : List (Placed Node) → Statistics
  | [] => initial
  | ⟨_, node⟩ :: rest => (ofNode isReused node).add (ofNodeList isReused rest)

end

/-- The share of reused subtrees in all counted nodes, as a percentage. -/
def reuseRate (statistics : Statistics) : Float :=
  let total := statistics.reused + statistics.reparsed
  if total = 0 then 0
  else Float.ofNat statistics.reused / Float.ofNat total * 100

def reuseRateText (statistics : Statistics) : String :=
  Decimal.fixed statistics.reuseRate

def describe (statistics : Statistics) : String :=
  "IncrementalStats \x7b reused_count: " ++ toString statistics.reused ++
    ", reparsed_count: " ++ toString statistics.reparsed ++ " \x7d"

end Statistics

end Reparse
