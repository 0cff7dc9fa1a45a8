import Reparse.Parse.Parser

/-!
# Histories of a text

A text is edited and parsed, edited again and parsed again.  A history is
*honest* when each text given to the parser is one that the edits lead to.
-/

namespace Reparse

/-- The edit leads from the first text to the second one: the bytes it removes
are there, and some bytes of the right number take their place. -/
def Edit.Produces (edit : Edit) (old new : List UInt8) : Prop :=
  edit.start ≤ edit.oldStop ∧ edit.oldStop ≤ old.length ∧
    ∃ inserted : List UInt8, edit.newStop = edit.start + inserted.length ∧
      new = old.take edit.start ++ (inserted ++ old.drop edit.oldStop)

/-- The edits, one after the other, lead from the first text to the second
one. -/
inductive EditsProduce : List Edit → List UInt8 → List UInt8 → Prop where
  | nil (text : List UInt8) : EditsProduce [] text text
  | cons {edit : Edit} {edits : List Edit} {old middle new : List UInt8} :
      edit.Produces old middle → EditsProduce edits middle new →
      EditsProduce (edit :: edits) old new

/-- The tree was derived with the grammar in an honest history; all stamps used
in it lie below the supply. -/
inductive Reached (grammar : Stamped Grammar) : Tree → Nat → Prop where
  | parsed {parser : Parser} {text : List UInt8} {supply : Nat}
      {parsed : Parsed} :
      parser.grammar = grammar → parser.parse text none supply = .ok parsed →
      Reached grammar parsed.tree parsed.supply
  | reparsed {parser : Parser} {tree : Tree} {edits : List Edit} {shell : Shell}
      {text : List UInt8} {before edited available : Nat} {parsed : Parsed} :
      Reached grammar tree before →
      tree.editAll edits before = .ok (shell, edited) →
      EditsProduce edits tree.bytes text → edited ≤ available →
      parser.grammar = grammar →
      parser.parse text (some shell) available = .ok parsed →
      Reached grammar parsed.tree parsed.supply

/-- These trees, the last one first, were derived with the grammar in one
history.  Each text was parsed from scratch or after edits of a tree derived
before.  All stamps of the trees lie below the supply.  The copies that edits
make never become part of a tree, so it does not matter which stamps they
take. -/
inductive History (grammar : Stamped Grammar) : List Tree → Nat → Prop where
  | start (supply : Nat) : History grammar [] supply
  | parsed {parser : Parser} {trees : List Tree} {text : List UInt8}
      {supply available : Nat} {parsed : Parsed} :
      History grammar trees supply → supply ≤ available →
      parser.grammar = grammar →
      parser.parse text none available = .ok parsed →
      History grammar (parsed.tree :: trees) parsed.supply
  | reparsed {parser : Parser} {trees : List Tree} {tree : Tree}
      {edits : List Edit} {shell : Shell} {text : List UInt8}
      {supply first next available : Nat} {parsed : Parsed} :
      History grammar trees supply → tree ∈ trees →
      tree.editAll edits first = .ok (shell, next) →
      EditsProduce edits tree.bytes text →
      supply ≤ available → parser.grammar = grammar →
      parser.parse text (some shell) available = .ok parsed →
      History grammar (parsed.tree :: trees) parsed.supply

end Reparse
