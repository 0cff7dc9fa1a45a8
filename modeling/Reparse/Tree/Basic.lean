import Reparse.Grammar.Basic
import Reparse.Text.Edit
import Reparse.Tree.Node

/-!
# Trees

A tree is a root node together with the grammar and the text it stands for.
Grammars and texts are shared between trees, so each is held under a stamp that
tells one construction of it from another.
-/

namespace Reparse

/-- A value under the stamp of its construction. -/
structure Stamped (α : Type) where
  stamp : Nat
  value : α

def Stamped.identical {α : Type} (left right : Stamped α) : Bool :=
  left.stamp == right.stamp

structure Tree where
  root : Node
  grammar : Stamped Grammar
  source : Stamped (Array UInt8)
  /-- Zero for a tree parsed from scratch, one more than before for a reparsed
  one. -/
  version : Nat

namespace Tree

def length (tree : Tree) : Nat := tree.root.length

def isEmpty (tree : Tree) : Bool := tree.root.isEmpty

def span (tree : Tree) : Span := ⟨0, tree.length⟩

def bytes (tree : Tree) : List UInt8 := tree.source.value.toList

/-- The bytes of a span, if it lies in the text. -/
def text? (tree : Tree) (span : Span) : Option (List UInt8) :=
  if span.start ≤ span.stop ∧ span.stop ≤ tree.source.value.size then
    some (tree.source.value.extract span.start span.stop).toList
  else none

theorem text?_eq (tree : Tree) (span : Span) :
    tree.text? span =
      if span.start ≤ span.stop ∧ span.stop ≤ tree.bytes.length then
        some ((tree.bytes.drop span.start).take span.length)
      else none := by
  rw [text?, Array.toList_extract, List.extract_eq_take_drop, bytes,
    Array.length_toList, Span.length]

def nodeCount (tree : Tree) : Nat := tree.root.count

def sameGrammar (left right : Tree) : Bool :=
  left.grammar.identical right.grammar

def describe (tree : Tree) : String :=
  "Tree \x7b grammar: " ++ Quoted.text tree.grammar.value.name.toList ++
    ", version: " ++ toString tree.version ++ ", len: " ++
    toString tree.length ++ ", .. \x7d"

end Tree

/-- A reference to a tree that does not keep it alive. -/
structure WeakTree where
  target : Tree

namespace WeakTree

def version (weak : WeakTree) : Nat := weak.target.version

/-- The reference with its fields named, where `alive` says whether the root is
still held. -/
def describe (weak : WeakTree) (alive : Bool) : String :=
  "WeakTree \x7b version: " ++ toString weak.version ++ ", alive: " ++
    toString alive ++ ", .. \x7d"

end WeakTree

/-- Use of a tree that nothing holds any more. -/
structure ReleasedError where
  version : Nat
deriving DecidableEq

def ReleasedError.message (error : ReleasedError) : String :=
  "syntax tree version " ++ toString error.version ++
    " was released while still in use"

end Reparse
