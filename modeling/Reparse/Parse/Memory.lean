import Reparse.Parse.Parser

/-!
# What a parser keeps between parses

A parser keeps the memory of its stack and of its table of outcomes from one
parse to the next.  A derivation empties both before it begins, and leaves them
empty.  A parse that fails before there is anything to derive leaves them as
they are.
-/

namespace Reparse

structure Memory where
  scratch : Array (Placed Node)
  memo : Std.HashMap (Symbol × Nat) Outcome

namespace Memory

def empty : Memory := ⟨#[], ∅⟩

def begin (memory : Memory) (supply : Nat) : DerivationState :=
  ⟨supply, memory.scratch.shrink 0, ∅, 0, ∅⟩

theorem begin_eq_initial (memory : Memory) (supply : Nat) :
    memory.begin supply = DerivationState.initial supply := by
  rw [begin, DerivationState.initial, Array.shrink_eq_take,
    Array.take_eq_extract, Array.extract_zero]

end Memory

/-- The root of the derived tree, and the state that is left when its children
are taken off the stack. -/
def Setting.deriveRootIn (setting : Setting) (symbol : Symbol)
    (item : Rule Symbol) (state : DerivationState) : Node × DerivationState :=
  let state := setting.deriveItems item 0 none state.scratch.size state
  let length := setting.tokens.sourceLength
  ({ stamp := state.supply
     symbol := symbol
     length := length
     lookahead := setting.tokens.endExamined - length
     damaged := false
     children := state.scratch.toList },
    { state with supply := state.supply + 1, scratch := #[] })

/-- Derives a tree of the text with the memory of earlier derivations. -/
def Grammar.deriveIn (grammar : Stamped Grammar) (memoize : Bool)
    (memory : Memory) (text : List UInt8) (previous : Option Node)
    (version supply : Nat) : Except ParseError Parsed × Memory :=
  match grammar.value.tokenize text with
  | .error error => (.error (.unexpectedByte error), memory)
  | .ok tokens =>
      match grammar.value.rule? grammar.value.root with
      | none => (.error (.missingRootRule grammar.value.name), memory)
      | some rule =>
          let setting : Setting :=
            ⟨grammar.value, tokens, previous, Catalogue.ofNode? previous,
              memoize⟩
          let (root, state) :=
            setting.deriveRootIn grammar.value.root rule.rootItem
              (memory.begin supply)
          (.ok
            { tree := ⟨root, grammar, ⟨state.supply, text.toArray⟩, version⟩
              statistics := Statistics.ofNode state.reused.contains root
              supply := state.supply + 1 },
            ⟨state.scratch, ∅⟩)

/-- Parses with the memory of earlier parses. -/
def Parser.parseIn (parser : Parser) (memory : Memory) (text : List UInt8)
    (previous : Option Shell) (supply : Nat) :
    Except ParseError Parsed × Memory :=
  match refusal? text previous with
  | some error => (.error error, memory)
  | none =>
      let version := nextVersion previous
      match parser.usable? previous with
      | none =>
          Grammar.deriveIn parser.grammar parser.options.memoize memory text
            none version supply
      | some shell =>
          if shell.isUnchanged && shell.base.bytes == text then
            (.ok ⟨shell.base, ⟨1, 0⟩, supply⟩, memory)
          else
            Grammar.deriveIn parser.grammar parser.options.memoize memory text
              (some shell.root) version supply

/-- What an earlier derivation left makes no difference. -/
theorem Grammar.deriveIn_fst (grammar : Stamped Grammar) (memoize : Bool)
    (memory : Memory) (text : List UInt8) (previous : Option Node)
    (version supply : Nat) :
    (deriveIn grammar memoize memory text previous version supply).1 =
      derive grammar memoize text previous version supply := by
  rw [deriveIn, derive]
  cases grammar.value.tokenize text with
  | error error => rfl
  | ok tokens =>
      cases grammar.value.rule? grammar.value.root with
      | none => rfl
      | some rule =>
          simp only [Memory.begin_eq_initial]
          rfl

/-- What earlier parses left makes no difference. -/
theorem Parser.parseIn_fst (parser : Parser) (memory : Memory)
    (text : List UInt8) (previous : Option Shell) (supply : Nat) :
    (parser.parseIn memory text previous supply).1 =
      parser.parse text previous supply := by
  rw [parseIn, parse]
  cases refusal? text previous with
  | some error => rfl
  | none =>
      cases parser.usable? previous with
      | none => exact Grammar.deriveIn_fst ..
      | some shell =>
          simp only
          split
          · rfl
          · exact Grammar.deriveIn_fst ..

end Reparse
