import Reparse.Parse.Derivation
import Reparse.Parse.Statistics

/-!
# Parsers

A parser derives trees with one grammar.  Tokens that fit no rule do not make it
fail: they are kept in error nodes.  It fails on a text longer than
`Parser.longestText`, on one that has not the length the edits lead to, on bytes
that no token begins with, and on a grammar without a rule for its root.

Given a tree under edit that was derived with the same grammar, the parser takes
over what the edits left undamaged.  Without edits and with the same text it
gives the tree back as it is.
-/

namespace Reparse

structure ParserOptions where
  /-- Whether undamaged subtrees of an edited tree are taken over. -/
  incremental : Bool := true
  memoize : Bool := true
deriving DecidableEq

def ParserOptions.describe (options : ParserOptions) : String :=
  "ParserOptions \x7b incremental: " ++ toString options.incremental ++
    ", memoize: " ++ toString options.memoize ++ " \x7d"

inductive ParseError where
  | textTooLong (length longest : Nat)
  | unexpectedByte (error : LexError)
  | missingRootRule (grammar : String)
  | invalidEdit (error : EditError)
deriving DecidableEq

def ParseError.message : ParseError → String
  | .textTooLong length longest =>
      "source of " ++ toString length ++ " bytes exceeds the maximum of " ++
        toString longest
  | .unexpectedByte error => error.message
  | .missingRootRule grammar =>
      "grammar `" ++ grammar ++ "` has no rule for its root symbol"
  | .invalidEdit error => error.message

/-- A parser for one grammar, with the statistics of its last successful
parse. -/
structure Parser where
  grammar : Stamped Grammar
  options : ParserOptions
  statistics : Statistics

structure Parsed where
  tree : Tree
  statistics : Statistics
  supply : Nat

namespace Rule

/-- What the root consists of: the repeated item, or the whole rule of a root
that is not a repetition. -/
def rootItem : Rule Symbol → Rule Symbol
  | .star item => item
  | rule => rule

end Rule

/-- Derives a tree of the text, with the undamaged nodes below `previous` at
hand. -/
def Grammar.derive (grammar : Stamped Grammar) (memoize : Bool)
    (text : List UInt8) (previous : Option Node) (version supply : Nat) :
    Except ParseError Parsed :=
  match grammar.value.tokenize text with
  | .error error => .error (.unexpectedByte error)
  | .ok tokens =>
      match grammar.value.rule? grammar.value.root with
      | none => .error (.missingRootRule grammar.value.name)
      | some rule =>
          let setting : Setting :=
            ⟨grammar.value, tokens, previous, Catalogue.ofNode? previous,
              memoize⟩
          let (root, state) :=
            setting.deriveRoot grammar.value.root rule.rootItem supply
          .ok
            { tree := ⟨root, grammar, ⟨state.supply, text.toArray⟩, version⟩
              statistics := Statistics.ofNode state.reused.contains root
              supply := state.supply + 1 }

namespace Parser

def ofGrammar (grammar : Stamped Grammar) (options : ParserOptions) : Parser :=
  ⟨grammar, options, Statistics.initial⟩

def nextVersion (previous : Option Shell) : Nat :=
  match previous with
  | some shell => shell.version + 1
  | none => 0

/-- The tree under edit, if the parser may take nodes over from it. -/
def usable? (parser : Parser) (previous : Option Shell) : Option Shell :=
  previous.filter fun shell => parser.options.incremental &&
    shell.usesGrammar parser.grammar

/-- The longest text that is parsed: the end of a text and the end of the byte
looked at behind it are offsets. -/
def longestText : Nat := offsetLimit - 2

/-- Why a text is refused before any token of it is read. -/
def refusal? (text : List UInt8) (previous : Option Shell) :
    Option ParseError :=
  if longestText < text.length then
    some (.textTooLong text.length longestText)
  else
    match previous.filter fun shell => shell.length != text.length with
    | some shell =>
        some (.invalidEdit (.lengthMismatch shell.length text.length))
    | none => none

/-- Derives a tree of the text after the edits of `previous`. -/
def parse (parser : Parser) (text : List UInt8) (previous : Option Shell)
    (supply : Nat) : Except ParseError Parsed :=
  match refusal? text previous with
  | some error => .error error
  | none =>
      let version := nextVersion previous
      match parser.usable? previous with
      | none =>
          Grammar.derive parser.grammar parser.options.memoize text none version
            supply
      | some shell =>
          if shell.isUnchanged && shell.base.bytes == text then
            .ok ⟨shell.base, ⟨1, 0⟩, supply⟩
          else
            Grammar.derive parser.grammar parser.options.memoize text
              (some shell.root) version supply

/-- A text is looked at when it is not too long and has the length that the
edits lead to. -/
theorem refusal?_eq_none_iff {text : List UInt8} {previous : Option Shell} :
    refusal? text previous = none ↔
      text.length ≤ longestText ∧
        ∀ shell, previous = some shell → shell.length = text.length := by
  rw [refusal?]
  by_cases long : longestText < text.length
  · rw [if_pos long]
    constructor
    · intro looked
      cases looked
    · intro ⟨fits, _⟩
      exact absurd fits (Nat.not_le.mpr long)
  · rw [if_neg long]
    have fits := Nat.not_lt.mp long
    cases previous with
    | none => simpa using fits
    | some shell =>
        by_cases same : shell.length = text.length
        · simpa [Option.filter, same] using fits
        · simp [Option.filter, same]

section

variable {parser : Parser} {text : List UInt8} {previous : Option Shell}
  {supply : Nat}

theorem parse_of_long (long : longestText < text.length) :
    parser.parse text previous supply =
      .error (.textTooLong text.length longestText) := by
  rw [parse, refusal?, if_pos long]

theorem refusal?_of_parse {parsed : Parsed}
    (found : parser.parse text previous supply = .ok parsed) :
    refusal? text previous = none := by
  rw [parse] at found
  cases refused : refusal? text previous with
  | none => rfl
  | some error =>
      rw [refused] at found
      cases found

theorem fits_of_parse {parsed : Parsed}
    (found : parser.parse text previous supply = .ok parsed) :
    text.length ≤ longestText :=
  (refusal?_eq_none_iff.mp (refusal?_of_parse found)).1

end

/-- The parser after a parse: only a successful one leaves new statistics. -/
def afterParse (parser : Parser) : Except ParseError Parsed → Parser
  | .ok parsed => { parser with statistics := parsed.statistics }
  | .error _ => parser

def describe (parser : Parser) : String :=
  "Parser \x7b grammar: " ++ Quoted.text parser.grammar.value.name.toList ++
    ", options: " ++ parser.options.describe ++ ", stats: " ++
    parser.statistics.describe ++ ", .. \x7d"

end Parser

end Reparse
