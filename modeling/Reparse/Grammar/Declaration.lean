import Reparse.Grammar.Basic

/-!
# Grammars from declarations

A grammar is written as a list of declarations.  Symbols are numbered in this
order: tokens and keywords as declared, the root, the rules as declared, and
then the literals met inside the rules by first appearance.
`Grammar.ofDeclarations` refuses every list that cannot be parsed with: an
unknown or repeated name, a root that is missing or hidden, a literal without
bytes, too many symbols, and left recursion.
-/

namespace Reparse

inductive Declaration where
  /-- A token without a name of its own that is exactly this text. -/
  | keyword (text : String)
  | token (name : String) (pattern : Pattern)
  | extra (pattern : Pattern)
  /-- The root, which is its item any number of times; the last declared root
  counts. -/
  | root (name : String) (item : Rule Reference)
  /-- A rule.  A name that begins with an underscore makes it hidden. -/
  | rule (name : String) (body : Rule Reference)

inductive GrammarError where
  | unknownSymbol (name referencedBy : String)
  | duplicateSymbol (name : String)
  | reservedName (name : String)
  | emptyLiteral (name : String)
  | noRoot (grammar : String)
  | hiddenRoot (name : String)
  | tooManySymbols (count maximum : Nat)
  | leftRecursion (name : String)
deriving DecidableEq

def GrammarError.message : GrammarError → String
  | .unknownSymbol name referencedBy =>
      "unknown symbol `" ++ name ++ "` referenced by `" ++ referencedBy ++ "`"
  | .duplicateSymbol name =>
      "symbol `" ++ name ++ "` is declared more than once"
  | .reservedName name => "`" ++ name ++ "` is reserved for error nodes"
  | .emptyLiteral name => "token `" ++ name ++ "` has an empty literal"
  | .noRoot grammar => "grammar `" ++ grammar ++ "` has no root rule"
  | .hiddenRoot name => "root rule `" ++ name ++ "` cannot be hidden"
  | .tooManySymbols count maximum =>
      "grammar declares " ++ toString count ++ " symbols; at most " ++
        toString maximum ++ " are supported"
  | .leftRecursion name => "rule `" ++ name ++ "` is left recursive"

/-- Whether a name marks a rule as hidden. -/
def isHiddenName (name : String) : Bool := name.toList.head? == some '_'

structure TokenDeclaration where
  name : String
  pattern : Pattern
  kind : SymbolKind

structure RuleDeclaration where
  name : String
  body : Rule Reference

namespace Declaration

def token? : Declaration → Option TokenDeclaration
  | .keyword text => some ⟨text, .literal (Utf8.encode text), .literal⟩
  | .token name pattern => some ⟨name, pattern, .token⟩
  | _ => none

def extra? : Declaration → Option Pattern
  | .extra pattern => some pattern
  | _ => none

def root? : Declaration → Option RuleDeclaration
  | .root name item => some ⟨name, item⟩
  | _ => none

def rule? : Declaration → Option RuleDeclaration
  | .rule name body => some ⟨name, body⟩
  | _ => none

end Declaration

/-- The symbols numbered so far and their tokens, the latest first. -/
structure SymbolScope where
  symbols : Array SymbolInfo
  ids : Std.HashMap String Symbol
  terminals : List Terminal

namespace SymbolScope

def empty : SymbolScope := ⟨#[], ∅, []⟩

/-- Gives the next number to a name that is still free. -/
def declare (scope : SymbolScope) (name : String) (kind : SymbolKind) :
    Except GrammarError (Symbol × SymbolScope) :=
  if name = errorName then .error (.reservedName name)
  else if scope.ids.contains name then .error (.duplicateSymbol name)
  else if Symbol.capacity ≤ scope.symbols.size then
    .error (.tooManySymbols (scope.symbols.size + 1) Symbol.capacity)
  else
    let symbol : Symbol := ⟨scope.symbols.size⟩
    .ok (symbol,
      { scope with
        symbols := scope.symbols.push ⟨name, kind⟩
        ids := scope.ids.insert name symbol })

def declareToken (scope : SymbolScope) (token : TokenDeclaration) :
    Except GrammarError SymbolScope := do
  if token.pattern = .literal [] then
    throw (.emptyLiteral token.name)
  let (symbol, declared) ← scope.declare token.name token.kind
  return { declared with
    terminals := ⟨symbol, token.pattern⟩ :: declared.terminals }

def declareRule (scope : SymbolScope) (rule : RuleDeclaration) :
    Except GrammarError SymbolScope := do
  let kind : SymbolKind := if isHiddenName rule.name then .hidden else .visible
  return (← scope.declare rule.name kind).2

/-- Declares the text of a literal met inside a rule, unless a keyword or an
earlier literal has done so. -/
def declareLiteral (scope : SymbolScope) (text : String) :
    Except GrammarError SymbolScope :=
  match scope.ids[text]? with
  | some symbol =>
      if (scope.symbols[symbol.id]?.map SymbolInfo.kind) = some .literal then
        .ok scope
      else .error (.duplicateSymbol text)
  | none =>
      if text = "" then .error (.emptyLiteral "")
      else scope.declareToken ⟨text, .literal (Utf8.encode text), .literal⟩

def lookup (scope : SymbolScope) (owner : String) (reference : Reference) :
    Except GrammarError Symbol :=
  match scope.ids[reference.text]? with
  | some symbol => .ok symbol
  | none => .error (.unknownSymbol reference.text owner)

end SymbolScope

namespace Grammar

def resolveRules (scope : SymbolScope) (rules : List RuleDeclaration) :
    Except GrammarError (List (Rule Symbol)) :=
  rules.mapM fun rule => rule.body.resolve (scope.lookup rule.name)

/-- The rules by symbol number: none for the tokens before the root, the root as
its item any number of times, the declared rules, and none for the literals
after them. -/
def ruleTable (tokens literals : Nat) (item : Rule Symbol)
    (rules : List (Rule Symbol)) : RuleTable :=
  Array.replicate tokens none ++ #[some (.star item)] ++
    (rules.map some).toArray ++ Array.replicate literals none

/-- The name of a declared symbol, empty for another number. -/
def nameOf (scope : SymbolScope) (symbol : Symbol) : String :=
  (scope.symbols[symbol.id]?.map SymbolInfo.name).getD ""

/-- The grammar that the declarations describe, or the first reason to refuse
them. -/
def ofDeclarations (name : String) (declarations : List Declaration) :
    Except GrammarError Grammar := do
  let some root := (declarations.filterMap Declaration.root?).getLast?
    | throw (.noRoot name)
  if isHiddenName root.name then
    throw (.hiddenRoot root.name)
  let tokens := declarations.filterMap Declaration.token?
  let rules := declarations.filterMap Declaration.rule?
  let withTokens ← tokens.foldlM SymbolScope.declareToken SymbolScope.empty
  let (rootSymbol, withRoot) ← withTokens.declare root.name .visible
  let withRules ← rules.foldlM SymbolScope.declareRule withRoot
  let literals := (root :: rules).flatMap fun rule => rule.body.literals
  let scope ← literals.foldlM SymbolScope.declareLiteral withRules
  let item ← root.body.resolve (scope.lookup root.name)
  let bodies ← resolveRules scope rules
  let literalCount := scope.symbols.size - (tokens.length + 1 + rules.length)
  let table := ruleTable tokens.length literalCount item bodies
  match LeftRecursion.ranks table with
  | .error symbol => throw (.leftRecursion (nameOf scope symbol))
  | .ok ranks =>
      return {
        name := name
        symbols := scope.symbols
        ids := scope.ids
        rules := table
        terminals := scope.terminals.reverse
        extras := declarations.filterMap Declaration.extra?
        root := rootSymbol
        ranks := ranks }

end Grammar

end Reparse
