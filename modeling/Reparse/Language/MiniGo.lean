import Reparse.Grammar.Declaration

/-!
# A small language of functions

Functions, variable declarations, calls and binary expressions, enough to write

    func add(a int, b int) { var c = a + b
      return c }
-/

namespace Reparse

namespace MiniGo

open Rule

def lexicalDeclarations : List Declaration :=
  [.keyword "func",
    .keyword "var",
    .keyword "return",
    .token "identifier" .identifier,
    .token "int_literal" .number,
    .token "interpreted_string_literal" (.quoted 34),
    .extra .whitespace,
    .extra (.lineComment (Utf8.encode "//"))]

def topLevelDeclarations : List Declaration :=
  [.root "source_file" (named "_top_level"),
    .rule "_top_level"
      (.choice [named "function_declaration", named "var_declaration"]),
    .rule "function_declaration"
      (.seq [literal "func", named "identifier", named "parameter_list",
        named "block"]),
    .rule "parameter_list"
      (.seq [literal "(", separated (named "parameter_declaration") ",",
        literal ")"]),
    .rule "parameter_declaration"
      (.seq [named "identifier", named "identifier"])]

def statementDeclarations : List Declaration :=
  [.rule "block"
    (.seq [literal "\x7b", .star (named "_statement"), literal "\x7d"]),
    .rule "_statement"
      (.choice [named "return_statement", named "var_declaration",
        named "_expression"]),
    .rule "var_declaration"
      (.seq [literal "var", named "identifier", literal "=",
        named "_expression"]),
    .rule "return_statement"
      (.seq [literal "return", .opt (named "_expression")])]

def expressionDeclarations : List Declaration :=
  [.rule "_expression" (.choice [named "binary_expression", named "_operand"]),
    .rule "binary_expression"
      (.seq
        [named "_operand",
          .choice [literal "+", literal "-", literal "*", literal "/",
            literal "=="],
          named "_expression"]),
    .rule "_operand"
      (.choice
        [named "call_expression", named "parenthesized_expression",
          named "identifier", named "int_literal",
          named "interpreted_string_literal"]),
    .rule "parenthesized_expression"
      (.seq [literal "(", named "_expression", literal ")"]),
    .rule "call_expression" (.seq [named "identifier", named "argument_list"]),
    .rule "argument_list"
      (.seq [literal "(", separated (named "_expression") ",", literal ")"])]

def declarations : List Declaration :=
  lexicalDeclarations ++ topLevelDeclarations ++ statementDeclarations ++
    expressionDeclarations

def grammar : Except GrammarError Grammar :=
  Grammar.ofDeclarations "mini_go" declarations

end MiniGo

end Reparse
