import Reparse.Grammar.Declaration

/-!
# The language of data values

Objects, arrays, strings, numbers and the three words.  Several values may
follow each other.
-/

namespace Reparse

namespace JsonValues

open Rule

def declarations : List Declaration :=
  [.token "string" (.quoted 34),
    .token "number" .number,
    .token "true" (.literal (Utf8.encode "true")),
    .token "false" (.literal (Utf8.encode "false")),
    .token "null" (.literal (Utf8.encode "null")),
    .extra .whitespace,
    .root "document" (named "_value"),
    .rule "_value"
      (.choice
        [named "object", named "array", named "string", named "number",
          named "true", named "false", named "null"]),
    .rule "object"
      (.seq [literal "\x7b", separated (named "pair") ",", literal "\x7d"]),
    .rule "pair" (.seq [named "string", literal ":", named "_value"]),
    .rule "array"
      (.seq [literal "[", separated (named "_value") ",", literal "]"])]

def grammar : Except GrammarError Grammar :=
  Grammar.ofDeclarations "json" declarations

end JsonValues

end Reparse
