import Mathlib
import Reparse.Language.JsonValues
import Reparse.Language.MiniGo
import Reparse.Proofs.Grammar.Numbering

/-!
# Languages that are accepted

The symbols of both languages in order, their rules with the references
resolved, and that the declarations are accepted.
-/

namespace Reparse

open Rule

namespace JsonValues

/-- The symbols and the tokens, the latest token first. -/
def numbering : Numbering where
  infos :=
    [⟨"string", .token⟩, ⟨"number", .token⟩, ⟨"true", .token⟩,
      ⟨"false", .token⟩, ⟨"null", .token⟩, ⟨"document", .visible⟩,
      ⟨"_value", .hidden⟩, ⟨"object", .visible⟩, ⟨"pair", .visible⟩,
      ⟨"array", .visible⟩, ⟨"\x7b", .literal⟩, ⟨",", .literal⟩,
      ⟨"\x7d", .literal⟩, ⟨":", .literal⟩, ⟨"[", .literal⟩, ⟨"]", .literal⟩]
  terminals :=
    [⟨⟨15⟩, .literal (Utf8.encode "]")⟩, ⟨⟨14⟩, .literal (Utf8.encode "[")⟩,
      ⟨⟨13⟩, .literal (Utf8.encode ":")⟩,
      ⟨⟨12⟩, .literal (Utf8.encode "\x7d")⟩,
      ⟨⟨11⟩, .literal (Utf8.encode ",")⟩,
      ⟨⟨10⟩, .literal (Utf8.encode "\x7b")⟩,
      ⟨⟨4⟩, .literal (Utf8.encode "null")⟩,
      ⟨⟨3⟩, .literal (Utf8.encode "false")⟩,
      ⟨⟨2⟩, .literal (Utf8.encode "true")⟩, ⟨⟨1⟩, .number⟩,
      ⟨⟨0⟩, .quoted 34⟩]

/-- The rules in order. -/
def bodies : List (Rule Symbol) :=
  [.choice
      [symbol ⟨7⟩, symbol ⟨9⟩, symbol ⟨0⟩, symbol ⟨1⟩, symbol ⟨2⟩, symbol ⟨3⟩,
        symbol ⟨4⟩],
    .seq
      [symbol ⟨10⟩,
        .opt (.seq [symbol ⟨8⟩, .star (.seq [symbol ⟨11⟩, symbol ⟨8⟩])]),
        symbol ⟨12⟩],
    .seq [symbol ⟨0⟩, symbol ⟨13⟩, symbol ⟨6⟩],
    .seq
      [symbol ⟨14⟩,
        .opt (.seq [symbol ⟨6⟩, .star (.seq [symbol ⟨11⟩, symbol ⟨6⟩])]),
        symbol ⟨15⟩]]

/-- The ranks of the symbols in order. -/
def ranks : Array Nat :=
  #[0, 1, 2, 3, 4, 8, 7, 5, 9, 6, 10, 11, 12, 13, 14, 15]

theorem ranked :
    LeftRecursion.ranks (Grammar.ruleTable 5 6 (symbol ⟨6⟩) bodies) =
      .ok ranks := by
  cbv

theorem exists_grammar :
    ∃ found, grammar = .ok found ∧
      found.Numbered declarations numbering (symbol ⟨6⟩) bodies ranks :=
  @Grammar.exists_of_numbering _ ⟨"document", named "_value"⟩ _ _ _ _ _ rfl rfl
    rfl rfl rfl ranked

end JsonValues

namespace MiniGo

/-- The symbols and the tokens, the latest token first. -/
def numbering : Numbering where
  infos :=
    [⟨"func", .literal⟩, ⟨"var", .literal⟩, ⟨"return", .literal⟩,
      ⟨"identifier", .token⟩, ⟨"int_literal", .token⟩,
      ⟨"interpreted_string_literal", .token⟩, ⟨"source_file", .visible⟩,
      ⟨"_top_level", .hidden⟩, ⟨"function_declaration", .visible⟩,
      ⟨"parameter_list", .visible⟩, ⟨"parameter_declaration", .visible⟩,
      ⟨"block", .visible⟩, ⟨"_statement", .hidden⟩,
      ⟨"var_declaration", .visible⟩, ⟨"return_statement", .visible⟩,
      ⟨"_expression", .hidden⟩, ⟨"binary_expression", .visible⟩,
      ⟨"_operand", .hidden⟩, ⟨"parenthesized_expression", .visible⟩,
      ⟨"call_expression", .visible⟩, ⟨"argument_list", .visible⟩,
      ⟨"(", .literal⟩, ⟨",", .literal⟩, ⟨")", .literal⟩, ⟨"\x7b", .literal⟩,
      ⟨"\x7d", .literal⟩, ⟨"=", .literal⟩, ⟨"+", .literal⟩, ⟨"-", .literal⟩,
      ⟨"*", .literal⟩, ⟨"/", .literal⟩, ⟨"==", .literal⟩]
  terminals :=
    [⟨⟨31⟩, .literal (Utf8.encode "==")⟩, ⟨⟨30⟩, .literal (Utf8.encode "/")⟩,
      ⟨⟨29⟩, .literal (Utf8.encode "*")⟩, ⟨⟨28⟩, .literal (Utf8.encode "-")⟩,
      ⟨⟨27⟩, .literal (Utf8.encode "+")⟩, ⟨⟨26⟩, .literal (Utf8.encode "=")⟩,
      ⟨⟨25⟩, .literal (Utf8.encode "\x7d")⟩,
      ⟨⟨24⟩, .literal (Utf8.encode "\x7b")⟩,
      ⟨⟨23⟩, .literal (Utf8.encode ")")⟩, ⟨⟨22⟩, .literal (Utf8.encode ",")⟩,
      ⟨⟨21⟩, .literal (Utf8.encode "(")⟩, ⟨⟨5⟩, .quoted 34⟩, ⟨⟨4⟩, .number⟩,
      ⟨⟨3⟩, .identifier⟩, ⟨⟨2⟩, .literal (Utf8.encode "return")⟩,
      ⟨⟨1⟩, .literal (Utf8.encode "var")⟩,
      ⟨⟨0⟩, .literal (Utf8.encode "func")⟩]

/-- The rules in order. -/
def bodies : List (Rule Symbol) :=
  [.choice [symbol ⟨8⟩, symbol ⟨13⟩],
    .seq [symbol ⟨0⟩, symbol ⟨3⟩, symbol ⟨9⟩, symbol ⟨11⟩],
    .seq
      [symbol ⟨21⟩,
        .opt (.seq [symbol ⟨10⟩, .star (.seq [symbol ⟨22⟩, symbol ⟨10⟩])]),
        symbol ⟨23⟩],
    .seq [symbol ⟨3⟩, symbol ⟨3⟩],
    .seq [symbol ⟨24⟩, .star (symbol ⟨12⟩), symbol ⟨25⟩],
    .choice [symbol ⟨14⟩, symbol ⟨13⟩, symbol ⟨15⟩],
    .seq [symbol ⟨1⟩, symbol ⟨3⟩, symbol ⟨26⟩, symbol ⟨15⟩],
    .seq [symbol ⟨2⟩, .opt (symbol ⟨15⟩)],
    .choice [symbol ⟨16⟩, symbol ⟨17⟩],
    .seq
      [symbol ⟨17⟩,
        .choice
          [symbol ⟨27⟩, symbol ⟨28⟩, symbol ⟨29⟩, symbol ⟨30⟩, symbol ⟨31⟩],
        symbol ⟨15⟩],
    .choice
      [symbol ⟨19⟩, symbol ⟨18⟩, symbol ⟨3⟩, symbol ⟨4⟩, symbol ⟨5⟩],
    .seq [symbol ⟨21⟩, symbol ⟨15⟩, symbol ⟨23⟩],
    .seq [symbol ⟨3⟩, symbol ⟨20⟩],
    .seq
      [symbol ⟨21⟩,
        .opt (.seq [symbol ⟨15⟩, .star (.seq [symbol ⟨22⟩, symbol ⟨15⟩])]),
        symbol ⟨23⟩]]

/-- The ranks of the symbols in order. -/
def ranks : Array Nat :=
  #[0, 1, 2, 3, 4, 5, 9, 8, 6, 10, 11, 12, 19, 7, 13, 18, 17, 16, 15, 14, 20,
    21, 22, 23, 24, 25, 26, 27, 28, 29, 30, 31]

theorem ranked :
    LeftRecursion.ranks (Grammar.ruleTable 6 11 (symbol ⟨7⟩) bodies) =
      .ok ranks := by
  cbv

theorem exists_grammar :
    ∃ found, grammar = .ok found ∧
      found.Numbered declarations numbering (symbol ⟨7⟩) bodies ranks :=
  @Grammar.exists_of_numbering _ ⟨"source_file", named "_top_level"⟩ _ _ _ _ _
    rfl rfl rfl rfl rfl ranked

end MiniGo

end Reparse
