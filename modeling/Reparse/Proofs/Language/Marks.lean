import Mathlib
import Reparse.Proofs.Grammar.Numbering
import Reparse.Proofs.Token.Edges

/-!
# A language of marks

A text of this language is a sequence of quotations.  A quotation mark that is
never closed is read as a token of its own, which takes looking at all of the
text; the stop behind it is read without looking any further.
-/

namespace Reparse

namespace Marks

open Rule

/-- All declarations of the language. -/
def declarations : List Declaration :=
  [.token "text" (.quoted 34), .token "mark" (.literal [34]),
    .token "stop" (.literal [59]), .root "file" (named "text")]

/-- The symbols and the tokens. -/
def numbering : Numbering where
  infos := [⟨"text", .token⟩, ⟨"mark", .token⟩, ⟨"stop", .token⟩,
    ⟨"file", .visible⟩]
  terminals := [⟨⟨2⟩, .literal [59]⟩, ⟨⟨1⟩, .literal [34]⟩, ⟨⟨0⟩, .quoted 34⟩]

theorem ranked :
    LeftRecursion.ranks (Grammar.ruleTable 3 0 (symbol ⟨0⟩) []) =
      .ok #[0, 1, 2, 3] := by
  cbv

/-- The grammar is the one of the language. -/
def Describes (grammar : Grammar) : Prop :=
  grammar.Numbered declarations numbering (symbol ⟨0⟩) [] #[0, 1, 2, 3]

theorem exists_grammar :
    ∃ grammar, Grammar.ofDeclarations "marks" declarations = .ok grammar ∧
      Describes grammar :=
  @Grammar.exists_of_numbering _ ⟨"file", named "text"⟩ _ _ _ _ _ rfl rfl rfl
    rfl rfl ranked

/-- The tokens of a text of a mark and a stop. -/
def tokens : TokenList :=
  ⟨#[⟨⟨1⟩, ⟨0, 1⟩, 3⟩, ⟨⟨2⟩, ⟨1, 2⟩, 2⟩], 3, 2⟩

/-- Two quotations with two stops between them. -/
def quotations : List UInt8 := [34, 97, 34, 59, 59, 34, 98, 34]

def quotationTokens : TokenList :=
  ⟨#[⟨⟨0⟩, ⟨0, 3⟩, 3⟩, ⟨⟨2⟩, ⟨3, 4⟩, 4⟩, ⟨⟨2⟩, ⟨4, 5⟩, 5⟩,
    ⟨⟨0⟩, ⟨5, 8⟩, 8⟩], 9, 8⟩

section

variable {grammar : Grammar} (describes : Describes grammar)

include describes

theorem tokenize_mark_stop : grammar.tokenize [34, 59] = .ok tokens := by
  have mark : Lexeme.read grammar.terminals grammar.extras [34, 59] =
      .lexeme ⟨⟨1⟩, 0, 1, 3, Nat.one_pos⟩ := by
    rw [describes.terminals, describes.extras]
    cbv
  have stop : Lexeme.read grammar.terminals grammar.extras [59] =
      .lexeme ⟨⟨2⟩, 0, 1, 1, Nat.one_pos⟩ := by
    rw [describes.terminals, describes.extras]
    cbv
  have finished : Lexeme.read grammar.terminals grammar.extras [] =
      .finished 1 := by
    rw [describes.terminals, describes.extras]
    cbv
  rw [Grammar.tokenize, Grammar.tokensFrom_of_lexeme mark]
  exact (Grammar.tokensFrom_of_lexeme stop _ _).trans
    (Grammar.tokensFrom_of_finished finished _ _)

theorem tokenize_quotations :
    grammar.tokenize quotations = .ok quotationTokens := by
  have first : Lexeme.read grammar.terminals grammar.extras quotations =
      .lexeme ⟨⟨0⟩, 0, 3, 3, by decide⟩ := by
    rw [describes.terminals, describes.extras]
    cbv
  have stop : Lexeme.read grammar.terminals grammar.extras
        [59, 59, 34, 98, 34] =
      .lexeme ⟨⟨2⟩, 0, 1, 1, Nat.one_pos⟩ := by
    rw [describes.terminals, describes.extras]
    cbv
  have another : Lexeme.read grammar.terminals grammar.extras
        [59, 34, 98, 34] =
      .lexeme ⟨⟨2⟩, 0, 1, 1, Nat.one_pos⟩ := by
    rw [describes.terminals, describes.extras]
    cbv
  have last : Lexeme.read grammar.terminals grammar.extras [34, 98, 34] =
      .lexeme ⟨⟨0⟩, 0, 3, 3, by decide⟩ := by
    rw [describes.terminals, describes.extras]
    cbv
  have finished : Lexeme.read grammar.terminals grammar.extras [] =
      .finished 1 := by
    rw [describes.terminals, describes.extras]
    cbv
  rw [Grammar.tokenize, Grammar.tokensFrom_of_lexeme first]
  apply (Grammar.tokensFrom_of_lexeme stop _ _).trans
  apply (Grammar.tokensFrom_of_lexeme another _ _).trans
  apply (Grammar.tokensFrom_of_lexeme last _ _).trans
  exact Grammar.tokensFrom_of_finished finished _ _

theorem isTerminal_text : grammar.isTerminal ⟨0⟩ = true := by
  rw [Grammar.isTerminal, Grammar.kind?, describes.symbols]
  rfl

theorem rule?_root :
    grammar.rule? grammar.root = some (.star (symbol ⟨0⟩)) := by
  rw [Grammar.rule?, RuleTable.rule?, describes.root, describes.rules]
  rfl

end

end Marks

end Reparse
