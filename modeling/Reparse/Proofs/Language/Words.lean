import Mathlib
import Reparse.Proofs.Grammar.Numbering
import Reparse.Proofs.Token.Edges

/-!
# A language of words

A text of this language is a sequence of words, and a word is a name.  No
smaller language has a rule below its root.
-/

namespace Reparse

namespace Words

open Rule

/-- All declarations of the language. -/
def declarations : List Declaration :=
  [.token "name" .identifier, .extra .whitespace, .root "text" (named "word"),
    .rule "word" (named "name")]

/-- The symbols and the one token. -/
def numbering : Numbering where
  infos := [⟨"name", .token⟩, ⟨"text", .visible⟩, ⟨"word", .visible⟩]
  terminals := [⟨⟨0⟩, .identifier⟩]

theorem ranked :
    LeftRecursion.ranks
        (Grammar.ruleTable 1 0 (symbol ⟨2⟩) [symbol ⟨0⟩]) =
      .ok #[0, 2, 1] := by
  cbv

/-- The grammar is the one of the language. -/
def Describes (grammar : Grammar) : Prop :=
  grammar.Numbered declarations numbering (symbol ⟨2⟩) [symbol ⟨0⟩] #[0, 2, 1]

theorem exists_grammar :
    ∃ grammar, Grammar.ofDeclarations "words" declarations = .ok grammar ∧
      Describes grammar :=
  @Grammar.exists_of_numbering _ ⟨"text", named "word"⟩ _ _ _ _ _ rfl rfl rfl
    rfl rfl ranked

/-- The token of a text of one letter behind some blanks. -/
def tokens (blanks : Nat) : TokenList :=
  ⟨#[⟨⟨0⟩, ⟨blanks, blanks + 1⟩, blanks + 2⟩], blanks + 2, blanks + 1⟩

theorem tokenize_letter {grammar : Grammar} (describes : Describes grammar) :
    grammar.tokenize [97] = .ok (tokens 0) ∧
      grammar.tokenize [32, 97] = .ok (tokens 1) := by
  have name : Lexeme.read grammar.terminals grammar.extras [97] =
      .lexeme ⟨⟨0⟩, 0, 1, 2, Nat.one_pos⟩ := by
    rw [describes.terminals, describes.extras]
    cbv
  have behind : Lexeme.read grammar.terminals grammar.extras [32, 97] =
      .lexeme ⟨⟨0⟩, 1, 1, 3, Nat.one_pos⟩ := by
    rw [describes.terminals, describes.extras]
    cbv
  have finished : Lexeme.read grammar.terminals grammar.extras [] =
      .finished 1 := by
    rw [describes.terminals, describes.extras]
    cbv
  rw [Grammar.tokenize, Grammar.tokensFrom_of_lexeme name, Grammar.tokenize,
    Grammar.tokensFrom_of_lexeme behind]
  exact ⟨Grammar.tokensFrom_of_finished finished _ _,
    Grammar.tokensFrom_of_finished finished _ _⟩

/-- The tokens of a letter and, behind a blank, of a name of some length. -/
def pair (length : Nat) : TokenList :=
  ⟨#[⟨⟨0⟩, ⟨0, 1⟩, 2⟩, ⟨⟨0⟩, ⟨2, length + 2⟩, length + 3⟩], length + 3,
    length + 2⟩

theorem tokenize_pair {grammar : Grammar} (describes : Describes grammar)
    {name : List UInt8}
    (known : name = [98] ∨ name = [98, 99] ∨ name = [98, 99, 100]) :
    grammar.tokenize (97 :: 32 :: name) = .ok (pair name.length) := by
  have letter : Lexeme.read grammar.terminals grammar.extras
        (97 :: 32 :: name) =
      .lexeme ⟨⟨0⟩, 0, 1, 2, Nat.one_pos⟩ := by
    rw [describes.terminals, describes.extras]
    rcases known with rfl | rfl | rfl
    · cbv
    · cbv
    · cbv
  have finished : Lexeme.read grammar.terminals grammar.extras [] =
      .finished 1 := by
    rw [describes.terminals, describes.extras]
    cbv
  have behind : ∃ filled, Lexeme.read grammar.terminals grammar.extras
        (32 :: name) =
      .lexeme ⟨⟨0⟩, 1, name.length, name.length + 2, filled⟩ := by
    rw [describes.terminals, describes.extras]
    rcases known with rfl | rfl | rfl
    · exact ⟨by decide, by cbv⟩
    · exact ⟨by decide, by cbv⟩
    · exact ⟨by decide, by cbv⟩
  obtain ⟨filled, behind⟩ := behind
  rw [Grammar.tokenize, Grammar.tokensFrom_of_lexeme letter]
  rcases known with rfl | rfl | rfl
  · apply (Grammar.tokensFrom_of_lexeme behind _ _).trans
    exact Grammar.tokensFrom_of_finished finished _ _
  · apply (Grammar.tokensFrom_of_lexeme behind _ _).trans
    exact Grammar.tokensFrom_of_finished finished _ _
  · apply (Grammar.tokensFrom_of_lexeme behind _ _).trans
    exact Grammar.tokensFrom_of_finished finished _ _

section

variable {grammar : Grammar} (describes : Describes grammar)

include describes

theorem isTerminal_name : grammar.isTerminal ⟨0⟩ = true := by
  rw [Grammar.isTerminal, Grammar.kind?, describes.symbols]
  rfl

theorem isTerminal_word : grammar.isTerminal ⟨2⟩ = false := by
  rw [Grammar.isTerminal, Grammar.kind?, describes.symbols]
  rfl

theorem isHidden_word : grammar.isHidden ⟨2⟩ = false := by
  rw [Grammar.isHidden, Grammar.kind?, describes.symbols]
  rfl

theorem rule?_root :
    grammar.rule? grammar.root = some (.star (symbol ⟨2⟩)) := by
  rw [Grammar.rule?, RuleTable.rule?, describes.root, describes.rules]
  rfl

theorem rule?_word : grammar.rule? ⟨2⟩ = some (symbol ⟨0⟩) := by
  rw [Grammar.rule?, RuleTable.rule?, describes.rules]
  rfl

theorem rank_word : grammar.rank ⟨2⟩ < grammar.symbolCount := by
  rw [Grammar.rank, Grammar.symbolCount, describes.ranks, describes.symbols]
  decide

end

end Words

end Reparse
