import Reparse.Language.JsonValues
import Reparse.Language.MiniGo
import Reparse.Proofs.Grammar.Accepted
import Reparse.Proofs.Token.Nearsight

/-!
# Languages read without looking far ahead

Whether tokens are read without looking far ahead can be told from declarations.
It is so for data values and for the small language of functions.
-/

namespace Reparse

/-- The patterns of all tokens that declarations introduce. -/
def patternsOf (declarations : List Declaration) : List Pattern :=
  (declarations.filterMap Declaration.token?).map TokenDeclaration.pattern ++
    ((declarations.filterMap Declaration.root? ++
      declarations.filterMap Declaration.rule?).flatMap
        fun rule => rule.body.literals).map
          fun text => .literal (Utf8.encode text)

namespace Grammar

variable {name : String} {declarations : List Declaration} {grammar : Grammar}

theorem Built.mem_patternsOf (built : Built name declarations grammar)
    {terminal : Terminal} (member : terminal ∈ grammar.terminals) :
    terminal.pattern ∈ patternsOf declarations := by
  rcases (built.mem_terminals member).2 with
    ⟨token, memberToken, same⟩ | ⟨text, memberText, same⟩
  · rw [← same]
    exact List.mem_append_left _ (List.mem_map_of_mem memberToken)
  · rw [same]
    refine List.mem_append_right _ (List.mem_map.mpr ⟨text, ?_, rfl⟩)
    obtain ⟨rule, memberRule, inside⟩ := List.mem_flatMap.mp memberText
    refine List.mem_flatMap.mpr ⟨rule, ?_, inside⟩
    rcases List.mem_cons.mp memberRule with rfl | later
    · exact List.mem_append_left _
        (List.mem_of_getLast? built.rootDeclared)
    · exact List.mem_append_right _ later

/-- Accepted declarations whose patterns are read without looking far ahead lead
to such a grammar. -/
theorem nearsighted_of_ofDeclarations
    (accepted : ofDeclarations name declarations = .ok grammar)
    (near : Pattern.allNear (declarations.filterMap Declaration.extra?)
      (patternsOf declarations) = true) : grammar.Nearsighted := by
  obtain ⟨built⟩ := built_of_ofDeclarations accepted
  rw [← built.extras_eq] at near
  refine nearsighted_of_allNear (fun _ => built.mem_patternsOf) ?_ near
  intro named
  rcases List.mem_append.mp named with token | literal
  · obtain ⟨token, member, same⟩ := List.mem_map.mp token
    rw [← same]
    exact built.exists_terminal member
  · obtain ⟨_, _, same⟩ := List.mem_map.mp literal
    cases same

end Grammar

theorem JsonValues.nearsighted {grammar : Grammar}
    (accepted : JsonValues.grammar = .ok grammar) : grammar.Nearsighted :=
  Grammar.nearsighted_of_ofDeclarations accepted (by decide +kernel)

theorem MiniGo.nearsighted {grammar : Grammar}
    (accepted : MiniGo.grammar = .ok grammar) : grammar.Nearsighted :=
  Grammar.nearsighted_of_ofDeclarations accepted (by decide +kernel)

end Reparse
