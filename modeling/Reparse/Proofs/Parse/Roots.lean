import Reparse.Proofs.Pairs
import Reparse.Proofs.Parse.Soundness

/-!
# Roots

The children of a root are sound, error nodes included, and two derivations of
one text find the same children whether or not nodes were taken over.
-/

namespace Reparse

namespace Setting

section

variable {setting : Setting} {supply : Nat} {text : List UInt8}
  (regular : setting.grammar.Regular)
  (read : setting.grammar.tokenize text = .ok setting.tokens)
  (offers : setting.Offers text) (anchored : setting.Anchored)

include read in
/-- No token of a run was examined further than the last one, as long as
tokens are read without looking far ahead. -/
theorem examinedEnd_le_last (nearsighted : setting.grammar.Nearsighted)
    {index last : Nat} {token lastToken : Token} (before : index ≤ last)
    (here : setting.tokens.get? index = some token)
    (lastHere : setting.tokens.get? last = some lastToken) :
    token.examinedEnd ≤ lastToken.examinedEnd := by
  rcases Nat.lt_or_eq_of_le before with earlier | rfl
  · have near := nearsighted.token read here
    have edges := Grammar.edge_le_edge read earlier
      (Nat.le_of_lt (TokenList.lt_size_of_get? lastHere))
    rw [TokenList.edge_succ here] at edges
    have bounds := Grammar.span_bounds read lastHere
    omega
  · rw [here] at lastHere
    cases lastHere
    exact Nat.le_refl _

/-- A leaf of an error node over the tokens from `first` up to `last` stands for
one of them. -/
structure SetAside (setting : Setting) (text : List UInt8) (first : Nat)
    (last : Token) (leaf : Placed Node) (index : Nat) (token : Token) :
    Prop where
  here : setting.tokens.get? index = some token
  symbol : leaf.item.symbol = token.symbol
  offset : leaf.offset = token.span.start - setting.tokens.startOf first
  after : setting.tokens.startOf first ≤ token.span.start
  before : token.span.stop ≤ last.span.stop
  fits : setting.Fits text index (index + 1) token.examinedEnd
    ⟨token.span.start, leaf.item⟩

include regular read offers anchored in
theorem exists_setAside {first stop : Nat} {last : Token}
    {leaves : List (Placed Node)} (within : stop ≤ setting.tokens.size)
    (before : first < stop)
    (lastHere : setting.tokens.get? (stop - 1) = some last)
    (leavesFor : List.Forall₂
      (setting.LeafWithin supply (setting.tokens.startOf first))
      (setting.tokens.tokens.extract first stop).toList leaves)
    {leaf : Placed Node} (member : leaf ∈ leaves) :
    ∃ index token, index ≤ stop - 1 ∧
      setting.SetAside text first last leaf index token := by
  obtain ⟨token, memberToken, leafWithin⟩ :=
    exists_of_forall₂_right leavesFor member
  obtain ⟨index, after, below, here⟩ := mem_extract memberToken
  obtain ⟨starts, edges⟩ :=
    bounds_of_extract read within after below here lastHere
  exact ⟨index, token, by omega, here, leafWithin.leaf.symbol_eq,
    leafWithin.offset, starts, edges,
    fits_leaf regular read offers anchored here leafWithin.leaf⟩

include regular read offers anchored in
/-- The error node over tokens set aside is sound. -/
theorem ErrorsFor.sound {first? : Option Nat} {stop : Nat}
    {errors : List (Placed Node)}
    (errorsFor : setting.ErrorsFor supply stop first? errors)
    (within : stop ≤ setting.tokens.size) :
    ∀ placed ∈ errors,
      placed.item.Sound setting.grammar text placed.offset ∧
        placed.stop ≤ text.length := by
  cases errorsFor with
  | nothing => exact List.forall_mem_nil _
  | @node first stamp last leaves found leavesFor fresh =>
      intro placed member
      cases List.mem_singleton.mp member
      obtain ⟨before, lastHere⟩ := last_of_extract within found
      have firstInside := Nat.lt_of_lt_of_le before within
      obtain ⟨firstToken, firstHere⟩ := TokenList.get?_of_lt firstInside
      have startFirst := TokenList.startOf_of_get? firstHere
      have lastBounds := Grammar.span_bounds read lastHere
      have ordered := Grammar.startOf_le_startOf read
        (Nat.le_sub_one_of_lt before) (TokenList.lt_size_of_get? lastHere)
      rw [TokenList.startOf_of_get? lastHere] at ordered
      have setAside : ∀ leaf ∈ leaves, ∃ index token, index ≤ stop - 1 ∧
          setting.SetAside text first last leaf index token :=
        fun leaf => exists_setAside regular read offers anchored within before
          lastHere leavesFor
      refine ⟨.node rfl ?_ ?_ ?_ ?_ ?_ ?_, ?_⟩
      · simp only
        omega
      · exact fun isTerminal => nomatch isTerminal
      · exact fun _ named => absurd rfl named
      · intro leaf memberLeaf
        obtain ⟨index, token, _, aside⟩ := setAside leaf memberLeaf
        have before := aside.fits.before
        have stops := aside.before
        have after := aside.after
        rw [TokenList.edge_succ aside.here] at before
        simp only [Placed.stop, aside.offset] at before ⊢
        omega
      · intro leaf memberLeaf accountable
        obtain ⟨index, token, below, aside⟩ := setAside leaf memberLeaf
        have covered := aside.fits.covered accountable
        have isTerminal := isTerminal_of_get? regular read aside.here
        have examined := examinedEnd_le_last read
          (accountable (aside.symbol ▸ isTerminal)) below aside.here lastHere
        have after := aside.after
        simp only [Placed.stop, aside.offset] at covered ⊢
        omega
      · intro leaf memberLeaf
        obtain ⟨index, token, _, aside⟩ := setAside leaf memberLeaf
        have same : setting.tokens.startOf first + leaf.offset =
            token.span.start := by
          have after := aside.after
          rw [aside.offset]
          omega
        simp only [same]
        exact aside.fits.sound
      · simp only [Placed.stop]
        omega

include regular read offers anchored in
/-- Every child of the root is sound and lies within the text. -/
theorem RootRuns.sound {item : Rule Symbol} {position : Nat}
    {first? : Option Nat} {nodes : List (Placed Node)}
    (rootRuns : setting.RootRuns supply item position first? nodes) :
    ∀ placed ∈ nodes,
      placed.item.Sound setting.grammar text placed.offset ∧
        placed.stop ≤ text.length := by
  induction rootRuns with
  | done _ errorsFor =>
      exact errorsFor.sound regular read offers anchored (Nat.le_refl _)
  | @item position examined first? found errors rest inside moved runs
      errorsFor _ induction =>
      have within := Nat.le_of_lt inside
      intro placed member
      rcases List.mem_append.mp member with error | later
      · exact errorsFor.sound regular read offers anchored within placed error
      · rcases List.mem_append.mp later with here | there
        · have fit := runs.fits regular read offers anchored within rfl placed
            here
          obtain ⟨_, insideNext⟩ := (runs.advance read rfl).resolve_left
            fun stuck => absurd stuck.1 (Nat.ne_of_gt moved)
          exact ⟨fit.sound, Nat.le_trans fit.before
            (Grammar.edge_le_length read insideNext)⟩
        · exact induction placed there
  | skip _ _ _ _ induction => exact induction

end

/-- The setting without an edited tree. -/
def alone (setting : Setting) (memoize : Bool) : Setting :=
  ⟨setting.grammar, setting.tokens, none, Catalogue.ofNode? none, memoize⟩

section

variable {setting : Setting} {memoize : Bool}

theorem findReusable?_alone (symbol : Symbol) (start : Nat) :
    (setting.alone memoize).findReusable? symbol start = none := by
  rw [findReusable?_eq]
  rfl

theorem offers_alone (text : List UInt8) :
    (setting.alone memoize).Offers text := by
  intro symbol start node found
  rw [findReusable?_alone] at found
  cases found

theorem anchored_alone : (setting.alone memoize).Anchored := by
  intro symbol rule position next examined node placed _ _ offered
  obtain ⟨_, _, _, found, _⟩ := reusable?_eq_some offered
  rw [findReusable?_alone] at found
  cases found

end

/-- Some place lies behind everything that was examined for tokens. -/
theorem exists_reach (list : TokenList) (least : Nat) :
    ∃ reach, least ≤ reach ∧
      ∀ position, list.examinedEnd position ≤ reach := by
  have bounded : ∀ tokens : List Token,
      ∃ reach, ∀ token ∈ tokens, token.examinedEnd ≤ reach := by
    intro tokens
    induction tokens with
    | nil => exact ⟨0, List.forall_mem_nil _⟩
    | cons token tokens induction =>
        obtain ⟨reach, bound⟩ := induction
        refine ⟨max token.examinedEnd reach, ?_⟩
        intro other member
        rcases List.mem_cons.mp member with rfl | later
        · exact Nat.le_max_left _ _
        · exact Nat.le_trans (bound other later) (Nat.le_max_right _ _)
  obtain ⟨reach, bound⟩ := bounded list.tokens.toList
  refine ⟨max least (max reach list.endExamined), Nat.le_max_left _ _, ?_⟩
  intro position
  rw [TokenList.examinedEnd]
  split
  · next token here =>
      have member : token ∈ list.tokens.toList :=
        Array.mem_toList_iff.mpr (Array.mem_of_getElem? here)
      have := bound token member
      omega
  · omega

theorem contentList_contentList_of (children : List (Placed Node))
    (inner : ∀ child ∈ children,
      child.item.content.content = child.item.content) :
    Node.contentList (Node.contentList children) =
      Node.contentList children := by
  induction children with
  | nil => rfl
  | cons child children induction =>
      simp only [Node.contentList,
        inner child List.mem_cons_self,
        induction fun other member =>
          inner other (List.mem_cons_of_mem _ member)]

theorem content_content (node : Node) :
    node.content.content = node.content := by
  induction node using Node.induction_on_children with
  | step node induction =>
      cases node
      simp only [Node.content, contentList_contentList_of _ induction]

section

variable {setting : Setting} {supply : Nat} {text : List UInt8}
  (regular : setting.grammar.Regular)
  (read : setting.grammar.tokenize text = .ok setting.tokens)
  (offers : setting.Offers text)

/-- Nodes that look like the contents of others look like the others. -/
theorem alike_of_contentList {nodes twins : List (Placed Node)}
    (alike : List.Forall₂ (Alike setting.grammar 0 0) nodes
      (Node.contentList twins)) :
    List.Forall₂ (Alike setting.grammar 0 0) nodes twins := by
  induction twins generalizing nodes with
  | nil =>
      cases alike
      exact .nil
  | cons twin twins induction =>
      cases alike with
      | cons first rest =>
          refine .cons ⟨first.level, ?_, fun nearsighted => ?_⟩
            (induction rest)
          · exact first.shape.trans (Node.shape_content _)
          · exact (first.content nearsighted).trans (content_content _)

include regular read offers in
/-- A rule has the same outcome whether or not nodes are taken over. -/
theorem Runs.alongside_alone {memoize : Bool} {supplyAlone : Nat}
    {rule : Rule Symbol} {position examined examinedAlone : Nat}
    {outcome twin : Option RuleMatch}
    (runs : setting.Runs supply rule position outcome examined)
    (runsAlone : (setting.alone memoize).Runs supplyAlone rule position twin
      examinedAlone)
    (within : position ≤ setting.tokens.size) :
    (outcome = none ∧ twin = none) ∨
      ∃ found foundAlone, outcome = some found ∧ twin = some foundAlone ∧
        found.next = foundAlone.next ∧
          List.Forall₂ (Alike setting.grammar 0 0) found.nodes
            foundAlone.nodes := by
  obtain ⟨reach, least, behind⟩ := exists_reach setting.tokens examined
  have derived := runsAlone.matched rfl
  have aligned : Aligned setting.grammar text text setting.tokens
      setting.tokens 0 0 position position := by
    have resumes := Grammar.resumes_edge read within
    exact ⟨within, _, _, ⟨setting.tokens.edge position,
      (Nat.zero_add _).symm, (Nat.zero_add _).symm⟩, resumes, resumes⟩
  have alongside :=
    (runs.inStep read read (AgreeFor.refl (reach - 0) (text.drop 0))
      (offers.honest regular read) (fun _ _ _ _ => behind _) regular.unruled
      derived aligned least).alongside
  cases twin with
  | none =>
      cases alongside
      exact .inl ⟨rfl, rfl⟩
  | some foundAlone =>
      obtain ⟨nextAlone, nodesAlone⟩ := foundAlone
      refine .inr ?_
      simp only [Option.map_some, RuleMatch.content] at alongside
      generalize contents : Node.contentList nodesAlone = twins at alongside
      cases alongside with
      | idle =>
          refine ⟨_, _, rfl, rfl, rfl, alike_of_contentList ?_⟩
          rw [contents]
          exact .nil
      | moved _ inside _ insideAlone level alike =>
          obtain ⟨distance, left, right⟩ := level
          refine ⟨_, _, rfl, rfl, ?_, alike_of_contentList (contents ▸ alike)⟩
          exact Grammar.eq_of_edge_eq read inside insideAlone
            (left.trans right.symm)

/-- Lists of nodes that look the same where they are have the same shapes. -/
theorem shapeList_eq {grammar : Grammar} {nodes twins : List (Placed Node)}
    (alike : List.Forall₂ (Alike grammar 0 0) nodes twins) :
    Node.shapeList nodes = Node.shapeList twins := by
  have same := shapeList_of_alike alike ⟨0, rfl, rfl⟩
  simpa using same

theorem contentList_eq {grammar : Grammar} {nodes twins : List (Placed Node)}
    (nearsighted : grammar.Nearsighted)
    (alike : List.Forall₂ (Alike grammar 0 0) nodes twins) :
    Node.contentList nodes = Node.contentList twins := by
  have same := contentList_of_alike nearsighted alike ⟨0, rfl, rfl⟩
  simpa using same

include regular read offers in
/-- The leaves of tokens set aside look the same. -/
theorem leaves_alike_alone {memoize : Bool} {supplyAlone start : Nat}
    {tokens : List Token} {leaves twins : List (Placed Node)}
    (known : ∀ token ∈ tokens, ∃ index,
      setting.tokens.get? index = some token)
    (within : List.Forall₂ (setting.LeafWithin supply start) tokens leaves)
    (withinAlone : List.Forall₂
      ((setting.alone memoize).LeafWithin supplyAlone start) tokens twins) :
    List.Forall₂ (Alike setting.grammar 0 0) leaves twins := by
  induction within generalizing twins with
  | nil =>
      cases withinAlone
      exact .nil
  | @cons token leaf tokens leaves leafWithin _ induction =>
      cases withinAlone with
      | @cons _ twin _ twins twinWithin rest =>
          obtain ⟨index, here⟩ := known token List.mem_cons_self
          obtain ⟨shape, content⟩ :=
            leafWithin.leaf.content_eq (offers.honest regular read) here
          have honestAlone : (setting.alone memoize).Honest text :=
            Offers.honest regular read (offers_alone text)
          obtain ⟨shapeAlone, contentAlone⟩ :=
            twinWithin.leaf.content_eq honestAlone here
          refine .cons ⟨⟨leaf.offset, (Nat.zero_add _).symm, ?_⟩,
            shape.trans shapeAlone.symm, fun nearsighted => ?_⟩ ?_
          · rw [leafWithin.offset, twinWithin.offset, Nat.zero_add]
          · exact (content nearsighted).trans (contentAlone nearsighted).symm
          · exact induction
              (fun other member => known other (List.mem_cons_of_mem _ member))
              rest

include regular read offers in
/-- Tokens set aside end up in error nodes that look the same. -/
theorem ErrorsFor.alike_alone {memoize : Bool} {supplyAlone stop : Nat}
    {first? : Option Nat} {errors twins : List (Placed Node)}
    (errorsFor : setting.ErrorsFor supply stop first? errors)
    (errorsAlone :
      (setting.alone memoize).ErrorsFor supplyAlone stop first? twins) :
    List.Forall₂ (Alike setting.grammar 0 0) errors twins := by
  cases errorsFor with
  | nothing =>
      cases errorsAlone
      exact .nil
  | @node first stamp last leaves found leavesFor _ =>
      cases errorsAlone with
      | @node _ stampAlone lastAlone leavesAlone foundAlone leavesForAlone _ =>
          have sameLast : last = lastAlone :=
            Option.some.inj (found.symm.trans foundAlone)
          subst sameLast
          have leavesAlike : List.Forall₂ (Alike setting.grammar 0 0) leaves
              leavesAlone := by
            refine leaves_alike_alone regular read offers ?_ leavesFor
              leavesForAlone
            intro token member
            obtain ⟨index, _, _, here⟩ := mem_extract member
            exact ⟨index, here⟩
          refine .cons ⟨⟨_, (Nat.zero_add _).symm, (Nat.zero_add _).symm⟩,
            ?_, fun nearsighted => ?_⟩ .nil
          · simp only [Node.shape, shapeList_eq leavesAlike]
            rfl
          · simp only [Node.content, contentList_eq nearsighted leavesAlike]
            rfl

include regular read offers in
/-- The children of the root look the same whether or not nodes are taken
over. -/
theorem RootRuns.alike_alone {memoize : Bool} {supplyAlone : Nat}
    {item : Rule Symbol} {position : Nat} {first? : Option Nat}
    {nodes twins : List (Placed Node)}
    (rootRuns : setting.RootRuns supply item position first? nodes)
    (rootRunsAlone :
      (setting.alone memoize).RootRuns supplyAlone item position first?
        twins) :
    List.Forall₂ (Alike setting.grammar 0 0) nodes twins := by
  induction rootRuns generalizing twins with
  | done outside errorsFor =>
      cases rootRunsAlone with
      | done _ errorsAlone =>
          exact errorsFor.alike_alone regular read offers errorsAlone
      | item inside | skip inside =>
          exact absurd inside (Nat.not_lt_of_le outside)
  | @item position examined first? found errors rest inside moved runs
      errorsFor _ induction =>
      cases rootRunsAlone with
      | done outside => exact absurd inside (Nat.not_lt_of_le outside)
      | @item _ _ _ foundAlone _ _ _ _ runsAlone errorsAlone restAlone =>
          have within := Nat.le_of_lt inside
          rcases runs.alongside_alone regular read offers runsAlone within with
            ⟨none, _⟩ | ⟨_, _, same, sameAlone, next, alike⟩
          · cases none
          · cases same
            cases sameAlone
            rw [← next] at restAlone
            exact List.rel_append
              (errorsFor.alike_alone regular read offers errorsAlone)
              (List.rel_append alike (induction restAlone))
      -- The two get equally far, so neither skips what the other one keeps.
      | skip _ runsAlone stuck =>
          rcases runs.alongside_alone regular read offers runsAlone
            (Nat.le_of_lt inside) with
            ⟨none, _⟩ | ⟨_, _, same, sameAlone, next, _⟩
          · cases none
          · cases same
            have := stuck _ sameAlone
            omega
  | @skip position examined first? outcome rest inside runs stuck _
      induction =>
      cases rootRunsAlone with
      | done outside => exact absurd inside (Nat.not_lt_of_le outside)
      | item _ moved runsAlone =>
          rcases runs.alongside_alone regular read offers runsAlone
            (Nat.le_of_lt inside) with
            ⟨_, none⟩ | ⟨_, _, same, sameAlone, next, _⟩
          · cases none
          · cases sameAlone
            have := stuck _ same
            omega
      | skip _ _ _ restAlone => exact induction restAlone

end

end Setting

end Reparse
