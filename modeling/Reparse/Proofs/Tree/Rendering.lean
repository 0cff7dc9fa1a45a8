import Reparse.Proofs.Tree.Traversal
import Reparse.Tree.Rendering

/-!
# Outlines render trees

While an outline is written, a parenthesis stays open until a node shows that it
lies no deeper.  So what a node contributes is seen only after closing down to
its depth: then the outline has grown by one part, the rendering of the node,
and the parentheses open are those that were open in front of the node.
-/

namespace Reparse

namespace OutlineState

/-! ## Closing -/

/-- The state with the parentheses closed that were opened at `depth` or
below. -/
def closed (state : OutlineState) (depth : Nat) : OutlineState :=
  close depth state.written state.opened

/-- Every open parenthesis was opened above `depth`; only the innermost one is
asked, since closing asks no other. -/
def Settled (depth : Nat) (state : OutlineState) : Prop :=
  ∀ innermost ∈ state.opened.head?, innermost < depth

theorem settled_close (depth : Nat) (written : String) (opened : List Nat) :
    (close depth written opened).Settled depth := by
  induction opened generalizing written with
  | nil =>
      intro innermost member
      cases member
  | cons first outer induction =>
      rw [close]
      split
      · exact induction _
      · next shallow =>
          intro innermost member
          cases member
          exact Nat.lt_of_not_le shallow

theorem settled_closed (state : OutlineState) (depth : Nat) :
    (state.closed depth).Settled depth :=
  settled_close depth state.written state.opened

theorem Settled.mono {state : OutlineState} {depth deeper : Nat}
    (settled : state.Settled depth) (below : depth ≤ deeper) :
    state.Settled deeper :=
  fun innermost member => Nat.lt_of_lt_of_le (settled innermost member) below

theorem Settled.close_eq {state : OutlineState} {depth : Nat}
    (settled : state.Settled depth) (written : String) :
    close depth written state.opened = ⟨written, state.opened⟩ := by
  obtain ⟨_, opened⟩ := state
  cases opened with
  | nil => rfl
  | cons innermost outer =>
      have shallow := settled innermost rfl
      rw [close, if_neg (Nat.not_le_of_lt shallow)]

theorem Settled.closed_eq {state : OutlineState} {depth : Nat}
    (settled : state.Settled depth) : state.closed depth = state :=
  settled.close_eq state.written

/-- Whoever closes further need not have closed before. -/
theorem closed_close {depth outer : Nat} (above : outer ≤ depth)
    (written : String) (opened : List Nat) :
    (close depth written opened).closed outer = close outer written opened := by
  induction opened generalizing written with
  | nil => rfl
  | cons innermost rest induction =>
      rw [close]
      split
      · next deep =>
          rw [induction, close, if_pos (Nat.le_trans above deep)]
      · rfl

theorem closed_closed {depth outer : Nat} (above : outer ≤ depth)
    (state : OutlineState) :
    (state.closed depth).closed outer = state.closed outer :=
  closed_close above state.written state.opened

/-- Closing everything is closing down to the root. -/
theorem finish_eq (state : OutlineState) :
    state.finish = (state.closed 0).written := by
  obtain ⟨written, opened⟩ := state
  rw [finish, closed]
  induction opened generalizing written with
  | nil => rfl
  | cons innermost outer induction =>
      rw [List.foldl_cons, induction, close, if_pos (Nat.zero_le innermost)]

/-! ## Adding parts -/

/-- The text so far with a space after it, if there is any text. -/
def separated (state : OutlineState) : String :=
  if state.written.isEmpty then state.written else state.written.push ' '

/-- The state with one more part written. -/
def add (state : OutlineState) (part : String) : OutlineState :=
  ⟨state.separated ++ part, state.opened⟩

/-- The state with a part written that counts only if it is not empty. -/
def addAny (state : OutlineState) (part : String) : OutlineState :=
  if part.isEmpty then state else state.add part

theorem Settled.addAny {state : OutlineState} {depth : Nat}
    (settled : state.Settled depth) (part : String) :
    (state.addAny part).Settled depth := by
  rw [OutlineState.addAny]
  split
  · exact settled
  · exact settled

theorem openNode_eq (state : OutlineState) (depth : Nat) (name : String) :
    state.openNode depth name =
      ⟨state.separated ++ ("(" ++ name), depth :: state.opened⟩ := by
  rw [openNode, separated, String.push_eq_append, String.append_assoc]
  rfl

theorem separated_of_ne {state : OutlineState} (begun : state.written ≠ "") :
    state.separated = state.written ++ " " := by
  have filled : ¬ state.written.isEmpty := fun empty =>
    begun (String.isEmpty_iff.mp empty)
  rw [separated, if_neg filled, String.push_eq_append]
  rfl

theorem append_ne {front part : String} (filled : part ≠ "") :
    front ++ part ≠ "" :=
  fun empty => filled (String.append_eq_empty_iff.mp empty).2

/-- Behind a first part, parts are written with spaces between them. -/
theorem foldl_add {written : String} (begun : written ≠ "") (opened : List Nat)
    (parts : List String) :
    parts.foldl add ⟨written, opened⟩ =
      ⟨" ".intercalate (written :: parts), opened⟩ := by
  induction parts generalizing written with
  | nil => rw [List.foldl_nil, String.intercalate_singleton]
  | cons part parts induction =>
      have later : written ++ " " ++ part ≠ "" := by
        intro empty
        have front := (String.append_eq_empty_iff.mp empty).1
        exact begun (String.append_eq_empty_iff.mp front).1
      rw [List.foldl_cons, add, separated_of_ne begun, induction later,
        String.intercalate_cons_append, String.intercalate_cons_cons]

theorem intercalate_ne {part : String} (filled : part ≠ "")
    (parts : List String) :
    " ".intercalate (part :: parts) ≠ "" := by
  intro empty
  have whole : " ".intercalate ((part ++ "") :: parts) = "" := by
    rw [String.append_empty, empty]
  rw [String.intercalate_cons_append] at whole
  exact filled (String.append_eq_empty_iff.mp whole).1

/-- Parts that are not empty are written like one part, their join. -/
theorem foldl_add_eq_addAny {parts : List String}
    (filled : ∀ part ∈ parts, part ≠ "") (state : OutlineState) :
    parts.foldl add state = state.addAny (" ".intercalate parts) := by
  cases parts with
  | nil => rfl
  | cons part parts =>
      have first := filled part List.mem_cons_self
      have some : ¬ (" ".intercalate (part :: parts)).isEmpty := fun empty =>
        intercalate_ne first parts (String.isEmpty_iff.mp empty)
      rw [List.foldl_cons, add, foldl_add (append_ne first), addAny,
        if_neg some, add, String.intercalate_cons_append]

/-! ## One node -/

/-- Goes on to one node after the other. -/
def visitAll (grammar : Grammar) (state : OutlineState)
    (visits : List Node.Visit) : OutlineState :=
  visits.foldl (visit grammar) state

theorem visitAll_cons (grammar : Grammar) (state : OutlineState)
    (first : Node.Visit) (later : List Node.Visit) :
    visitAll grammar state (first :: later) =
      visitAll grammar (visit grammar state first) later := rfl

theorem visitAll_append (grammar : Grammar) (state : OutlineState)
    (first later : List Node.Visit) :
    visitAll grammar state (first ++ later) =
      visitAll grammar (visitAll grammar state first) later :=
  List.foldl_append

section

variable {state : OutlineState} {depth : Nat} {parts : List String}
  (settled : state.Settled depth)

include settled

/-- The parts below a named node stand in its parentheses, behind its name. -/
theorem closed_openNode (name : String) (parts : List String) :
    (parts.foldl add
        ((state.openNode depth name).closed (depth + 1))).closed depth =
      state.addAny ("(" ++ " ".intercalate (name :: parts) ++ ")") := by
  have inside : (state.openNode depth name).Settled (depth + 1) := by
    intro innermost member
    cases member
    exact Nat.lt_succ_self depth
  have begun : state.separated ++ ("(" ++ name) ≠ "" := by
    apply append_ne
    intro empty
    exact absurd (String.append_eq_empty_iff.mp empty).1 (by decide)
  have filled : ¬ ("(" ++ " ".intercalate (name :: parts) ++ ")").isEmpty :=
    fun empty => append_ne (by decide) (String.isEmpty_iff.mp empty)
  rw [inside.closed_eq, openNode_eq, foldl_add begun, OutlineState.closed,
    close, if_pos (Nat.le_refl depth), settled.close_eq, addAny, if_neg filled,
    add, String.intercalate_cons_append, String.intercalate_cons_append,
    String.push_eq_append, String.append_assoc, String.append_assoc]
  rfl

/-- The parts below any other node stand for themselves. -/
theorem closed_unnamed (filled : ∀ part ∈ parts, part ≠ "") :
    (parts.foldl add (state.closed (depth + 1))).closed depth =
      state.addAny (" ".intercalate parts) := by
  rw [(settled.mono (Nat.le_succ depth)).closed_eq, foldl_add_eq_addAny filled,
    (settled.addAny _).closed_eq]

end

end OutlineState

namespace Node

theorem renderings_ne {grammar : Grammar} {children : List (Placed Node)}
    {part : String} (member : part ∈ renderings grammar children) :
    part ≠ "" := by
  induction children with
  | nil => cases member
  | cons child rest induction =>
      obtain ⟨_, node⟩ := child
      rw [renderings] at member
      split at member
      · exact induction member
      · next filled =>
          rcases List.mem_cons.mp member with rfl | later
          · intro empty
            exact filled (String.isEmpty_iff.mpr empty)
          · exact induction later

open OutlineState (visitAll visitAll_cons visitAll_append closed_closed
  settled_closed closed_openNode closed_unnamed)

mutual

/-- Once closed down to its depth, a node has added its rendering. -/
theorem closed_preorder (grammar : Grammar) (depth start : Nat)
    (state : OutlineState) :
    ∀ node : Node,
      (visitAll grammar state (node.preorder depth start)).closed depth =
        (state.closed depth).addAny (node.rendering grammar)
  | ⟨stamp, symbol, length, lookahead, damaged, children⟩ => by
      have settled := settled_closed state depth
      have filled : ∀ part ∈ renderings grammar children, part ≠ "" :=
        fun _ member => renderings_ne member
      rw [preorder, visitAll_cons, ← closed_closed (Nat.le_succ depth),
        closed_preorderList grammar (depth + 1) start _ children, rendering]
      by_cases named : grammar.isNamed symbol = true
      · rw [OutlineState.visit, if_pos named, if_pos named]
        exact closed_openNode settled _ _
      · rw [OutlineState.visit, if_neg named, if_neg named]
        exact closed_unnamed settled filled

/-- List counterpart of `Node.closed_preorder`. -/
theorem closed_preorderList (grammar : Grammar) (depth origin : Nat)
    (state : OutlineState) :
    ∀ children : List (Placed Node),
      (visitAll grammar state
          (preorderList depth origin children)).closed depth =
        (renderings grammar children).foldl OutlineState.add
          (state.closed depth)
  | [] => rfl
  | ⟨offset, node⟩ :: rest => by
      rw [preorderList, visitAll_append,
        closed_preorderList grammar depth origin _ rest,
        closed_preorder grammar depth (origin + offset) state node, renderings,
        OutlineState.addAny]
      split
      · rfl
      · rfl

end

end Node

/-! ## The whole tree -/

/-- An outline written on a walk takes in every node met on it. -/
theorem Cursor.writeOutline_of_walk {cursor last : Cursor} {met : List Cursor}
    (walks : cursor.walk next = some (met, last))
    (trees : ∀ moved ∈ met, moved.tree = cursor.tree) (state : OutlineState) :
    cursor.writeOutline state =
      some (OutlineState.visitAll cursor.tree.grammar.value state
        ((cursor :: met).map visit)).finish := by
  induction met generalizing cursor state with
  | nil =>
      obtain ⟨_, stops⟩ | ⟨_, _, impossible, _⟩ := step_of_walk walks
      · rw [writeOutline, stops]
        rfl
      · cases impossible
  | cons first later induction =>
      obtain ⟨impossible, _⟩ | ⟨moved, rest, same, steps, goesOn⟩ :=
        step_of_walk walks
      · cases impossible
      · cases same
        obtain ⟨tree, trees⟩ := List.forall_mem_cons.mp trees
        have behind := induction goesOn
          fun moved member => (trees moved member).trans tree.symm
        rw [writeOutline, steps]
        simp only [behind, tree]
        rfl

/-- Writing goes on at the node of an index with all the nodes from there on. -/
theorem Cursor.Stands.writeOutline {origin cursor : Cursor} {index : Nat}
    (stands : origin.Stands index cursor) (state : OutlineState) :
    cursor.writeOutline state =
      some (OutlineState.visitAll origin.tree.grammar.value state
        (origin.nodesBelow.drop index)).finish := by
  obtain ⟨walks, _, met⟩ := stands.walk_next
  generalize cursor.remaining = remaining at walks met
  obtain ⟨later, last⟩ := remaining
  have tree : cursor.tree = origin.tree := stands.follows.tree
  have trees : ∀ moved ∈ later, moved.tree = cursor.tree :=
    fun moved member => (met.trees moved member).trans tree.symm
  rw [Cursor.writeOutline_of_walk walks trees, List.map_cons, met.visits, tree,
    drop_of_getElem? stands.reaches.visit]

namespace Tree

/-- What is written over a whole tree and closed is the rendering of its
root. -/
theorem finish_visits (tree : Tree) :
    (OutlineState.visitAll tree.grammar.value ⟨"", []⟩
        tree.root.visits).finish =
      tree.root.rendering tree.grammar.value := by
  rw [OutlineState.finish_eq, Node.visits_eq, Node.closed_preorder,
    OutlineState.addAny]
  split
  · next empty => exact (String.isEmpty_iff.mp empty).symm
  · exact String.empty_append

/-- The outline of a tree is the rendering of its root by recursion, whether its
nodes are named, unnamed, or of symbols that the grammar does not know.  Written
node by node on a walk from the root, it comes to an end and is the same
again. -/
theorem outline_renders (tree : Tree) :
    tree.outline = tree.root.rendering tree.grammar.value ∧
      (Cursor.ofTree tree).writeOutline ⟨"", []⟩ =
        some (tree.root.rendering tree.grammar.value) := by
  have written := tree.finish_visits
  constructor
  · rw [OutlineState.finish_eq] at written
    exact written
  · have top : (Cursor.ofTree tree).node.paths[0]? = some [] := by
      rw [Node.paths_eq]
      rfl
    have stands : (Cursor.ofTree tree).Stands 0 (Cursor.ofTree tree) :=
      .of_follows (Cursor.ofTree tree).follows_subtree top
    rw [Node.visits_eq] at written
    rw [stands.writeOutline]
    exact congrArg some written

/-- A root of a symbol that is not known leaves the nodes below it side by
side. -/
example :
    Tree.outline { letters with
      root := ⟨2, ⟨7⟩, 3, 1, false,
        [⟨0, .leaf 0 ⟨0⟩ 1 1⟩, ⟨2, .leaf 1 ⟨0⟩ 1 1⟩]⟩ } =
      "(letter) (letter)" := rfl

end Tree

end Reparse
