import Reparse.Proofs.Tree.Correspondence
import Reparse.Tree.PathCursor

/-!
# Cursors stand where their paths lead

A cursor keeps its node, the place of the node and a trail of steps beside each
other, and every move updates some of them.  Nothing of this is more than the
path of child indices says.  The trail of a cursor leads to its node, and every
step keeps that; so a walk of steps can be replayed on paths alone, where the
neighbours of a node are the neighbours of its path in the list of all paths.
-/

namespace Reparse

namespace Node

theorem paths_eq (node : Node) :
    node.paths = [] :: pathsList 0 node.children := by
  cases node
  rfl

/-- The paths into the children, parted at one of them. -/
theorem pathsList_eq_of_getElem? {children : List (Placed Node)}
    {first index : Nat} {child : Placed Node}
    (found : children[index]? = some child) :
    pathsList first children =
      pathsList first (children.take index) ++
        (child.item.paths.map ((first + index) :: ·) ++
          pathsList (first + index + 1) (children.drop (index + 1))) := by
  induction children generalizing first index with
  | nil => simp at found
  | cons head rest induction =>
      cases index with
      | zero =>
          cases found
          simp [pathsList]
      | succ index =>
          have later := @induction (first + 1) index found
          rw [List.take_succ_cons, List.drop_succ_cons, pathsList, pathsList,
            later, List.append_assoc, Nat.add_right_comm first 1 index]
          rfl

theorem getLast?_pathsList {children : List (Placed Node)} {first : Nat}
    {child : Placed Node} (last : children.getLast? = some child) :
    (pathsList first children).getLast? =
      child.item.paths.getLast?.map
        ((first + (children.length - 1)) :: ·) := by
  have found := List.getLast?_eq_getElem?.symm.trans last
  have none : children.drop (children.length - 1 + 1) = [] := by
    apply List.drop_eq_nil_of_le
    omega
  rw [pathsList_eq_of_getElem? found, none, pathsList, List.append_nil,
    List.getLast?_append, List.getLast?_map, paths_eq child.item,
    List.getLast?_cons]
  rfl

/-- Paths into children lead to a child and on from there. -/
theorem exists_child_of_mem_pathsList {children : List (Placed Node)}
    {first : Nat} {path : List Nat}
    (member : path ∈ pathsList first children) :
    ∃ index child below, children[index]? = some child ∧
      path = (first + index) :: below ∧ below ∈ child.item.paths := by
  induction children generalizing first with
  | nil => cases member
  | cons head rest induction =>
      rw [pathsList, List.mem_append] at member
      cases member with
      | inl here =>
          obtain ⟨below, inside, rfl⟩ := List.mem_map.mp here
          exact ⟨0, head, below, rfl, rfl, inside⟩
      | inr later =>
          obtain ⟨index, child, below, found, rfl, inside⟩ := induction later
          refine ⟨index + 1, child, below, found, ?_, inside⟩
          rw [Nat.add_right_comm, Nat.add_assoc]

theorem nodup_pathsList {children : List (Placed Node)} {first : Nat}
    (nodup : ∀ child ∈ children, child.item.paths.Nodup) :
    (pathsList first children).Nodup := by
  induction children generalizing first with
  | nil => simp [pathsList]
  | cons head rest induction =>
      rw [pathsList]
      refine List.nodup_append.mpr ⟨?_, ?_, ?_⟩
      · apply List.Pairwise.map _ _ (nodup head List.mem_cons_self)
        exact fun _ _ different same => different (List.tail_eq_of_cons_eq same)
      · exact induction fun child member =>
          nodup child (List.mem_cons_of_mem head member)
      · rintro path here later found rfl
        obtain ⟨below, _, rfl⟩ := List.mem_map.mp here
        obtain ⟨index, _, _, _, same, _⟩ := exists_child_of_mem_pathsList found
        have : first = first + 1 + index := List.head_eq_of_cons_eq same
        omega

/-- No path is listed twice. -/
theorem nodup_paths (node : Node) : node.paths.Nodup := by
  induction node using induction_on_children with
  | step node induction =>
      obtain ⟨_, _, _, _, _, children⟩ := node
      rw [paths]
      refine List.nodup_cons.mpr ⟨?_, nodup_pathsList induction⟩
      intro member
      obtain ⟨_, _, _, _, impossible, _⟩ := exists_child_of_mem_pathsList member
      cases impossible

end Node

/-! ## Trails -/

/-- Whether a trail leads to a node in its place: every step enters the child at
its index. -/
def LeadsTo : List TrailStep → Placed Node → Prop
  | [], _ => True
  | step :: above, placed =>
      (∃ child, step.parent.child? step.index = some child ∧
        placed = ⟨step.parentStart + child.offset, child.item⟩) ∧
      LeadsTo above ⟨step.parentStart, step.parent⟩

/-- The paths before the last one a trail passes, in the order of the text. -/
def pathsBefore : List TrailStep → List (List Nat)
  | [] => []
  | step :: above =>
      let origin := (above.map TrailStep.index).reverse
      pathsBefore above ++ origin ::
        (Node.pathsList 0 (step.parent.children.take step.index)).map
          (origin ++ ·)

/-- The paths after all those into the node a trail leads to. -/
def pathsAfter : List TrailStep → List (List Nat)
  | [] => []
  | step :: above =>
      let origin := (above.map TrailStep.index).reverse
      (Node.pathsList (step.index + 1)
          (step.parent.children.drop (step.index + 1))).map (origin ++ ·) ++
        pathsAfter above

namespace Cursor

/-- The cursor at the parent, for a step and the trail above it. -/
def behind (cursor : Cursor) (step : TrailStep) (above : List TrailStep) :
    Cursor :=
  { cursor with
    node := step.parent
    start := step.parentStart
    trail := above }

section

variable {cursor : Cursor} {step : TrailStep} {above : List TrailStep}
  (trail : cursor.trail = step :: above)

include trail

theorem path_of_trail :
    cursor.path = (cursor.behind step above).path ++ [step.index] := by
  simp [path, behind, trail]

theorem rootNode_of_trail :
    cursor.rootNode = (cursor.behind step above).rootNode := by
  rw [rootNode, rootNode, trail, behind, List.getLast?_cons]
  cases above.getLast? <;> rfl

theorem rootStart_of_trail :
    cursor.rootStart = (cursor.behind step above).rootStart := by
  rw [rootStart, rootStart, trail, behind, List.getLast?_cons]
  cases above.getLast? <;> rfl

end

section

variable {cursor : Cursor}

theorem up_of_top (top : cursor.trail = []) : cursor.up = none := by
  rw [up, top, ite_self]

theorem sibling_of_top (top : cursor.trail = []) (move : Nat → Option Nat) :
    cursor.sibling move = none := by
  rw [sibling, top, ite_self]

theorem right_of_top (top : cursor.trail = []) : cursor.right = none := by
  rw [right_eq_sibling, sibling_of_top top]

theorem rightOrAbove_eq (cursor : Cursor) :
    cursor.rightOrAbove = cursor.right.or (cursor.up.bind rightOrAbove) := by
  rw [rightOrAbove]
  cases cursor.right with
  | some moved => rfl
  | none =>
      simp only [Option.none_or]
      split
      · next moved =>
          rw [moved]
          rfl
      · next top =>
          rw [top]
          rfl

variable {step : TrailStep} {above : List TrailStep}
  (unspent : cursor.exhausted = false) (trail : cursor.trail = step :: above)

include unspent trail

theorem up_of_trail : cursor.up = some (cursor.behind step above) := by
  rw [up, if_neg (Bool.eq_false_iff.mp unspent), trail]
  rfl

/-- A sibling of the current node is a child of its parent. -/
theorem sibling_of_trail (move : Nat → Option Nat) :
    cursor.sibling move =
      (move step.index).bind fun index =>
        (step.parent.child? index).map
          ((cursor.behind step above).enter index) := by
  rw [sibling, if_neg (Bool.eq_false_iff.mp unspent), trail]
  simp only
  cases move step.index <;> rfl

theorem right_of_trail :
    cursor.right =
      (step.parent.child? (step.index + 1)).map
        ((cursor.behind step above).enter (step.index + 1)) := by
  rw [right_eq_sibling, sibling_of_trail unspent trail]
  rfl

end

/-- The path of a cursor whose trail leads to its node leads there, too. -/
theorem locate?_path {cursor : Cursor}
    (leads : LeadsTo cursor.trail ⟨cursor.start, cursor.node⟩) :
    cursor.rootNode.locate? cursor.rootStart cursor.path =
      some ⟨cursor.start, cursor.node⟩ := by
  generalize trail : cursor.trail = steps at leads
  induction steps generalizing cursor with
  | nil => simp [rootNode, rootStart, path, trail, Node.locate?]
  | cons step above induction =>
      obtain ⟨⟨child, entered, here⟩, leadsAbove⟩ := leads
      have outer := @induction (cursor.behind step above) rfl leadsAbove
      rw [rootNode_of_trail trail, rootStart_of_trail trail,
        path_of_trail trail, Node.locate?_append, outer, here]
      simp only [Option.bind_some, behind]
      rw [Node.locate?_cons, entered]
      rfl

/-- All paths of the root: those before the current one, those into the current
node, and those after them. -/
theorem paths_rootNode {cursor : Cursor}
    (leads : LeadsTo cursor.trail ⟨cursor.start, cursor.node⟩) :
    cursor.rootNode.paths =
      pathsBefore cursor.trail ++
        (cursor.node.paths.map (cursor.path ++ ·) ++
          pathsAfter cursor.trail) := by
  generalize trail : cursor.trail = steps at leads
  induction steps generalizing cursor with
  | nil => simp [rootNode, path, trail, pathsBefore, pathsAfter]
  | cons step above induction =>
      obtain ⟨⟨child, entered, here⟩, leadsAbove⟩ := leads
      have outer := @induction (cursor.behind step above) rfl leadsAbove
      have node : cursor.node = child.item := congrArg Placed.item here
      rw [rootNode_of_trail trail, outer, path_of_trail trail, node]
      simp only [behind]
      rw [Node.paths_eq, Node.pathsList_eq_of_getElem? entered]
      simp [pathsBefore, pathsAfter, path, Function.comp_def]

end Cursor

/-! ## What follows a path in the list of all paths -/

section

variable {α : Type} [BEq α] [LawfulBEq α] {items before after : List α}
  {item : α} (nodup : items.Nodup) (parted : items = before ++ item :: after)

include nodup parted

theorem bne_of_mem_before : ∀ other ∈ before, (other != item) = true := by
  subst parted
  intro other member
  rw [bne_iff_ne]
  intro same
  subst same
  exact (List.nodup_append.mp nodup).2.2 other member other
    List.mem_cons_self rfl

theorem dropWhile_bne : items.dropWhile (· != item) = item :: after := by
  have different := bne_of_mem_before nodup parted
  subst parted
  rw [List.dropWhile_append_of_pos different]
  simp

theorem takeWhile_bne : items.takeWhile (· != item) = before := by
  have different := bne_of_mem_before nodup parted
  subst parted
  rw [List.takeWhile_append_of_pos different]
  simp

end

/-! ## One step -/

/-- Whether the trail of a cursor leads to its node and the path says the same
as the trail. -/
structure Cursor.Follows (cursor : Cursor) (path : PathCursor) : Prop where
  leads : LeadsTo cursor.trail ⟨cursor.start, cursor.node⟩
  asPath : cursor.asPath = path

namespace Cursor.Follows

variable {cursor moved : Cursor} {path : PathCursor}

section

variable (follows : cursor.Follows path)

include follows

theorem tree : cursor.tree = path.tree :=
  congrArg PathCursor.tree follows.asPath

theorem rootNode : cursor.rootNode = path.root :=
  congrArg PathCursor.root follows.asPath

theorem rootStart : cursor.rootStart = path.rootStart :=
  congrArg PathCursor.rootStart follows.asPath

theorem path_eq : cursor.path = path.path :=
  congrArg PathCursor.path follows.asPath

theorem exhausted : cursor.exhausted = path.exhausted :=
  congrArg PathCursor.exhausted follows.asPath

theorem place : path.place? = some ⟨cursor.start, cursor.node⟩ := by
  rw [PathCursor.place?, ← follows.rootNode, ← follows.rootStart,
    ← follows.path_eq]
  exact locate?_path follows.leads

theorem standsAt : cursor.StandsAt path where
  tree := follows.tree
  place := follows.place
  depth := by
    rw [← follows.path_eq]
    simp [Cursor.depth, Cursor.path]
  childIndex := by
    rw [← follows.path_eq]
    simp [Cursor.childIndex?, Cursor.path]
  exhausted := follows.exhausted

theorem paths :
    path.root.paths =
      pathsBefore cursor.trail ++ path.path ::
        ((Node.pathsList 0 cursor.node.children).map (path.path ++ ·) ++
          pathsAfter cursor.trail) := by
  have parted := paths_rootNode follows.leads
  rw [Node.paths_eq cursor.node, follows.rootNode, follows.path_eq] at parted
  simpa using parted

theorem nil (top : cursor.trail = []) : path.path = [] := by
  rw [← follows.path_eq]
  simp [Cursor.path, top]

theorem enter {index : Nat} {child : Placed Node}
    (found : cursor.node.child? index = some child) :
    (cursor.enter index child).Follows
      { path with path := path.path ++ [index] } := by
  have trail : (cursor.enter index child).trail =
      .into cursor.node cursor.start index :: cursor.trail := rfl
  refine ⟨⟨⟨child, found, rfl⟩, follows.leads⟩, ?_⟩
  rw [Cursor.asPath, rootNode_of_trail trail, rootStart_of_trail trail,
    path_of_trail trail, ← follows.asPath]
  rfl

theorem behind {step : TrailStep} {above : List TrailStep}
    (trail : cursor.trail = step :: above) :
    path.path = path.path.dropLast ++ [step.index] ∧
      (cursor.behind step above).Follows
        { path with path := path.path.dropLast } := by
  have leads := follows.leads
  rw [trail] at leads
  have last := path_of_trail trail
  have outer : path.path.dropLast = (cursor.behind step above).path := by
    rw [← follows.path_eq, last, List.dropLast_concat]
  refine ⟨by rw [outer, ← last, follows.path_eq], leads.2, ?_⟩
  rw [outer, Cursor.asPath, ← rootNode_of_trail trail,
    ← rootStart_of_trail trail, follows.rootNode, follows.rootStart,
    ← follows.tree, ← follows.exhausted]
  rfl

theorem exhaust : cursor.exhaust.Follows path.exhaust := by
  rw [← follows.asPath]
  constructor
  · rw [Cursor.exhaust]
    cases top : cursor.trail.getLast? with
    | none =>
        rw [List.getLast?_eq_none_iff.mp top]
        trivial
    | some step => trivial
  · rw [Cursor.exhaust]
    cases top : cursor.trail.getLast? with
    | none =>
        have empty := List.getLast?_eq_none_iff.mp top
        simp [Cursor.asPath, PathCursor.exhaust, Cursor.rootNode,
          Cursor.rootStart, Cursor.path, empty]
    | some step =>
        simp [Cursor.asPath, PathCursor.exhaust, Cursor.rootNode,
          Cursor.rootStart, Cursor.path, top]

end

theorem goTo {found : List Nat} (active : path.exhausted = false)
    (follows : moved.Follows { path with path := found }) :
    path.goTo found = some { path with path := found } := by
  have place := follows.place
  simp only [PathCursor.place?] at place
  rw [PathCursor.goTo, if_neg (by rw [active]; exact Bool.false_ne_true), place]
  rfl

/-- Going to a child is possible on the path exactly if there is the child. -/
theorem goTo_child (follows : cursor.Follows path)
    (active : path.exhausted = false) (index : Nat) :
    Option.Rel Follows ((cursor.node.child? index).map (cursor.enter index))
      (path.goTo (path.path ++ [index])) := by
  cases found : cursor.node.child? index with
  | none =>
      have place := follows.place
      rw [PathCursor.place?] at place
      rw [PathCursor.goTo, Node.locate?_append, place]
      simp only [Option.bind_some, Node.locate?_cons, found, Option.bind_none,
        Option.isSome_none, Bool.false_eq_true, if_false, ite_self]
      exact .none
  | some child =>
      have inner := follows.enter found
      rw [inner.goTo active]
      exact .some inner

theorem goTo_of_exhausted (spent : path.exhausted = true) (found : List Nat) :
    path.goTo found = none := by
  rw [PathCursor.goTo, if_pos spent]

theorem down (follows : cursor.Follows path) :
    Option.Rel Follows cursor.down path.down := by
  rw [Cursor.down, PathCursor.down]
  cases active : path.exhausted with
  | true =>
      rw [if_pos (follows.exhausted.trans active), goTo_of_exhausted active]
      exact .none
  | false =>
      rw [if_neg (Bool.eq_false_iff.mp (follows.exhausted.trans active))]
      exact follows.goTo_child active 0

theorem up (follows : cursor.Follows path) :
    Option.Rel Follows cursor.up path.up := by
  rw [PathCursor.up]
  cases active : path.exhausted with
  | true =>
      rw [Cursor.up, if_pos (follows.exhausted.trans active),
        goTo_of_exhausted active, ite_self]
      exact .none
  | false =>
      cases trail : cursor.trail with
      | nil =>
          rw [if_pos (follows.nil trail), up_of_top trail]
          exact .none
      | cons step above =>
          rw [up_of_trail (follows.exhausted.trans active) trail]
          obtain ⟨last, outer⟩ := follows.behind trail
          have inner : path.path ≠ [] := by
            rw [last]
            exact List.concat_ne_nil _ _
          rw [if_neg inner, outer.goTo active]
          exact .some outer

/-- A move to a sibling goes to a child of the parent. -/
theorem sibling (follows : cursor.Follows path) {move : Nat → Option Nat}
    {target : Option PathCursor}
    (spent : path.exhausted = true → target = none)
    (top : path.path = [] → target = none)
    (aside : ∀ index, path.path.getLast? = some index → target =
      (move index).bind fun other =>
        path.goTo (path.path.dropLast ++ [other])) :
    Option.Rel Follows (cursor.sibling move) target := by
  cases active : path.exhausted with
  | true =>
      rw [Cursor.sibling, if_pos (follows.exhausted.trans active), spent active]
      exact .none
  | false =>
      cases trail : cursor.trail with
      | nil =>
          rw [top (follows.nil trail), sibling_of_top trail]
          exact .none
      | cons step above =>
          obtain ⟨last, outer⟩ := follows.behind trail
          rw [aside step.index (by rw [last, List.getLast?_concat]),
            sibling_of_trail (follows.exhausted.trans active) trail]
          cases move step.index with
          | none => exact .none
          | some other => exact outer.goTo_child active other

theorem right (follows : cursor.Follows path) :
    Option.Rel Follows cursor.right path.right := by
  rw [right_eq_sibling]
  apply follows.sibling
  · intro spent
    rw [PathCursor.right]
    cases path.path.getLast? with
    | none => rfl
    | some index => exact goTo_of_exhausted spent _
  · intro top
    rw [PathCursor.right, top]
    rfl
  · intro index last
    rw [PathCursor.right, last]
    rfl

theorem left (follows : cursor.Follows path) :
    Option.Rel Follows cursor.left path.left := by
  rw [Cursor.left]
  apply follows.sibling
  · intro spent
    rw [PathCursor.left]
    rcases path.path.getLast? with _ | _ | index
    · rfl
    · rfl
    · exact goTo_of_exhausted spent _
  · intro top
    rw [PathCursor.left, top]
    rfl
  · intro index last
    rw [PathCursor.left, last]
    cases index <;> rfl

theorem firstChildForByte (follows : cursor.Follows path) (position : Nat) :
    Option.Rel (fun left right => left.1 = right.1 ∧ Follows left.2 right.2)
      (cursor.firstChildForByte position)
      (path.firstChildForByte position) := by
  rw [Cursor.firstChildForByte, PathCursor.firstChildForByte, follows.place,
    Option.bind_some]
  cases active : path.exhausted with
  | true =>
      rw [if_pos (follows.exhausted.trans active)]
      simp only [goTo_of_exhausted active, Option.map_none,
        Option.bind_fun_none]
      exact .none
  | false =>
      rw [if_neg (Bool.eq_false_iff.mp (follows.exhausted.trans active))]
      cases cursor.node.children.findIdx? fun child =>
          position < cursor.start + child.stop with
      | none => exact .none
      | some index =>
          simp only [Option.bind_some]
          have reached := follows.goTo_child active index
          generalize path.goTo (path.path ++ [index]) = target at reached ⊢
          cases found : cursor.node.child? index with
          | none =>
              rw [found] at reached
              cases reached
              exact .none
          | some child =>
              rw [found] at reached
              cases reached with
              | some inner => exact .some ⟨rfl, inner⟩

/-- Stepping past the current node, its descendants included, leads to the first
path after those of the descendants. -/
theorem rightOrAbove (follows : cursor.Follows path)
    (active : path.exhausted = false) :
    Option.Rel
      (fun moved found => moved.Follows { path with path := found })
      cursor.rightOrAbove (pathsAfter cursor.trail).head? := by
  generalize trail : cursor.trail = steps
  have unspent := follows.exhausted.trans active
  induction steps generalizing cursor path with
  | nil =>
      rw [rightOrAbove_eq, right_of_top trail, up_of_top trail]
      exact .none
  | cons step above induction =>
      obtain ⟨_, outer⟩ := follows.behind trail
      rw [rightOrAbove_eq, right_of_trail unspent trail,
        up_of_trail unspent trail, pathsAfter, List.head?_append,
        List.head?_map]
      cases found : step.parent.child? (step.index + 1) with
      | none =>
          have least := List.getElem?_eq_none_iff.mp found
          rw [List.drop_eq_nil_of_le least]
          have later := induction outer active rfl unspent
          exact later
      | some child =>
          have inner := outer.enter found
          obtain ⟨rest, following⟩ : ∃ rest,
              step.parent.children.drop (step.index + 1) = child :: rest := by
            obtain ⟨within, here⟩ := List.getElem?_eq_some_iff.mp found
            exact ⟨_, here ▸ List.drop_eq_getElem_cons within⟩
          rw [following, Node.pathsList, Node.paths_eq]
          rw [← outer.path_eq] at inner
          exact .some inner

/-- The paths after the current one. -/
theorem later (follows : cursor.Follows path) :
    (path.root.paths.dropWhile (· != path.path)).tail =
      (Node.pathsList 0 cursor.node.children).map (path.path ++ ·) ++
        pathsAfter cursor.trail := by
  rw [dropWhile_bne path.root.nodup_paths follows.paths, List.tail_cons]

/-- The paths after the next one are those after the current one, but for the
next one itself. -/
theorem later_of_next {found : List Nat} {rest : List (List Nat)}
    (follows : cursor.Follows path)
    (next : (path.root.paths.dropWhile (· != path.path)).tail =
      found :: rest) :
    (path.root.paths.dropWhile (· != found)).tail = rest := by
  have parted := follows.paths
  rw [← follows.later, next, List.append_cons] at parted
  rw [dropWhile_bne path.root.nodup_paths parted, List.tail_cons]

theorem pathAfter? (follows : cursor.Follows path)
    (active : path.exhausted = false) :
    Option.Rel
      (fun moved found => moved.Follows { path with path := found })
      cursor.forward path.pathAfter? := by
  rw [PathCursor.pathAfter?, follows.later, Cursor.forward, Cursor.down,
    if_neg (Bool.eq_false_iff.mp (follows.exhausted.trans active)),
    List.head?_append, List.head?_map]
  cases children : cursor.node.children with
  | nil =>
      rw [Node.child?, children]
      exact follows.rightOrAbove active
  | cons child rest =>
      have first : cursor.node.child? 0 = some child := by
        rw [Node.child?, children]
        rfl
      rw [first, Node.pathsList, Node.paths_eq]
      exact .some (follows.enter first)

/-- A cursor on a path that was found can be gone to. -/
theorem rel_goTo {moved : Option Cursor} {found : Option (List Nat)}
    (active : path.exhausted = false)
    (reached : Option.Rel
      (fun moved found => moved.Follows { path with path := found })
      moved found) :
    Option.Rel Follows moved (found.bind path.goTo) := by
  cases reached with
  | none => exact .none
  | some follows =>
      rw [Option.bind_some, follows.goTo active]
      exact .some follows

theorem forward_of_exhausted (spent : cursor.exhausted = true) :
    cursor.forward = none := by
  rw [Cursor.forward, Cursor.down, if_pos spent]
  simp only
  rw [rightOrAbove_eq, Cursor.right, if_pos spent, Cursor.up, if_pos spent]
  rfl

theorem forward (follows : cursor.Follows path) :
    Option.Rel Follows cursor.forward path.forward := by
  rw [PathCursor.forward]
  cases active : path.exhausted with
  | true =>
      rw [forward_of_exhausted (follows.exhausted.trans active),
        funext (goTo_of_exhausted active), Option.bind_fun_none]
      exact .none
  | false => exact rel_goTo active (follows.pathAfter? active)

theorem next (follows : cursor.Follows path) :
    cursor.next.1 = path.next.1 ∧ cursor.next.2.Follows path.next.2 := by
  have reached := follows.forward
  rw [Cursor.next, PathCursor.next]
  generalize cursor.forward = moved at reached ⊢
  generalize path.forward = found at reached ⊢
  cases reached with
  | none => exact ⟨rfl, follows.exhaust⟩
  | some inner => exact ⟨rfl, inner⟩

/-- The last of the paths into the current node leads to its last descendant. -/
theorem lastDescendant (follows : cursor.Follows path) :
    ∃ found, cursor.node.paths.getLast? = some found ∧
      cursor.lastDescendant.Follows
        { path with path := path.path ++ found } := by
  induction cursor using Cursor.lastDescendant.induct generalizing path with
  | case1 cursor last =>
      have none := List.getLast?_eq_none_iff.mp last
      rw [Cursor.lastDescendant, Node.paths_eq, none]
      refine ⟨[], rfl, ?_⟩
      rw [List.append_nil]
      split
      · exact follows
      · next last => simp at last
  | case2 cursor child last induction =>
      have found : cursor.node.child? (cursor.node.childCount - 1) =
          some child :=
        List.getLast?_eq_getElem?.symm.trans last
      have inner := follows.enter found
      obtain ⟨found, lastPath, reached⟩ := induction inner
      have lastPath : child.item.paths.getLast? = some found := lastPath
      refine ⟨(cursor.node.childCount - 1) :: found, ?_, ?_⟩
      · rw [Node.paths_eq, List.getLast?_cons, Node.getLast?_pathsList last,
          lastPath, Nat.zero_add]
        rfl
      · rw [Cursor.lastDescendant]
        split
        · next none => simp [last] at none
        · next other same =>
            cases last.symm.trans same
            rw [List.append_assoc] at reached
            exact reached

theorem pathBefore? (follows : cursor.Follows path)
    (active : path.exhausted = false) :
    Option.Rel
      (fun moved found => moved.Follows { path with path := found })
      cursor.backward path.pathBefore? := by
  have unspent := follows.exhausted.trans active
  rw [PathCursor.pathBefore?, takeWhile_bne path.root.nodup_paths follows.paths,
    Cursor.backward, Cursor.left]
  cases trail : cursor.trail with
  | nil =>
      rw [sibling_of_top trail, up_of_top trail]
      exact .none
  | cons step above =>
      obtain ⟨_, outer⟩ := follows.behind trail
      have origin : (above.map TrailStep.index).reverse = path.path.dropLast :=
        outer.path_eq
      have leads := follows.leads
      rw [trail] at leads
      obtain ⟨⟨child, entered, _⟩, _⟩ := leads
      rw [sibling_of_trail unspent trail, up_of_trail unspent trail,
        pathsBefore, List.getLast?_append, origin]
      cases place : step.index with
      | zero => exact .some outer
      | succ index =>
          rw [place] at entered
          have within : index < step.parent.children.length := by
            have := (List.getElem?_eq_some_iff.mp entered).1
            omega
          have before : step.parent.child? index =
              some step.parent.children[index] :=
            List.getElem?_eq_getElem within
          have last : (step.parent.children.take (index + 1)).getLast? =
              some step.parent.children[index] := by
            rw [List.getLast?_take, if_neg (Nat.succ_ne_zero index),
              Nat.add_sub_cancel, List.getElem?_eq_getElem within]
            rfl
          have inner := outer.enter before
          obtain ⟨found, lastPath, reached⟩ := inner.lastDescendant
          have lastInto := @Node.getLast?_pathsList _ 0 _ last
          rw [List.length_take_of_le within] at lastInto
          rw [List.getLast?_cons, List.getLast?_map, lastInto]
          have lastPath : step.parent.children[index].item.paths.getLast? =
              some found := lastPath
          rw [lastPath, if_neg (Nat.succ_ne_zero index), Nat.zero_add,
            Nat.add_sub_cancel, Option.bind_some, before]
          rw [List.append_assoc] at reached
          exact .some reached

theorem backward_of_exhausted (spent : cursor.exhausted = true) :
    cursor.backward = none := by
  rw [Cursor.backward, Cursor.left, Cursor.sibling, if_pos spent, Cursor.up,
    if_pos spent]

theorem backward (follows : cursor.Follows path) :
    Option.Rel Follows cursor.backward path.backward := by
  rw [PathCursor.backward]
  cases active : path.exhausted with
  | true =>
      rw [backward_of_exhausted (follows.exhausted.trans active),
        funext (goTo_of_exhausted active), Option.bind_fun_none]
      exact .none
  | false => exact rel_goTo active (follows.pathBefore? active)

theorem accepts (follows : cursor.Follows path) (filter : NodeFilter) :
    path.accepts filter path.path =
      filter.accepts cursor.tree.grammar.value cursor.node.symbol := by
  have place := follows.place
  rw [PathCursor.place?] at place
  rw [PathCursor.accepts, place, follows.tree]
  rfl

/-- With as many steps as there are later paths, and one more to find that there
are no others, a cursor finds the next node that a filter accepts. -/
theorem nextMatchingWithin {filter : NodeFilter} {bound : Nat}
    (follows : cursor.Follows path) (active : path.exhausted = false)
    (enough :
      (path.root.paths.dropWhile (· != path.path)).tail.length < bound) :
    (cursor.nextMatchingWithin filter bound).1 =
        (path.nextMatching filter).1 ∧
      (cursor.nextMatchingWithin filter bound).2.Follows
        (path.nextMatching filter).2 := by
  induction bound generalizing cursor path with
  | zero => exact absurd enough (Nat.not_lt_zero _)
  | succ bound induction =>
      have reached := follows.pathAfter? active
      rw [Cursor.nextMatchingWithin, Cursor.next]
      rw [PathCursor.pathAfter?] at reached
      generalize cursor.forward = forward at reached ⊢
      cases later : (path.root.paths.dropWhile (· != path.path)).tail with
      | nil =>
          rw [later] at reached
          cases reached
          rw [PathCursor.nextMatching, later]
          exact ⟨rfl, follows.exhaust⟩
      | cons found rest =>
          rw [later] at reached enough
          cases reached with
          | @some moved _ inner =>
              have later' := follows.later_of_next later
              have accepted : path.accepts filter found =
                  filter.accepts moved.tree.grammar.value moved.node.symbol :=
                inner.accepts filter
              simp only
              rw [← accepted]
              cases stops : path.accepts filter found with
              | true =>
                  rw [PathCursor.nextMatching, later,
                    List.find?_cons_of_pos stops, Option.bind_some,
                    inner.goTo active]
                  exact ⟨rfl, inner⟩
              | false =>
                  have same : path.nextMatching filter =
                      { path with path := found }.nextMatching filter := by
                    rw [PathCursor.nextMatching, PathCursor.nextMatching, later,
                      later', List.find?_cons_of_neg (by simp [stops])]
                    rfl
                  rw [same]
                  apply induction inner active
                  simp only [later']
                  exact Nat.lt_of_succ_lt_succ enough

theorem nextMatching (follows : cursor.Follows path) (filter : NodeFilter) :
    (cursor.nextMatching filter).1 = (path.nextMatching filter).1 ∧
      (cursor.nextMatching filter).2.Follows (path.nextMatching filter).2 := by
  rw [Cursor.nextMatching]
  cases active : path.exhausted with
  | true =>
      obtain ⟨bound, positive⟩ :=
        Nat.exists_eq_add_of_lt cursor.rootNode.count_pos
      rw [positive, Cursor.nextMatchingWithin, Cursor.next,
        forward_of_exhausted (follows.exhausted.trans active),
        PathCursor.nextMatching, funext (goTo_of_exhausted active),
        Option.bind_fun_none]
      exact ⟨rfl, follows.exhaust⟩
  | false =>
      apply follows.nextMatchingWithin active
      rw [follows.rootNode, ← Node.length_paths, follows.later]
      have all := congrArg List.length follows.paths
      rw [List.length_append, List.length_cons] at all
      omega

/-- A step on the tree and the step on paths look the same and lead to the same
position. -/
theorem step (follows : cursor.Follows path) (step : Step) :
    (cursor.move step.asMove).1 = (path.step step).1 ∧
      (cursor.move step.asMove).2.Follows (path.step step).2 := by
  have stay {moved : Option Cursor} {found : Option PathCursor}
      (reached : Option.Rel Follows moved found) :
      (cursor.orStay moved).1 = (path.orStay found).1 ∧
        (cursor.orStay moved).2.Follows (path.orStay found).2 := by
    cases reached with
    | none => exact ⟨rfl, follows⟩
    | some inner => exact ⟨rfl, inner⟩
  cases step with
  | down => exact stay follows.down
  | right => exact stay follows.right
  | left => exact stay follows.left
  | up => exact stay follows.up
  | next => exact ⟨congrArg Sight.moved follows.next.1, follows.next.2⟩
  | previous => exact stay follows.backward
  | nextMatching filter =>
      obtain ⟨success, reached⟩ := follows.nextMatching filter
      exact ⟨congrArg Sight.moved success, reached⟩
  | firstChildForByte position =>
      have reached := follows.firstChildForByte position
      simp only [Step.asMove, Cursor.move, PathCursor.step]
      generalize cursor.firstChildForByte position = moved at reached ⊢
      generalize path.firstChildForByte position = found at reached ⊢
      cases reached with
      | none => exact ⟨rfl, follows⟩
      | some inner =>
          exact ⟨congrArg (fun index => Sight.index (some index)) inner.1,
            inner.2⟩

theorem stepAll (follows : cursor.Follows path) (steps : List Step) :
    (cursor.moveAll (steps.map Step.asMove)).Follows (path.stepAll steps) := by
  induction steps generalizing cursor path with
  | nil => exact follows
  | cons step steps induction => exact induction (follows.step step).2

/-- A cursor at the end of the empty path is at its root. -/
theorem eq_of_nil (follows : cursor.Follows path) (top : path.path = []) :
    cursor = ⟨path.tree, path.root, path.rootStart, [], path.exhausted⟩ := by
  have trail : cursor.trail = [] := by
    have nil : cursor.path = [] := follows.path_eq.trans top
    simpa [Cursor.path] using nil
  rw [← follows.tree, ← follows.rootNode, ← follows.rootStart,
    ← follows.exhausted]
  simp only [Cursor.rootNode, Cursor.rootStart, trail, List.getLast?_nil]
  rw [← trail]

end Cursor.Follows

theorem Cursor.follows_subtree (cursor : Cursor) :
    cursor.subtree.Follows
      ⟨cursor.tree, cursor.node, cursor.start, [], false⟩ :=
  ⟨trivial, rfl⟩

/-! ## Steps on paths -/

namespace PathCursor

variable {path moved : PathCursor}

theorem eq_of_goTo {found : List Nat} (reached : path.goTo found = some moved) :
    moved = { path with path := found } := by
  rw [goTo] at reached
  split at reached
  · cases reached
  · split at reached
    · cases reached
      rfl
    · cases reached

/-- Whether one cursor is the other at some path. -/
def SameRoot (path moved : PathCursor) : Prop :=
  moved.tree = path.tree ∧ moved.root = path.root ∧
    moved.rootStart = path.rootStart

theorem SameRoot.refl (path : PathCursor) : path.SameRoot path :=
  ⟨rfl, rfl, rfl⟩

theorem SameRoot.trans {path between moved : PathCursor}
    (first : path.SameRoot between) (second : between.SameRoot moved) :
    path.SameRoot moved :=
  ⟨second.1.trans first.1, second.2.1.trans first.2.1,
    second.2.2.trans first.2.2⟩

theorem sameRoot_of_goTo {found : List Nat}
    (reached : path.goTo found = some moved) : path.SameRoot moved := by
  rw [eq_of_goTo reached]
  exact ⟨rfl, rfl, rfl⟩

theorem sameRoot_orStay {found : Option PathCursor}
    (reaches : ∀ moved, found = some moved → path.SameRoot moved) :
    path.SameRoot (path.orStay found).2 := by
  cases found with
  | none => exact .refl path
  | some moved => exact reaches moved rfl

theorem sameRoot_bind {α : Type} {found : Option α} {target : α → List Nat}
    (reached : (found.bind fun value => path.goTo (target value)) =
      some moved) :
    path.SameRoot moved := by
  obtain ⟨_, _, reached⟩ := Option.bind_eq_some_iff.mp reached
  exact sameRoot_of_goTo reached

/-- No step leads out of the subtree of the root. -/
theorem sameRoot_step (path : PathCursor) (step : Step) :
    path.SameRoot (path.step step).2 := by
  cases step with
  | down => exact sameRoot_orStay fun _ => sameRoot_of_goTo
  | right =>
      refine sameRoot_orStay fun moved reached => ?_
      rw [right] at reached
      split at reached
      · cases reached
      · exact sameRoot_of_goTo reached
  | left =>
      refine sameRoot_orStay fun moved reached => ?_
      rw [left] at reached
      split at reached
      · cases reached
      · cases reached
      · exact sameRoot_of_goTo reached
  | up =>
      refine sameRoot_orStay fun moved reached => ?_
      rw [up] at reached
      split at reached
      · cases reached
      · exact sameRoot_of_goTo reached
  | next =>
      simp only [PathCursor.step, next]
      split
      · next reached => exact sameRoot_bind reached
      · exact ⟨rfl, rfl, rfl⟩
  | previous => exact sameRoot_orStay fun _ => sameRoot_bind
  | nextMatching filter =>
      simp only [PathCursor.step, nextMatching]
      split
      · next reached => exact sameRoot_bind reached
      · exact ⟨rfl, rfl, rfl⟩
  | firstChildForByte position =>
      simp only [PathCursor.step]
      split
      · next index moved reached =>
          simp only [firstChildForByte, Option.bind_eq_some_iff,
            Option.map_eq_some_iff, Prod.mk.injEq] at reached
          obtain ⟨_, _, _, _, _, reached, _, rfl⟩ := reached
          exact sameRoot_of_goTo reached
      · exact .refl path

theorem sameRoot_stepAll (path : PathCursor) (steps : List Step) :
    path.SameRoot (path.stepAll steps) := by
  induction steps generalizing path with
  | nil => exact .refl path
  | cons step steps induction =>
      exact (path.sameRoot_step step).trans (induction (path.step step).2)

theorem exhaust_of_refused {step : Step} (exhausts : step.exhausts = true)
    (refused : (path.step step).1.refused = true) :
    (path.step step).2 = path.exhaust := by
  cases step with
  | next =>
      simp only [PathCursor.step, next] at refused ⊢
      split at refused
      · cases refused
      · rfl
  | nextMatching filter =>
      simp only [PathCursor.step, nextMatching] at refused ⊢
      split at refused
      · cases refused
      · rfl
  | _ => cases exhausts

/-- At the root with no move left every step is refused and changes nothing. -/
theorem step_of_exhausted (spent : path.exhausted = true)
    (top : path.path = []) (step : Step) :
    (path.step step).1.refused = true ∧ (path.step step).2 = path := by
  have same : path.exhaust = path := by
    rw [exhaust, ← spent, ← top]
  have nowhere : path.goTo = fun _ => none :=
    funext (Cursor.Follows.goTo_of_exhausted spent)
  cases step with
  | down =>
      rw [PathCursor.step, down, nowhere]
      exact ⟨rfl, rfl⟩
  | right =>
      rw [PathCursor.step, right, top]
      exact ⟨rfl, rfl⟩
  | left =>
      rw [PathCursor.step, left, top]
      exact ⟨rfl, rfl⟩
  | up =>
      rw [PathCursor.step, up, if_pos top]
      exact ⟨rfl, rfl⟩
  | next =>
      rw [PathCursor.step, next, forward, nowhere, Option.bind_fun_none]
      exact ⟨rfl, same⟩
  | previous =>
      rw [PathCursor.step, backward, nowhere, Option.bind_fun_none]
      exact ⟨rfl, rfl⟩
  | nextMatching filter =>
      rw [PathCursor.step, nextMatching, nowhere, Option.bind_fun_none]
      exact ⟨rfl, same⟩
  | firstChildForByte position =>
      simp only [PathCursor.step, firstChildForByte, nowhere, Option.map_none,
        Option.bind_fun_none]
      exact ⟨rfl, trivial⟩

end PathCursor

/-- A step that does not use the cursor up changes nothing when refused. -/
theorem Cursor.move_of_refused {cursor : Cursor} {step : Step}
    (keeps : step.exhausts = false)
    (refused : (cursor.move step.asMove).1.refused = true) :
    (cursor.move step.asMove).2 = cursor := by
  have stay {moved : Option Cursor}
      (refused : (cursor.orStay moved).1.refused = true) :
      (cursor.orStay moved).2 = cursor := by
    cases moved with
    | none => rfl
    | some moved => cases refused
  cases step with
  | next => cases keeps
  | nextMatching filter => cases keeps
  | firstChildForByte position =>
      simp only [Step.asMove, move] at refused ⊢
      split at refused
      · cases refused
      · rfl
  | _ => exact stay refused

/-- A cursor is a path.  However a cursor walks from its root, it stands where
the path leads that is changed by the same steps; what is seen on a step is the
same for both.  The root is never left.  A refused step changes nothing, unless
it is a step forward: then the cursor is at its root, and no step leads away
from there any more. -/
theorem Cursor.walk_standsAt (cursor : Cursor) (steps : List Step) :
    let walked := cursor.subtree.moveAll (steps.map Step.asMove)
    let path : PathCursor :=
      PathCursor.stepAll ⟨cursor.tree, cursor.node, cursor.start, [], false⟩
        steps
    walked.StandsAt path ∧
      path.tree = cursor.tree ∧ path.root = cursor.node ∧
      path.rootStart = cursor.start ∧
      ∀ step : Step,
        let moved := walked.move step.asMove
        moved.1 = (path.step step).1 ∧
          (moved.1.refused = true → step.exhausts = false →
            moved.2 = walked) ∧
          (moved.1.refused = true → step.exhausts = true →
            moved.2 = { cursor.subtree with exhausted := true } ∧
              ∀ later : Step,
                (moved.2.move later.asMove).1.refused = true ∧
                  (moved.2.move later.asMove).2 = moved.2) := by
  intro walked path
  have follows : walked.Follows path := cursor.follows_subtree.stepAll steps
  obtain ⟨tree, root, rootStart⟩ := PathCursor.sameRoot_stepAll
    ⟨cursor.tree, cursor.node, cursor.start, [], false⟩ steps
  refine ⟨follows.standsAt, tree, root, rootStart, fun step => ?_⟩
  obtain ⟨seen, reached⟩ := follows.step step
  refine ⟨seen, fun refused keeps => move_of_refused keeps refused,
    fun refused exhausts => ?_⟩
  have ended : (path.step step).2 = path.exhaust :=
    PathCursor.exhaust_of_refused exhausts (seen ▸ refused)
  rw [ended] at reached
  have here := reached.eq_of_nil rfl
  constructor
  · rw [here]
    simp only [PathCursor.exhaust, path, tree, root, rootStart]
    rfl
  · intro later
    obtain ⟨laterSeen, laterReached⟩ := reached.step later
    obtain ⟨nothing, still⟩ :=
      @PathCursor.step_of_exhausted path.exhaust rfl rfl later
    rw [still] at laterReached
    exact ⟨laterSeen ▸ nothing,
      (laterReached.eq_of_nil rfl).trans here.symm⟩

end Reparse
