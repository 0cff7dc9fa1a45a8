import Reparse.Proofs.Tree.CursorPaths
import Reparse.Proofs.Tree.Survival
import Reparse.Tree.Traversal

/-!
# Walks visit the nodes in the order of the text

The nodes in the order of the text are the nodes at the ends of the listed
paths, so the index of a path tells where in that order a cursor stands.
Stepping forward adds one to the index and stepping backward takes one away;
what a walk meets from an index on follows by repeating that.
-/

namespace Reparse

namespace Node

/-- The node at the end of a path as a walk meets it, for a path that begins at
a node of this depth. -/
def visitAt? (depth start : Nat) (node : Node) (path : List Nat) :
    Option Visit :=
  (node.locate? start path).map fun placed =>
    ⟨depth + path.length, placed.offset, placed.item⟩

theorem visitAt?_cons {parent : Node} {index : Nat} {child : Placed Node}
    (found : parent.child? index = some child) (depth start : Nat)
    (path : List Nat) :
    parent.visitAt? depth start (index :: path) =
      child.item.visitAt? (depth + 1) (start + child.offset) path := by
  rw [visitAt?, visitAt?, locate?_cons, found, Option.bind_some,
    List.length_cons, Nat.add_right_comm, Nat.add_assoc]

mutual

/-- The paths of a node lead to its nodes in the order of the text. -/
theorem visitAt?_paths (depth start : Nat) :
    ∀ node : Node,
      node.paths.map (node.visitAt? depth start) =
        (node.preorder depth start).map some
  | ⟨stamp, symbol, length, lookahead, damaged, children⟩ => by
      rw [paths, preorder, List.map_cons, List.map_cons,
        visitAt?_pathsList
          ⟨stamp, symbol, length, lookahead, damaged, children⟩ depth start 0
          children rfl]
      rfl

/-- List counterpart of `Node.visitAt?_paths`, for the children of a parent from
the one with index `first` on. -/
theorem visitAt?_pathsList (parent : Node) (depth start first : Nat) :
    ∀ children : List (Placed Node), parent.children.drop first = children →
      (pathsList first children).map (parent.visitAt? depth start) =
        (preorderList (depth + 1) start children).map some
  | [], _ => rfl
  | ⟨offset, node⟩ :: rest, listed => by
      have here : parent.child? first = some ⟨offset, node⟩ := by
        rw [child?, ← List.head?_drop, listed, List.head?_cons]
      have later : parent.children.drop (first + 1) = rest := by
        rw [← List.drop_drop, listed, List.drop_one, List.tail_cons]
      have inside : parent.visitAt? depth start ∘ (first :: ·) =
          node.visitAt? (depth + 1) (start + offset) :=
        funext (visitAt?_cons here depth start)
      rw [pathsList, preorderList, List.map_append, List.map_append,
        List.map_map, inside, visitAt?_paths (depth + 1) (start + offset) node,
        visitAt?_pathsList parent depth start (first + 1) rest later]

end

/-- The path and the visit of one index belong together. -/
theorem getElem?_preorder {node : Node} {start index : Nat} {path : List Nat}
    {placed : Placed Node} (listed : node.paths[index]? = some path)
    (found : node.locate? start path = some placed) :
    (node.preorder 0 start)[index]? =
      some ⟨path.length, placed.offset, placed.item⟩ := by
  have same := congrArg (·[index]?) (node.visitAt?_paths 0 start)
  simp only [List.getElem?_map, listed, Option.map_some, visitAt?, found,
    Nat.zero_add] at same
  cases visited : (node.preorder 0 start)[index]? with
  | none =>
      rw [visited] at same
      cases same
  | some visit =>
      rw [visited, Option.map_some, Option.some.injEq] at same
      exact same.symm

end Node

/-! ## A list at one of its items -/

section

variable {α : Type} {items : List α} {index : Nat} {item : α}
  (found : items[index]? = some item)

include found

theorem drop_of_getElem? :
    items.drop index = item :: items.drop (index + 1) := by
  obtain ⟨inside, rfl⟩ := List.getElem?_eq_some_iff.mp found
  exact List.drop_eq_getElem_cons inside

theorem parted_of_getElem? :
    items = items.take index ++ item :: items.drop (index + 1) := by
  rw [← drop_of_getElem? found, List.take_append_drop]

theorem reverse_take_succ :
    (items.take (index + 1)).reverse = item :: (items.take index).reverse := by
  rw [List.take_add_one, found, List.reverse_append]
  rfl

end

namespace Cursor

/-! ## One step -/

/-- A cursor is determined by its path: the trail tells no more. -/
theorem Follows.unique {cursor other : Cursor} {path : PathCursor}
    (follows : cursor.Follows path) (followsToo : other.Follows path) :
    cursor = other := by
  generalize trail : cursor.trail = steps
  induction steps generalizing cursor other path with
  | nil =>
      have top := follows.nil trail
      exact (follows.eq_of_nil top).trans (followsToo.eq_of_nil top).symm
  | cons step above induction =>
      obtain ⟨last, outer⟩ := follows.behind trail
      cases trailToo : other.trail with
      | nil =>
          rw [followsToo.nil trailToo] at last
          cases last
      | cons stepToo aboveToo =>
          obtain ⟨lastToo, outerToo⟩ := followsToo.behind trailToo
          have behind := induction outer outerToo rfl
          simp only [Cursor.behind, Cursor.mk.injEq] at behind
          obtain ⟨tree, parent, parentStart, rfl, exhausted⟩ := behind
          have index : step.index = stepToo.index :=
            List.head_eq_of_cons_eq
              (List.append_cancel_left (last.symm.trans lastToo))
          have entered : step = stepToo := by
            rw [step.eq_into, stepToo.eq_into, parent, parentStart, index]
          subst entered
          have leads := follows.leads
          have leadsToo := followsToo.leads
          rw [trail] at leads
          rw [trailToo] at leadsToo
          obtain ⟨⟨child, found, here⟩, _⟩ := leads
          obtain ⟨⟨childToo, foundToo, hereToo⟩, _⟩ := leadsToo
          cases found.symm.trans foundToo
          obtain ⟨start, node⟩ := Placed.mk.inj (here.trans hereToo.symm)
          calc cursor
            _ = ⟨cursor.tree, cursor.node, cursor.start, cursor.trail,
                cursor.exhausted⟩ := rfl
            _ = ⟨other.tree, other.node, other.start, other.trail,
                other.exhausted⟩ := by
              rw [tree, node, start, trail, trailToo, exhausted]
            _ = other := rfl

/-- Whether the trail of a cursor leads from the node of another one, its root,
along the path of an index. -/
structure Stands (origin : Cursor) (index : Nat) (cursor : Cursor) : Prop where
  follows : cursor.Follows
    ⟨origin.tree, origin.node, origin.start, cursor.path, false⟩
  listed : origin.node.paths[index]? = some cursor.path

namespace Stands

variable {origin cursor : Cursor} {index : Nat}

theorem of_follows {moved : Cursor} {found : List Nat}
    (follows : moved.Follows
      ⟨origin.tree, origin.node, origin.start, found, false⟩)
    (listed : origin.node.paths[index]? = some found) :
    origin.Stands index moved := by
  cases follows.path_eq
  exact ⟨follows, listed⟩

variable (stands : origin.Stands index cursor)

include stands

theorem reaches : origin.Reaches index cursor where
  tree := stands.follows.tree
  unspent := stands.follows.exhausted
  path := stands.listed
  visit := by
    rw [nodesBelow, Node.getElem?_preorder stands.listed stands.follows.place,
      visit, stands.follows.standsAt.depth]

theorem index_lt : index < origin.node.count := by
  rw [← Node.length_paths]
  exact (List.getElem?_eq_some_iff.mp stands.listed).1

theorem tail_dropWhile_paths :
    (origin.node.paths.dropWhile (· != cursor.path)).tail =
      origin.node.paths.drop (index + 1) := by
  rw [dropWhile_bne origin.node.nodup_paths (parted_of_getElem? stands.listed),
    List.tail_cons]

theorem takeWhile_paths :
    origin.node.paths.takeWhile (· != cursor.path) =
      origin.node.paths.take index :=
  takeWhile_bne origin.node.nodup_paths (parted_of_getElem? stands.listed)

theorem exhaust_eq : cursor.exhaust = origin.subtree.exhaust :=
  stands.follows.exhaust.eq_of_nil rfl

/-- A step forward leads to the next index, if there is one. -/
theorem forward :
    (∃ moved, cursor.forward = some moved ∧ origin.Stands (index + 1) moved) ∨
      index + 1 = origin.node.count ∧ cursor.forward = none := by
  have reached := stands.follows.pathAfter? rfl
  rw [PathCursor.pathAfter?, stands.tail_dropWhile_paths, List.head?_drop]
    at reached
  generalize cursor.forward = forward at reached ⊢
  cases listed : origin.node.paths[index + 1]? with
  | none =>
      rw [listed] at reached
      cases reached
      have least := List.getElem?_eq_none_iff.mp listed
      rw [Node.length_paths] at least
      exact .inr ⟨Nat.le_antisymm stands.index_lt least, rfl⟩
  | some found =>
      rw [listed] at reached
      cases reached with
      | @some moved _ follows =>
          exact .inl ⟨moved, rfl, .of_follows follows listed⟩

/-- With moves left a cursor steps to the next index, or is used up. -/
theorem next :
    (∃ moved, cursor.next = (true, moved) ∧
        origin.Stands (index + 1) moved) ∨
      index + 1 = origin.node.count ∧
        cursor.next = (false, origin.subtree.exhaust) := by
  rw [Cursor.next, stands.exhaust_eq]
  obtain ⟨moved, steps, reached⟩ | ⟨final, stops⟩ := stands.forward
  · rw [steps]
    exact .inl ⟨moved, rfl, reached⟩
  · rw [stops]
    exact .inr ⟨final, rfl⟩

/-- There is only one place for an index. -/
theorem unique {other : Cursor} (standsToo : origin.Stands index other) :
    cursor = other := by
  have follows := stands.follows
  rw [Option.some.inj (stands.listed.symm.trans standsToo.listed)] at follows
  exact follows.unique standsToo.follows

end Stands

section

variable {origin cursor : Cursor}

/-- With the first index a cursor is at its root. -/
theorem Stands.eq_subtree (stands : origin.Stands 0 cursor) :
    cursor = origin.subtree := by
  have top := stands.listed
  rw [Node.paths_eq, List.getElem?_cons_zero, Option.some.injEq] at top
  exact stands.follows.eq_of_nil top.symm

theorem Stands.backward_of_zero (stands : origin.Stands 0 cursor) :
    cursor.backward = none := by
  have reached := stands.follows.pathBefore? rfl
  rw [PathCursor.pathBefore?, stands.takeWhile_paths, List.take_zero,
    List.getLast?_nil] at reached
  generalize cursor.backward = backward at reached ⊢
  cases reached
  rfl

/-- A step backward leads to the index before. -/
theorem Stands.backward_of_succ {index : Nat}
    (stands : origin.Stands (index + 1) cursor) :
    ∃ moved, cursor.backward = some moved ∧ origin.Stands index moved := by
  have reached := stands.follows.pathBefore? rfl
  have inside : index < origin.node.paths.length := by
    rw [Node.length_paths]
    exact Nat.lt_of_succ_lt stands.index_lt
  have listed := List.getElem?_eq_getElem inside
  rw [PathCursor.pathBefore?, stands.takeWhile_paths, List.getLast?_take,
    if_neg (Nat.succ_ne_zero index), Nat.add_sub_cancel, listed,
    Option.some_or] at reached
  generalize cursor.backward = backward at reached ⊢
  cases reached with
  | @some moved _ follows => exact ⟨moved, rfl, .of_follows follows listed⟩

end

/-! ## Walks -/

section

variable {move : Cursor → Bool × Cursor} {cursor moved last : Cursor}
  {met : List Cursor}

theorem walk_of_stop (stops : move cursor = (false, last)) :
    cursor.walk move = some ([], last) := by
  rw [walk, stops]

theorem walk_of_step (steps : move cursor = (true, moved))
    (walks : moved.walk move = some (met, last)) :
    cursor.walk move = some (moved :: met, last) := by
  rw [walk, steps]
  simp only [walks]
  rfl

/-- A walk goes on where the move leads. -/
theorem exists_walk_of_step (steps : move cursor = (true, moved))
    (walks : cursor.walk move = some (met, last)) :
    ∃ later, met = moved :: later ∧ moved.walk move = some (later, last) := by
  rw [walk, steps] at walks
  obtain ⟨⟨later, _⟩, walks, same⟩ := Option.bind_eq_some_iff.mp walks
  cases same
  exact ⟨later, rfl, walks⟩

/-- A walk stops with its first move, or goes on where that leads. -/
theorem step_of_walk (walks : cursor.walk move = some (met, last)) :
    (met = [] ∧ move cursor = (false, last)) ∨
      ∃ moved later, met = moved :: later ∧ move cursor = (true, moved) ∧
        moved.walk move = some (later, last) := by
  cases step : move cursor with
  | mk success moved =>
      cases success with
      | false =>
          cases (walk_of_stop step).symm.trans walks
          exact .inl ⟨rfl, rfl⟩
      | true =>
          obtain ⟨later, same, goesOn⟩ := exists_walk_of_step step walks
          exact .inr ⟨moved, later, same, rfl, goesOn⟩

/-- A walk depends on the cursor only through its first move. -/
theorem walk_congr (same : move cursor = move moved) :
    cursor.walk move = moved.walk move := by
  rw [walk, walk, same]

/-- A trace that ends because there is no move left is a walk: its bound is not
what ends it. -/
theorem walk_of_trace {advance : Cursor → Option Cursor}
    {finish : Cursor → Cursor} {bound : Nat}
    (agrees : ∀ cursor, move cursor =
      match advance cursor with
      | some moved => (true, moved)
      | none => (false, finish cursor))
    (finished : advance (trace advance bound cursor).2 = none) :
    cursor.walk move =
      some ((trace advance bound cursor).1,
        finish (trace advance bound cursor).2) := by
  induction bound generalizing cursor with
  | zero =>
      have finished : advance cursor = none := finished
      apply walk_of_stop
      rw [agrees, finished]
      rfl
  | succ bound induction =>
      rw [trace] at finished ⊢
      cases advanced : advance cursor with
      | none =>
          apply walk_of_stop
          rw [agrees, advanced]
      | some moved =>
          rw [advanced] at finished
          apply walk_of_step _ (induction finished)
          rw [agrees, advanced]

end

section

variable {origin cursor : Cursor}

theorem Met.nil : origin.Met [] [] [] := ⟨nofun, rfl, rfl⟩

variable {visits : List Node.Visit} {paths : List (List Nat)}
  {met : List Cursor}

theorem Met.cons (tree : cursor.tree = origin.tree)
    (rest : origin.Met visits paths met) :
    origin.Met (cursor.visit :: visits) (cursor.path :: paths)
      (cursor :: met) where
  trees := List.forall_mem_cons.mpr ⟨tree, rest.trees⟩
  visits := by rw [List.map_cons, rest.visits]
  paths := by rw [List.map_cons, rest.paths]

/-- Of the cursors met, a filter accepts those at the nodes it accepts. -/
theorem Met.map_visit_filter (all : origin.Met visits paths met)
    (filter : NodeFilter) :
    (met.filter fun moved =>
        filter.accepts moved.tree.grammar.value moved.node.symbol).map visit =
      visits.filter (origin.accepts filter) := by
  rw [← all.visits, List.filter_map]
  apply congrArg
  apply List.filter_congr
  intro moved member
  rw [all.trees moved member]
  rfl

end

namespace Stands

variable {origin cursor : Cursor} {index : Nat}

/-- Stepping forward as long as possible meets the later nodes. -/
theorem trace_forward {bound : Nat} (stands : origin.Stands index cursor)
    (enough : origin.node.count ≤ index + bound) :
    let walked := trace Cursor.forward bound cursor
    origin.Met (origin.nodesBelow.drop (index + 1))
        (origin.node.paths.drop (index + 1)) walked.1 ∧
      (∃ final, origin.Stands final walked.2) ∧ walked.2.forward = none := by
  induction bound generalizing index cursor with
  | zero => exact absurd stands.index_lt (Nat.not_lt.mpr enough)
  | succ bound induction =>
      rw [trace]
      obtain ⟨moved, steps, reached⟩ | ⟨final, stops⟩ := stands.forward
      · rw [steps, drop_of_getElem? reached.reaches.visit,
          drop_of_getElem? reached.listed]
        obtain ⟨met, ends⟩ := induction reached (by omega)
        exact ⟨.cons reached.follows.tree met, ends⟩
      · have visits : origin.nodesBelow.length ≤ index + 1 := by
          apply Nat.le_of_eq
          rw [nodesBelow, Node.length_preorder, final]
        have paths : origin.node.paths.length ≤ index + 1 := by
          apply Nat.le_of_eq
          rw [Node.length_paths, final]
        rw [stops, List.drop_eq_nil_of_le visits, List.drop_eq_nil_of_le paths]
        exact ⟨.nil, ⟨index, stands⟩, stops⟩

/-- Stepping forward until it fails meets the later nodes and exhausts the
cursor. -/
theorem walk_next (stands : origin.Stands index cursor) :
    cursor.walk Cursor.next = some cursor.remaining ∧
      cursor.remaining.2 = origin.subtree.exhaust ∧
      origin.Met (origin.nodesBelow.drop (index + 1))
        (origin.node.paths.drop (index + 1)) cursor.remaining.1 := by
  rw [remaining, stands.follows.rootNode]
  obtain ⟨met, ⟨_, final⟩, finished⟩ :=
    stands.trace_forward (Nat.le_add_left _ index)
  exact ⟨walk_of_trace (fun _ => rfl) finished, final.exhaust_eq, met⟩

/-- Stepping backward as long as possible meets the earlier nodes in reverse. -/
theorem trace_backward {bound : Nat} (stands : origin.Stands index cursor)
    (enough : index ≤ bound) :
    let walked := trace backward bound cursor
    origin.Met (origin.nodesBelow.take index).reverse
        (origin.node.paths.take index).reverse walked.1 ∧
      origin.Stands 0 walked.2 := by
  induction bound generalizing index cursor with
  | zero =>
      cases Nat.le_zero.mp enough
      exact ⟨.nil, stands⟩
  | succ bound induction =>
      rw [trace]
      cases index with
      | zero =>
          rw [stands.backward_of_zero]
          exact ⟨.nil, stands⟩
      | succ index =>
          obtain ⟨moved, steps, reached⟩ := stands.backward_of_succ
          rw [steps, reverse_take_succ reached.reaches.visit,
            reverse_take_succ reached.listed]
          obtain ⟨met, final⟩ :=
            induction reached (Nat.le_of_succ_le_succ enough)
          exact ⟨.cons reached.follows.tree met, final⟩

/-- Stepping backward until it fails meets the earlier nodes in reverse and ends
at the root. -/
theorem walk_previous (stands : origin.Stands index cursor) :
    cursor.walk previous = some cursor.preceding ∧
      cursor.preceding.2 = origin.subtree ∧
      origin.Met (origin.nodesBelow.take index).reverse
        (origin.node.paths.take index).reverse cursor.preceding.1 := by
  rw [preceding, stands.follows.rootNode]
  obtain ⟨met, final⟩ := stands.trace_backward (Nat.le_of_lt stands.index_lt)
  have walks := @walk_of_trace previous cursor backward id
    origin.node.count (fun _ => rfl) final.backward_of_zero
  exact ⟨walks, final.eq_subtree, met⟩

/-- The bound in the search for the next matching node is never what ends it. -/
theorem seek_eq_within {filter : NodeFilter} {bound : Nat}
    (stands : origin.Stands index cursor)
    (enough : origin.node.count ≤ index + bound) :
    cursor.seek filter = some (cursor.nextMatchingWithin filter bound) := by
  induction bound generalizing index cursor with
  | zero => exact absurd stands.index_lt (Nat.not_lt.mpr enough)
  | succ bound induction =>
      rw [seek, nextMatchingWithin]
      obtain ⟨moved, steps, reached⟩ | ⟨_, stops⟩ := stands.next
      · rw [steps]
        simp only
        split
        · rfl
        · exact induction reached (by omega)
      · rw [stops]

theorem seek_eq (stands : origin.Stands index cursor) (filter : NodeFilter) :
    cursor.seek filter = some (cursor.nextMatching filter) := by
  rw [nextMatching, stands.follows.rootNode]
  exact stands.seek_eq_within (Nat.le_add_left _ _)

theorem nextMatching_of_stop {last : Cursor} {filter : NodeFilter}
    (stands : origin.Stands index cursor)
    (stops : cursor.next = (false, last)) :
    cursor.nextMatching filter = (false, last) := by
  have search := stands.seek_eq filter
  rw [seek, stops] at search
  exact (Option.some.inj search).symm

theorem nextMatching_of_step {moved : Cursor} (filter : NodeFilter)
    (stands : origin.Stands index cursor) (steps : cursor.next = (true, moved))
    (reached : origin.Stands (index + 1) moved) :
    cursor.nextMatching filter =
      if filter.accepts moved.tree.grammar.value moved.node.symbol then
        (true, moved)
      else moved.nextMatching filter := by
  have search := stands.seek_eq filter
  rw [seek, steps] at search
  simp only [reached.seek_eq filter] at search
  rw [← apply_ite some] at search
  exact (Option.some.inj search).symm

/-- Searching until it fails meets those of the cursors met on a walk forward
that the filter accepts. -/
theorem walk_nextMatching {later : List Cursor} {last : Cursor}
    (stands : origin.Stands index cursor)
    (walks : cursor.walk Cursor.next = some (later, last))
    (filter : NodeFilter) :
    cursor.walk (nextMatching · filter) =
      some (later.filter fun moved =>
        filter.accepts moved.tree.grammar.value moved.node.symbol, last) := by
  induction later generalizing index cursor with
  | nil =>
      obtain ⟨moved, steps, _⟩ | ⟨_, stops⟩ := stands.next
      · obtain ⟨_, impossible, _⟩ := exists_walk_of_step steps walks
        cases impossible
      · cases (walk_of_stop stops).symm.trans walks
        exact walk_of_stop (stands.nextMatching_of_stop stops)
  | cons moved later induction =>
      obtain ⟨found, steps, reached⟩ | ⟨_, stops⟩ := stands.next
      · obtain ⟨rest, same, walks⟩ := exists_walk_of_step steps walks
        cases same
        have search := stands.nextMatching_of_step filter steps reached
        cases accepted :
            filter.accepts moved.tree.grammar.value moved.node.symbol with
        | true =>
            rw [accepted, if_pos rfl] at search
            rw [List.filter_cons, accepted, if_pos rfl]
            exact walk_of_step search (induction reached walks)
        | false =>
            rw [accepted, if_neg Bool.false_ne_true] at search
            rw [List.filter_cons, accepted, if_neg Bool.false_ne_true,
              ← induction reached walks]
            exact walk_congr search
      · cases (walk_of_stop stops).symm.trans walks

end Stands

/-- However a cursor walks from its root, it stands at the end of a listed path
as long as it is not exhausted. -/
theorem exists_stands (cursor : Cursor) (steps : List Step)
    (unspent :
      (cursor.subtree.moveAll (steps.map Step.asMove)).exhausted = false) :
    ∃ index, cursor.Stands index
      (cursor.subtree.moveAll (steps.map Step.asMove)) := by
  have follows := cursor.follows_subtree.stepAll steps
  obtain ⟨tree, root, rootStart⟩ := PathCursor.sameRoot_stepAll
    ⟨cursor.tree, cursor.node, cursor.start, [], false⟩ steps
  generalize PathCursor.stepAll
    ⟨cursor.tree, cursor.node, cursor.start, [], false⟩ steps = path
    at follows tree root rootStart
  obtain ⟨pathTree, pathRoot, pathStart, found, exhausted⟩ := path
  cases tree
  cases root
  cases rootStart
  cases follows.exhausted.symm.trans unspent
  have member : found ∈ cursor.node.paths := by
    rw [follows.paths]
    exact List.mem_append_right _ List.mem_cons_self
  obtain ⟨index, listed⟩ := List.mem_iff_getElem?.mp member
  exact ⟨index, .of_follows follows listed⟩

/-- Stepping forward and stepping backward walk through the nodes in the order
of the text in opposite directions.  However a cursor came from its root to
where it is, it stands at the node of one index if it is not exhausted.  A step
forward leads to the node of the next index, and exhausts the cursor at the last
one; a step backward leads to the node of the index before, and changes nothing
at the first one.  Each takes back the other.  So stepping forward until it
fails meets every later node once and in order, stepping backward meets every
earlier node in the reverse order, and searching with a filter meets those of
the later nodes that the filter accepts.  No walk and no search goes on
forever. -/
theorem next_previous_opposite (cursor : Cursor) (steps : List Step) :
    let walked := cursor.subtree.moveAll (steps.map Step.asMove)
    let nodes := cursor.nodesBelow
    let paths := cursor.node.paths
    nodes.length = cursor.node.count ∧
      paths.length = cursor.node.count ∧ paths.Nodup ∧
      (walked.exhausted = false →
        ∃ index, cursor.Reaches index walked ∧
          (index + 1 < nodes.length →
            ∃ moved, walked.next = (true, moved) ∧
              cursor.Reaches (index + 1) moved ∧
                moved.previous = (true, walked)) ∧
          (index + 1 = nodes.length →
            walked.next = (false, cursor.subtree.exhaust)) ∧
          (0 < index →
            ∃ moved, walked.previous = (true, moved) ∧
              cursor.Reaches (index - 1) moved ∧
                moved.next = (true, walked)) ∧
          (index = 0 → walked.previous = (false, walked)) ∧
          walked.walk next = some walked.remaining ∧
          walked.remaining.2 = cursor.subtree.exhaust ∧
          cursor.Met (nodes.drop (index + 1)) (paths.drop (index + 1))
            walked.remaining.1 ∧
          walked.walk previous = some walked.preceding ∧
          walked.preceding.2 = cursor.subtree ∧
          cursor.Met (nodes.take index).reverse (paths.take index).reverse
            walked.preceding.1 ∧
          ∀ filter,
            let found := walked.remainingMatching filter
            walked.seek filter = some (walked.nextMatching filter) ∧
              walked.walk (nextMatching · filter) = some found ∧
              found.2 = cursor.subtree.exhaust ∧
              found.1.map visit =
                (nodes.drop (index + 1)).filter (cursor.accepts filter)) := by
  intro walked nodes paths
  have count : nodes.length = cursor.node.count :=
    Node.length_preorder 0 cursor.start cursor.node
  refine ⟨count, cursor.node.length_paths, cursor.node.nodup_paths,
    fun unspent => ?_⟩
  obtain ⟨index, stands⟩ := cursor.exists_stands steps unspent
  obtain ⟨walksOn, finalOn, metOn⟩ := stands.walk_next
  obtain ⟨walksBack, finalBack, metBack⟩ := stands.walk_previous
  refine ⟨index, stands.reaches, fun inside => ?_, fun last => ?_,
    fun positive => ?_, fun first => ?_, walksOn, finalOn, metOn, walksBack,
    finalBack, metBack, fun filter => ⟨stands.seek_eq filter,
      stands.walk_nextMatching walksOn filter, finalOn,
      metOn.map_visit_filter filter⟩⟩
  · obtain ⟨moved, steps, reached⟩ | ⟨last, _⟩ := stands.next
    · obtain ⟨back, returns, stood⟩ := reached.backward_of_succ
      refine ⟨moved, steps, reached.reaches, ?_⟩
      rw [previous, returns, stood.unique stands]
    · omega
  · obtain ⟨moved, _, reached⟩ | ⟨_, stops⟩ := stands.next
    · have inside := reached.index_lt
      omega
    · exact stops
  · cases index with
    | zero => exact absurd positive (Nat.lt_irrefl 0)
    | succ index =>
        obtain ⟨moved, steps, reached⟩ := stands.backward_of_succ
        refine ⟨moved, ?_, reached.reaches, ?_⟩
        · rw [previous, steps]
        · obtain ⟨ahead, returns, stood⟩ | ⟨final, _⟩ := reached.next
          · rw [returns, stood.unique stands]
          · have inside := stands.index_lt
            omega
  · subst first
    rw [previous, stands.backward_of_zero]

end Cursor

namespace Tree

/-- The tree of two letters, with the first one in a group of its own. -/
def grouped : Tree where
  root := ⟨3, ⟨1⟩, 3, 1, false,
    [⟨0, ⟨2, ⟨1⟩, 1, 1, false, [⟨0, .leaf 0 ⟨0⟩ 1 1⟩]⟩⟩,
      ⟨2, .leaf 1 ⟨0⟩ 1 1⟩]⟩
  grammar := letters.grammar
  source := letters.source
  version := 0

/-- From the letter in the group a walk forward climbs out of the group to the
other letter, and a walk backward meets the group and the root. -/
theorem walks_from_grouped_letter :
    let letter := (Cursor.ofTree grouped).moveAll [.down, .down]
    letter.exhausted = false ∧
      letter.walk Cursor.next = some letter.remaining ∧
      letter.remaining.1.map Cursor.visit = [⟨1, 2, .leaf 1 ⟨0⟩ 1 1⟩] ∧
      letter.remaining.2.exhausted = true ∧
      letter.walk Cursor.previous = some letter.preceding ∧
      letter.preceding.1.map Cursor.path = [[0], []] ∧
      letter.preceding.2 = Cursor.ofTree grouped ∧
      letter.walk (Cursor.nextMatching · (.only ⟨1⟩)) =
        some ([], (Cursor.ofTree grouped).exhaust) := by
  have unspent :
      ((Cursor.ofTree grouped).moveAll [.down, .down]).exhausted = false := rfl
  obtain ⟨_, _, _, walks⟩ :=
    (Cursor.ofTree grouped).next_previous_opposite [.down, .down]
  obtain ⟨index, reaches, _, _, _, _, walksOn, finalOn, metOn, walksBack,
    finalBack, metBack, matching⟩ := walks unspent
  have listed : [[], [0], [0, 0], [1]][index]? = some [0, 0] := reaches.path
  have second : index = 2 := by
    rcases index with _ | _ | _ | _ | index <;> simp at listed ⊢
  subst second
  obtain ⟨_, walksToGroups, finalGroup, groups⟩ := matching (.only ⟨1⟩)
  have none := List.map_eq_nil_iff.mp groups
  exact ⟨unspent, walksOn, metOn.visits, congrArg Cursor.exhausted finalOn,
    walksBack, metBack.paths, finalBack,
    walksToGroups.trans (congrArg some (Prod.ext none finalGroup))⟩

end Tree

end Reparse
