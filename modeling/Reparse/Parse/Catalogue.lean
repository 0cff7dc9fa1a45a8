import Std.Data.HashMap
import Reparse.Parse.Search

/-!
# Catalogues

A catalogue answers the searches of a node from a table that is filled in one
walk.  A position belongs to the first child that ends after it, so every node
has a window of positions for which a search comes to it; the window of a child
is cut out of that of its parent.  A node is entered for its start if that lies
in its window, and since the walk meets parents first, a node further down does
not replace it.

`Catalogue.agrees` says that nothing is lost: the table holds what a search
finds.
-/

namespace Reparse

/-- What searches below a node find, by symbol and position. -/
abbrev FoundNodes := Std.HashMap (Symbol × Nat) Node

namespace Node

/-- Enters an undamaged node that starts at `start`, provided that a search
comes to it there. -/
def enterAt (node : Node) (low high start : Nat) (entries : FoundNodes) :
    FoundNodes :=
  if low ≤ start ∧ start < min high (start + node.length) ∧
      node.damaged = false then
    entries.insertIfNew (node.symbol, start) node
  else entries

mutual

/-- Enters what lies below a node that starts at `start`, for searches of the
positions `low..high`. -/
def enterBelow (start low high : Nat) (entries : FoundNodes) : Node → FoundNodes
  | ⟨_, _, _, _, _, children⟩ => enterChildren start low high entries children

/-- Enters children of a parent that starts at `start`, and what lies below
them, for searches of the positions `low..high`. -/
def enterChildren (start low high : Nat) (entries : FoundNodes) :
    List (Placed Node) → FoundNodes
  | [] => entries
  | ⟨offset, node⟩ :: rest =>
      let first := start + offset
      let stop := first + node.length
      let entered := node.enterAt low high first entries
      let below := node.enterBelow first (max low first) (min high stop) entered
      enterChildren start (max low stop) high below rest

end

/-- What a search finds that begins among some children. -/
def foundAmong (symbol : Symbol) (position : Nat) :
    List (Placed Node) → Option Node
  | [] => none
  | child :: rest =>
      if position < child.stop then
        if position < child.offset then none
        else if position = child.offset ∧ child.item.symbol = symbol ∧
            child.item.damaged = false then
          some child.item
        else (child.item.search symbol (position - child.offset)).found
      else foundAmong symbol position rest

theorem foundAmong_eq (symbol : Symbol) (position : Nat)
    (children : List (Placed Node)) :
    foundAmong symbol position children =
      match children.find? fun child => position < child.stop with
      | none => none
      | some child =>
          if position < child.offset then none
          else if position = child.offset ∧ child.item.symbol = symbol ∧
              child.item.damaged = false then
            some child.item
          else (child.item.search symbol (position - child.offset)).found := by
  induction children with
  | nil => rfl
  | cons child rest induction =>
      by_cases covered : position < child.stop
      · simp [foundAmong, covered]
      · simp [foundAmong, covered, induction]

theorem found_search (symbol : Symbol) (node : Node) (position : Nat) :
    (node.search symbol position).found =
      foundAmong symbol position node.children := by
  rw [search, foundAmong_eq]
  simp only [childCovering?]
  split
  · next notCovered => rw [notCovered]
  · next child covered =>
      rw [covered]
      simp only
      split
      · rfl
      · by_cases candidate :
            position = child.offset ∧ child.item.symbol = symbol
        · cases child.item.damaged <;> simp [candidate]
        · by_cases starts : position = child.offset <;> simp_all

theorem foundAmong_none {symbol : Symbol} {position : Nat}
    {children : List (Placed Node)}
    (beyond : ∀ child ∈ children, child.stop ≤ position) :
    foundAmong symbol position children = none := by
  induction children with
  | nil => rfl
  | cons child rest induction =>
      have := beyond child (List.mem_cons_self ..)
      rw [foundAmong, if_neg (by omega)]
      exact induction fun later member =>
        beyond later (List.mem_cons_of_mem _ member)

/-- A node that starts at `start` is entered for the symbol and the position. -/
def IsEntry (node : Node) (low high start : Nat) (symbol : Symbol)
    (position : Nat) : Prop :=
  low ≤ position ∧ position < high ∧ position < start + node.length ∧
    position = start ∧ node.symbol = symbol ∧ node.damaged = false

instance (node : Node) (low high start : Nat) (symbol : Symbol)
    (position : Nat) :
    Decidable (node.IsEntry low high start symbol position) :=
  inferInstanceAs (Decidable (_ ∧ _))

theorem getElem?_enterAt (node : Node) (low high start : Nat)
    (entries : FoundNodes) (symbol : Symbol) (position : Nat) :
    (node.enterAt low high start entries)[(symbol, position)]? =
      entries[(symbol, position)]?.or
        (if node.IsEntry low high start symbol position then some node
        else none) := by
  unfold enterAt
  split
  · next inside =>
      rw [Std.HashMap.getElem?_insertIfNew]
      by_cases same : (node.symbol, start) = (symbol, position)
      · obtain ⟨rfl, rfl⟩ := Prod.mk.inj same
        have entry : node.IsEntry low high start node.symbol start := by
          refine ⟨?_, ?_, ?_, rfl, rfl, inside.2.2⟩ <;> omega
        rw [if_pos entry]
        by_cases known : (node.symbol, start) ∈ entries
        · rw [if_neg (fun insertion => insertion.2 known),
            Std.HashMap.getElem?_eq_some_getElem known, Option.some_or]
        · rw [if_pos ⟨beq_self_eq_true _, known⟩,
            Std.HashMap.getElem?_eq_none known, Option.none_or]
      · have missed : ¬node.IsEntry low high start symbol position := by
          rintro ⟨_, _, _, startSame, symbolSame, _⟩
          exact same (by rw [startSame, symbolSame])
        rw [if_neg missed,
          if_neg (fun insertion => same (eq_of_beq insertion.1)),
          Option.or_none]
  · next outside =>
      have missed : ¬node.IsEntry low high start symbol position := by
        rintro ⟨fromLow, toHigh, toStop, startSame, _, undamaged⟩
        exact outside ⟨by omega, by omega, undamaged⟩
      rw [if_neg missed, Option.or_none]

mutual

theorem getElem?_enterBelow {start low high : Nat} (within : start ≤ low)
    (entries : FoundNodes) (symbol : Symbol) (position : Nat) :
    ∀ node : Node,
      (node.enterBelow start low high entries)[(symbol, position)]? =
        entries[(symbol, position)]?.or
          (if low ≤ position ∧ position < high then
            foundAmong symbol (position - start) node.children
          else none)
  | ⟨_, _, _, _, _, children⟩ =>
      getElem?_enterChildren within entries symbol position children

theorem getElem?_enterChildren {start low high : Nat} (within : start ≤ low)
    (entries : FoundNodes) (symbol : Symbol) (position : Nat) :
    ∀ children : List (Placed Node),
      (enterChildren start low high entries children)[(symbol, position)]? =
        entries[(symbol, position)]?.or
          (if low ≤ position ∧ position < high then
            foundAmong symbol (position - start) children
          else none)
  | [] => by simp [enterChildren, foundAmong]
  | ⟨offset, node⟩ :: rest => by
      simp only [enterChildren]
      rw [getElem?_enterChildren (by omega) _ symbol position rest,
        getElem?_enterBelow (by omega) _ symbol position node, getElem?_enterAt,
        Option.or_assoc, Option.or_assoc]
      congr 1
      simp only [foundAmong, Placed.stop, found_search]
      have shifted :
          position - (start + offset) = position - start - offset := by
        omega
      -- What a search of the parent comes to is the child, below the child or
      -- among the rest, and the three windows do not overlap.
      by_cases inside : low ≤ position ∧ position < high
      · rw [if_pos inside]
        by_cases covered : position - start < offset + node.length
        · have beyond : ¬(max low (start + offset + node.length) ≤ position ∧
              position < high) := by
            omega
          rw [if_pos covered, if_neg beyond]
          by_cases before : position - start < offset
          · have missed :
                ¬node.IsEntry low high (start + offset) symbol position := by
              rintro ⟨_, _, _, starts, _⟩
              omega
            have above : ¬(max low (start + offset) ≤ position ∧
                position < min high (start + offset + node.length)) := by
              omega
            rw [if_pos before, if_neg missed, if_neg above]
            rfl
          · have below : max low (start + offset) ≤ position ∧
                position < min high (start + offset + node.length) := by
              omega
            rw [if_neg before, if_pos below, Option.or_none, shifted]
            by_cases candidate : position - start = offset ∧
                node.symbol = symbol ∧ node.damaged = false
            · have hit : node.IsEntry low high (start + offset) symbol
                  position := by
                refine ⟨?_, ?_, ?_, ?_, candidate.2⟩ <;> omega
              rw [if_pos candidate, if_pos hit, Option.some_or]
            · have missed :
                  ¬node.IsEntry low high (start + offset) symbol position := by
                rintro ⟨_, _, _, starts, rest⟩
                exact candidate ⟨by omega, rest⟩
              rw [if_neg candidate, if_neg missed, Option.none_or]
        · have missed :
              ¬node.IsEntry low high (start + offset) symbol position := by
            rintro ⟨_, _, _, starts, _⟩
            omega
          have above : ¬(max low (start + offset) ≤ position ∧
              position < min high (start + offset + node.length)) := by
            omega
          have later : max low (start + offset + node.length) ≤ position ∧
              position < high := by
            omega
          rw [if_neg covered, if_neg missed, if_neg above, if_pos later,
            Option.none_or, Option.none_or]
      · have missed :
            ¬node.IsEntry low high (start + offset) symbol position :=
          fun entry => inside ⟨entry.1, entry.2.1⟩
        have above : ¬(max low (start + offset) ≤ position ∧
            position < min high (start + offset + node.length)) := by
          omega
        have beyond : ¬(max low (start + offset + node.length) ≤ position ∧
            position < high) := by
          omega
        rw [if_neg inside, if_neg missed, if_neg above, if_neg beyond]
        rfl

end

/-- Where the last of some children ends. -/
def reach (children : List (Placed Node)) : Nat :=
  children.foldr (fun child furthest => max child.stop furthest) 0

theorem stop_le_reach {children : List (Placed Node)} {child : Placed Node}
    (member : child ∈ children) : child.stop ≤ reach children := by
  induction children with
  | nil => cases member
  | cons first rest induction =>
      simp only [reach, List.foldr_cons]
      rcases List.mem_cons.mp member with same | later
      · rw [same]
        exact Nat.le_max_left _ _
      · exact Nat.le_trans (induction later) (Nat.le_max_right _ _)

def foundNodes (root : Node) : FoundNodes :=
  enterChildren 0 0 (reach root.children) ∅ root.children

theorem getElem?_foundNodes (root : Node) (symbol : Symbol) (position : Nat) :
    root.foundNodes[(symbol, position)]? =
      (root.search symbol position).found := by
  rw [foundNodes, getElem?_enterChildren (Nat.le_refl 0), found_search,
    Std.HashMap.getElem?_empty, Option.none_or, Nat.sub_zero]
  by_cases inside : position < reach root.children
  · rw [if_pos ⟨Nat.zero_le _, inside⟩]
  · rw [if_neg (fun window => inside window.2), foundAmong_none]
    intro child member
    have := stop_le_reach member
    omega

end Node

/-- The searches of a node, if there is one, answered in advance. -/
structure Catalogue (previous : Option Node) where
  entries : FoundNodes
  agrees : ∀ symbol position,
    entries[(symbol, position)]? =
      previous.bind fun root => (root.search symbol position).found

namespace Catalogue

def ofNode? : (previous : Option Node) → Catalogue previous
  | none => ⟨∅, fun _ _ => Std.HashMap.getElem?_empty⟩
  | some root => ⟨root.foundNodes, root.getElem?_foundNodes⟩

/-- An undamaged node of the symbol that starts at a position. -/
def find? {previous : Option Node} (catalogue : Catalogue previous)
    (symbol : Symbol) (position : Nat) : Option Node :=
  catalogue.entries[(symbol, position)]?

/-- A catalogue gives what a search finds. -/
theorem find?_eq_search {previous : Option Node}
    (catalogue : Catalogue previous) (symbol : Symbol) (position : Nat) :
    catalogue.find? symbol position =
      previous.bind fun root => (root.search symbol position).found :=
  catalogue.agrees symbol position

end Catalogue

end Reparse
