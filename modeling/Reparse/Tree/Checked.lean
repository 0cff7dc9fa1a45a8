import Reparse.Text.Offset
import Reparse.Tree.Shell

/-!
# Edits with every offset checked

An edit adds and subtracts offsets all along the path that it copies.  Here each
of those sums and differences, and each position that the edit shifts, is
checked to be an offset, and the copy comes to nothing where one is not.
-/

namespace Reparse

/-- The end of a child relative to the start of its parent, if it is an
offset. -/
def Placed.stop? (child : Placed Node) : Option Nat :=
  plus? child.offset child.item.length

namespace Node

mutual

/-- `Node.damage` with every offset checked. -/
def damageChecked (edit : Edit) (start newStart supply : Nat) :
    Node → Option (Node × Nat)
  | ⟨_, symbol, length, lookahead, _, children⟩ => do
      let stop ← plus? start length
      let newStop ← edit.adjust? stop
      let (copies, next) ← damageListChecked edit start newStart supply children
      let newLength ← minus? newStop newStart
      return (⟨next, symbol, newLength, lookahead, true, copies⟩, next + 1)

/-- `Node.damageList` with every offset checked. -/
def damageListChecked (edit : Edit) (start newStart supply : Nat) :
    List (Placed Node) → Option (List (Placed Node) × Nat)
  | [] => some ([], supply)
  | ⟨offset, node⟩ :: rest => do
      let childStart ← plus? start offset
      let newChildStart ← edit.adjust? childStart
      let childStop ← plus? childStart node.length
      let (copy, next) ←
        if edit.affects ⟨childStart, childStop⟩ node.lookahead then
          node.damageChecked edit childStart newChildStart supply
        else some (node, supply)
      let newOffset ← minus? newChildStart newStart
      let (copies, last) ← damageListChecked edit start newStart next rest
      return (⟨newOffset, copy⟩ :: copies, last)

end

end Node

end Reparse
