import Mathlib.Data.List.Basic
import Mathlib.Data.UInt

/-!
# The map allocator

`Allocator` hands out runs of units (pages, swap blocks, bytes of the kernel
heap) from a map: an array of `MapNode`s sorted by address whose end is marked by
a node of size zero.  A pointer into the array is its index; every access is
checked, so that `none` stands for an access outside the array.

* `Allocator.alloc` — first fit.
* `Allocator.allocNext` — the modified next fit, with its `beginNode`.
* `Allocator.free` — giving a range back, with its merge cases.

The loops of the source are `advance` (a pointer runs right until a condition
holds), `shiftDown` (the nodes behind a vanished node move one slot to the left)
and `shiftUp` (they move one slot to the right to make room).
-/

namespace UnixV6pp

/-- An entry of a map: `mSize` free units from `mAddressIdx` on. -/
structure MapNode where
  mSize : UInt32
  mAddressIdx : UInt32
  deriving DecidableEq, Repr, Inhabited

namespace Allocator

/-- The pointer loop `for (pNode = map + i; !stop(*pNode); pNode++)`: the index
it ends at, or `none` when it runs off the array. -/
def advance (map : List MapNode) (i : ℕ) (stop : MapNode → Bool) : Option ℕ :=
  ((map.drop i).findIdx? stop).map (i + ·)

/-- The loop that closes the slot of a vanished node.  The argument is the array
from that slot on: `pNode` is its head and `pNextNode` the node after it. -/
def shiftDown : List MapNode → Option (List MapNode)
  | _ :: pNextNode :: rest =>
      if pNextNode.mSize ≠ 0 then
        (shiftDown (pNextNode :: rest)).map (pNextNode :: ·)
      else
        some (⟨0, 0⟩ :: pNextNode :: rest)
  | _ => none

/-- The loop that inserts `tmpNode1` at `pNode`, the head of the argument, and
moves the nodes from there on one slot to the right over the end mark. -/
def shiftUp (tmpNode1 : MapNode) : List MapNode → Option (List MapNode)
  | [] => none
  | pNode :: rest =>
      if pNode.mSize ≠ 0 then
        (shiftUp pNode rest).map (tmpNode1 :: ·)
      else
        some (tmpNode1 :: rest)

/-- Take `size` units from the front of `pNode`, the node at index `p`; a node
used up is closed over.  The result is the address, whether the node vanished,
and the array. -/
def take (map : List MapNode) (p : ℕ) (pNode : MapNode) (size : UInt32) :
    Option (UInt32 × Bool × List MapNode) :=
  let pNode' : MapNode := ⟨pNode.mSize - size, pNode.mAddressIdx + size⟩
  if pNode'.mSize = 0 then
    (shiftDown (pNode' :: map.drop (p + 1))).map fun tail =>
      (pNode.mAddressIdx, true, map.take p ++ tail)
  else
    some (pNode.mAddressIdx, false, map.set p pNode')

/-- First fit: `Allocator::Alloc(map, size)`. -/
def alloc (map : List MapNode) (size : UInt32) : Option (UInt32 × List MapNode) := do
  -- the `for` loop ends at the end mark or at the first node that is large enough
  let p ← advance map 0 fun n => n.mSize == 0 || size ≤ n.mSize
  let pNode ← map[p]?
  if pNode.mSize = 0 then
    some (0, map)
  else
    let (retIdx, _, map') ← take map p pNode size
    some (retIdx, map')

/-- Next fit: `Allocator::Alloc(map, size, beginNode)`.  The last component of
the result is the new `beginNode`. -/
def allocNext (map : List MapNode) (size : UInt32) (beginNode : ℕ) :
    Option (UInt32 × List MapNode × ℕ) := do
  -- first pass: from `beginNode` to the end mark
  let p ← advance map beginNode fun n => n.mSize == 0 || size ≤ n.mSize
  let pNode ← map[p]?
  -- second pass: from the start of the array to `beginNode`
  let found ←
    if pNode.mSize = 0 then some ((map.take beginNode).findIdx? fun n => size ≤ n.mSize)
    else some (some p)
  match found with
  | none => some (0, map, beginNode)
  | some p =>
    let pNode ← map[p]?
    let (retIdx, vanished, map') ← take map p pNode size
    some (retIdx, map', if vanished then p else p + 1)

/-- `Allocator::Free(map, size, addrIdx)`. -/
def free (map : List MapNode) (size addrIdx : UInt32) : Option (List MapNode) := do
  -- `pNode` is the first node behind `addrIdx`, or the end mark
  let p ← advance map 0 fun n => !(n.mAddressIdx ≤ addrIdx && n.mSize ≠ 0)
  let pNode ← map[p]?
  match (if p = 0 then none else map[p - 1]?).filter
      (fun pLastNode => addrIdx = pLastNode.mAddressIdx + pLastNode.mSize) with
  | some pLastNode =>
    -- the range continues `pLastNode`
    if addrIdx + size = pNode.mAddressIdx then
      let tail ← shiftDown (map.drop p)
      let joined : MapNode := ⟨pLastNode.mSize + size + pNode.mSize, pLastNode.mAddressIdx⟩
      some (map.take (p - 1) ++ joined :: tail)
    else
      some (map.set (p - 1) ⟨pLastNode.mSize + size, pLastNode.mAddressIdx⟩)
  | none =>
    if addrIdx + size = pNode.mAddressIdx ∧ pNode.mSize ≠ 0 then
      some (map.set p ⟨pNode.mSize + size, addrIdx⟩)
    else if size ≠ 0 then
      (shiftUp ⟨size, addrIdx⟩ (map.drop p)).map (map.take p ++ ·)
    else
      some map

end Allocator

end UnixV6pp
