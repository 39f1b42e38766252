/-!
# Places

An index counts items from the front, or from the end if it is negative.
-/

namespace MatrixChain

/-- The place that an index means among `size` items. -/
def place? (size : Nat) (index : Int) : Option Nat :=
  if 0 ≤ index then
    if index < size then some index.toNat else none
  else if -size ≤ index then some (index + size).toNat
  else none

theorem place?_ofNat {size i : Nat} (h : i < size) : place? size i = some i := by
  simp [place?, h]

def itemAt? {β : Type} (items : Array β) (index : Int) : Option β :=
  (place? items.size index).bind (items[·]?)

theorem itemAt?_ofNat {β : Type} (items : Array β) (i : Nat) : itemAt? items i = items[i]? := by
  by_cases h : i < items.size
  · simp [itemAt?, place?_ofNat h]
  · simp [itemAt?, place?, h]

end MatrixChain
