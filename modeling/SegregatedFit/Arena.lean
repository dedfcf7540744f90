import SegregatedFit.Fault
import SegregatedFit.Memory

/-!
The arena: the memory a heap has grown into so far. It covers the offsets from 0 to `top`, the
prologue below `low` and the heap from `low` on. All access to words is checked.
-/
namespace SegregatedFit

structure Arena where
  mem : Memory
  low : Nat
  top : Nat
  low_le_top : low ≤ top

namespace Arena

def blank (mem : Memory) : Arena := ⟨mem, 0, 0, Nat.le_refl _⟩

instance : Inhabited Arena := ⟨blank .zero⟩

def size (a : Arena) : Nat := a.top - a.low

/-- Back to no prologue and no heap. The memory keeps its bytes. -/
def clear (a : Arena) : Arena := blank a.mem

def sealPrologue (a : Arena) : Arena := { a with low := a.top, low_le_top := Nat.le_refl _ }

def raise (a : Arena) (delta : Nat) : Arena :=
  { a with top := a.top + delta, low_le_top := Nat.le_trans a.low_le_top (Nat.le_add_right ..) }

def shrink (a : Arena) (delta : Nat) : Except Fault Arena :=
  if delta ≤ a.top then
    if h : a.low ≤ a.top - delta then .ok { a with top := a.top - delta, low_le_top := h }
    else .error .shrinkBelowLow
  else .error .subOverflow

def contains (a : Arena) (off : Nat) : Bool := a.low ≤ off && off < a.top

def checkWord (a : Arena) (off : Nat) : Except Fault Unit := do
  if off % wordSize ≠ 0 then throw (.unalignedWord off)
  if a.top < (← plus off wordSize) then throw (.wordPastTop off a.top)

def word (a : Arena) (off : Nat) : Except Fault UInt64 := do
  a.checkWord off
  return a.mem.word off

def setWord (a : Arena) (off : Nat) (w : UInt64) : Except Fault Arena :=
  match a.checkWord off with
  | .error e => .error e
  | .ok () => .ok { a with mem := a.mem.setWord off w }

def pointer (a : Arena) (off : Nat) : Except Fault Nat :=
  if off ≤ a.top then .ok off else .error .pointerPastTop

/-- The offset in the heap that a pointer points to. A pointer is its distance from the base,
modulo the words. As the base lies below `addressLimit`, a pointer below the base is less than
that away from it; it has no offset at all. -/
def offset (a : Arena) (ptr : Nat) : Except Fault Nat :=
  if a.contains ptr then .ok ptr
  else if wordLimit - addressLimit < ptr then .error .subOverflow
  else .error .outsideHeap

theorem offset_of_contains {a : Arena} {ptr : Nat} (h : a.contains ptr) : a.offset ptr = .ok ptr :=
  if_pos h

def copy (a : Arena) (source target n : Nat) : Except Fault Arena := do
  let sourceEnd ← plus source n
  if a.top < sourceEnd then throw .copyPastTop
  let targetEnd ← plus target n
  if a.top < targetEnd then throw .copyPastTop
  if target < sourceEnd && source < targetEnd then throw .copyOverlap
  return { a with mem := a.mem.copy source target n }

def spans (a : Arena) (off n : Nat) : Bool := off + n ≤ a.top

def mapMem (a : Arena) (f : Memory → Memory) : Arena := { a with mem := f a.mem }

end Arena

end SegregatedFit
