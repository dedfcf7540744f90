import SegregatedFit.Arena
import SegregatedFit.Tag

/-!
Blocks, known by the offset of their head tag. A used block is a head tag and its payload. A
free block holds a head tag, the links to its neighbours in a free list, and in its last word a
tail tag.
-/
namespace SegregatedFit

structure Links where
  prev : Nat
  next : Nat
deriving DecidableEq, Repr

namespace Arena

def tag (a : Arena) (block : Nat) : Except Fault Tag :=
  return .decode (← a.word block)

def setTag (a : Arena) (block : Nat) (t : Tag) : Except Fault Arena := do
  a.setWord block (← t.encode)

def blockSize (a : Arena) (block : Nat) : Except Fault Nat :=
  return (← a.tag block).size

def blockEnd (a : Arena) (block : Nat) : Except Fault Nat := do
  plus block (← a.blockSize block)

def tailWord (a : Arena) (block : Nat) : Except Fault UInt64 := do
  a.word (← minus (← a.blockEnd block) wordSize)

/-- The free block before this one, found through its tail tag. -/
def prevFree (a : Arena) (block : Nat) : Except Fault Nat := do
  minus block (Tag.decode (← a.word (← minus block wordSize))).size

def writeFree (a : Arena) (block size : Nat) (prevUsed : Bool) : Except Fault Arena := do
  let w ← Tag.encode ⟨size, false, prevUsed⟩
  let a ← a.setWord block w
  a.setWord (← minus (← plus block size) wordSize) w

def links (a : Arena) (block : Nat) : Except Fault Links := do
  let prev ← a.word (← plus block wordSize)
  let next ← a.word (← plus block (2 * wordSize))
  return ⟨prev.toNat, next.toNat⟩

def setPrev (a : Arena) (block prev : Nat) : Except Fault Arena := do
  a.setWord (← plus block wordSize) (.ofNat prev)

def setNext (a : Arena) (block next : Nat) : Except Fault Arena := do
  a.setWord (← plus block (2 * wordSize)) (.ofNat next)

end Arena

end SegregatedFit
