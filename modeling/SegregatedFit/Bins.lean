import SegregatedFit.Arena.Block

/-!
The free lists, one for each bucket. A list is a ring through the links of its blocks and of a
sentinel in the prologue; the block put in last is the first one after the sentinel.
-/
namespace SegregatedFit

structure Bins where
  lengths : Vector Nat bucketCount
deriving DecidableEq, Repr

namespace Bins

def empty : Bins := ⟨.replicate bucketCount 0⟩

def length (bins : Bins) (b : Fin bucketCount) : Nat := bins.lengths.get b

def setLength (bins : Bins) (b : Fin bucketCount) (n : Nat) : Bins :=
  ⟨bins.lengths.set b n b.isLt⟩

def total (bins : Bins) : Nat := bins.lengths.toList.foldl (· + ·) 0

def reset (a : Arena) : Except Fault Arena :=
  (List.finRange bucketCount).foldlM (fun a b => do
    let s := sentinel b
    let a ← a.setTag s ⟨0, true, true⟩
    let a ← a.setPrev s s
    a.setNext s s) a

def push (bins : Bins) (a : Arena) (block : Nat) : Except Fault (Bins × Arena) := do
  let b := bucketFor (← a.blockSize block)
  let s := sentinel b
  let first := (← a.links s).next
  let a ← a.setPrev block s
  let a ← a.setNext block first
  let a ← a.setPrev first block
  let a ← a.setNext s block
  return (bins.setLength b (← plus (bins.length b) 1), a)

/-- Takes a listed block out of its bucket. Its tags still describe it. -/
def remove (bins : Bins) (a : Arena) (block : Nat) : Except Fault (Bins × Arena) := do
  let b := bucketFor (← a.blockSize block)
  let l ← a.links block
  let a ← a.setNext l.prev l.next
  let a ← a.setPrev l.next l.prev
  if bins.length b = 0 then throw .emptyBucket
  return (bins.setLength b (bins.length b - 1), a)

def search (a : Arena) (s size : Nat) : (fuel current : Nat) → Except Fault (Option Nat)
  | 0, _ => .error .endlessList
  | fuel + 1, current =>
    if current = s then .ok none
    else do
      if size ≤ (← a.blockSize current) then return some current
      search a s size fuel (← a.links current).next

/-- The first block of at least `size` bytes, from the bucket of that size up. A list visits each
aligned word below the top once at most before its links repeat. -/
def firstFit (bins : Bins) (a : Arena) (size : Nat) : Except Fault (Option Nat) :=
  (List.finRange bucketCount).findSomeM? fun b =>
    if b < bucketFor size ∨ bins.length b = 0 then return none
    else do search a (sentinel b) size (a.top / wordSize + 1) (← a.links (sentinel b)).next

end Bins

end SegregatedFit
