import SegregatedFit.Bins

/-!
The heap check: it walks the blocks by size from the heap's low end, then every free list, and
reports the first broken invariant that it meets.
-/
namespace SegregatedFit

abbrev Audit := ExceptT Corruption (Except Fault)

namespace Audit

def saturatingPlus (a b : Nat) : Nat := min (a + b) (wordLimit - 1)

/-- Walks the blocks from `off`. The block before starts at `prev` and is used if `prevUsed` says
so, and `free` free blocks were met so far. The answer is the number of free blocks in all. -/
def walk (a : Arena) (off prev : Nat) (prevUsed : Bool) (free : Nat) : Audit Nat := do
  if h : off < a.top then
    let t ← a.tag off
    if hs : t.size < minBlock ∨ t.size % alignment ≠ 0 then
      throw (.badSize off t.size)
    else if a.top - off < t.size then
      throw (.walkOverrun (saturatingPlus off t.size) a.top)
    else if t.prevUsed ≠ prevUsed then
      throw (.prevUsedMismatch off t.prevUsed prevUsed)
    else if t.used then
      walk a (off + t.size) off true free
    else
      -- only the head's prevUsed is kept up to date
      let head ← a.word off
      let tail ← a.tailWord off
      if (head ^^^ tail) &&& ~~~Tag.prevUsedBit ≠ 0 then
        throw (.tagMismatch off head tail)
      else if !prevUsed then
        throw (.adjacentFree prev off)
      else
        walk a (off + t.size) off false (free + 1)
  else if off ≠ a.top then
    throw (.walkOverrun off a.top)
  else
    return free
termination_by a.top - off
decreasing_by all_goals simp only [minBlock, wordSize] at hs; omega

def fits (a : Arena) (off : Nat) : Bool :=
  a.contains off && off % wordSize == 0 && off + minBlock ≤ a.top

/-- Only where a free block could start is the heap read as one. -/
def checkPlace (a : Arena) (b : Fin bucketCount) (current : Nat) : Audit Unit := do
  if a.contains current && current % wordSize == 0 then
    if (← plus current minBlock) ≤ a.top then return ()
  throw (.brokenLink b current)

def checkEntry (a : Arena) (b : Fin bucketCount) (prev current : Nat) : Audit Nat := do
  checkPlace a b current
  let l ← a.links current
  let t ← a.tag current
  if l.prev ≠ prev then throw (.brokenLink b current)
  if t.used then throw (.notFree b current)
  if bucketFor t.size ≠ b then throw (.wrongBucket b current t.size)
  return l.next

/-- Follows the list of bucket `b` from `current`, the entry after `prev`. Of the `walked` free
blocks `room` are still to be listed; more entries than that mean a cycle or a stray block. The
answer is the last entry, and how many blocks are then still to be listed. -/
def followList (a : Arena) (b : Fin bucketCount) (walked prev current : Nat) :
    (room : Nat) → Audit (Nat × Nat)
  | 0 =>
    if current = sentinel b then return (prev, 0)
    else do
      checkPlace a b current
      throw (.freeCountMismatch (walked + 1) walked)
  | room + 1 =>
    if current = sentinel b then return (prev, room + 1)
    else do followList a b walked current (← checkEntry a b prev current) room

def checkList (bins : Bins) (a : Arena) (walked room : Nat) (b : Fin bucketCount) : Audit Nat := do
  let s := sentinel b
  let (last, rest) ← followList a b walked s (← a.links s).next room
  if (← a.links s).prev ≠ last then throw (.brokenLink b s)
  if room - rest ≠ bins.length b then throw (.lengthMismatch b (bins.length b) (room - rest))
  return rest

def checkLists (bins : Bins) (a : Arena) (walked : Nat) : Audit Unit := do
  let room ← (List.finRange bucketCount).foldlM (checkList bins a walked) walked
  if room ≠ 0 then throw (.freeCountMismatch (walked - room) walked)

def check (bins : Bins) (a : Arena) : Audit Unit := do
  checkLists bins a (← walk a a.low a.low true 0)

end Audit

end SegregatedFit
