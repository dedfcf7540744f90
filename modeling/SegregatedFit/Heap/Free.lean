import SegregatedFit.Heap

/-!
Freeing: a freed block merges with the free blocks on both sides. A free block that ends at the
top goes back to the host's memory; any other is listed.
-/
namespace SegregatedFit.Heap

variable {H : Type}

structure Run where
  start : Nat
  size : Nat
  prevUsed : Bool

def mergePrev (block : Nat) (tag : Tag) : HeapM H Run := do
  if tag.prevUsed then return ⟨block, tag.size, true⟩
  let prev ← view (·.prevFree block)
  let prevTag ← view (·.tag prev)
  unlist prev
  let size ← plus tag.size prevTag.size
  count .coalesces
  return ⟨prev, size, prevTag.prevUsed⟩

def mergeNext (run : Run) : HeapM H Run := do
  let next ← plus run.start run.size
  if (← get).arena.top ≤ next then return run
  let nextTag ← view (·.tag next)
  if nextTag.used then
    edit (·.setTag next { nextTag with prevUsed := false })
    return run
  unlist next
  let size ← plus run.size nextTag.size
  count .coalesces
  return { run with size }

/-- Lowers the top to the start of a run that ends there. What precedes the run is used, or
nothing is left. -/
def release (run : Run) : HeapM H Unit := do
  edit (·.shrink run.size)
  setTopUsed true
  count .heapShrinks
  recordHeapSize
  note (.released run.size (← get).size)

def list (run : Run) : HeapM H Unit := do
  edit (·.writeFree run.start run.size run.prevUsed)
  enlist run.start
  note (.freed run.start run.size)

def freeBlock (block : Nat) : HeapM H Unit := do
  let tag ← view (·.tag block)
  if !tag.used then fail (.freeingFree block)
  account (·.discharge tag.size)
  let run ← mergePrev block tag
  let run ← mergeNext run
  if (← plus run.start run.size) = (← get).arena.top then release run else list run

def free (ptr : Nat) : HeapM H Unit := do
  freeBlock (← blockAt ptr)
  count .frees
  verify .free

end SegregatedFit.Heap
