import SegregatedFit.Fault

/-!
What a heap counts. The counters are words: counting past the last one is a fault.
-/
namespace SegregatedFit

/-- `part / whole`, and 0 over an empty whole. Both words are rounded to the nearest float first,
a tie going to the even one. -/
def ratio (part whole : Nat) : Float :=
  if whole = 0 then 0 else part.toUInt64.toFloat / whole.toUInt64.toFloat

structure Stats where
  /-- Successful allocations, those made to move a block left out. -/
  allocations : Nat := 0
  frees : Nat := 0
  reallocsUnchanged : Nat := 0
  reallocsInPlace : Nat := 0
  reallocsMoved : Nat := 0
  splits : Nat := 0
  coalesces : Nat := 0
  heapGrows : Nat := 0
  heapShrinks : Nat := 0
  bytesInUse : Nat := 0
  heapSize : Nat := 0
  maxHeapSize : Nat := 0
deriving DecidableEq, Repr, Inhabited

inductive Counter where
  | allocations
  | frees
  | reallocsUnchanged
  | reallocsInPlace
  | reallocsMoved
  | splits
  | coalesces
  | heapGrows
  | heapShrinks
deriving DecidableEq, Repr

namespace Stats

def count (s : Stats) : Counter → Except Fault Stats
  | .allocations => return { s with allocations := ← plus s.allocations 1 }
  | .frees => return { s with frees := ← plus s.frees 1 }
  | .reallocsUnchanged => return { s with reallocsUnchanged := ← plus s.reallocsUnchanged 1 }
  | .reallocsInPlace => return { s with reallocsInPlace := ← plus s.reallocsInPlace 1 }
  | .reallocsMoved => return { s with reallocsMoved := ← plus s.reallocsMoved 1 }
  | .splits => return { s with splits := ← plus s.splits 1 }
  | .coalesces => return { s with coalesces := ← plus s.coalesces 1 }
  | .heapGrows => return { s with heapGrows := ← plus s.heapGrows 1 }
  | .heapShrinks => return { s with heapShrinks := ← plus s.heapShrinks 1 }

def charge (s : Stats) (n : Nat) : Except Fault Stats :=
  return { s with bytesInUse := ← plus s.bytesInUse n }

def discharge (s : Stats) (n : Nat) : Except Fault Stats :=
  return { s with bytesInUse := ← minus s.bytesInUse n }

def recordHeapSize (s : Stats) (n : Nat) : Stats :=
  { s with heapSize := n, maxHeapSize := max s.maxHeapSize n }

def utilization (s : Stats) : Float := ratio s.bytesInUse s.heapSize

end Stats

end SegregatedFit
