import SegregatedFit.Layout
import SegregatedFit.Corruption
import SegregatedFit.Config

/-!
Faults: the failed assertions and overflows that stop an operation midway. They come from
misuse or from a damaged heap; a heap that is used as promised meets none.
-/
namespace SegregatedFit

inductive Fault where
  | addOverflow
  | subOverflow
  | unalignedSize (size : Nat)
  | unalignedWord (offset : Nat)
  | wordPastTop (offset top : Nat)
  | pointerPastTop
  | outsideHeap
  | shrinkBelowLow
  | copyPastTop
  | copyOverlap
  | emptyBucket
  | freeingFree (offset : Nat)
  | reallocatingFree (offset : Nat)
  /-- A free list whose links come back to a block without passing the sentinel. -/
  | endlessList
  | corrupted (policy : CorruptionPolicy) (op : Operation) (found : Corruption)
deriving DecidableEq, Repr

namespace Fault

/-- The text of a fault. A pointer outside the heap is reported by its address, and an endless
list by nothing at all, so these two have no text of their own. -/
def message : Fault → Option String
  | .addOverflow => some "attempt to add with overflow"
  | .subOverflow => some "attempt to subtract with overflow"
  | .unalignedSize size => some s!"unaligned block size {size}"
  | .unalignedWord off => some s!"unaligned word at {off}"
  | .wordPastTop off top => some s!"word at {off} is past the heap end {top}"
  | .pointerPastTop => some "assertion failed: offset <= self.end"
  | .outsideHeap => none
  | .shrinkBelowLow => some "assertion failed: self.end - delta >= self.low"
  | .copyPastTop => some "assertion failed: from + len <= self.end && to + len <= self.end"
  | .copyOverlap => some "assertion failed: from + len <= to || to + len <= from"
  | .emptyBucket => some "assertion failed: self.lengths[bucket] > 0"
  | .freeingFree off => some s!"freeing a free block at {off}"
  | .reallocatingFree off => some s!"reallocating a free block at {off}"
  | .endlessList => none
  | .corrupted _ op found => some s!"heap corruption detected after {op.name}: {found.message}"

end Fault

def plus (a b : Nat) : Except Fault Nat :=
  if a + b < wordLimit then .ok (a + b) else .error .addOverflow

def minus (a b : Nat) : Except Fault Nat :=
  if b ≤ a then .ok (a - b) else .error .subOverflow

theorem plus_eq_ok {a b : Nat} (h : a + b < wordLimit) : plus a b = .ok (a + b) := if_pos h

theorem minus_eq_ok {a b : Nat} (h : b ≤ a) : minus a b = .ok (a - b) := if_pos h

end SegregatedFit
