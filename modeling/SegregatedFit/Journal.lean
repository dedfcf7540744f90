import SegregatedFit.Layout
import SegregatedFit.Corruption
import SegregatedFit.Config

/-!
The journal: what a heap and its host report about their work, oldest event first.
-/
namespace SegregatedFit

inductive Refusal where
  /-- The host does not extend the heap by this many bytes. -/
  | outOfMemory (requested : Nat)
  /-- No block size is large enough for a payload of this many bytes. -/
  | badRequest (size : Nat)
deriving DecidableEq, Repr

def Refusal.message : Refusal → String
  | .outOfMemory n => s!"out of memory: host could not extend the heap by {n} bytes"
  | .badRequest n => s!"allocation request of {n} bytes overflows the block size"

inductive Level where
  | error
  | warn
  | info
  | debug
  | trace
deriving DecidableEq, Repr

namespace Level

def rank : Level → Nat
  | .error => 1
  | .warn => 2
  | .info => 3
  | .debug => 4
  | .trace => 5

def name : Level → String
  | .error => "ERROR"
  | .warn => "WARN"
  | .info => "INFO"
  | .debug => "DEBUG"
  | .trace => "TRACE"

end Level

inductive Event where
  | initialized
  | hostRefused (delta committed capacity : Nat)
  | growthFailed (delta : Nat) (reason : Refusal)
  | grew (chunk size heapSize : Nat)
  | reused (block size : Nat)
  | split (block used rest : Nat)
  | freed (block size : Nat)
  | released (size heapSize : Nat)
  | grewTop (block delta : Nat)
  | growTopFailed (reason : Refusal)
  | moved (source target bytes : Nat)
  | corrupted (op : Operation) (found : Corruption)
  | replayed (ops peakPayload maxHeapSize : Nat)
deriving DecidableEq, Repr

namespace Event

def level : Event → Level
  | .corrupted .. => .error
  | .growthFailed .. => .warn
  | .initialized | .hostRefused .. | .grew .. | .released .. | .growTopFailed ..
  | .replayed .. => .debug
  | .reused .. | .split .. | .freed .. | .grewTop .. | .moved .. => .trace

def message : Event → String
  | .initialized => s!"heap initialized, prologue of {prologueSize} bytes"
  | .hostRefused delta committed capacity =>
    s!"host refused {delta} bytes, {committed} of {capacity} committed"
  | .growthFailed delta reason => s!"heap growth of {delta} bytes failed: {reason.message}"
  | .grew chunk size heapSize =>
    s!"grew heap by {chunk} for a block of {size}, heap is {heapSize} bytes"
  | .reused block size => s!"reused block at {block} of size {size}"
  | .split block used rest => s!"split block at {block}: {used} used, {rest} free"
  | .freed block size => s!"freed block at {block} of size {size}"
  | .released size heapSize => s!"released {size} bytes at the heap top, heap is {heapSize} bytes"
  | .grewTop block delta => s!"grew top block at {block} in place by {delta}"
  | .growTopFailed reason => s!"in place growth failed ({reason.message}), moving block"
  | .moved source target bytes => s!"moved block {source} -> {target}, copied {bytes} bytes"
  | .corrupted op found => s!"heap corruption detected after {op.name}: {found.message}"
  | .replayed ops peakPayload maxHeapSize =>
    s!"replayed {ops} ops, peak payload {peakPayload}, max heap {maxHeapSize}"

end Event

abbrev Journal := Array Event

def Journal.upTo (j : Journal) (level : Level) : Journal :=
  j.filter (·.level.rank ≤ level.rank)

end SegregatedFit
