/-!
How a heap is set up, and the operations whose outcome it may check.
-/
namespace SegregatedFit

/-- What a failed heap check leads to: the process ends at once, or the operation panics. -/
inductive CorruptionPolicy where
  | abort
  | panic
deriving DecidableEq, Repr

structure Config where
  checkHeap : Bool
  onCorruption : CorruptionPolicy
  heapCapacity : Nat
deriving DecidableEq, Repr

namespace Config

def defaultCapacity : Nat := 20 * 1024 * 1024

/-- Checks run where assertions are on, or where they are forced from outside. -/
def standard (assertions forced : Bool) : Config :=
  ⟨assertions || forced, .abort, defaultCapacity⟩

def checked : Config := ⟨true, .panic, defaultCapacity⟩

end Config

inductive Operation where
  | allocate
  | free
  | reallocate
deriving DecidableEq, Repr

def Operation.name : Operation → String
  | .allocate => "allocate"
  | .free => "free"
  | .reallocate => "reallocate"

end SegregatedFit
