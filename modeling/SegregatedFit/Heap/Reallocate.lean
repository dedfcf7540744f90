import SegregatedFit.Heap.Allocate
import SegregatedFit.Heap.Free

/-!
Reallocation: a block that is large enough stays as it is, the top block grows in place where
the host allows it, and any other moves. A block never shrinks.
-/
namespace SegregatedFit.Heap

variable {H : Type}

def growTop [Host H] (block : Nat) (tag : Tag) (size : Nat) : HeapM H Bool := do
  if (← plus block tag.size) ≠ (← get).arena.top then return false
  let delta := size - tag.size
  match ← grow delta with
  | .error reason =>
    note (.growTopFailed reason)
    return false
  | .ok _ =>
    edit (·.setTag block { tag with size })
    account (·.charge delta)
    count .heapGrows
    count .reallocsInPlace
    recordHeapSize
    note (.grewTop block delta)
    return true

def moveInto (block target : Nat) (tag : Tag) (request : Nat) : HeapM H Unit := do
  let room ← minus tag.size headerSize
  let bytes := min request room
  let source ← plus block headerSize
  let destination ← plus target headerSize
  edit (·.copy source destination bytes)
  freeBlock block
  count .reallocsMoved
  note (.moved block target bytes)

def enlarge [Host H] (ptr block : Nat) (tag : Tag) (request size : Nat) :
    HeapM H (Except Refusal Nat) := do
  if ← growTop block tag size then
    verify .reallocate
    return .ok ptr
  match ← allocateBlock request with
  | .error reason => return .error reason
  | .ok target =>
    moveInto block target tag request
    verify .reallocate
    return .ok (← payload target)

/-- A pointer to a payload of at least `request` bytes that begins with the bytes of the old one.
The old payload stays as it is if the request is refused. -/
def reallocate [Host H] (ptr request : Nat) : HeapM H (Except Refusal Nat) := do
  let block ← blockAt ptr
  match blockSize? request with
  | none => return .error (.badRequest request)
  | some size =>
    let tag ← view (·.tag block)
    if !tag.used then fail (.reallocatingFree block)
    if size ≤ tag.size then
      count .reallocsUnchanged
      return .ok ptr
    enlarge ptr block tag request size

end SegregatedFit.Heap
