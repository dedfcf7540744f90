import SegregatedFit.Heap

/-!
Allocation: a request takes the first free block that serves it, and splits it if the rest is
worth keeping. If there is none, the heap grows.
-/
namespace SegregatedFit.Heap

variable {H : Type}

def markPrevUsed (next : Nat) : HeapM H Unit := do
  if next < (← get).arena.top then
    let tag ← view (·.tag next)
    edit (·.setTag next { tag with prevUsed := true })
  else
    setTopUsed true

def place (block size : Nat) : HeapM H Unit := do
  let tag ← view (·.tag block)
  let rest ← minus tag.size size
  unlist block
  if rest < minSplit then
    edit (·.setTag block { tag with used := true })
    markPrevUsed (← view (·.blockEnd block))
    note (.reused block tag.size)
  else
    let cut ← plus block size
    edit (·.setTag block ⟨size, true, tag.prevUsed⟩)
    edit (·.writeFree cut rest true)
    enlist cut
    count .splits
    note (.split block size rest)

def growOrWarn [Host H] (delta : Nat) : HeapM H (Except Refusal Nat) := do
  match ← grow delta with
  | .ok top => return .ok top
  | .error reason =>
    note (.growthFailed delta reason)
    return .error reason

/-- Grows the heap for a block of `size` bytes by a chunk, or by the block alone where the host
refuses more. The answer is the old top, and by how much the heap grew. -/
def growChunk [Host H] (size : Nat) : HeapM H (Except Refusal (Nat × Nat)) := do
  let chunk := chunkFor size
  if size < chunk then
    match ← grow chunk with
    | .ok block => return .ok (block, chunk)
    | .error _ => return (← growOrWarn size).map (·, size)
  else
    return (← growOrWarn chunk).map (·, chunk)

def carve (block size chunk : Nat) : HeapM H Unit := do
  let prevUsed := (← get).topUsed
  edit (·.setTag block ⟨size, true, prevUsed⟩)
  if size < chunk then
    let rest ← plus block size
    edit (·.writeFree rest (chunk - size) true)
    enlist rest
    setTopUsed false
  else
    setTopUsed true
  count .heapGrows
  recordHeapSize
  note (.grew chunk size (← get).size)

def extend [Host H] (size : Nat) : HeapM H (Except Refusal Nat) := do
  match ← growChunk size with
  | .error reason => return .error reason
  | .ok (block, chunk) =>
    carve block size chunk
    return .ok block

def firstFit (size : Nat) : HeapM H (Option Nat) := do
  let bins := (← get).bins
  view (bins.firstFit · size)

def obtain [Host H] (size : Nat) : HeapM H (Except Refusal Nat) := do
  match ← firstFit size with
  | none => extend size
  | some block =>
    place block size
    return .ok block

def allocateBlock [Host H] (request : Nat) : HeapM H (Except Refusal Nat) := do
  match blockSize? request with
  | none => return .error (.badRequest request)
  | some size =>
    match ← obtain size with
    | .error reason => return .error reason
    | .ok block =>
      let taken ← view (·.blockSize block)
      account (·.charge taken)
      return .ok block

def allocate [Host H] (request : Nat) : HeapM H (Except Refusal Nat) := do
  match ← allocateBlock request with
  | .error reason => return .error reason
  | .ok block =>
    count .allocations
    verify .allocate
    return .ok (← payload block)

end SegregatedFit.Heap
