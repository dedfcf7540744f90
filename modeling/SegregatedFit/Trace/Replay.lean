import Std.Data.HashMap
import SegregatedFit.Trace
import SegregatedFit.Heap.Reallocate

/-!
Replaying a trace on a heap. Each payload is filled with a byte made from its id, and must still
hold it when it is next resized or freed. What is live at the end of the trace stays allocated.
-/
namespace SegregatedFit

inductive ReplayFlaw where
  | refused (reason : Refusal)
  | misaligned (id : Nat)
  | payloadCorrupted (id : Nat)
  | unknownId (id : Nat)
  | duplicateId (id : Nat)
deriving DecidableEq, Repr

structure ReplayError where
  op : Nat
  flaw : ReplayFlaw
deriving DecidableEq, Repr

def ReplayError.message : ReplayError → String
  | ⟨op, .refused reason⟩ => s!"op {op}: {reason.message}"
  | ⟨op, .misaligned id⟩ => s!"op {op}: payload of id {id} is not aligned"
  | ⟨op, .payloadCorrupted id⟩ => s!"op {op}: payload of id {id} was overwritten"
  | ⟨op, .unknownId id⟩ => s!"op {op}: id {id} is not live"
  | ⟨op, .duplicateId id⟩ => s!"op {op}: id {id} is already live"

structure Report where
  ops : Nat
  /-- The largest sum of live payload sizes after any request. -/
  peakPayload : Nat
  maxHeapSize : Nat
deriving DecidableEq, Repr

def Report.utilization (r : Report) : Float := ratio r.peakPayload r.maxHeapSize

structure Playback where
  live : Std.HashMap Nat (Nat × Nat)
  payload : Nat
  peakPayload : Nat
  maxHeapSize : Nat

namespace Playback

variable {H : Type}

def start (heapSize : Nat) : Playback := ⟨∅, 0, 0, heapSize⟩

def pattern (id : Nat) : UInt8 := .ofNat (id % 251) ^^^ 0x5a

def observe (p : Playback) (heapSize : Nat) : Playback :=
  { p with peakPayload := max p.peakPayload p.payload, maxHeapSize := max p.maxHeapSize heapSize }

def isAligned [Host H] (ptr : Nat) : HeapM H Bool :=
  return (Host.base (← get).host + ptr) % alignment == 0

def isIntact (id ptr size : Nat) : HeapM H Bool :=
  return (← get).arena.mem.holds ptr (pattern id) size

def fill (id ptr size : Nat) : HeapM H Unit :=
  modify (·.mapMem (·.fill ptr (pattern id) size))

def allocate [Host H] (p : Playback) (id size : Nat) : HeapM H (Except ReplayFlaw Playback) := do
  if p.live.contains id then return .error (.duplicateId id)
  match ← Heap.allocate size with
  | .error reason => return .error (.refused reason)
  | .ok ptr =>
    if !(← isAligned ptr) then return .error (.misaligned id)
    fill id ptr size
    let payload ← plus p.payload size
    return .ok { p with live := p.live.insert id (ptr, size), payload }

def reallocate [Host H] (p : Playback) (id size : Nat) : HeapM H (Except ReplayFlaw Playback) := do
  match p.live[id]? with
  | none => return .error (.unknownId id)
  | some (ptr, oldSize) =>
    if !(← isIntact id ptr oldSize) then return .error (.payloadCorrupted id)
    match ← Heap.reallocate ptr size with
    | .error reason => return .error (.refused reason)
    | .ok newPtr =>
      if !(← isAligned newPtr) then return .error (.misaligned id)
      if !(← isIntact id newPtr (min oldSize size)) then return .error (.payloadCorrupted id)
      fill id newPtr size
      let payload ← plus (← minus p.payload oldSize) size
      return .ok { p with live := p.live.insert id (newPtr, size), payload }

def free (p : Playback) (id : Nat) : HeapM H (Except ReplayFlaw Playback) := do
  match p.live[id]? with
  | none => return .error (.unknownId id)
  | some (ptr, size) =>
    if !(← isIntact id ptr size) then return .error (.payloadCorrupted id)
    Heap.free ptr
    let payload ← minus p.payload size
    return .ok { p with live := p.live.erase id, payload }

def step [Host H] (p : Playback) : Request → HeapM H (Except ReplayFlaw Playback)
  | .allocate id size => p.allocate id size
  | .reallocate id size => p.reallocate id size
  | .free id => p.free id

def run [Host H] (n : Nat) (p : Playback) : Trace → HeapM H (Except ReplayError Playback)
  | [] => return .ok p
  | request :: rest => do
    match ← p.step request with
    | .error flaw => return .error ⟨n, flaw⟩
    | .ok p => run (n + 1) (p.observe (← get).size) rest

end Playback

def Trace.replay {H : Type} [Host H] (t : Trace) : HeapM H (Except ReplayError Report) := do
  match ← (Playback.start (← get).size).run 0 t with
  | .error e => return .error e
  | .ok p =>
    Heap.note (.replayed t.length p.peakPayload p.maxHeapSize)
    return .ok ⟨t.length, p.peakPayload, p.maxHeapSize⟩

end SegregatedFit
