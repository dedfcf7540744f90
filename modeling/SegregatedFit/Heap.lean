import SegregatedFit.Audit
import SegregatedFit.Host
import SegregatedFit.Stats

/-!
The heap: an arena on the memory of a host, its free lists, and what it counts. This module holds
the state and the steps that all operations are made of.
-/
namespace SegregatedFit

structure Heap (H : Type) where
  host : H
  arena : Arena
  bins : Bins
  /-- Whether the block that ends at the top is used, which the next block made by growth records
  about its predecessor. An empty heap counts as one with a used block below its top. -/
  topUsed : Bool
  config : Config
  stats : Stats

/-- A computation on a heap. It writes to the journal as it goes. A fault leaves no heap to go on
with, but what the journal holds by then stays. -/
abbrev HeapM (H : Type) := StateT (Heap H) (ExceptT Fault (StateM Journal))

def HeapM.exec {H α : Type} (m : HeapM H α) (h : Heap H) (j : Journal) :
    Except Fault (α × Heap H) × Journal := (m.run h).run.run j

namespace Heap

variable {H : Type} {α : Type}

def blank (host : H) (config : Config) (mem : Memory) : Heap H :=
  ⟨host, .blank mem, .empty, true, config, {}⟩

def size (h : Heap H) : Nat := h.arena.size

def check (h : Heap H) : Except Fault (Except Corruption Unit) := Audit.check h.bins h.arena

def freeBlocks (h : Heap H) : Nat := h.bins.total

def mapMem (h : Heap H) (f : Memory → Memory) : Heap H := { h with arena := h.arena.mapMem f }

def note (e : Event) : HeapM H Unit := modifyThe Journal (·.push e)

def fail (e : Fault) : HeapM H α := throwThe Fault e

def view (f : Arena → Except Fault α) : HeapM H α := do f (← get).arena

def edit (f : Arena → Except Fault Arena) : HeapM H Unit :=
  fun ⟨host, arena, bins, topUsed, config, stats⟩ => do
    let arena ← f arena
    return ((), ⟨host, arena, bins, topUsed, config, stats⟩)

def relink (f : Bins → Arena → Except Fault (Bins × Arena)) : HeapM H Unit :=
  fun ⟨host, arena, bins, topUsed, config, stats⟩ => do
    let (bins, arena) ← f bins arena
    return ((), ⟨host, arena, bins, topUsed, config, stats⟩)

def enlist (block : Nat) : HeapM H Unit := relink fun bins a => bins.push a block

def unlist (block : Nat) : HeapM H Unit := relink fun bins a => bins.remove a block

def setTopUsed (b : Bool) : HeapM H Unit := modify fun h => { h with topUsed := b }

def account (f : Stats → Except Fault Stats) : HeapM H Unit := do
  let stats ← f (← get).stats
  modify fun h => { h with stats }

def count (c : Counter) : HeapM H Unit := account (·.count c)

def recordHeapSize : HeapM H Unit :=
  modify fun h => { h with stats := h.stats.recordHeapSize h.size }

def commit [Host H] (delta : Nat) : HeapM H (Except Refusal Nat) := do
  let e := Host.extend (← get).host delta
  modify fun h => { h with host := e.host }
  modifyThe Journal (· ++ e.events)
  return e.granted

def cover [Host H] (top : Nat) : HeapM H (Except Refusal Unit) := do
  let committed := Host.committed (← get).host
  if committed < top then return (← commit (top - committed)).map fun _ => ()
  return .ok ()

def grow [Host H] (delta : Nat) : HeapM H (Except Refusal Nat) := do
  let top := (← get).arena.top
  if wordLimit ≤ top + delta then return .error (.outOfMemory delta)
  match ← cover (top + delta) with
  | .error reason => return .error reason
  | .ok () =>
    edit (return ·.raise delta)
    return .ok top

def init [Host H] : HeapM H (Except Refusal Unit) := do
  edit (return ·.clear)
  match ← grow prologueSize with
  | .error reason => return .error reason
  | .ok _ =>
    edit (return ·.sealPrologue)
    relink fun _ a => return (.empty, ← Bins.reset a)
    setTopUsed true
    account fun _ => return {}
    note .initialized
    return .ok ()

def blockAt (ptr : Nat) : HeapM H Nat := do minus (← view (·.offset ptr)) headerSize

def payload (block : Nat) : HeapM H Nat := do
  let off ← plus block headerSize
  view (·.pointer off)

def verify (op : Operation) : HeapM H Unit := do
  if (← get).config.checkHeap then
    match ← (check (← get) : Except Fault _) with
    | .ok () => return ()
    | .error found =>
      note (.corrupted op found)
      fail (.corrupted (← get).config.onCorruption op found)

def blockSize (h : Heap H) (ptr : Nat) : Except Fault Nat := do
  h.arena.blockSize (← minus (← h.arena.offset ptr) headerSize)

def usableSize (h : Heap H) (ptr : Nat) : Except Fault Nat := do
  minus (← h.blockSize ptr) headerSize

end Heap

end SegregatedFit
