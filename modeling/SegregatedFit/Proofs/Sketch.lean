import Mathlib
import SegregatedFit.Heap.Reallocate
import SegregatedFit.Proofs.Row
import SegregatedFit.Proofs.Tally

/-!
Sketches of heaps. A sketch has the blocks and the entries of the free lists in place of the memory
that spells them, and the operations of a heap are lists cut and joined. Offsets that no heap can be
asked for leave a sketch as it is.
-/
namespace SegregatedFit

open Row

/-- What a host answers, and what it is afterwards, when a heap whose top is at `top` grows by
`delta`. It is asked for what is not committed yet, and not at all for a top that is no word. -/
def Host.secure {H : Type} [Host H] (host : H) (top delta : Nat) : Except Refusal Unit × H :=
  if wordLimit ≤ top + delta then (.error (.outOfMemory delta), host)
  else if Host.committed host < top + delta then
    let e := Host.extend host (top + delta - Host.committed host)
    (e.granted.map fun _ => (), e.host)
  else (.ok (), host)

/-- By how much a heap grows for a block of `size` bytes. -/
def Host.secureChunk {H : Type} [Host H] (host : H) (top size : Nat) : Except Refusal Nat × H :=
  match Host.secure host top (chunkFor size) with
  | (.ok (), host) => (.ok (chunkFor size), host)
  | (.error reason, host) =>
    if size < chunkFor size then
      match Host.secure host top size with
      | (.ok (), host) => (.ok size, host)
      | (.error reason, host) => (.error reason, host)
    else (.error reason, host)

structure Sketch (H : Type) where
  host : H
  row : Row
  /-- The entries of each free list, the first one first. -/
  lists : Fin bucketCount → List Nat
  topUsed : Bool
  config : Config
  stats : Stats

namespace Sketch

variable {H : Type}

def top (k : Sketch H) : Nat := prologueSize + span k.row

def cut (k : Sketch H) (off : Nat) : Row × Row := Row.cut prologueSize off k.row

def sites (k : Sketch H) (used : Bool) : List (Nat × Nat) := Row.sites used prologueSize k.row

def sizeAt (k : Sketch H) (off : Nat) : Nat := ((k.cut off).2.head?.map Tag.size).getD 0

def count (k : Sketch H) (c : Counter) : Sketch H := { k with stats := k.stats.bump c }

def charge (k : Sketch H) (n : Nat) : Sketch H :=
  { k with stats := { k.stats with bytesInUse := k.stats.bytesInUse + n } }

def discharge (k : Sketch H) (n : Nat) : Sketch H :=
  { k with stats := { k.stats with bytesInUse := k.stats.bytesInUse - n } }

def recordHeapSize (k : Sketch H) : Sketch H :=
  { k with stats := k.stats.recordHeapSize (span k.row) }

def enlist (k : Sketch H) (off size : Nat) : Sketch H :=
  { k with lists := Function.update k.lists (bucketFor size) (off :: k.lists (bucketFor size)) }

def unlist (k : Sketch H) (off : Nat) : Sketch H :=
  { k with lists := fun b => (k.lists b).erase off }

def firstFit (k : Sketch H) (size : Nat) : Option Nat :=
  (List.finRange bucketCount).findSome? fun b =>
    if b < bucketFor size then none else (k.lists b).find? fun off => size ≤ k.sizeAt off

def place (k : Sketch H) (off size : Nat) : Sketch H :=
  match k.cut off with
  | (before, t :: after) =>
    let k := k.unlist off
    if t.size - size < minSplit then
      { k with
        row := before ++ { t with used := true } :: settle true after
        topUsed := k.topUsed || after.isEmpty }
    else
      let taken : Tag := ⟨size, true, t.prevUsed⟩
      let rest : Tag := ⟨t.size - size, false, true⟩
      let k := { k with row := before ++ taken :: rest :: after }
      (k.enlist (off + size) rest.size).count .splits
  | (_, []) => k

def carve (k : Sketch H) (size chunk : Nat) : Sketch H :=
  let taken : Tag := ⟨size, true, k.topUsed⟩
  let rest : Tag := ⟨chunk - size, false, true⟩
  let grown :=
    if size < chunk then
      { k with row := k.row ++ [taken, rest], topUsed := false }.enlist (k.top + size) rest.size
    else { k with row := k.row ++ [taken], topUsed := true }
  (grown.count .heapGrows).recordHeapSize

def extend [Host H] (k : Sketch H) (size : Nat) : Except Refusal Nat × Sketch H :=
  match Host.secureChunk k.host k.top size with
  | (.error reason, host) => (.error reason, { k with host })
  | (.ok chunk, host) => (.ok k.top, carve { k with host } size chunk)

def obtain [Host H] (k : Sketch H) (size : Nat) : Except Refusal Nat × Sketch H :=
  match k.firstFit size with
  | none => k.extend size
  | some off => (.ok off, k.place off size)

def allocateBlock [Host H] (k : Sketch H) (request : Nat) : Except Refusal Nat × Sketch H :=
  match blockSize? request with
  | none => (.error (.badRequest request), k)
  | some size =>
    match k.obtain size with
    | (.error reason, k) => (.error reason, k)
    | (.ok off, k) => (.ok off, k.charge (k.sizeAt off))

def allocate [Host H] (k : Sketch H) (request : Nat) : Except Refusal Nat × Sketch H :=
  match k.allocateBlock request with
  | (.error reason, k) => (.error reason, k)
  | (.ok off, k) => (.ok (off + headerSize), k.count .allocations)

def mergePrev (k : Sketch H) (off : Nat) (t : Tag) : Sketch H × Heap.Run :=
  if t.prevUsed then (k, ⟨off, t.size, true⟩)
  else
    match (k.cut off).1.getLast? with
    | some f =>
      ((k.unlist (off - f.size)).count .coalesces, ⟨off - f.size, t.size + f.size, f.prevUsed⟩)
    | none => (k, ⟨off, t.size, true⟩)

def mergeNext (k : Sketch H) (run : Heap.Run) : Sketch H × Heap.Run :=
  match k.cut (run.start + run.size) with
  | (before, t :: after) =>
    if t.used then ({ k with row := before ++ { t with prevUsed := false } :: after }, run)
    else ((k.unlist (run.start + run.size)).count .coalesces, { run with size := run.size + t.size })
  | (_, []) => (k, run)

def release (k : Sketch H) (run : Heap.Run) : Sketch H :=
  let k := { k with row := (k.cut run.start).1, topUsed := true }
  (k.count .heapShrinks).recordHeapSize

def list (k : Sketch H) (run : Heap.Run) : Sketch H :=
  let t : Tag := ⟨run.size, false, run.prevUsed⟩
  { k with row := (k.cut run.start).1 ++ t :: (k.cut (run.start + run.size)).2 }.enlist
    run.start run.size

def freeBlock (k : Sketch H) (off : Nat) : Sketch H :=
  match (k.cut off).2 with
  | t :: _ =>
    let (k, run) := (k.discharge t.size).mergePrev off t
    let (k, run) := k.mergeNext run
    if run.start + run.size = k.top then k.release run else k.list run
  | [] => k

def free (k : Sketch H) (ptr : Nat) : Sketch H := (k.freeBlock (ptr - headerSize)).count .frees

def growTop [Host H] (k : Sketch H) (off : Nat) (t : Tag) (size : Nat) : Bool × Sketch H :=
  if off + t.size ≠ k.top then (false, k)
  else
    match Host.secure k.host k.top (size - t.size) with
    | (.error _, host) => (false, { k with host })
    | (.ok (), host) =>
      let k := { k with host, row := (k.cut off).1 ++ [{ t with size }] }.charge (size - t.size)
      (true, ((k.count .heapGrows).count .reallocsInPlace).recordHeapSize)

def enlarge [Host H] (k : Sketch H) (ptr off : Nat) (t : Tag) (request size : Nat) :
    Except Refusal Nat × Sketch H :=
  match k.growTop off t size with
  | (true, k) => (.ok ptr, k)
  | (false, k) =>
    match k.allocateBlock request with
    | (.error reason, k) => (.error reason, k)
    | (.ok target, k) => (.ok (target + headerSize), (k.freeBlock off).count .reallocsMoved)

def reallocate [Host H] (k : Sketch H) (ptr request : Nat) : Except Refusal Nat × Sketch H :=
  match blockSize? request, (k.cut (ptr - headerSize)).2 with
  | none, _ => (.error (.badRequest request), k)
  | some _, [] => (.ok ptr, k)
  | some size, t :: _ =>
    if size ≤ t.size then (.ok ptr, k.count .reallocsUnchanged)
    else k.enlarge ptr (ptr - headerSize) t request size

end Sketch

end SegregatedFit
