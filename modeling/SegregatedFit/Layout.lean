/-!
The fixed numbers of the heap layout, and the size of the block that a request needs.
Sizes, offsets and counters are naturals below `wordLimit`.
-/
namespace SegregatedFit

def wordLimit : Nat := 0x10000000000000000

/-- The addresses of memory lie below two to the 47. -/
def addressLimit : Nat := 0x800000000000

def alignment : Nat := 32
def wordSize : Nat := 8
def headerSize : Nat := wordSize

def minBlock : Nat := 4 * wordSize

def bucketCount : Nat := 18

/-- Free blocks of at least this size share the last bucket. A small request that finds no
block asks the host for a chunk of this size. -/
def minChunk : Nat := (bucketCount - 1) * alignment

def tinyChunk : Nat := 6 * alignment

/-- A remainder below this size stays inside the block it would be cut from. -/
def minSplit : Nat := 2 * alignment

def sentinelSize : Nat := 3 * wordSize

def tagLayoutVersion : Nat := 1

def alignUp (n : Nat) : Nat := (n + (alignment - 1)) / alignment * alignment

/-- The sentinels come first, padded so that a payload, one header past the start of its
block, falls on a multiple of the alignment. -/
def prologueSize : Nat := alignUp (bucketCount * sentinelSize + headerSize) - headerSize

def blockSize? (n : Nat) : Option Nat :=
  if n + headerSize + (alignment - 1) < wordLimit then some (alignUp (n + headerSize)) else none

/-- What a growth asks for when no free block serves a block of `size` bytes: a small block
comes with a chunk, unless the rest of the chunk would be too small to keep. -/
def chunkFor (size : Nat) : Nat :=
  let chunk := if size = alignment then tinyChunk else minChunk
  if size ≤ minChunk ∧ minSplit ≤ chunk - size then chunk else size

def bucketFor (size : Nat) : Fin bucketCount :=
  if h : size < minChunk then
    ⟨size / alignment, by unfold minChunk alignment bucketCount at *; omega⟩
  else ⟨bucketCount - 1, by decide⟩

def sentinel (b : Fin bucketCount) : Nat := b * sentinelSize

end SegregatedFit
