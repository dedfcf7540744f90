import SegregatedFit.Heap

/-!
Surveys of a heap: its blocks and its free lists as the memory spells them, read without any
checks, so that a damaged heap can be looked at too.
-/
namespace SegregatedFit

namespace Arena

def blocksFrom (a : Arena) (off : Nat) : List (Nat × Tag) :=
  if _h : off + wordSize ≤ a.top then
    let t := Tag.decode (a.mem.word off)
    if _ht : t.size = 0 ∨ a.top - off < t.size then [(off, t)]
    else (off, t) :: blocksFrom a (off + t.size)
  else []
termination_by a.top - off
decreasing_by simp +zetaDelta only [wordSize] at *; omega

def nextLink (a : Arena) (off : Nat) : Nat := (a.mem.word (off + 2 * wordSize)).toNat

/-- The offsets from `current` to the sentinel `s`, along next links. The survey ends early with
an offset where no free block fits, or after `room` of them. -/
def listFrom (a : Arena) (s current : Nat) : (room : Nat) → List Nat
  | 0 => []
  | room + 1 =>
    if current = s then []
    else if Audit.fits a current then current :: listFrom a s (a.nextLink current) room
    else [current]

end Arena

namespace Heap

variable {H : Type}

def blocks (h : Heap H) : List (Nat × Tag) := h.arena.blocksFrom h.arena.low

def listLimit : Nat := 1000

def lists (h : Heap H) : List (Fin bucketCount × List Nat) :=
  (List.finRange bucketCount).filterMap fun b =>
    let first := h.arena.nextLink (sentinel b)
    if first = sentinel b then none
    else some (b, h.arena.listFrom (sentinel b) first listLimit)

end Heap

end SegregatedFit
