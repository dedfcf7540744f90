import SegregatedFit.Fault

/-!
Tags: the word at the head of every block, and at the tail of a free one.

    63                         5 4   2    1        0
    |            size           | 000 | prevUsed | used |

The size is stored as it is. It is a multiple of the alignment, so its low bits are free for
the flags, and three of them stay reserved.
-/
namespace SegregatedFit

structure Tag where
  size : Nat
  used : Bool
  prevUsed : Bool
deriving DecidableEq, Repr

namespace Tag

def usedBit : UInt64 := 1
def prevUsedBit : UInt64 := 2
def flagMask : UInt64 := 31
def sizeMask : UInt64 := ~~~flagMask

/-- Reserved bits are ignored. -/
def decode (w : UInt64) : Tag :=
  ⟨(w &&& sizeMask).toNat, w &&& usedBit != 0, w &&& prevUsedBit != 0⟩

def word (t : Tag) : UInt64 :=
  (UInt64.ofNat t.size &&& sizeMask) ||| (if t.used then usedBit else 0)
    ||| (if t.prevUsed then prevUsedBit else 0)

def encode (t : Tag) : Except Fault UInt64 :=
  if t.size % alignment = 0 then .ok t.word else .error (.unalignedSize t.size)

end Tag

end SegregatedFit
