/-!
The broken invariants that a heap check can report. Offsets count from the start of the arena.
-/
namespace SegregatedFit

inductive Corruption where
  | badSize (offset size : Nat)
  | tagMismatch (offset : Nat) (head tail : UInt64)
  | walkOverrun (reached top : Nat)
  | adjacentFree (left right : Nat)
  | prevUsedMismatch (offset : Nat) (recorded actual : Bool)
  | brokenLink (bucket offset : Nat)
  | notFree (bucket offset : Nat)
  | wrongBucket (bucket offset size : Nat)
  | lengthMismatch (bucket recorded found : Nat)
  | freeCountMismatch (listed walked : Nat)
deriving DecidableEq, Repr

def hexText (w : UInt64) : String := "0x" ++ String.ofList (Nat.toDigits 16 w.toNat)

def Corruption.message : Corruption → String
  | .badSize off size => s!"block at {off} has invalid size {size}"
  | .tagMismatch off head tail =>
    s!"free block at {off}: head tag {hexText head} does not match tail tag {hexText tail}"
  | .walkOverrun reached top => s!"heap walk ended at {reached}, expected {top}"
  | .adjacentFree left right => s!"free blocks at {left} and {right} are adjacent"
  | .prevUsedMismatch off recorded actual =>
    s!"block at {off} has prev_used={recorded}, predecessor used={actual}"
  | .brokenLink b off => s!"bucket {b}: broken link at {off}"
  | .notFree b off => s!"bucket {b}: listed block at {off} is not a free block"
  | .wrongBucket b off size =>
    s!"bucket {b}: block at {off} of size {size} belongs to another bucket"
  | .lengthMismatch b recorded found =>
    s!"bucket {b}: table records {recorded} blocks, list holds {found}"
  | .freeCountMismatch listed walked =>
    s!"{listed} blocks are listed but {walked} free blocks were walked"

end SegregatedFit
