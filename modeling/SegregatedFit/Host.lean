import SegregatedFit.Journal

/-!
Hosts: where a heap gets its memory from. A host commits bytes from a fixed base upwards, and
never takes one back.
-/
namespace SegregatedFit

structure Extension (H : Type) where
  host : H
  /-- Where the granted bytes begin, counted from the base. -/
  granted : Except Refusal Nat
  events : Array Event

class Host (H : Type) where
  base : H → Nat
  committed : H → Nat
  extend : H → Nat → Extension H

/-- The contract of a host: its base stays where it is, a request that it grants is committed in
full above the bytes committed before, and one that it refuses commits nothing. -/
class LawfulHost (H : Type) [Host H] : Prop where
  base_extend (h : H) (n : Nat) : Host.base (Host.extend h n).host = Host.base h
  of_granted {h : H} {n start : Nat} : n < wordLimit → (Host.extend h n).granted = .ok start →
    start = Host.committed h ∧ Host.committed h + n ≤ Host.committed (Host.extend h n).host
  of_refused {h : H} {n : Nat} {r : Refusal} : (Host.extend h n).granted = .error r →
    Host.committed (Host.extend h n).host = Host.committed h

end SegregatedFit
