/-!
Raw memory: bytes under natural addresses, zero until written. A word is eight bytes, the
least significant first.
-/
namespace SegregatedFit

structure Memory where
  bytes : ByteArray

namespace Memory

def zero : Memory := ⟨ByteArray.empty⟩

instance : Inhabited Memory := ⟨zero⟩

def byte (m : Memory) (i : Nat) : UInt8 :=
  if h : i < m.bytes.size then m.bytes[i] else 0

/-- Appends `n` zero bytes to the stored ones, which changes no byte. -/
def pad (m : Memory) : Nat → Memory
  | 0 => m
  | n + 1 => pad ⟨m.bytes.push 0⟩ n

def setByte (m : Memory) (i : Nat) (b : UInt8) : Memory :=
  if h : i < m.bytes.size then ⟨m.bytes.set i b h⟩
  else ⟨(m.pad (i - m.bytes.size)).bytes.push b⟩

def value (m : Memory) (i : Nat) : Nat → Nat
  | 0 => 0
  | n + 1 => (m.byte i).toNat + 256 * value m (i + 1) n

def setValue (m : Memory) (i v : Nat) : Nat → Memory
  | 0 => m
  | n + 1 => setValue (m.setByte i (.ofNat v)) (i + 1) (v / 256) n

def word (m : Memory) (i : Nat) : UInt64 := .ofNat (m.value i 8)

def setWord (m : Memory) (i : Nat) (w : UInt64) : Memory := m.setValue i w.toNat 8

theorem word_eq (m : Memory) (i : Nat) : m.word i = .ofNat (m.value i 8) := rfl

theorem setWord_eq (m : Memory) (i : Nat) (w : UInt64) : m.setWord i w = m.setValue i w.toNat 8 :=
  rfl

-- Proofs open words through these two equations: a unifier that unfolds eight bytes runs away.
attribute [irreducible] word setWord

def slice (m : Memory) (i n : Nat) : List UInt8 := (List.range n).map fun k => m.byte (i + k)

def fill (m : Memory) (i : Nat) (b : UInt8) : Nat → Memory
  | 0 => m
  | n + 1 => fill (m.setByte i b) (i + 1) b n

def holds (m : Memory) (i : Nat) (b : UInt8) : Nat → Bool
  | 0 => true
  | n + 1 => m.byte i == b && holds m (i + 1) b n

def copy (m : Memory) (src dst : Nat) : Nat → Memory
  | 0 => m
  | n + 1 => copy (m.setByte dst (m.byte src)) (src + 1) (dst + 1) n

end Memory

end SegregatedFit
