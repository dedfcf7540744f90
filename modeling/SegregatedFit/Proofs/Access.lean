import Mathlib
import SegregatedFit.Bins
import SegregatedFit.Memory.Lemmas
import SegregatedFit.Proofs.TagWord

/-!
Access to the words of an arena. Where an offset is a word of the arena no check fails, and what
each access does is written out as reads and writes of the memory.
-/
namespace SegregatedFit

/-- The two memories agree at every address outside `P`. -/
def Memory.SameOff (P : Nat → Prop) (m m' : Memory) : Prop := ∀ i, ¬ P i → m'.byte i = m.byte i

namespace Memory.SameOff
variable {P P' : Nat → Prop} {m m' m'' : Memory}

theorem refl (m : Memory) : SameOff P m m := fun _ _ => rfl

theorem trans (h : SameOff P m m') (h' : SameOff P m' m'') : SameOff P m m'' :=
  fun i hi => (h' i hi).trans (h i hi)

theorem mono (h : SameOff P m m') (hp : ∀ i, P i → P' i) : SameOff P' m m' :=
  fun i hi => h i fun hpi => hi (hp i hpi)

theorem word_eq (h : SameOff P m m') {i : Nat} (hi : ∀ j, i ≤ j → j < i + 8 → ¬ P j) :
    m'.word i = m.word i :=
  word_congr fun j hj => h (i + j) (hi (i + j) (by omega) (by omega))

theorem setWord {i : Nat} {w : UInt64} (hi : ∀ j, i ≤ j → j < i + 8 → P j) :
    SameOff P m (m.setWord i w) := by
  intro j hj
  apply byte_setWord_of_disjoint
  by_contra hn
  exact hj (hi j (by omega) (by omega))

end Memory.SameOff

namespace Arena

structure HasWord (a : Arena) (off : Nat) : Prop where
  aligned : off % wordSize = 0
  le_top : off + wordSize ≤ a.top
  top_lt : a.top < wordLimit

def put (a : Arena) (off : Nat) (w : UInt64) : Arena := a.mapMem (·.setWord off w)

variable {a : Arena} {off block : Nat}

@[simp] theorem mapMem_top (f : Memory → Memory) : (a.mapMem f).top = a.top := rfl
@[simp] theorem mapMem_low (f : Memory → Memory) : (a.mapMem f).low = a.low := rfl
@[simp] theorem mapMem_mem (f : Memory → Memory) : (a.mapMem f).mem = f a.mem := rfl
@[simp] theorem put_top (w : UInt64) : (a.put off w).top = a.top := rfl
@[simp] theorem put_low (w : UInt64) : (a.put off w).low = a.low := rfl
@[simp] theorem put_mem (w : UInt64) : (a.put off w).mem = a.mem.setWord off w := rfl

theorem hasWord_ends {n : Nat} (hx : block % wordSize = 0) (hn : minBlock ≤ n ∧ n % alignment = 0)
    (hle : block + n ≤ a.top) (hlt : a.top < wordLimit) :
    a.HasWord block ∧ a.HasWord (block + n - wordSize) := by
  simp only [minBlock, alignment, wordSize] at hx hn
  constructor
  · exact ⟨hx, by simp only [wordSize]; omega, hlt⟩
  · exact ⟨by simp only [wordSize]; omega, by simp only [wordSize]; omega, hlt⟩

theorem HasWord.put (h : a.HasWord off) (i : Nat) (w : UInt64) : (a.put i w).HasWord off :=
  ⟨h.aligned, h.le_top, h.top_lt⟩

theorem HasWord.plus_eq (h : a.HasWord (off + block)) : plus off block = .ok (off + block) := by
  have := h.le_top
  have := h.top_lt
  exact plus_eq_ok (by omega)

theorem checkWord_eq_ok (h : a.HasWord off) : a.checkWord off = .ok () := by
  have hp : plus off wordSize = .ok (off + wordSize) :=
    plus_eq_ok (Nat.lt_of_le_of_lt h.le_top h.top_lt)
  have ht : ¬ a.top < off + wordSize := Nat.not_lt.mpr h.le_top
  simp [checkWord, h.aligned, hp, ht, bind, Except.bind, pure, Except.pure]

theorem word_eq_ok (h : a.HasWord off) : a.word off = .ok (a.mem.word off) := by
  rw [word, checkWord_eq_ok h]
  rfl

theorem setWord_eq_ok (h : a.HasWord off) (w : UInt64) : a.setWord off w = .ok (a.put off w) := by
  rw [setWord, checkWord_eq_ok h]
  rfl

theorem tag_eq_ok (h : a.HasWord block) : a.tag block = .ok (.decode (a.mem.word block)) := by
  rw [tag, word_eq_ok h]
  rfl

theorem setTag_eq_ok (h : a.HasWord block) {t : Tag} (ht : t.size % alignment = 0) :
    a.setTag block t = .ok (a.put block t.word) := by
  rw [setTag, Tag.encode_eq_ok ht]
  exact setWord_eq_ok h _

theorem blockSize_eq_ok (h : a.HasWord block) :
    a.blockSize block = .ok (Tag.decode (a.mem.word block)).size := by
  rw [blockSize, tag_eq_ok h]
  rfl

theorem links_eq_ok (hp : a.HasWord (block + wordSize)) (hn : a.HasWord (block + 2 * wordSize)) :
    a.links block = .ok ⟨(a.mem.word (block + wordSize)).toNat,
      (a.mem.word (block + 2 * wordSize)).toNat⟩ := by
  simp only [links, hp.plus_eq, hn.plus_eq, word_eq_ok hp, word_eq_ok hn, bind, Except.bind, pure,
    Except.pure]

theorem setPrev_eq_ok (h : a.HasWord (block + wordSize)) (x : Nat) :
    a.setPrev block x = .ok (a.put (block + wordSize) (.ofNat x)) := by
  rw [setPrev, h.plus_eq]
  exact setWord_eq_ok h _

theorem setNext_eq_ok (h : a.HasWord (block + 2 * wordSize)) (x : Nat) :
    a.setNext block x = .ok (a.put (block + 2 * wordSize) (.ofNat x)) := by
  rw [setNext, h.plus_eq]
  exact setWord_eq_ok h _

theorem writeFree_eq_ok {size : Nat} (hh : a.HasWord block) (ht : a.HasWord (block + size - wordSize))
    (hs : wordSize ≤ size) (ha : size % alignment = 0) (p : Bool) :
    a.writeFree block size p = .ok ((a.put block (Tag.word ⟨size, false, p⟩)).put
      (block + size - wordSize) (Tag.word ⟨size, false, p⟩)) := by
  have hl := ht.le_top
  have hlt := ht.top_lt
  rw [writeFree, Tag.encode_eq_ok ha]
  simp only [setWord_eq_ok hh, plus_eq_ok (show block + size < wordLimit by omega),
    minus_eq_ok (show wordSize ≤ block + size by omega), setWord_eq_ok (ht.put _ _), bind, Except.bind]

end Arena

end SegregatedFit
