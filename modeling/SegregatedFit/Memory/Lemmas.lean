import Mathlib
import SegregatedFit.Memory

/-!
What each write does to the bytes of the memory. A byte or a word reads back as written, and a
write changes nothing outside its range.
-/
namespace SegregatedFit.Memory

@[simp] theorem byte_zero (i : Nat) : zero.byte i = 0 := by simp [byte, zero]

theorem byte_push (bs : ByteArray) (b : UInt8) (i : Nat) :
    (Memory.mk (bs.push b)).byte i = if i = bs.size then b else (Memory.mk bs).byte i := by
  cases bs with
  | mk data =>
    simp only [byte, ByteArray.push, ByteArray.size, ByteArray.getElem_eq_getElem_data, Array.size_push]
    grind

theorem size_pad (m : Memory) (n : Nat) : (m.pad n).bytes.size = m.bytes.size + n := by
  induction n generalizing m with
  | zero => rfl
  | succ n ih => rw [pad, ih]; simp only [ByteArray.size_push]; omega

theorem byte_pad (m : Memory) (n i : Nat) : (m.pad n).byte i = m.byte i := by
  induction n generalizing m with
  | zero => rfl
  | succ n ih =>
    rw [pad, ih, byte_push]
    split
    · next h => simp [byte, h]
    · rfl

theorem byte_setByte (m : Memory) (i : Nat) (b : UInt8) (j : Nat) :
    (m.setByte i b).byte j = if j = i then b else m.byte j := by
  unfold setByte
  split
  · next h =>
    cases m with
    | mk bytes =>
      cases bytes with
      | mk data =>
        have hi : i < data.size := h
        simp only [byte, ByteArray.set, ByteArray.size, ByteArray.getElem_eq_getElem_data]
        grind
  · next h =>
    rw [byte_push, size_pad, byte_pad, Nat.add_sub_cancel' (Nat.le_of_not_lt h)]

@[simp] theorem byte_setByte_self (m : Memory) (i : Nat) (b : UInt8) : (m.setByte i b).byte i = b := by
  simp [byte_setByte]

theorem byte_setByte_of_ne (m : Memory) {i j : Nat} (b : UInt8) (h : j ≠ i) :
    (m.setByte i b).byte j = m.byte j := by
  simp [byte_setByte, h]

theorem value_congr {m m' : Memory} {i n : Nat} (h : ∀ k < n, m.byte (i + k) = m'.byte (i + k)) :
    m.value i n = m'.value i n := by
  induction n generalizing i with
  | zero => rfl
  | succ n ih =>
    have h0 := h 0 (Nat.succ_pos n)
    simp only [Nat.add_zero] at h0
    rw [value, value, h0, ih fun k hk => by
      have := h (k + 1) (Nat.succ_lt_succ hk)
      simpa only [Nat.add_assoc, Nat.add_comm 1 k] using this]

theorem value_lt (m : Memory) (i n : Nat) : m.value i n < 256 ^ n := by
  induction n generalizing i with
  | zero => exact Nat.one_pos
  | succ n ih =>
    have h1 := ih (i + 1)
    have h2 := (m.byte i).toNat_lt
    rw [value, Nat.pow_succ]
    omega

theorem byte_setValue_of_lt (m : Memory) {i j : Nat} (v n : Nat) (h : j < i) :
    (m.setValue i v n).byte j = m.byte j := by
  induction n generalizing m i v with
  | zero => rfl
  | succ n ih => rw [setValue, ih _ _ (by omega), byte_setByte_of_ne _ _ (by omega)]

theorem byte_setValue_of_ge (m : Memory) {i j : Nat} (v n : Nat) (h : i + n ≤ j) :
    (m.setValue i v n).byte j = m.byte j := by
  induction n generalizing m i v with
  | zero => rfl
  | succ n ih => rw [setValue, ih _ _ (by omega), byte_setByte_of_ne _ _ (by omega)]

theorem value_setValue (m : Memory) (i v n : Nat) : (m.setValue i v n).value i n = v % 256 ^ n := by
  induction n generalizing m i v with
  | zero => simp [value, Nat.mod_one]
  | succ n ih =>
    rw [setValue, value, ih, byte_setValue_of_lt _ _ _ (Nat.lt_succ_self i), byte_setByte_self]
    have hv : (UInt8.ofNat v).toNat = v % 256 := by simp
    rw [hv, Nat.pow_succ', Nat.mod_mul]

theorem toNat_word (m : Memory) (i : Nat) : (m.word i).toNat = m.value i 8 := by
  have := m.value_lt i 8
  simp only [word_eq, UInt64.toNat_ofNat']
  omega

@[simp] theorem word_setWord (m : Memory) (i : Nat) (w : UInt64) : (m.setWord i w).word i = w := by
  apply UInt64.toNat_inj.mp
  rw [toNat_word, setWord_eq, value_setValue]
  have := w.toNat_lt
  omega

theorem byte_setWord_of_disjoint (m : Memory) {i j : Nat} (w : UInt64) (h : j < i ∨ i + 8 ≤ j) :
    (m.setWord i w).byte j = m.byte j := by
  rw [setWord_eq]
  cases h with
  | inl h => exact byte_setValue_of_lt m _ _ h
  | inr h => exact byte_setValue_of_ge m _ _ h

theorem word_congr {m m' : Memory} {i : Nat} (h : ∀ k < 8, m.byte (i + k) = m'.byte (i + k)) :
    m.word i = m'.word i := by
  rw [word_eq, word_eq, value_congr h]

theorem byte_eq_of_value_eq {m m' : Memory} {i n k : Nat} (h : m.value i n = m'.value i n)
    (hk : k < n) : m.byte (i + k) = m'.byte (i + k) := by
  induction n generalizing i k with
  | zero => exact absurd hk (Nat.not_lt_zero k)
  | succ n ih =>
    have h1 := (m.byte i).toNat_lt
    have h2 := (m'.byte i).toNat_lt
    rw [value, value] at h
    cases k with
    | zero =>
      rw [Nat.add_zero]
      exact UInt8.toNat_inj.mp (by omega)
    | succ k =>
      rw [Nat.add_comm k, ← Nat.add_assoc]
      exact ih (by omega) (Nat.lt_of_succ_lt_succ hk)

theorem byte_eq_of_word_eq {m m' : Memory} {i j : Nat} (h : m.word i = m'.word i) (h1 : i ≤ j)
    (h2 : j < i + 8) : m.byte j = m'.byte j := by
  obtain ⟨k, rfl⟩ := Nat.exists_eq_add_of_le h1
  refine byte_eq_of_value_eq (n := 8) ?_ (Nat.lt_of_add_lt_add_left h2)
  rw [← toNat_word, ← toNat_word, h]

theorem word_setWord_of_disjoint (m : Memory) {i j : Nat} (w : UInt64) (h : j + 8 ≤ i ∨ i + 8 ≤ j) :
    (m.setWord i w).word j = m.word j :=
  word_congr fun k hk => byte_setWord_of_disjoint m w (by omega)

theorem byte_fill (m : Memory) (i : Nat) (b : UInt8) (n j : Nat) :
    (m.fill i b n).byte j = if i ≤ j ∧ j < i + n then b else m.byte j := by
  induction n generalizing m i with
  | zero => rw [fill, if_neg (by omega)]
  | succ n ih => rw [fill, ih, byte_setByte]; grind

theorem holds_iff (m : Memory) (i : Nat) (b : UInt8) (n : Nat) :
    m.holds i b n = true ↔ ∀ k < n, m.byte (i + k) = b := by
  induction n generalizing i with
  | zero => simp [holds]
  | succ n ih =>
    rw [holds, Bool.and_eq_true, beq_iff_eq, ih]
    constructor
    · intro ⟨h0, h⟩ k hk
      cases k with
      | zero => exact h0
      | succ k => simpa only [Nat.add_assoc, Nat.add_comm 1 k] using h k (by omega)
    · intro h
      exact ⟨h 0 (by omega), fun k hk => by
        simpa only [Nat.add_assoc, Nat.add_comm 1 k] using h (k + 1) (by omega)⟩

theorem byte_copy (m : Memory) {src dst n : Nat} (h : src + n ≤ dst ∨ dst + n ≤ src) (j : Nat) :
    (m.copy src dst n).byte j =
      if dst ≤ j ∧ j < dst + n then m.byte (src + (j - dst)) else m.byte j := by
  induction n generalizing m src dst with
  | zero => rw [copy, if_neg (by omega)]
  | succ n ih =>
    rw [copy, ih _ (by omega)]
    by_cases hj : j = dst
    · subst hj
      rw [if_neg (by omega), if_pos (by omega), byte_setByte_self, Nat.sub_self, Nat.add_zero]
    · by_cases hin : dst + 1 ≤ j ∧ j < dst + 1 + n
      · rw [if_pos hin, if_pos (by omega), byte_setByte_of_ne _ _ (by omega)]
        congr 1; omega
      · rw [if_neg hin, if_neg (by omega), byte_setByte_of_ne _ _ hj]

end SegregatedFit.Memory
