import Mathlib
import SegregatedFit.Tag

/-!
Tags as words, bit by bit and as numbers. A tag whose size is an aligned word is what its word decodes
to, and the words of two tags that differ in their `prevUsed` alone differ in that bit alone.
-/
namespace SegregatedFit.Tag

variable {u v w : UInt64} {i : Nat}

def bit (w : UInt64) (i : Nat) : Bool := w.toBitVec.getLsbD i

theorem bit_ext (h : ∀ i < 64, bit v i = bit w i) : v = w :=
  UInt64.toBitVec_inj.mp (BitVec.eq_of_getLsbD_eq h)

theorem bit_zero (i : Nat) : bit 0 i = false := by
  simp [bit]

theorem bit_and (v w : UInt64) (i : Nat) : bit (v &&& w) i = (bit v i && bit w i) := by
  simp [bit]

theorem bit_or (v w : UInt64) (i : Nat) : bit (v ||| w) i = (bit v i || bit w i) := by
  simp [bit]

theorem bit_xor (v w : UInt64) (i : Nat) : bit (v ^^^ w) i = (bit v i ^^ bit w i) := by
  simp [bit]

theorem bit_clear (v w : UInt64) (i : Nat) : bit (v &&& ~~~w) i = (bit v i && !bit w i) := by
  by_cases hi : i < 64
  · simp [bit, hi]
  · simp [bit, BitVec.getLsbD_of_ge _ _ (Nat.not_lt.mp hi)]

theorem bit_ofNat (n : Nat) (hi : i < 64) : bit (.ofNat n) i = n.testBit i := by
  rw [bit, UInt64.toBitVec_ofNat', BitVec.getLsbD_ofNat, decide_eq_true hi, Bool.true_and]

theorem bit_flag (b : Bool) (w : UInt64) (i : Nat) : bit (if b then w else 0) i = (b && bit w i) := by
  cases b with
  | false => exact bit_zero i
  | true => rfl

theorem agree_trans (hv : (u ^^^ v) &&& ~~~prevUsedBit = 0) (hw : (u ^^^ w) &&& ~~~prevUsedBit = 0) :
    (v ^^^ w) &&& ~~~prevUsedBit = 0 := by
  refine bit_ext fun i _ => ?_
  have hvi : bit ((u ^^^ v) &&& ~~~prevUsedBit) i = false := by rw [hv, bit_zero]
  have hwi : bit ((u ^^^ w) &&& ~~~prevUsedBit) i = false := by rw [hw, bit_zero]
  rw [bit_clear, bit_xor] at hvi hwi ⊢
  rw [bit_zero]
  grind

theorem toNat_and_sizeMask (w : UInt64) : (w &&& sizeMask).toNat = w.toNat / 32 * 32 := by
  have hw := w.toNat_lt
  have h : w.toNat / 32 * 32 = (w.toNat >>> 5) <<< 5 := by
    rw [Nat.shiftRight_eq_div_pow, Nat.shiftLeft_eq]
  rw [UInt64.toNat_and, show sizeMask.toNat = (2 ^ 59 - 1) <<< 5 by decide, h]
  apply Nat.eq_of_testBit_eq
  intro i
  rw [Nat.testBit_and, Nat.testBit_shiftLeft, Nat.testBit_shiftLeft, Nat.testBit_shiftRight,
    Nat.testBit_two_pow_sub_one]
  by_cases hi : 5 ≤ i
  · by_cases hj : i < 64
    · simp [hi, show i - 5 < 59 by omega]
    · have hz : w.toNat.testBit i = false :=
        Nat.testBit_lt_two_pow (lt_of_lt_of_le hw (Nat.pow_le_pow_right (by omega) (by omega)))
      simp [hi, hz]
  · simp [hi]

theorem and_usedBit (w : UInt64) : (w &&& usedBit != 0) = decide (w.toNat % 2 = 1) := by
  have h : (w &&& usedBit).toNat = w.toNat % 2 := by simp [usedBit, Nat.and_one_is_mod]
  have hz : w &&& usedBit = 0 ↔ w.toNat % 2 = 0 := by rw [← UInt64.toNat_inj, h]; rfl
  by_cases hw : w.toNat % 2 = 1
  · simp [hw, hz]
  · simp [hw, hz.mpr (by omega)]

theorem and_prevUsedBit (w : UInt64) :
    (w &&& prevUsedBit != 0) = decide (w.toNat / 2 % 2 = 1) := by
  have h : (w &&& prevUsedBit).toNat = w.toNat / 2 % 2 * 2 := by
    rw [UInt64.toNat_and, show prevUsedBit.toNat = 2 ^ 1 by rfl, Nat.and_two_pow,
      Nat.toNat_testBit, pow_one]
  have hz : w &&& prevUsedBit = 0 ↔ w.toNat / 2 % 2 = 0 := by
    rw [← UInt64.toNat_inj, h]
    simp
  by_cases hw : w.toNat / 2 % 2 = 1
  · simp [hw, hz]
  · simp [hw, hz.mpr (by omega)]

theorem decode_eq (w : UInt64) :
    decode w = ⟨w.toNat / 32 * 32, decide (w.toNat % 2 = 1), decide (w.toNat / 2 % 2 = 1)⟩ := by
  rw [decode, toNat_and_sizeMask, and_usedBit, and_prevUsedBit]

theorem decode_size_mod (w : UInt64) : (decode w).size % alignment = 0 := by
  rw [decode_eq]
  exact Nat.mul_mod_left _ 32

theorem toNat_word {t : Tag} (ha : t.size % alignment = 0) (hs : t.size < wordLimit) :
    t.word.toNat = t.size + (t.used.toNat + 2 * t.prevUsed.toNat) := by
  obtain ⟨n, u, p⟩ := t
  obtain ⟨k, rfl⟩ : ∃ k, n = 2 ^ 5 * k := Nat.dvd_of_mod_eq_zero ha
  have hk : 2 ^ 5 * k < 2 ^ 64 := hs
  have hn : (UInt64.ofNat (2 ^ 5 * k) &&& sizeMask).toNat = 2 ^ 5 * k := by
    rw [toNat_and_sizeMask, UInt64.toNat_ofNat_of_lt' hk]
    omega
  have hf : u.toNat + 2 * p.toNat < 2 ^ 5 := by cases u <;> cases p <;> decide
  rw [Nat.two_pow_add_eq_or_of_lt hf]
  simp only [word, UInt64.toNat_or, hn, Nat.or_assoc]
  have hg : ∀ u p : Bool, (if u then usedBit else 0).toNat ||| (if p then prevUsedBit else 0).toNat =
      u.toNat + 2 * p.toNat := by decide
  exact congrArg (2 ^ 5 * k ||| ·) (hg u p)

theorem decode_word {t : Tag} (ha : t.size % alignment = 0) (hs : t.size < wordLimit) :
    decode t.word = t := by
  rw [decode_eq, toNat_word ha hs]
  obtain ⟨n, u, p⟩ := t
  simp only [alignment] at ha ⊢
  cases u <;> cases p <;> simp <;> omega

theorem encode_eq_ok {t : Tag} (ha : t.size % alignment = 0) : t.encode = .ok t.word := if_pos ha

/-- The words of a head and of its tail agree in every bit but one. -/
theorem word_xor_word (n : Nat) (u p q : Bool) :
    (word ⟨n, u, p⟩ ^^^ word ⟨n, u, q⟩) &&& ~~~prevUsedBit = 0 := by
  refine bit_ext fun i _ => ?_
  simp only [word, bit_clear, bit_xor, bit_or, bit_flag, bit_zero]
  grind

end SegregatedFit.Tag
