import Mathlib
import SegregatedFit.Proofs.TagWord

/-!
Block sizes. The block for a payload is the least one in whole alignments that has room for it and its
header, if that is a word. So a block serves just the payloads that fit behind its header.
-/
namespace SegregatedFit

variable {m n size : Nat}

theorem blockSize?_eq_none_iff : blockSize? n = none ↔ wordLimit - (headerSize + alignment) < n := by
  have hlim : n + headerSize + (alignment - 1) < wordLimit ↔ n ≤ wordLimit - (headerSize + alignment) := by
    simp only [alignment, headerSize, wordSize, wordLimit]
    omega
  simp only [blockSize?, hlim, ite_eq_right_iff, reduceCtorEq, imp_false, not_le]

theorem blockSize?_eq_some_iff : blockSize? n = some size ↔
    n ≤ wordLimit - (headerSize + alignment) ∧ size % alignment = 0 ∧ n + headerSize ≤ size ∧
      size < n + (headerSize + alignment) := by
  cases hr : blockSize? n with
  | none =>
    have hlt := blockSize?_eq_none_iff.mp hr
    simp only [reduceCtorEq, false_iff]
    omega
  | some a =>
    have hle : ¬ wordLimit - (headerSize + alignment) < n := by
      rw [← blockSize?_eq_none_iff, hr]
      exact Option.some_ne_none a
    obtain rfl : alignUp (n + headerSize) = a := by
      unfold blockSize? at hr
      split at hr
      · exact Option.some.inj hr
      · cases hr
    rw [Option.some.injEq]
    simp only [alignUp, alignment, headerSize, wordSize] at hle ⊢
    omega

theorem blockSize?_bounds (hr : blockSize? n = some size) : minBlock ≤ size ∧ size < wordLimit := by
  obtain ⟨hn, hmod, hle, hlt⟩ := blockSize?_eq_some_iff.mp hr
  simp only [alignment, minBlock, headerSize, wordSize, wordLimit] at *
  omega

theorem blockSize?_le (hr : blockSize? n = some size) (hle : n + headerSize ≤ m)
    (hmod : m % alignment = 0) : size ≤ m := by
  obtain ⟨-, hsize, -, hlt⟩ := blockSize?_eq_some_iff.mp hr
  simp only [alignment] at hsize hlt hmod
  omega

theorem blockSize?_le_iff (hmin : minBlock ≤ size) (hmod : size % alignment = 0) (hlt : size < wordLimit) :
    (∃ a, blockSize? n = some a ∧ a ≤ size) ↔ n ≤ size - headerSize := by
  have hroom : headerSize ≤ size := le_trans (by decide) hmin
  constructor
  · rintro ⟨a, ha, hle⟩
    obtain ⟨-, -, hfit, -⟩ := blockSize?_eq_some_iff.mp ha
    omega
  · intro hn
    cases ha : blockSize? n with
    | none =>
      rw [blockSize?_eq_none_iff] at ha
      simp only [alignment, headerSize, wordSize, wordLimit] at *
      omega
    | some a => exact ⟨a, rfl, blockSize?_le ha (by omega) hmod⟩

theorem blockSize?_mono (h : m ≤ n) (hn : blockSize? n = some size) :
    ∃ a, blockSize? m = some a ∧ a ≤ size := by
  obtain ⟨hmin, hlt⟩ := blockSize?_bounds hn
  have hmod := (blockSize?_eq_some_iff.mp hn).2.1
  rw [blockSize?_le_iff hmin hmod hlt]
  exact h.trans ((blockSize?_le_iff hmin hmod hlt).mp ⟨size, hn, Nat.le_refl _⟩)

theorem blockSize?_sub_header (hmin : minBlock ≤ n) (hmod : n % alignment = 0) (hlt : n < wordLimit) :
    blockSize? (n - headerSize) = some n := by
  have hroom : headerSize ≤ n := le_trans (by decide) hmin
  obtain ⟨a, ha, hle⟩ := (blockSize?_le_iff (n := n - headerSize) hmin hmod hlt).mpr (Nat.le_refl _)
  obtain ⟨-, -, hfit, -⟩ := blockSize?_eq_some_iff.mp ha
  obtain rfl : a = n := by omega
  exact ha

/-- The size as it is computed on words: two checked additions, and a mask for whole alignments. -/
def maskedSize (n : Nat) : Except Fault Nat := do
  let room ← plus n headerSize
  let padded ← plus room (alignment - 1)
  return (UInt64.ofNat padded &&& Tag.sizeMask).toNat

theorem blockSize?_eq_toOption (n : Nat) : blockSize? n = (maskedSize n).toOption := by
  unfold maskedSize
  by_cases h : n + headerSize + (alignment - 1) < wordLimit
  · have hfirst : n + headerSize < wordLimit := by omega
    rw [blockSize?, if_pos h, plus_eq_ok hfirst]
    simp only [bind, Except.bind, plus_eq_ok h, pure, Except.pure, Except.toOption]
    rw [Tag.toNat_and_sizeMask, UInt64.toNat_ofNat_of_lt' h]
    rfl
  · rw [blockSize?, if_neg h]
    by_cases hfirst : n + headerSize < wordLimit
    · have hsecond : plus (n + headerSize) (alignment - 1) = .error .addOverflow := if_neg h
      rw [plus_eq_ok hfirst]
      simp only [bind, Except.bind, hsecond, Except.toOption]
    · have hover : plus n headerSize = .error .addOverflow := if_neg hfirst
      simp only [hover, bind, Except.bind, Except.toOption]

end SegregatedFit
