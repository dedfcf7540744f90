import Mathlib
import SegregatedFit.Proofs.Access
import SegregatedFit.Proofs.Row

/-!
What it is for a memory to spell a row of blocks: every head holds the word of its tag, and the last
word of a free block differs from its head in no bit but the one for the block before.
-/
namespace SegregatedFit.Memory

open Row

def Spells (m : Memory) (off : Nat) : Row → Prop
  | [] => True
  | t :: ts =>
    m.word off = t.word ∧
      (t.used = false → ∃ p, m.word (off + t.size - wordSize) = Tag.word ⟨t.size, false, p⟩) ∧
      m.Spells (off + t.size) ts

variable {m m' : Memory} {P : Nat → Prop} {off x : Nat} {t : Tag} {ts xs us ys vs : Row}

theorem spells_append :
    m.Spells off (xs ++ ys) ↔ m.Spells off xs ∧ m.Spells (off + span xs) ys := by
  induction xs generalizing off with
  | nil => simp [Spells]
  | cons x xs ih => simp [Spells, ih, and_assoc, Nat.add_assoc]

theorem Spells.head (h : m.Spells off ts) (ht : (x, t) ∈ located off ts) : m.word x = t.word := by
  obtain ⟨xs, ys, rfl, rfl⟩ := mem_located_iff.mp ht
  exact (spells_append.mp h).2.1

theorem Spells.tail (h : m.Spells off ts) (ht : (x, t) ∈ located off ts) (hu : t.used = false) :
    ∃ p, m.word (x + t.size - wordSize) = Tag.word ⟨t.size, false, p⟩ := by
  obtain ⟨xs, ys, rfl, rfl⟩ := mem_located_iff.mp ht
  exact (spells_append.mp h).2.2.1 hu

theorem Spells.of_sameOff (h : m.Spells off ts) (hm : SameOff P m m')
    (hh : ∀ x t, (x, t) ∈ located off ts → ∀ j, x ≤ j → j < x + 8 → ¬ P j)
    (ht : ∀ x t, (x, t) ∈ located off ts → t.used = false →
      ∀ j, x + t.size - 8 ≤ j → j < x + t.size - 8 + 8 → ¬ P j) : m'.Spells off ts := by
  induction ts generalizing off with
  | nil => trivial
  | cons t ts ih =>
    obtain ⟨hw, hf, hr⟩ := h
    have hin : (off, t) ∈ located off (t :: ts) := List.mem_cons_self
    refine ⟨?_, ?_, ?_⟩
    · rw [hm.word_eq (hh off t hin), hw]
    · intro hu
      obtain ⟨p, hp⟩ := hf hu
      exact ⟨p, by rw [← hp]; exact hm.word_eq (ht off t hin hu)⟩
    · exact ih hr (fun x s hs => hh x s (List.mem_cons_of_mem _ hs))
        fun x s hs => ht x s (List.mem_cons_of_mem _ hs)

theorem Spells.frame (h : m.Spells off ts) (hs : Sized ts) (hm : SameOff P m m')
    (hp : ∀ j, off ≤ j → j < off + span ts → ¬ P j) : m'.Spells off ts := by
  apply h.of_sameOff hm
  · intro x t hx j hj hj'
    have hb := located_bounds hx
    have hz := (hs.of_located hx).1
    simp only [minBlock, wordSize] at hz
    exact hp j (by omega) (by omega)
  · intro x t hx _ j hj hj'
    have hb := located_bounds hx
    have hz := (hs.of_located hx).1
    simp only [minBlock, wordSize] at hz
    exact hp j (by omega) (by omega)

/-- Where the blocks in the middle of a row are replaced and no other byte changes, the rest stays
spelled. What comes after keeps its place. -/
theorem Spells.replace (h : m.Spells x (xs ++ (us ++ ys))) (hs : Sized (xs ++ (us ++ ys)))
    (hspan : ys = [] ∨ span vs = span us)
    (hm : SameOff (fun j => x + span xs ≤ j ∧ (ys = [] ∨ j < x + span xs + span us)) m m')
    (hv : m'.Spells (x + span xs) vs) : m'.Spells x (xs ++ (vs ++ ys)) := by
  simp only [sized_append] at hs
  simp only [spells_append] at h
  refine spells_append.mpr ⟨?_, spells_append.mpr ⟨hv, ?_⟩⟩
  · exact h.1.frame hs.1 hm fun j _ h2 => by omega
  · by_cases hys : ys = []
    · rw [hys]
      trivial
    · rw [hspan.resolve_left hys]
      exact h.2.2.frame hs.2.2 hm fun j h1 _ => by simp only [hys, false_or]; omega

def setFree (m : Memory) (x : Nat) (t : Tag) : Memory :=
  (m.setWord x t.word).setWord (x + t.size - wordSize) t.word

theorem sameOff_setFree (m : Memory) (x : Nat) {t : Tag} (ht : minBlock ≤ t.size) :
    SameOff (fun j => x ≤ j ∧ j < x + t.size) m (m.setFree x t) := by
  simp only [minBlock, wordSize] at ht
  refine SameOff.trans (SameOff.setWord ?_) (SameOff.setWord ?_)
  · intro j h1 h2
    exact ⟨h1, by omega⟩
  · intro j h1 h2
    simp only [wordSize] at h1 h2
    exact ⟨by omega, by omega⟩

theorem spells_setFree (m : Memory) (x : Nat) {n : Nat} {p : Bool} (hn : minBlock ≤ n) :
    (m.setFree x ⟨n, false, p⟩).Spells x [⟨n, false, p⟩] := by
  simp only [minBlock, wordSize] at hn
  refine ⟨?_, fun _ => ⟨p, word_setWord _ _ _⟩, trivial⟩
  rw [setFree, word_setWord_of_disjoint _ _ (by simp only [wordSize]; omega), word_setWord]

theorem spells_pair (m : Memory) (x : Nat) {n : Nat} {p : Bool} (hu : t.used = true)
    (ht : minBlock ≤ t.size) (hn : minBlock ≤ n) :
    ((m.setWord x t.word).setFree (x + t.size) ⟨n, false, p⟩).Spells x [t, ⟨n, false, p⟩] := by
  refine ⟨?_, fun hf => ?_, spells_setFree _ _ hn⟩
  · rw [(sameOff_setFree _ _ hn).word_eq, word_setWord]
    intro j h1 h2
    simp only [minBlock, wordSize] at ht
    omega
  · rw [hu] at hf
    cases hf

theorem sameOff_pair (m : Memory) (x : Nat) {n : Nat} {p : Bool} (ht : minBlock ≤ t.size)
    (hn : minBlock ≤ n) : SameOff (fun j => x ≤ j ∧ j < x + (t.size + n)) m
      ((m.setWord x t.word).setFree (x + t.size) ⟨n, false, p⟩) := by
  simp only [minBlock, wordSize] at ht
  refine SameOff.trans (SameOff.setWord ?_) ((sameOff_setFree _ _ hn).mono ?_)
  · intro j h1 h2
    exact ⟨h1, by omega⟩
  · rintro j ⟨h1, h2⟩
    simp only at h2
    exact ⟨by omega, by omega⟩

theorem writeFree_eq {a : Arena} {x n : Nat} (hh : a.HasWord x) (ht : a.HasWord (x + n - wordSize))
    (hn : minBlock ≤ n) (ha : n % alignment = 0) (p : Bool) :
    a.writeFree x n p = .ok (a.mapMem (·.setFree x ⟨n, false, p⟩)) := by
  simp only [minBlock, wordSize] at hn
  exact Arena.writeFree_eq_ok hh ht (by simp only [wordSize]; omega) ha p

end SegregatedFit.Memory
