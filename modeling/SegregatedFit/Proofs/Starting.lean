import Mathlib
import SegregatedFit.Proofs.Growing

/-!
The start of a heap: an empty row, empty lists, and nothing written above the prologue. Whatever the
memory held before makes no difference.
-/
namespace SegregatedFit

open Row Memory

variable {H : Type}

namespace Sketch

def empty (host : H) (config : Config) : Sketch H := ⟨host, [], fun _ => [], true, config, {}⟩

theorem empty_settled (host : H) (config : Config) : (empty host config).Settled where
  tidy := by
    refine ⟨sized_nil, ?_, ?_, fun _ => List.nodup_nil⟩
    · change prologueSize + 0 < wordLimit
      decide
    · intro b x hx
      cases hx
  flagged := trivial
  merged := fun _ ht => by cases ht
  complete := fun hx => by cases hx
  topUsed := rfl

end Sketch

namespace Memory

variable {m : Memory} {b c : Fin bucketCount} {l done : List (Fin bucketCount)}

def resetRing (m : Memory) (b : Fin bucketCount) : Memory :=
  ((m.setWord (sentinel b) (Tag.word ⟨0, true, true⟩)).setPrev (sentinel b) (sentinel b)).setNext
    (sentinel b) (sentinel b)

theorem sentinel_lt (b : Fin bucketCount) : sentinel b < wordLimit := by
  have := sentinel_le b
  have : prologueSize < wordLimit := by decide
  simp only [wordSize] at *
  omega

theorem ring_resetRing (m : Memory) (b : Fin bucketCount) : (m.resetRing b).Ring (sentinel b) [] := by
  refine ⟨nextLink_setNext_self (sentinel_lt b), ?_, trivial⟩
  rw [resetRing, prevLink_setNext (.inl rfl), prevLink_setPrev_self (sentinel_lt b)]

theorem sameOff_resetRing (m : Memory) (b : Fin bucketCount) :
    SameOff (fun j => sentinel b ≤ j ∧ j < sentinel b + 3 * wordSize) m (m.resetRing b) := by
  have hl : ∀ j, LinkBytes [sentinel b] j → sentinel b ≤ j ∧ j < sentinel b + 3 * wordSize := by
    rintro j ⟨y, hy, h1, h2⟩
    obtain rfl := List.mem_singleton.mp hy
    exact ⟨(Nat.le_add_right _ _).trans h1, h2⟩
  refine SameOff.trans (SameOff.setWord ?_) (((sameOff_setPrev (List.mem_singleton.mpr rfl) _).trans
    (sameOff_setNext (List.mem_singleton.mpr rfl) _)).mono hl)
  intro j h1 h2
  simp only [wordSize]
  exact ⟨h1, by omega⟩

theorem ring_resetRing_of_ne (h : b ≠ c) (hm : m.Ring (sentinel c) []) :
    (m.resetRing b).Ring (sentinel c) [] := by
  apply hm.of_sameOff (sameOff_resetRing m b)
  rintro x hx j h1 h2 ⟨h3, h4⟩
  obtain rfl := List.mem_singleton.mp hx
  have := sentinel_apart h
  simp only [Apart, wordSize] at *
  omega

end Memory

namespace Heap

open HeapM

variable {a : Arena} {limit : Stats} {l : List (Fin bucketCount)}

theorem resetRing_eq_ok (hle : prologueSize ≤ a.top) (hlt : a.top < wordLimit) (b : Fin bucketCount) :
    (do
      let a ← a.setTag (sentinel b) ⟨0, true, true⟩
      let a ← a.setPrev (sentinel b) (sentinel b)
      a.setNext (sentinel b) (sentinel b)) = .ok (a.mapMem (·.resetRing b)) := by
  have hs := (sentinel_le b).trans hle
  have hmod : sentinel b % wordSize = 0 := by
    simp only [sentinel, sentinelSize, wordSize]
    omega
  have hw : ∀ i, i ≤ 2 → a.HasWord (sentinel b + i * wordSize) := by
    intro i hi
    refine ⟨?_, ?_, hlt⟩
    · simp only [wordSize] at *
      omega
    · simp only [wordSize] at *
      omega
  have h0 := hw 0 (by omega)
  have h1 := hw 1 (by omega)
  rw [Nat.zero_mul, Nat.add_zero] at h0
  rw [Nat.one_mul] at h1
  simp only [Arena.setTag_eq_ok h0 (t := ⟨0, true, true⟩) rfl, Arena.setPrev_eq_ok (h1.put _ _),
    Arena.setNext_eq_ok (((hw 2 (by omega)).put _ _).put _ _), bind, Except.bind]
  rfl

theorem reset_eq_ok (hle : prologueSize ≤ a.top) (hlt : a.top < wordLimit)
    (done l : List (Fin bucketCount)) (hdone : ∀ b ∈ done, a.mem.Ring (sentinel b) []) :
    ∃ m, (l.foldlM (fun a b => do
        let s := sentinel b
        let a ← a.setTag s ⟨0, true, true⟩
        let a ← a.setPrev s s
        a.setNext s s) a) = .ok (a.mapMem fun _ => m) ∧
      (∀ b ∈ done ++ l, m.Ring (sentinel b) []) ∧ SameOff (· < prologueSize) a.mem m := by
  induction l generalizing a done with
  | nil => exact ⟨a.mem, rfl, by simpa using hdone, SameOff.refl _⟩
  | cons b l ih =>
    have hnext : ∀ c ∈ done ++ [b], (a.mapMem (·.resetRing b)).mem.Ring (sentinel c) [] := by
      intro c hc
      by_cases hbc : b = c
      · rw [← hbc]
        exact ring_resetRing a.mem b
      · refine ring_resetRing_of_ne hbc (hdone c ?_)
        simpa [Ne.symm hbc] using hc
    obtain ⟨m, hm, hr, ho⟩ := ih (a := a.mapMem (·.resetRing b)) hle hlt (done ++ [b]) hnext
    refine ⟨m, ?_, by simpa using hr, SameOff.trans ((sameOff_resetRing a.mem b).mono ?_) ho⟩
    · rw [List.foldlM_cons, resetRing_eq_ok hle hlt b]
      exact hm
    · rintro j ⟨-, h2⟩
      exact h2.trans_le (sentinel_le b)

theorem sealed_meets {h : Heap H} (htop : h.arena.top = prologueSize) :
    HeapM.Meets (do
      edit (return ·.sealPrologue)
      relink fun _ a => return (.empty, ← Bins.reset a)
      setTopUsed true
      account fun _ => return {}
      note .initialized
      return .ok () : HeapM H (Except Refusal Unit)) h limit fun r h' =>
        r = .ok () ∧ h'.Shows (.empty h.host h.config) ∧
          SameOff (· < prologueSize) h.arena.mem h'.arena.mem := by
  have htop' : h.arena.sealPrologue.top = prologueSize := htop
  obtain ⟨m, hm, hrings, hsame⟩ := reset_eq_ok htop'.ge (htop' ▸ by decide) []
    (List.finRange bucketCount) (by simp)
  have hreset : Bins.reset h.arena.sealPrologue = .ok (h.arena.sealPrologue.mapMem fun _ => m) := hm
  refine meets_edit (a := h.arena.sealPrologue) rfl ?_
  refine meets_relink (g := fun _ a => return (.empty, ← Bins.reset a)) (by rw [hreset]; rfl) ?_
  apply meets_setTopUsed
  refine meets_account (s := {}) rfl ?_
  apply meets_note
  apply meets_pure
  refine ⟨rfl, ⟨(Sketch.empty_settled h.host h.config).tidy, rfl, rfl, rfl, rfl, Stats.fits_zero,
    htop, htop, trivial, ?_, ?_⟩, hsame⟩
  · intro b
    exact hrings b (List.mem_append_right _ (List.mem_finRange b))
  · intro b
    simp [Bins.empty, Bins.length, Sketch.empty, Vector.get]

/-- A start asks the host for the prologue, and comes to an empty heap if that is granted. -/
theorem init_meets [Host H] (h : Heap H) (limit : Stats) :
    init.Meets h limit fun r h' =>
      match Host.secure h.host 0 prologueSize with
      | (.ok (), host) => r = .ok () ∧ h'.Shows (.empty host h.config) ∧
          SameOff (· < prologueSize) h.arena.mem h'.arena.mem
      | (.error reason, host) => r = .error reason ∧ h' = { h with host, arena := h.arena.clear } := by
  refine meets_edit (a := h.arena.clear) rfl ?_
  refine (grow_meets _ prologueSize).bind ?_
  intro r h1 hr
  match hsec : Host.secure h.host 0 prologueSize with
  | (.error reason, host) =>
    have hsec' : Host.secure h.host h.arena.clear.top prologueSize = (.error reason, host) := hsec
    rw [hsec'] at hr
    obtain ⟨rfl, rfl⟩ := hr
    exact meets_pure ⟨rfl, rfl⟩
  | (.ok (), host) =>
    have hsec' : Host.secure h.host h.arena.clear.top prologueSize = (.ok (), host) := hsec
    rw [hsec'] at hr
    obtain ⟨rfl, hh1⟩ := hr
    have htop : h1.arena.top = prologueSize := by
      rw [hh1]
      exact Nat.zero_add _
    refine (sealed_meets htop).mono ?_
    rintro r h2 ⟨hr, hs, hm⟩
    rw [hh1] at hs hm
    exact ⟨hr, hs, hm⟩

end Heap

end SegregatedFit
