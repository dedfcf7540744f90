import Mathlib
import SegregatedFit.Proofs.Mirrored
import SegregatedFit.Proofs.Promises

/-!
Refusals. A heap may ask its host twice before it gives up, for a chunk and for the block alone, or
for more at the end of the top block and then elsewhere. Whatever it tried, a refused call leaves no
trace but what its host remembers of being asked.
-/
namespace SegregatedFit

namespace Sketch

variable {H : Type} [Host H] [LawfulHost H] {k k' : Sketch H} {c : Call} {n off request size : Nat}
  {t : Tag} {reason : Refusal}

theorem committed_of_allocateBlock_error (h : k.allocateBlock request = (.error reason, k')) :
    Host.committed k'.host = Host.committed k.host := by
  unfold allocateBlock obtain extend at h
  split at h
  · cases h; rfl
  · split at h
    · next hobtain =>
      cases h
      split at hobtain
      · split at hobtain
        · next hsec =>
          cases hobtain
          exact Host.of_secureChunk_error hsec
        · cases hobtain
      · cases hobtain
    · cases h

theorem committed_of_allocate_error (h : (k.allocate request).1 = .error reason) :
    Host.committed (k.allocate request).2.host = Host.committed k.host := by
  unfold allocate at h ⊢
  match ho : k.allocateBlock request with
  | (.error reason, k1) => exact committed_of_allocateBlock_error ho
  | (.ok x, k1) =>
    rw [ho] at h
    cases h

theorem committed_of_reallocate_error {ptr : Nat} (h : (k.reallocate ptr request).1 = .error reason) :
    Host.committed (k.reallocate ptr request).2.host = Host.committed k.host := by
  unfold reallocate at h ⊢
  split at h
  · rfl
  · cases h
  · next size t ys _ _ =>
    split at h
    · cases h
    · next hlt =>
      rw [if_neg hlt]
      unfold enlarge at h ⊢
      match hg : k.growTop (ptr - headerSize) t size with
      | (true, k1) =>
        rw [hg] at h
        cases h
      | (false, k1) =>
        rw [hg] at h
        dsimp only at h ⊢
        match ha : k1.allocateBlock request with
        | (.ok y, k2) =>
          rw [ha] at h
          cases h
        | (.error reason, k2) =>
          exact (committed_of_allocateBlock_error ha).trans (committed_of_growTop_false hg)

theorem committed_of_perform_error (h : (k.perform c).1 = .error reason) :
    Host.committed (k.perform c).2.host = Host.committed k.host := by
  cases c with
  | allocate request =>
    cases ha : (k.allocate request).1 with
    | error r => exact committed_of_allocate_error ha
    | ok x =>
      simp only [perform, ha] at h
      cases h
  | reallocate ptr request =>
    cases ha : (k.reallocate ptr request).1 with
    | error r => exact committed_of_reallocate_error ha
    | ok x =>
      simp only [perform, ha] at h
      cases h
  | free ptr | init | write ptr i b => cases h

end Sketch

namespace Session

variable {H : Type} [Host H] {s s' : Session H} {c : Call} {reason : Refusal}

/-- A refused call leaves the client with what it had: the same heap, to the last byte of its memory,
over a host that has committed no more. -/
theorem step_refused [LawfulHost H] (hs : s.Reachable) (hc : s.Allows c)
    (h : s.step c = .ok (.error reason, s')) :
    s' = { s with heap := { s.heap with host := s'.heap.host } } ∧
    Host.committed s'.heap.host = Host.committed s.heap.host ∧
    Host.base s'.heap.host = Host.base s.heap.host ∧
    ∀ ptr ∈ s.live.pointers, ptr ∈ s'.live.pointers ∧ s.Keeps s' ptr := by
  obtain ⟨cs, hr⟩ := hs
  obtain ⟨k, hf⟩ := hr.follows
  obtain ⟨hm, hf'⟩ := hf.of_step hc h
  have hlive : s'.live = s.live := by
    rw [(exec_of_step h).2]
    cases c with
    | init => cases hm.answer
    | allocate request | free ptr | reallocate ptr request | write ptr i b => rfl
  have hheap : s'.heap = { s.heap with host := s'.heap.host } := by
    rw [hf'.shows.host]
    exact hm.refused reason rfl
  refine ⟨?_, ?_, step_base h, fun ptr hp => ⟨hlive ▸ hp, hf.keeps hc h hp (.inl ⟨reason, rfl⟩)⟩⟩
  · rw [← hheap, ← hlive]
  · rw [hf'.shows.host, hf.shows.host]
    exact Sketch.committed_of_perform_error hm.answer.symm

theorem step_refused_reallocate :
    ∃ s s' : Session Reserve, Run [.allocate 24] s ∧
      s.step (.reallocate 448 184) = .ok (.error (.outOfMemory 192), s') ∧
      s'.live = [(448, 24)] ∧ s.Keeps s' 448 := by
  have hroom : Host.secure (Reserve.full 472) 0 prologueSize = (.ok (), .full 472) := rfl
  obtain ⟨heap, hi, hf⟩ := init_follows hroom .checked .zero
  obtain ⟨s, hstep, hr, hf⟩ :=
    hf.advance (c := .allocate 24) (.start hi) trivial (by decide) (by decide)
  have hadm : ((Sketch.empty (Reserve.full 472) .checked).perform (.allocate 24)).2.Admits
      (.reallocate 448 184) := ⟨440, 32, by decide, rfl⟩
  obtain ⟨s', hstep', -, -⟩ := hf.advance hr hadm (by decide) (by decide)
  have hlive : s.live = [(448, 24)] := (exec_of_step hstep).2
  obtain ⟨hs', -, -, hkeeps⟩ := step_refused ⟨_, hr⟩ (hf.allows hadm) hstep'
  refine ⟨s, s', hr, hstep', ?_, (hkeeps 448 (by rw [hlive]; decide)).2⟩
  rw [hs']
  exact hlive

end Session

end SegregatedFit
