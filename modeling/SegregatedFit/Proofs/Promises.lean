import Mathlib
import SegregatedFit.Host.Reserve
import SegregatedFit.Proofs.Runs

/-!
What a client may rely on at every moment of every run: the heap is sound, the live pointers are those
to its used blocks, and no call touches a payload that it is not about.
-/
namespace SegregatedFit

open Row Memory

/-- A reserve that has committed all of its bytes. -/
def Reserve.full (n : Nat) : Reserve := ⟨n, n, Nat.le_refl n⟩

namespace Session

variable {H : Type} [Host H] {s s' : Session H} {c : Call} {cs : List Call} {k : Sketch H}
  {a : Answer} {ptr : Nat}

theorem exists_run_allocate :
    ∃ s : Session Reserve, Run [.allocate 24] s ∧
      s.Follows [.allocate 24]
        ((Sketch.empty (Reserve.full 4096) .checked).perform (.allocate 24)).2 := by
  have hroom : Host.secure (Reserve.full 4096) 0 prologueSize = (.ok (), .full 4096) := rfl
  obtain ⟨heap, hi, hf⟩ := init_follows hroom .checked .zero
  obtain ⟨s, -, hr, hf⟩ := hf.advance (c := .allocate 24) (.start hi) trivial (by decide) (by decide)
  exact ⟨s, hr, hf⟩

theorem reachable_sound [LawfulHost H] (hs : s.Reachable) : s.heap.Sound := by
  obtain ⟨cs, hr⟩ := hs
  obtain ⟨k, hf⟩ := hr.follows
  exact hf.shows.sound hf.valid.settled

theorem reachable_sound_allocate :
    ∃ s : Session Reserve, Run [.allocate 24] s ∧ s.heap.Sound := by
  obtain ⟨s, hr, -⟩ := exists_run_allocate
  exact ⟨s, hr, reachable_sound ⟨_, hr⟩⟩

theorem reachable_live [LawfulHost H] (hs : s.Reachable) :
    s.live.pointers.Nodup ∧
    s.live.pointers.Perm ((s.heap.blocks.filter (·.2.used)).map fun q => q.1 + headerSize) ∧
    (∀ p ∈ s.live, p.1 % alignment = 0 ∧ ∃ n, s.heap.usableSize p.1 = .ok n ∧ p.2 ≤ n ∧
      s.heap.arena.low ≤ p.1 ∧ p.1 + n ≤ s.heap.arena.top) ∧
    ∀ p ∈ s.live.pointers, ∀ q ∈ s.live.pointers, p ≠ q →
      ∃ n m, s.heap.usableSize p = .ok n ∧ s.heap.usableSize q = .ok m ∧
        (p + n ≤ q ∨ q + m ≤ p) := by
  obtain ⟨cs, hr⟩ := hs
  obtain ⟨k, hf⟩ := hr.follows
  have hk := hf.valid.settled.tidy
  have h8 : headerSize = 8 := rfl
  have h32 : minBlock = 32 := rfl
  refine ⟨hf.tracks.nodup, ?_, ?_, ?_⟩
  · have hp := hf.tracks.pointers_perm (hk.sized.nodup_sites true prologueSize)
    rw [Sketch.sites, sites_eq_filter, List.map_map] at hp
    rw [hf.shows.blocks_eq]
    exact hp
  · rintro ⟨ptr, n⟩ hp
    obtain ⟨x, m, hx, rfl, hn⟩ := hf.tracks.placed hp
    have hb := hk.of_site hx
    have hlow := hf.shows.low
    have htop := hf.shows.top
    exact ⟨hb.2.2.2.2, m - headerSize, hf.shows.usableSize_eq hx, by omega, by omega, by omega⟩
  · intro p hp q hq hne
    obtain ⟨x, n, hx, rfl⟩ := hf.site hp
    obtain ⟨y, m, hy, rfl⟩ := hf.site hq
    have hbx := hk.of_site hx
    have hby := hk.of_site hy
    refine ⟨_, _, hf.shows.usableSize_eq hx, hf.shows.usableSize_eq hy, ?_⟩
    rcases sites_apart hx hy with he | hxy | hyx
    · exact absurd (congrArg (· + headerSize) he.1) hne
    · exact .inl (by omega)
    · exact .inr (by omega)

theorem reachable_live_moved :
    ∃ s : Session Reserve, Run [.allocate 24, .allocate 100, .reallocate 448 40] s ∧
      s.live.pointers.Perm ((s.heap.blocks.filter (·.2.used)).map fun q => q.1 + headerSize) ∧
      480 ∈ s.live.pointers ∧ 640 ∈ s.live.pointers ∧
      ∃ n m, s.heap.usableSize 480 = .ok n ∧ s.heap.usableSize 640 = .ok m ∧
        (480 + n ≤ 640 ∨ 640 + m ≤ 480) := by
  obtain ⟨s₁, hr₁, hf₁⟩ := exists_run_allocate
  obtain ⟨s₂, -, hr₂, hf₂⟩ := hf₁.advance (c := .allocate 100) hr₁ trivial (by decide) (by decide)
  obtain ⟨s, -, hr, hf⟩ := hf₂.advance (c := .reallocate 448 40) hr₂ ⟨440, 32, by decide, rfl⟩ (by decide)
    (by decide)
  have h₁ : 480 ∈ s.live.pointers := hf.tracks.owned (x := 472) (m := 160) (by decide)
  have h₂ : 640 ∈ s.live.pointers := hf.tracks.owned (x := 632) (m := 64) (by decide)
  obtain ⟨-, hperm, -, hapart⟩ := reachable_live ⟨_, hr⟩
  exact ⟨s, hr, hperm, h₁, h₂, hapart 480 h₁ 640 h₂ (by decide)⟩

/-- The payload is as long as it was, and holds the same bytes. -/
def Keeps (s s' : Session H) (ptr : Nat) : Prop :=
  ∃ n, s.heap.usableSize ptr = .ok n ∧ s'.heap.usableSize ptr = .ok n ∧
    ∀ i < n, s'.byte (ptr + i) = s.byte (ptr + i)

theorem Follows.keeps [LawfulHost H] (hf : s.Follows cs k) (hc : s.Allows c)
    (h : s.step c = .ok (a, s')) (hp : ptr ∈ s.live.pointers)
    (ht : (∃ reason, a = .error reason) ∨ ¬ c.Takes ptr) : s.Keeps s' ptr := by
  obtain ⟨hm, hf'⟩ := hf.of_step hc h
  have hv := hf.valid.serves (hf.admits hc)
  obtain ⟨x, n, hx, rfl⟩ := hf.site hp
  have hsize := hf.shows.usableSize_eq hx
  have hz := (hf.valid.settled.tidy.of_site hx).2.2.1
  have h8 : headerSize = 8 := rfl
  have h32 : minBlock = 32 := rfl
  rcases ht with ⟨reason, rfl⟩ | ht
  · have hh := hm.refused reason rfl
    refine ⟨n - headerSize, hsize, ?_, fun i _ => ?_⟩
    · rw [hh]
      exact hsize
    · rw [byte, hh]
      rfl
  · refine ⟨n - headerSize, hsize, hf'.shows.usableSize_eq (hv.stays x n hx ht), fun i hi => ?_⟩
    exact hm.kept x n hx ht _ (Nat.le_add_right _ _) (by omega)

theorem step_keeps_payloads [LawfulHost H] (hs : s.Reachable) (hc : s.Allows c)
    (h : s.step c = .ok (a, s')) :
    (∀ ptr ∈ s.live.pointers, (∃ reason, a = .error reason) ∨ ¬ c.Takes ptr → s.Keeps s' ptr) ∧
    ∀ ptr request new, c = .reallocate ptr request → a = .ok (some new) →
      ∃ n, s.heap.usableSize ptr = .ok n ∧
        ∀ i < min request n, s'.byte (new + i) = s.byte (ptr + i) := by
  obtain ⟨cs, hr⟩ := hs
  obtain ⟨k, hf⟩ := hr.follows
  refine ⟨fun ptr hp ht => hf.keeps hc h hp ht, ?_⟩
  rintro ptr request new rfl ha
  obtain ⟨x, n, hx, rfl⟩ := hf.site hc
  exact ⟨_, hf.shows.usableSize_eq hx,
    (hf.of_step hc h).1.carried x n request new hx rfl ha⟩

theorem step_keeps_payloads_reallocate :
    ∃ s s' : Session Reserve, Run [.allocate 24] s ∧
      s.step (.reallocate 448 184) = .ok (.ok (some 640), s') ∧
      ∃ n, s.heap.usableSize 448 = .ok n ∧
        ∀ i < min 184 n, s'.byte (640 + i) = s.byte (448 + i) := by
  obtain ⟨s, hr, hf⟩ := exists_run_allocate
  have hadm : ((Sketch.empty (Reserve.full 4096) .checked).perform (.allocate 24)).2.Admits
      (.reallocate 448 184) := ⟨440, 32, by decide, rfl⟩
  obtain ⟨s', hstep, -, -⟩ := hf.advance hr hadm (by decide) (by decide)
  refine ⟨s, s', hr, hstep, ?_⟩
  exact (step_keeps_payloads ⟨_, hr⟩ (hf.allows hadm) hstep).2 448 184 640 rfl rfl

end Session

end SegregatedFit
