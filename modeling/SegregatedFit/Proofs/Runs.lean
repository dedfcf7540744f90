import Mathlib
import SegregatedFit.Proofs.Performing

/-!
Runs of sessions. Along a run the heap shows a sketch, and its used blocks are those of the live
pointers. What a client may rely on follows from there.
-/
namespace SegregatedFit

open Row Memory

def tolls (cs : List Call) : Nat := (cs.map Call.toll).sum

namespace Session

variable {H : Type} [Host H] {s s' : Session H} {cs : List Call} {c : Call} {k : Sketch H} {a : Answer}
  {i m n ptr x : Nat}

/-- The session, at the end of the calls, has come to show the sketch. -/
structure Follows (s : Session H) (cs : List Call) (k : Sketch H) : Prop where
  shows : s.heap.Shows k
  valid : k.Valid
  tracks : s.live.Tracks (k.sites true)
  merges : k.merges ≤ tolls cs
  counted : ∀ d, d ≠ .coalesces → k.stats.get d ≤ calls cs

namespace Follows

theorem site (hf : s.Follows cs k) (hp : ptr ∈ s.live.pointers) :
    ∃ x m, (x, m) ∈ k.sites true ∧ ptr = x + headerSize := by
  obtain ⟨n, hn⟩ := Live.mem_pointers.mp hp
  obtain ⟨x, m, hx, he, -⟩ := hf.tracks.placed hn
  exact ⟨x, m, hx, he⟩

theorem admits (hf : s.Follows cs k) (hc : s.Allows c) : k.Admits c := by
  cases c with
  | allocate request => trivial
  | free ptr => exact hf.site hc
  | reallocate ptr request => exact hf.site hc
  | init => trivial
  | write ptr i b =>
    obtain ⟨hp, n, hn, hi⟩ := hc
    obtain ⟨x, m, hx, rfl⟩ := hf.site hp
    rw [hf.shows.usableSize_eq hx] at hn
    cases hn
    exact ⟨x, m, hx, rfl, hi⟩

theorem allows (hf : s.Follows cs k) (hc : k.Admits c) : s.Allows c := by
  cases c with
  | allocate request => trivial
  | free ptr =>
    obtain ⟨x, n, hx, rfl⟩ := hc
    exact hf.tracks.owned hx
  | reallocate ptr request =>
    obtain ⟨x, n, hx, rfl⟩ := hc
    exact hf.tracks.owned hx
  | init => trivial
  | write ptr i b =>
    obtain ⟨x, n, hx, rfl, hi⟩ := hc
    exact ⟨hf.tracks.owned hx, n - headerSize, hf.shows.usableSize_eq hx, hi⟩

theorem counted_step (hf : s.Follows cs k) (c : Call) {d : Counter} (hd : d ≠ .coalesces) :
    (k.perform c).2.stats.get d ≤ calls (cs ++ [c]) := by
  by_cases hc : c = .init
  · rw [hc]
    cases d <;> exact Nat.zero_le _
  · have h1 := (k.perform_rise hc d).2
    have h2 := hf.counted d hd
    have h3 := Call.rise_le (c := c) hd
    have h4 : calls (cs ++ [c]) = calls cs + if c.asks then 1 else 0 := by
      simp [calls, List.countP_append, List.countP_singleton]
    omega

theorem fits (hf : s.Follows cs k) (hlt : calls (cs ++ [c]) < wordLimit)
    (hco : (k.perform c).2.stats.coalesces < wordLimit) : (k.perform c).2.stats.Fits := by
  intro d
  by_cases hd : d = .coalesces
  · rw [hd]
    exact hco
  · exact (hf.counted_step c hd).trans_lt hlt

variable [LawfulHost H]

theorem merges_step (hf : s.Follows cs k) (hc : s.Allows c) :
    (k.perform c).2.merges ≤ tolls (cs ++ [c]) := by
  have h1 := (hf.valid.serves (hf.admits hc)).merges
  have h2 := hf.merges
  have h3 : tolls (cs ++ [c]) = tolls cs + c.toll := by simp [tolls]
  omega

/-- A call that a client may make leads to what the sketch makes of it, or a counter overflows. -/
theorem step (hf : s.Follows cs k) (hc : s.Allows c) :
    match s.step c with
    | .ok (a, s') => s.heap.Performs k c a s'.heap ∧ s'.Follows (cs ++ [c]) (k.perform c).2
    | .error e => e = .addOverflow ∧ ¬ (k.perform c).2.stats.Fits := by
  have hm := Heap.perform_meets hf.shows hf.valid (hf.admits hc)
  rw [Session.step]
  cases hr : (c.perform.exec s.heap #[]).1 with
  | error e => exact hm.of_error hr
  | ok r =>
    obtain ⟨a, heap⟩ := r
    have hm := hm.of_ok hr
    have hv := hf.valid.serves (hf.admits hc)
    rw [← hm.answer] at hv
    exact ⟨hm, hm.shows, hv.valid, hv.tracked _ hf.tracks, hf.merges_step hc,
      fun d hd => hf.counted_step c hd⟩

theorem of_step (hf : s.Follows cs k) (hc : s.Allows c) (h : s.step c = .ok (a, s')) :
    s.heap.Performs k c a s'.heap ∧ s'.Follows (cs ++ [c]) (k.perform c).2 := by
  have hm := hf.step hc
  rw [h] at hm
  exact hm

theorem step_eq_error (hf : s.Follows cs k) (hc : s.Allows c)
    (hfit : ¬ (k.perform c).2.stats.Fits) : s.step c = .error .addOverflow := by
  have hm := hf.step hc
  cases h : s.step c with
  | error e =>
    rw [h] at hm
    rw [hm.1]
  | ok r =>
    rw [h] at hm
    exact absurd hm.2.shows.fits hfit

theorem exists_full (hf : s.Follows cs k) (hc : s.Allows c) (hinit : c ≠ .init) {e : Fault}
    (h : s.step c = .error e) : ∃ d, wordLimit ≤ k.stats.get d + c.rise d := by
  have hm := hf.step hc
  rw [h] at hm
  by_contra hno
  exact hm.2 fun d => (k.perform_rise hinit d).2.trans_lt (Nat.not_le.mp fun hd => hno ⟨d, hd⟩)

theorem step_of_fits (hf : s.Follows cs k) (hc : s.Allows c) (hfit : (k.perform c).2.stats.Fits) :
    ∃ s', s.step c = .ok ((k.perform c).1, s') ∧ s'.Follows (cs ++ [c]) (k.perform c).2 := by
  have hm := hf.step hc
  cases hstep : s.step c with
  | error e =>
    rw [hstep] at hm
    exact absurd hfit hm.2
  | ok r =>
    obtain ⟨a, s'⟩ := r
    rw [hstep] at hm
    exact ⟨s', by rw [hm.1.answer], hm.2⟩

theorem advance (hf : s.Follows cs k) (hr : Run cs s) (hc : k.Admits c)
    (hlt : calls (cs ++ [c]) < wordLimit) (hco : (k.perform c).2.stats.coalesces < wordLimit) :
    ∃ s', s.step c = .ok ((k.perform c).1, s') ∧ Run (cs ++ [c]) s' ∧
      s'.Follows (cs ++ [c]) (k.perform c).2 := by
  obtain ⟨s', hstep, hf'⟩ := hf.step_of_fits (hf.allows hc) (hf.fits hlt hco)
  exact ⟨s', hstep, hr.step (hf.allows hc) hstep, hf'⟩

end Follows

variable [LawfulHost H]

theorem init_follows {host host' : H} (h : Host.secure host 0 prologueSize = (.ok (), host'))
    (config : Config) (mem : Memory) :
    ∃ heap, (Heap.init.exec (.blank host config mem) #[]).1 = .ok (.ok (), heap) ∧
      Follows ⟨heap, []⟩ [] (.empty host' config) := by
  have hback := (Host.of_secure_ok h).2.1
  rw [Nat.zero_add] at hback
  have h' : Host.secure (Heap.blank host config mem).host 0 prologueSize = (.ok (), host') := h
  cases hr : (Heap.init.exec (.blank host config mem) #[]).1 with
  | error e => exact absurd Stats.fits_zero ((Heap.init_meets _ {}).of_error hr).2
  | ok r =>
    obtain ⟨r, heap⟩ := r
    have hm := (Heap.init_meets _ {}).of_ok hr
    rw [h'] at hm
    obtain ⟨rfl, hs, -⟩ := hm
    refine ⟨heap, rfl, hs, Sketch.empty_valid config hback, Live.Tracks.nil, Nat.zero_le _, ?_⟩
    intro d _
    cases d <;> exact Nat.zero_le _

theorem start_follows {host : H} {config : Config} {mem : Memory} {heap : Heap H}
    (h : (Heap.init.exec (.blank host config mem) #[]).1 = .ok (.ok (), heap)) :
    Follows ⟨heap, []⟩ [] (.empty (Host.secure host 0 prologueSize).2 config) := by
  match hsec : Host.secure host 0 prologueSize with
  | (.ok (), host') =>
    obtain ⟨heap', he, hf⟩ := init_follows hsec config mem
    rw [h] at he
    cases he
    exact hf
  | (.error reason, host') =>
    have hm := (Heap.init_meets _ {}).of_ok h
    have h' : Host.secure (Heap.blank host config mem).host 0 prologueSize =
        (.error reason, host') := hsec
    rw [h'] at hm
    cases hm.1

/-- Every run follows some sketch, and what holds of an empty sketch and is kept by every call holds
of it. -/
theorem Run.follows_with {P : Sketch H → Prop} (h0 : ∀ host config, P (.empty host config))
    (hstep : ∀ k c, k.Valid → k.Admits c → P k → P (k.perform c).2) (hr : Run cs s) :
    ∃ k, s.Follows cs k ∧ P k := by
  induction hr with
  | start h => exact ⟨_, start_follows h, h0 _ _⟩
  | step _ hc h ih =>
    obtain ⟨k, hf, hk⟩ := ih
    exact ⟨_, (hf.of_step hc h).2, hstep _ _ hf.valid (hf.admits hc) hk⟩

theorem Run.follows (hr : Run cs s) : ∃ k, s.Follows cs k := by
  obtain ⟨k, hf, -⟩ := hr.follows_with (P := fun _ => True) (fun _ _ => trivial)
    fun _ _ _ _ _ => trivial
  exact ⟨k, hf⟩

end Session

end SegregatedFit
