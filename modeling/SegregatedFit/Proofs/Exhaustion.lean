import Mathlib
import SegregatedFit.Proofs.Promises

/-!
Refusals over a reserve. A request is refused where no free block serves it and its block does not fit
between the top and the capacity. How many bytes are committed already makes no difference, nor
does the chunk that is tried first.
-/
namespace SegregatedFit

open Row

namespace Reserve

variable {r : Reserve} {top delta size : Nat}

theorem secure_eq (r : Reserve) (top delta : Nat) : Host.secure r top delta =
    if wordLimit ≤ top + delta then (.error (.outOfMemory delta), r)
    else if r.committed < top + delta then
      ((r.extend (top + delta - r.committed)).granted.map fun _ => (),
        (r.extend (top + delta - r.committed)).host)
    else (.ok (), r) := rfl

theorem secure_of_le (hlim : top + delta < wordLimit) (h : top + delta ≤ r.capacity) :
    ∃ r', Host.secure r top delta = (.ok (), r') ∧ r'.capacity = r.capacity := by
  rw [secure_eq, if_neg (Nat.not_le.mpr hlim)]
  by_cases hc : r.committed < top + delta
  · have hext : r.committed + (top + delta - r.committed) ≤ r.capacity := by omega
    rw [if_pos hc, extend_of_le r hext]
    exact ⟨_, rfl, rfl⟩
  · rw [if_neg hc]
    exact ⟨r, rfl, rfl⟩

theorem secure_of_lt (h : wordLimit ≤ top + delta ∨ r.capacity < top + delta) :
    ∃ n, Host.secure r top delta = (.error (.outOfMemory n), r) := by
  rw [secure_eq]
  by_cases hlim : wordLimit ≤ top + delta
  · rw [if_pos hlim]
    exact ⟨delta, rfl⟩
  · have hcap := h.resolve_left hlim
    have hle := r.committed_le
    have hc : r.committed < top + delta := by omega
    have hext : r.capacity < r.committed + (top + delta - r.committed) := by omega
    rw [if_neg hlim, if_pos hc, extend_of_lt r hext]
    exact ⟨_, rfl⟩

theorem secureChunk_of_le (hlim : r.capacity < wordLimit) (h : top + size ≤ r.capacity) :
    ∃ chunk r', Host.secureChunk r top size = (.ok chunk, r') := by
  unfold Host.secureChunk
  by_cases hchunk : top + chunkFor size ≤ r.capacity
  · obtain ⟨r', hr, -⟩ := secure_of_le (hchunk.trans_lt hlim) hchunk
    rw [hr]
    exact ⟨_, _, rfl⟩
  · obtain ⟨n, hn⟩ := secure_of_lt (.inr (Nat.not_le.mp hchunk))
    have hlt : size < chunkFor size := by omega
    obtain ⟨r', hr, -⟩ := secure_of_le (h.trans_lt hlim) h
    rw [hn]
    dsimp only
    rw [if_pos hlt, hr]
    exact ⟨_, _, rfl⟩

theorem secureChunk_of_lt (hchunk : size ≤ chunkFor size) (h : r.capacity < top + size) :
    ∃ n, Host.secureChunk r top size = (.error (.outOfMemory n), r) := by
  unfold Host.secureChunk
  have hover : r.capacity < top + chunkFor size := by omega
  obtain ⟨n, hn⟩ := secure_of_lt (.inr hover)
  rw [hn]
  dsimp only
  by_cases hlt : size < chunkFor size
  · obtain ⟨m, hm⟩ := secure_of_lt (.inr h)
    rw [if_pos hlt, hm]
    exact ⟨m, rfl⟩
  · rw [if_neg hlt]
    exact ⟨n, rfl⟩

end Reserve

theorem val_bucketFor (n : Nat) : (bucketFor n).val = min (n / 32) 17 := by
  have hc : minChunk = 544 := rfl
  unfold bucketFor
  split
  · simp only [alignment]
    omega
  · simp only [bucketCount]
    omega

theorem bucketFor_mono {m n : Nat} (h : m ≤ n) : bucketFor m ≤ bucketFor n := by
  rw [Fin.le_def, val_bucketFor, val_bucketFor]
  omega

namespace Sketch

theorem Settled.firstFit_eq_none_iff {H : Type} {k : Sketch H} (hk : k.Settled) {size : Nat} :
    k.firstFit size = none ↔ ∀ x n, (x, n) ∈ k.sites false → n < size := by
  constructor
  · intro hnone x n hx
    by_contra hle
    have hb := List.findSome?_eq_none_iff.mp hnone (bucketFor n) (List.mem_finRange _)
    rw [if_neg (not_lt.mpr (bucketFor_mono (Nat.not_lt.mp hle))), List.find?_eq_none] at hb
    have hfit := hb x (hk.complete hx)
    rw [hk.tidy.sizeAt_site hx] at hfit
    simp at hfit
    omega
  · intro hall
    cases hf : k.firstFit size with
    | none => rfl
    | some x =>
      obtain ⟨b, hb, hfit⟩ := firstFit_some hf
      obtain ⟨n, hn, -⟩ := hk.tidy.listed hb
      rw [hk.tidy.sizeAt_site hn] at hfit
      exact absurd (hall x n hn) (Nat.not_lt.mpr hfit)

variable {k : Sketch Reserve} {off request size : Nat} {t : Tag}

def Short (k : Sketch Reserve) (size : Nat) : Prop :=
  (∀ x n, (x, n) ∈ k.sites false → n < size) ∧ k.host.capacity < k.top + size

theorem Settled.allocateBlock_of_short (hk : k.Settled) (hr : blockSize? request = some size)
    (hshort : k.Short size) : ∃ n, k.allocateBlock request = (.error (.outOfMemory n), k) := by
  obtain ⟨n, hn⟩ := Reserve.secureChunk_of_lt (chunkFor_spec (blockSize?_some hr).2).1 hshort.2
  have hextend : k.extend size = (.error (.outOfMemory n), k) := by
    rw [Sketch.extend, hn]
  refine ⟨n, ?_⟩
  simp only [allocateBlock, hr, obtain, hk.firstFit_eq_none_iff.mpr hshort.1, hextend]

theorem Settled.allocateBlock_of_not_short (hk : k.Settled) (hcap : k.host.capacity < wordLimit)
    (hr : blockSize? request = some size) (hshort : ¬ k.Short size) :
    ∃ x k', k.allocateBlock request = (.ok x, k') := by
  simp only [allocateBlock, hr, obtain]
  cases hf : k.firstFit size with
  | some x => exact ⟨_, _, rfl⟩
  | none =>
    have hroom : k.top + size ≤ k.host.capacity :=
      Nat.not_lt.mp fun hlt => hshort ⟨hk.firstFit_eq_none_iff.mp hf, hlt⟩
    obtain ⟨chunk, r, hc⟩ := Reserve.secureChunk_of_le hcap hroom
    have hextend : k.extend size = (.ok k.top, Sketch.carve { k with host := r } size chunk) := by
      rw [Sketch.extend, hc]
    simp only [hextend]
    exact ⟨_, _, rfl⟩

def Stuck (k : Sketch Reserve) (off held size : Nat) : Prop :=
  off + held ≠ k.top ∨ k.host.capacity < k.top + (size - held)

theorem growTop_of_stuck (h : k.Stuck off t.size size) : k.growTop off t size = (false, k) := by
  unfold growTop
  by_cases htop : off + t.size ≠ k.top
  · rw [if_pos htop]
  · obtain ⟨n, hn⟩ := Reserve.secure_of_lt (.inr (h.resolve_left htop))
    rw [if_neg htop, hn]

theorem growTop_of_not_stuck (hcap : k.host.capacity < wordLimit) (h : ¬ k.Stuck off t.size size) :
    ∃ k', k.growTop off t size = (true, k') := by
  unfold Stuck at h
  rw [not_or, not_not, Nat.not_lt] at h
  obtain ⟨r, hr, -⟩ := Reserve.secure_of_le (h.2.trans_lt hcap) h.2
  unfold growTop
  rw [if_neg (not_not.mpr h.1), hr]
  exact ⟨_, rfl⟩

theorem allocate_of_blockSize?_eq_none (hr : blockSize? request = none) :
    (k.allocate request).1 = .error (.badRequest request) := by
  simp only [allocate, allocateBlock, hr]

theorem Settled.allocate_of_short (hk : k.Settled) (hr : blockSize? request = some size)
    (hshort : k.Short size) : ∃ n, (k.allocate request).1 = .error (.outOfMemory n) := by
  obtain ⟨n, hn⟩ := hk.allocateBlock_of_short hr hshort
  exact ⟨n, by rw [Sketch.allocate, hn]⟩

theorem Settled.allocate_of_not_short (hk : k.Settled) (hcap : k.host.capacity < wordLimit)
    (hr : blockSize? request = some size) (hshort : ¬ k.Short size) :
    ∃ ptr, (k.allocate request).1 = .ok ptr := by
  obtain ⟨x, k', hx⟩ := hk.allocateBlock_of_not_short hcap hr hshort
  exact ⟨x + headerSize, by rw [Sketch.allocate, hx]⟩

theorem Tidy.reallocate_eq {H : Type} [Host H] {k : Sketch H} (hk : k.Tidy)
    (hx : (off, t) ∈ k.blocks) (request : Nat) :
    k.reallocate (off + headerSize) request =
      match blockSize? request with
      | none => (.error (.badRequest request), k)
      | some size =>
        if size ≤ t.size then (.ok (off + headerSize), k.count .reallocsUnchanged)
        else k.enlarge (off + headerSize) off t request size := by
  obtain ⟨xs, ys, hrow, hoff⟩ := mem_located_iff.mp hx
  rw [reallocate, Nat.add_sub_cancel, hk.cut_eq hrow hoff]
  cases blockSize? request <;> rfl

theorem Settled.reallocate_of_short (hk : k.Settled) (hx : (off, t) ∈ k.blocks)
    (hr : blockSize? request = some size) (hlt : t.size < size) (hshort : k.Short size)
    (hstuck : k.Stuck off t.size size) :
    ∃ n, (k.reallocate (off + headerSize) request).1 = .error (.outOfMemory n) := by
  obtain ⟨n, hn⟩ := hk.allocateBlock_of_short hr hshort
  refine ⟨n, ?_⟩
  simp only [hk.tidy.reallocate_eq hx, hr, if_neg (Nat.not_le.mpr hlt), enlarge,
    growTop_of_stuck hstuck, hn]

theorem Settled.reallocate_of_not_short (hk : k.Settled) (hcap : k.host.capacity < wordLimit)
    (hx : (off, t) ∈ k.blocks) (hr : blockSize? request = some size)
    (h : ¬ (t.size < size ∧ k.Short size ∧ k.Stuck off t.size size)) :
    ∃ ptr, (k.reallocate (off + headerSize) request).1 = .ok ptr := by
  simp only [hk.tidy.reallocate_eq hx, hr]
  by_cases hle : size ≤ t.size
  · rw [if_pos hle]
    exact ⟨_, rfl⟩
  rw [if_neg hle, enlarge]
  by_cases hstuck : k.Stuck off t.size size
  · have hshort : ¬ k.Short size := fun hs => h ⟨Nat.not_le.mp hle, hs, hstuck⟩
    obtain ⟨y, k', hy⟩ := hk.allocateBlock_of_not_short hcap hr hshort
    rw [growTop_of_stuck hstuck]
    dsimp only
    rw [hy]
    exact ⟨_, rfl⟩
  · obtain ⟨k', hk'⟩ := growTop_of_not_stuck hcap hstuck
    rw [hk']
    exact ⟨_, rfl⟩

end Sketch

namespace Heap

/-- No free block has this size, and no more fits in the reserve. -/
def Short (h : Heap Reserve) (size : Nat) : Prop :=
  (∀ q ∈ h.blocks, q.2.used = false → q.2.size < size) ∧ h.host.capacity < h.arena.top + size

/-- The block at `off` does not end at the top, or what it lacks does not fit in the reserve. -/
def Stuck (h : Heap Reserve) (off held size : Nat) : Prop :=
  off + held ≠ h.arena.top ∨ h.host.capacity < h.arena.top + (size - held)

variable {h : Heap Reserve} {k : Sketch Reserve} {off held size : Nat}

theorem Shows.short_iff (hs : h.Shows k) : h.Short size ↔ k.Short size := by
  rw [Short, Sketch.Short, hs.blocks_eq, hs.host, hs.top]
  refine and_congr_left fun _ => ⟨fun hq x n hx => ?_, fun hx q hq hu => ?_⟩
  · obtain ⟨t, ht, hu, rfl⟩ := mem_sites_iff.mp hx
    exact hq _ ht hu
  · exact hx q.1 q.2.size (mem_sites_iff.mpr ⟨q.2, hq, hu, rfl⟩)

theorem Shows.stuck_iff (hs : h.Shows k) : h.Stuck off held size ↔ k.Stuck off held size := by
  rw [Stuck, Sketch.Stuck, hs.host, hs.top]

end Heap

namespace Session

section

variable {H : Type} [Host H]

def Refuses (s : Session H) (c : Call) (reason : Refusal) : Prop :=
  ∃ s', s.step c = .ok (.error reason, s')

/-- The call asks for a block of the size `size?`. It is refused as a bad request where that is no
size, for lack of memory where `P` holds of it, and granted elsewhere, unless a counter is full. -/
structure Decides (s : Session H) (c : Call) (size? : Option Nat) (P : Nat → Prop) : Prop where
  bad : (∃ n, s.Refuses c (.badRequest n)) ↔ size? = none
  short : ∀ size, size? = some size → ((∃ n, s.Refuses c (.outOfMemory n)) ↔ P size)
  granted : (∀ reason, ¬ s.Refuses c reason) →
    (∃ ptr s', s.step c = .ok (.ok (some ptr), s')) ∨ ∃ d, wordLimit ≤ s.heap.stats.get d + 2

variable [LawfulHost H] {s : Session H} {cs : List Call} {k : Sketch H} {c : Call} {reason : Refusal}
  {size? : Option Nat} {P : Nat → Prop} {a : Except Refusal Nat}

theorem Follows.refuses_iff (hf : s.Follows cs k) (hc : s.Allows c) :
    s.Refuses c reason ↔ (k.perform c).1 = .error reason := by
  constructor
  · rintro ⟨s', hstep⟩
    exact ((hf.of_step hc hstep).1.answer).symm
  · intro hanswer
    have hm := hf.step hc
    cases hstep : s.step c with
    | error e =>
      rw [hstep] at hm
      have hk := (hf.valid.serves (hf.admits hc)).refused reason hanswer
      refine absurd ?_ hm.2
      rw [hk]
      exact hf.shows.fits
    | ok r =>
      rw [hstep] at hm
      exact ⟨r.2, by rw [hstep, ← hanswer, ← hm.1.answer]⟩

theorem Follows.decides (hf : s.Follows cs k) (request : Nat) (hc : s.Allows c) (hinit : c ≠ .init)
    (ha : (k.perform c).1 = a.map some) (hnone : size? = none → a = .error (.badRequest request))
    (hshort : ∀ size, size? = some size → P size → ∃ n, a = .error (.outOfMemory n))
    (hok : ∀ size, size? = some size → ¬ P size → ∃ ptr, a = .ok ptr) :
    s.Decides c size? P := by
  have hrefuses (reason : Refusal) : s.Refuses c reason ↔ a = .error reason := by
    rw [hf.refuses_iff hc, ha]
    cases a <;> simp [Except.map]
  refine ⟨?_, ?_, ?_⟩
  · simp only [hrefuses]
    constructor
    · rintro ⟨n, hn⟩
      by_contra hsome
      obtain ⟨size, hsize⟩ := Option.ne_none_iff_exists'.mp hsome
      by_cases hp : P size
      · obtain ⟨m, hm⟩ := hshort size hsize hp
        rw [hn] at hm
        cases hm
      · obtain ⟨ptr, hptr⟩ := hok size hsize hp
        rw [hn] at hptr
        cases hptr
    · intro hsize
      exact ⟨request, hnone hsize⟩
  · intro size hsize
    simp only [hrefuses]
    constructor
    · rintro ⟨n, hn⟩
      by_contra hp
      obtain ⟨ptr, hptr⟩ := hok size hsize hp
      rw [hn] at hptr
      cases hptr
    · exact hshort size hsize
  -- without a refusal only a full counter stands in the way, and a call takes one up by two at most
  · intro hno
    have hm := hf.step hc
    cases hstep : s.step c with
    | error e =>
      obtain ⟨d, hd⟩ := hf.exists_full hc hinit hstep
      have hrise : c.rise d ≤ 2 := by
        cases c <;> cases d <;> simp [Call.rise]
      rw [hf.shows.stats]
      exact .inr ⟨d, by omega⟩
    | ok r =>
      rw [hstep] at hm
      obtain ⟨b, s'⟩ := r
      have hb : b = a.map some := by rw [hm.1.answer, ha]
      cases a with
      | error reason => exact absurd ((hrefuses reason).mpr rfl) (hno reason)
      | ok ptr => exact .inl ⟨ptr, s', by rw [hb]; rfl⟩

end

variable {s : Session Reserve}

/-- Over a reserve, whose capacity is a word, requests fail only where they must. -/
theorem reachable_decides (hs : s.Reachable) (hcap : s.heap.host.capacity < wordLimit) :
    (∀ request, s.Decides (.allocate request) (blockSize? request) s.heap.Short) ∧
    ∀ ptr ∈ s.live.pointers, ∃ held, s.heap.blockSize ptr = .ok held ∧ ∀ request,
      s.Decides (.reallocate ptr request) (blockSize? request) fun size =>
        held < size ∧ s.heap.Short size ∧ s.heap.Stuck (ptr - headerSize) held size := by
  obtain ⟨cs, hr⟩ := hs
  obtain ⟨k, hf⟩ := hr.follows
  have hset := hf.valid.settled
  have hcap' : k.host.capacity < wordLimit := hf.shows.host ▸ hcap
  refine ⟨fun request => ?_, fun ptr hp => ?_⟩
  · refine hf.decides request trivial (by simp) rfl
      Sketch.allocate_of_blockSize?_eq_none ?_ ?_
    · intro size hr hshort
      exact hset.allocate_of_short hr (hf.shows.short_iff.mp hshort)
    · intro size hr hshort
      exact hset.allocate_of_not_short hcap' hr fun h => hshort (hf.shows.short_iff.mpr h)
  · obtain ⟨x, n, hx, rfl⟩ := hf.site hp
    obtain ⟨t, ht, -, rfl⟩ := mem_sites_iff.mp hx
    refine ⟨t.size, hf.shows.blockSize_payload hx, fun request => ?_⟩
    refine hf.decides request hp (by simp) rfl ?_ ?_ ?_
    · intro hr
      rw [hset.tidy.reallocate_eq ht, hr]
    · rintro size hr ⟨hlt, hshort, hstuck⟩
      rw [Nat.add_sub_cancel, hf.shows.stuck_iff] at hstuck
      exact hset.reallocate_of_short ht hr hlt (hf.shows.short_iff.mp hshort) hstuck
    · intro size hr hno
      rw [Nat.add_sub_cancel, hf.shows.stuck_iff, hf.shows.short_iff] at hno
      exact hset.reallocate_of_not_short hcap' ht hr hno

theorem reachable_decides_reallocate :
    ∃ s : Session Reserve, Run [.allocate 24] s ∧ s.heap.host.capacity < wordLimit ∧
      (∃ n, s.Refuses (.reallocate 448 184) (.outOfMemory n)) ∧
      ¬ ∃ n, s.Refuses (.reallocate 448 24) (.outOfMemory n) := by
  have hroom : Host.secure (Reserve.full 472) 0 prologueSize = (.ok (), .full 472) := rfl
  obtain ⟨heap, hi, hf⟩ := init_follows hroom .checked .zero
  obtain ⟨s, hstep, hr, hf⟩ :=
    hf.advance (c := .allocate 24) (.start hi) trivial (by decide) (by decide)
  have hsite : (440, 32) ∈ ((Sketch.empty (Reserve.full 472) .checked).perform (.allocate 24)).2.sites
      true := by decide
  have hfree : ((Sketch.empty (Reserve.full 472) .checked).perform (.allocate 24)).2.sites false = [] := by
    decide
  have hcap : s.heap.host.capacity = 472 := by rw [hf.shows.host]; rfl
  have htop : s.heap.arena.top = 472 := by rw [hf.shows.top]; rfl
  have hlim : s.heap.host.capacity < wordLimit := by rw [hcap]; decide
  have hshort : s.heap.Short 192 := by
    refine hf.shows.short_iff.mpr ⟨fun x n hx => ?_, ?_⟩
    · rw [hfree] at hx
      cases hx
    · rw [← hf.shows.host, ← hf.shows.top, hcap, htop]
      decide
  obtain ⟨held, hheld, hd⟩ := (reachable_decides ⟨_, hr⟩ hlim).2 448 (hf.tracks.owned hsite)
  obtain rfl : 32 = held := Except.ok.inj ((hf.shows.blockSize_payload hsite).symm.trans hheld)
  refine ⟨s, hr, hlim, ((hd 184).short 192 rfl).mpr ⟨by decide, hshort, .inr ?_⟩, fun hn => ?_⟩
  · rw [hcap, htop]
    decide
  · exact absurd (((hd 24).short 32 rfl).mp hn).1 (by decide)

end Session

end SegregatedFit
