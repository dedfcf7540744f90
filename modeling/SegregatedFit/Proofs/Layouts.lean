import Mathlib
import SegregatedFit.Proofs.Runs

/-!
Layouts: where a heap ends, the blocks that a walk by sizes meets, the entries of each list in order
along the links, and whether the block at the top is used. This is all that a call can tell of a heap
between calls, but for the bytes of the payloads, the counters and the host.
-/
namespace SegregatedFit

open Row Memory

structure Layout where
  top : Nat
  blocks : List (Nat × Tag)
  buckets : Fin bucketCount → List Nat
  topUsed : Bool

namespace Layout

def settle (prevUsed : Bool) : List (Nat × Tag) → List (Nat × Tag)
  | [] => []
  | (x, t) :: qs => (x, { t with prevUsed }) :: qs

def enlist (buckets : Fin bucketCount → List Nat) (x n : Nat) : Fin bucketCount → List Nat :=
  Function.update buckets (bucketFor n) (x :: buckets (bucketFor n))

/-- Takes entries out of the buckets. The others stay in order. -/
def discard (buckets : Fin bucketCount → List Nat) (offs : List Nat) : Fin bucketCount → List Nat :=
  fun b => (buckets b).filter (· ∉ offs)

@[simp] theorem discard_nil (buckets : Fin bucketCount → List Nat) : discard buckets [] = buckets := by
  funext b
  simp [discard]

theorem discard_discard (buckets : Fin bucketCount → List Nat) (offs offs' : List Nat) :
    discard (discard buckets offs) offs' = discard buckets (offs ++ offs') := by
  funext b
  rw [discard, discard, discard, List.filter_filter]
  refine List.filter_congr fun y _ => ?_
  simp [Bool.and_comm]

theorem located_settle (p : Bool) (off : Nat) (ts : Row) :
    located off (Row.settle p ts) = settle p (located off ts) := by
  cases ts <;> rfl

end Layout

namespace Sketch

variable {H : Type}

/-- What a survey finds where a heap shows the sketch. -/
def layout (k : Sketch H) : Layout := ⟨k.top, k.blocks, k.lists, k.topUsed⟩

end Sketch

namespace Heap

variable {H : Type} {h : Heap H} {k : Sketch H} {b : Fin bucketCount} {prev room x : Nat} {zs : List Nat}

/-- The entries of a bucket, in order along the next links. -/
def bucket (h : Heap H) (b : Fin bucketCount) : List Nat :=
  h.arena.listFrom (sentinel b) (h.arena.nextLink (sentinel b)) h.arena.top

def layout (h : Heap H) : Layout := ⟨h.arena.top, h.blocks, h.bucket, h.topUsed⟩

theorem Shows.fits_entry (hs : h.Shows k) (hx : x ∈ k.lists b) : Audit.fits h.arena x = true := by
  obtain ⟨n, hn, -⟩ := hs.tidy.listed hx
  have hb := hs.tidy.of_site hn
  simp only [Audit.fits, Arena.contains, hs.low, hs.top, Bool.and_eq_true, decide_eq_true_eq, beq_iff_eq]
  simp only [minBlock, wordSize, alignment, headerSize] at *
  omega

theorem Shows.listFrom_eq (hs : h.Shows k) (hz : ∀ z ∈ zs, z ∈ k.lists b)
    (hl : h.arena.mem.Linked (prev :: (zs ++ [sentinel b]))) (hr : zs.length < room) :
    h.arena.listFrom (sentinel b) ((zs ++ [sentinel b]).headD (sentinel b)) room = zs := by
  induction zs generalizing prev room with
  | nil =>
    obtain _ | room := room
    · cases hr
    · exact if_pos rfl
  | cons z zs ih =>
    obtain _ | room := room
    · cases hr
    have hz0 := hz z (by simp)
    have hne : z ≠ sentinel b := fun he =>
      (List.nodup_cons.mp (hs.tidy.ring_nodup b)).1 (he ▸ hz0)
    have hnext : h.arena.nextLink z = (zs ++ [sentinel b]).headD (sentinel b) := by
      cases zs with
      | nil => exact hl.2.2.1
      | cons y zs => exact hl.2.2.1
    rw [List.cons_append, List.headD_cons, Arena.listFrom, if_neg hne, if_pos (hs.fits_entry hz0), hnext,
      ih (fun y hy => hz y (List.mem_cons_of_mem _ hy)) hl.2.2 (Nat.lt_of_succ_lt_succ hr)]

theorem Shows.bucket_eq (hs : h.Shows k) (b : Fin bucketCount) : h.bucket b = k.lists b := by
  have hring := hs.rings b
  have hroom : (k.lists b).length < h.arena.top := by
    have hlen := hs.tidy.length_le b
    rw [hs.top, Sketch.top, prologueSize_eq]
    simp only [minBlock, wordSize] at hlen
    omega
  have hfirst : h.arena.nextLink (sentinel b) = (k.lists b ++ [sentinel b]).headD (sentinel b) :=
    hring.nextLink_head
  rw [bucket, hfirst]
  exact hs.listFrom_eq (fun z hz => hz) hring hroom

theorem Shows.layout_eq (hs : h.Shows k) : h.layout = k.layout := by
  have hbuckets : h.bucket = k.lists := funext hs.bucket_eq
  rw [layout, hs.top, hs.blocks_eq, hs.topUsed, hbuckets, Sketch.layout]

end Heap

namespace Session

variable {H : Type} [Host H] {s : Session H} {c : Call} {cs : List Call} {k : Sketch H} {f : Counter → Nat}
  {Q : Answer → Session H → Prop}

theorem Follows.live_used {x : Nat} {t : Tag} (hf : s.Follows cs k) (hx : (x, t) ∈ s.heap.blocks)
    (hp : x + headerSize ∈ s.live.pointers) : (x, t) ∈ k.blocks ∧ t.used = true := by
  rw [hf.shows.blocks_eq] at hx
  obtain ⟨y, n, hy, he⟩ := hf.site hp
  obtain rfl : x = y := Nat.add_right_cancel he
  obtain ⟨u, hu, hused, -⟩ := mem_sites_iff.mp hy
  obtain rfl := hf.shows.tidy.sized.located_unique hx hu
  exact ⟨hx, hused⟩

/-- The call is answered and ends as `Q` says, unless a counter is too full for what it may add. -/
def Ends (s : Session H) (c : Call) (f : Counter → Nat) (Q : Answer → Session H → Prop) : Prop :=
  match s.step c with
  | .ok (a, s') => Q a s'
  | .error e => e = .addOverflow ∧ ∃ d, f d ≠ 0 ∧ wordLimit ≤ s.heap.stats.get d + f d

theorem Ends.of_ok {a : Answer} {s' : Session H} (h : s.Ends c f Q) (hstep : s.step c = .ok (a, s')) :
    Q a s' := by
  rwa [Ends, hstep] at h

theorem Ends.full_of_single {e : Fault} {d : Counter} {n : Nat} (h : s.Ends c (Pi.single d n) Q)
    (hstep : s.step c = .error e) : e = .addOverflow ∧ wordLimit ≤ s.heap.stats.get d + n := by
  rw [Ends, hstep] at h
  obtain ⟨he, d', hd, hfull⟩ := h
  obtain rfl : d' = d := by
    by_contra hne
    exact hd (Pi.single_eq_of_ne hne _)
  rw [Pi.single_eq_same] at hfull
  exact ⟨he, hfull⟩

theorem ends_of_meets {limit : Stats}
    (hm : c.perform.Meets s.heap limit fun a h' => Q a ⟨h', c.record s.live a⟩)
    (hfull : ¬ limit.Fits → ∃ d, f d ≠ 0 ∧ wordLimit ≤ s.heap.stats.get d + f d) : s.Ends c f Q := by
  unfold Ends step
  cases hr : (c.perform.exec s.heap #[]).1 with
  | ok r => exact hm.of_ok hr
  | error e => exact ⟨(hm.of_error hr).1, hfull (hm.of_error hr).2⟩

theorem Follows.ends [LawfulHost H] (hf : s.Follows cs k) (hc : s.Allows c)
    (hrise : ∀ d, (k.perform c).2.stats.get d ≤ k.stats.get d + f d)
    (hQ : ∀ s', s.step c = .ok ((k.perform c).1, s') → s'.Follows (cs ++ [c]) (k.perform c).2 →
      Q (k.perform c).1 s') : s.Ends c f Q := by
  have hm := hf.step hc
  unfold Ends
  cases hstep : s.step c with
  | ok r =>
    obtain ⟨a, s'⟩ := r
    rw [hstep] at hm
    obtain ⟨hperf, hf'⟩ := hm
    obtain rfl := hperf.answer
    exact hQ s' hstep hf'
  | error e =>
    rw [hstep] at hm
    refine ⟨hm.1, ?_⟩
    obtain ⟨d, hd⟩ := not_forall.mp hm.2
    have hfit := hf.shows.fits d
    have hle := hrise d
    rw [hf.shows.stats]
    exact ⟨d, by omega, by omega⟩

end Session

end SegregatedFit
