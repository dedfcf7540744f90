import Mathlib
import SegregatedFit.Proofs.Coalescing
import SegregatedFit.Proofs.Exhaustion
import SegregatedFit.Proofs.Watermark

/-!
Where an allocation takes its block from. The first free block that is large enough is taken whole, or
cut where the rest is worth keeping. If there is none, the heap grows by a chunk, or by the block alone
where a chunk is refused. No other block and no other entry of a list changes.
-/
namespace SegregatedFit

open Row

namespace Layout

variable (l : Layout) (before : List (Nat × Tag)) (x : Nat) (t : Tag) (after : List (Nat × Tag))
  (size chunk : Nat)

def take : Layout :=
  ⟨l.top, before ++ (x, { t with used := true }) :: settle true after, discard l.buckets [x],
    l.topUsed || after.isEmpty⟩

def split : Layout :=
  ⟨l.top, before ++ (x, ⟨size, true, t.prevUsed⟩) :: (x + size, ⟨t.size - size, false, true⟩) :: after,
    enlist (discard l.buckets [x]) (x + size) (t.size - size), l.topUsed⟩

def grow : Layout :=
  if size < chunk then
    ⟨l.top + chunk, l.blocks ++ [(l.top, ⟨size, true, l.topUsed⟩),
      (l.top + size, ⟨chunk - size, false, true⟩)], enlist l.buckets (l.top + size) (chunk - size), false⟩
  else ⟨l.top + chunk, l.blocks ++ [(l.top, ⟨size, true, l.topUsed⟩)], l.buckets, true⟩

end Layout

theorem chunkFor_eq {size : Nat} (hs : minBlock ≤ size ∧ size % alignment = 0) :
    chunkFor size = if size = 32 then 192 else if size ≤ 480 then 544 else size := by
  have hc : minChunk = 544 := rfl
  have ht : tinyChunk = 192 := rfl
  have hm : minSplit = 64 := rfl
  simp only [chunkFor, hc, ht, hm, minBlock, wordSize, alignment] at *
  split_ifs <;> omega

namespace Sketch

variable {H : Type} {k : Sketch H} {b : Fin bucketCount} {chunk request size x : Nat} {t : Tag}
  {xs ys : Row}

theorem Tidy.layout_place_whole (hk : k.Tidy) (hrow : k.row = xs ++ t :: ys)
    (hx : x = prologueSize + span xs) (hrest : t.size - size < minSplit) :
    (k.place x size).layout =
      k.layout.take (located prologueSize xs) x t (located (x + t.size) ys) := by
  rw [hk.place_whole hrow hx hrest]
  simp only [layout, Layout.take, top, hrow, blocks, located_append, located, Layout.located_settle,
    hk.discard_singleton, ← hx, span_append, span_cons, span_settle, isEmpty_located]

theorem Tidy.layout_place_split (hk : k.Tidy) (hrow : k.row = xs ++ t :: ys)
    (hx : x = prologueSize + span xs) (hle : size ≤ t.size) (hrest : ¬ t.size - size < minSplit) :
    (k.place x size).layout =
      k.layout.split (located prologueSize xs) x t (located (x + t.size) ys) size := by
  have hend : x + size + (t.size - size) = x + t.size := by omega
  have hspan : size + (t.size - size + span ys) = t.size + span ys := by omega
  rw [hk.place_split hrow hx hrest]
  simp only [layout, Layout.split, top, hrow, blocks, located_append, located, hk.discard_singleton, ← hx,
    span_append, span_cons, row_count, row_enlist, hend, hspan]
  rfl

theorem layout_carve (k : Sketch H) (size chunk : Nat) (hle : size ≤ chunk) :
    (k.carve size chunk).layout = k.layout.grow size chunk := by
  unfold Layout.grow
  by_cases hlt : size < chunk
  · have hspan : size + (chunk - size + 0) = chunk := by omega
    rw [carve, if_pos hlt, if_pos hlt]
    simp only [layout, top, blocks, located_append, located, span_append, span_cons, span_nil, row_count,
      row_enlist, row_recordHeapSize, hspan, Nat.add_assoc]
    rfl
  · obtain rfl : size = chunk := Nat.le_antisymm hle (Nat.not_lt.mp hlt)
    rw [carve, if_neg hlt, if_neg hlt]
    simp only [layout, top, blocks, located_append, located, span_append, span_cons, span_nil, row_count,
      row_recordHeapSize, Nat.add_assoc]
    rfl

section

variable [Host H]

theorem allocate_of_found (hr : blockSize? request = some size) (hf : k.firstFit size = some x) :
    k.allocate request = (.ok (x + headerSize),
      ((k.place x size).charge ((k.place x size).sizeAt x)).count .allocations) := by
  simp only [allocate, allocateBlock, hr, obtain, hf]

theorem allocate_of_grown {host : H} (hr : blockSize? request = some size)
    (hf : k.firstFit size = none)
    (hc : Host.secureChunk k.host k.top size = (.ok chunk, host)) :
    k.allocate request = (.ok (k.top + headerSize),
      ((carve { k with host } size chunk).charge
        ((carve { k with host } size chunk).sizeAt k.top)).count .allocations) := by
  simp only [allocate, allocateBlock, hr, obtain, hf, extend, hc]

end

end Sketch

theorem Heap.Shows.blockSize_of_used {H : Type} {h : Heap H} {k : Sketch H} {x : Nat} {t : Tag}
    (hs : h.Shows k) (hx : (x, t) ∈ h.layout.blocks) (ht : t.used = true) :
    h.blockSize (x + headerSize) = .ok t.size := by
  have hx' : (x, t) ∈ h.blocks := hx
  rw [hs.blocks_eq] at hx'
  exact hs.blockSize_payload (mem_sites_iff.mpr ⟨t, hx', ht, rfl⟩)

namespace Session

variable {H : Type} [Host H] {s s' : Session H} {cs : List Call} {k : Sketch H} {a : Answer}
  {request size x : Nat}

/-- The search for a block of `size` bytes finds the free block `t` at `x`. -/
structure Finds (s : Session H) (size x : Nat) (t : Tag) (before after : List (Nat × Tag)) : Prop where
  found : s.heap.bins.firstFit s.heap.arena size = .ok (some x)
  blocks : s.heap.blocks = before ++ (x, t) :: after
  free : t.used = false
  fits : size ≤ t.size

/-- The call is answered with the payload of the block at `x`, which has `n` bytes. -/
def Hands (a : Answer) (s' : Session H) (x n : Nat) : Prop :=
  a = .ok (some (x + headerSize)) ∧ s'.heap.blockSize (x + headerSize) = .ok n

/-- The request is served with `n` bytes at `x`, which are there already: the host is not asked for any.
The heap is left with the layout `l`. -/
def Reuses (s : Session H) (request : Nat) (f : Counter → Nat) (x n : Nat) (l : Layout) : Prop :=
  s.Ends (.allocate request) f fun a s' => Hands a s' x n ∧ s'.heap.layout = l ∧
    s'.heap.host = s.heap.host ∧ s.asks (.allocate request) = []

/-- The request is served with `size` bytes at the old top, by which time the heap has grown by a chunk
and the host has become `host`. -/
def GrowsBy (s : Session H) (request size chunk : Nat) (host : H) : Prop :=
  s.Ends (.allocate request) (Pi.single .heapGrows 1 + Pi.single .allocations 1) fun a s' =>
    Hands a s' s.heap.arena.top size ∧ s'.heap.layout = s.heap.layout.grow size chunk ∧
      s'.heap.host = host

theorem Follows.firstFit_eq_none_iff (hf : s.Follows cs k) :
    k.firstFit size = none ↔ ∀ q ∈ s.heap.blocks, q.2.used = false → q.2.size < size := by
  rw [hf.valid.settled.firstFit_eq_none_iff, hf.shows.blocks_eq]
  constructor
  · intro h q hq hu
    exact h q.1 q.2.size (mem_sites_iff.mpr ⟨q.2, hq, hu, rfl⟩)
  · intro h x n hx
    obtain ⟨t, ht, hu, rfl⟩ := mem_sites_iff.mp hx
    exact h (x, t) ht hu

theorem Follows.finds (hf : s.Follows cs k) (hx : k.firstFit size = some x) :
    ∃ xs t ys, k.row = xs ++ t :: ys ∧ x = prologueSize + span xs ∧
      s.Finds size x t (located prologueSize xs) (located (x + t.size) ys) := by
  obtain ⟨b, hb, hfits⟩ := Sketch.firstFit_some hx
  obtain ⟨xs, t, ys, hrow, hxs, hu, hle, -⟩ := hf.valid.settled.of_listed hb hfits
  refine ⟨xs, t, ys, hrow, hxs, ?_, ?_, hu, hle⟩
  · rw [hf.shows.firstFit, hx]
  · rw [hf.shows.blocks_eq, Sketch.blocks, hrow, located_append, located, hxs]

theorem Follows.asks_of_found (hf : s.Follows cs k) (hr : blockSize? request = some size)
    (hx : k.firstFit size = some x) (h : s.step (.allocate request) = .ok (a, s')) :
    s.asks (.allocate request) = [] := by
  let w := Logged.start s.heap.host
  have hm := Heap.perform_meets_of_ne_init (c := .allocate request) (hf.shows.rehosted w)
    (hf.valid.charged.rehost w) trivial (by simp)
  obtain ⟨hexec, -⟩ := exec_of_step (step_logged h)
  have hhost := (hm.of_ok hexec).shows.host
  have hfound : (k.rehost w).allocate request = _ := Sketch.allocate_of_found hr hx
  change _ = ((k.rehost w).allocate request).2.host at hhost
  rw [hfound, Sketch.host_count, Sketch.host_charge, Sketch.host_place] at hhost
  exact congrArg Logged.asked hhost

variable [LawfulHost H]

theorem Follows.reuses (hf : s.Follows cs k) (hr : blockSize? request = some size)
    (hx : k.firstFit size = some x) {f : Counter → Nat} (hrise : k.stats.Rise f (k.place x size).stats)
    {l : Layout} (hl : (k.place x size).layout = l) {t : Tag} (ht : (x, t) ∈ l.blocks)
    (hu : t.used = true) : s.Reuses request (f + Pi.single .allocations 1) x t.size l := by
  have hperf : k.perform (.allocate request) = (.ok (some (x + headerSize)),
      ((k.place x size).charge ((k.place x size).sizeAt x)).count .allocations) := by
    rw [Sketch.perform, Sketch.allocate_of_found hr hx]
    rfl
  refine hf.ends trivial ?_ ?_
  · intro d
    have h := (hrise d).2
    rw [hperf, Sketch.stats_count, Stats.get_bump, Sketch.charge, Stats.get_with_bytesInUse,
      Pi.add_apply, Pi.single_apply]
    omega
  · intro s' hstep hf'
    rw [hperf] at hf' ⊢
    have hlayout : s'.heap.layout = l := by
      rw [hf'.shows.layout_eq, ← hl]
      rfl
    refine ⟨⟨rfl, hf'.shows.blockSize_of_used (hlayout ▸ ht) hu⟩, hlayout, ?_, ?_⟩
    · rw [hf'.shows.host, hf.shows.host, Sketch.host_count, Sketch.host_charge, Sketch.host_place]
    · exact hf.asks_of_found hr hx hstep

theorem Follows.grows {chunk : Nat} {host : H} (hf : s.Follows cs k) (hr : blockSize? request = some size)
    (hx : k.firstFit size = none) (hc : Host.secureChunk k.host k.top size = (.ok chunk, host)) :
    s.GrowsBy request size chunk host := by
  have hperf : k.perform (.allocate request) = (.ok (some (k.top + headerSize)),
      ((Sketch.carve { k with host } size chunk).charge
        ((Sketch.carve { k with host } size chunk).sizeAt k.top)).count .allocations) := by
    rw [Sketch.perform, Sketch.allocate_of_grown hr hx hc]
    rfl
  have hsize := (Sketch.blockSize?_some hr).2
  have hle := (Host.chunk_of_secureChunk hsize hc).2.1
  refine hf.ends trivial ?_ ?_
  · intro d
    have h : _ ≤ k.stats.get d + _ := (Sketch.carve_rise { k with host } size chunk d).2
    rw [hperf, Sketch.stats_count, Stats.get_bump, Sketch.charge, Stats.get_with_bytesInUse,
      Pi.add_apply, Pi.single_apply Counter.allocations]
    omega
  · intro s' hstep hf'
    rw [hperf] at hf' ⊢
    have hlayout : s'.heap.layout = s.heap.layout.grow size chunk := by
      rw [hf'.shows.layout_eq, hf.shows.layout_eq]
      exact Sketch.layout_carve { k with host } size chunk hle
    have htop : s.heap.arena.top = k.top := hf.shows.top
    refine ⟨⟨by rw [htop], ?_⟩, hlayout, ?_⟩
    · have ht : (s.heap.arena.top, (⟨size, true, s.heap.topUsed⟩ : Tag)) ∈ s'.heap.layout.blocks := by
        rw [hlayout, Layout.grow]
        split <;> simp [Heap.layout]
      exact hf'.shows.blockSize_of_used ht rfl
    · rw [hf'.shows.host, Sketch.host_count, Sketch.host_charge, Sketch.host_carve]

/-- Where an allocation takes its block from. If a free block is large enough, the one that the search
finds comes into use, whole where less than 64 bytes would be left, and the host is not asked for
anything. Otherwise the heap grows by a chunk, or by the block alone where the host refuses the chunk. -/
theorem step_allocate_fits (hs : s.Reachable) (hr : blockSize? request = some size) :
    ((∃ q ∈ s.heap.blocks, q.2.used = false ∧ size ≤ q.2.size) →
      ∃ x t before after, s.Finds size x t before after ∧
        (t.size - size < 64 → (t.size = size ∨ t.size = size + 32) ∧
          s.Reuses request (Pi.single .allocations 1) x t.size (s.heap.layout.take before x t after)) ∧
        (64 ≤ t.size - size →
          s.Reuses request (Pi.single .splits 1 + Pi.single .allocations 1) x size
            (s.heap.layout.split before x t after size))) ∧
    ((∀ q ∈ s.heap.blocks, q.2.used = false → q.2.size < size) →
      s.heap.topUsed = lastUsed true s.heap.tags ∧
      chunkFor size = (if size = 32 then 192 else if size ≤ 480 then 544 else size) ∧
      (∀ host, Host.secure s.heap.host s.heap.arena.top (chunkFor size) = (.ok (), host) →
        s.GrowsBy request size (chunkFor size) host) ∧
      ∀ reason refused host, size < chunkFor size →
        Host.secure s.heap.host s.heap.arena.top (chunkFor size) = (.error reason, refused) →
        Host.secure refused s.heap.arena.top size = (.ok (), host) →
          s.GrowsBy request size size host) := by
  obtain ⟨cs, hrun⟩ := hs
  obtain ⟨k, hf⟩ := hrun.follows
  have hk := hf.valid.settled
  have hsize := (Sketch.blockSize?_some hr).2
  constructor
  · rintro ⟨q, hq, hu, hle⟩
    obtain ⟨x, hx⟩ : ∃ x, k.firstFit size = some x :=
      Option.ne_none_iff_exists'.mp fun hnone =>
        absurd (hf.firstFit_eq_none_iff.mp hnone q hq hu) (Nat.not_lt.mpr hle)
    obtain ⟨xs, t, ys, hrow, hxs, hfinds⟩ := hf.finds hx
    have hfits := hfinds.fits
    have hmod := (hk.tidy.sized t (by simp [hrow])).2
    rw [hf.shows.layout_eq]
    refine ⟨x, t, _, _, hfinds, fun hrest => ⟨?_, ?_⟩, fun hrest => ?_⟩
    · simp only [alignment] at hmod hsize
      omega
    · have hplace := hk.tidy.layout_place_whole hrow hxs hrest
      have hrise : k.stats.Rise 0 (k.place x size).stats := by
        rw [hk.tidy.place_whole hrow hxs hrest]
        exact .refl _ _
      have hreuses := hf.reuses hr hx hrise hplace (t := { t with used := true }) (by simp [Layout.take]) rfl
      rwa [zero_add] at hreuses
    · have hplace := hk.tidy.layout_place_split hrow hxs hfits (Nat.not_lt.mpr hrest)
      exact hf.reuses hr hx (Sketch.place_rise k x size) hplace (t := ⟨size, true, t.prevUsed⟩)
        (by simp [Layout.split]) rfl
  · intro hnone
    have hx := hf.firstFit_eq_none_iff.mpr hnone
    rw [hf.shows.host, hf.shows.top]
    refine ⟨?_, chunkFor_eq hsize, fun host hc => ?_, fun reason refused host hlt hrefused hc => ?_⟩
    · rw [hf.shows.topUsed, hf.shows.tags_eq, hk.topUsed]
    · refine hf.grows hr hx ?_
      rw [Host.secureChunk, hc]
    · refine hf.grows hr hx ?_
      simp only [Host.secureChunk, hrefused, if_pos hlt, hc]

theorem step_allocate_fits_chunk :
    ∃ s : Session Reserve, Run [.allocate 24] s ∧
      s.Reuses 24 (Pi.single .splits 1 + Pi.single .allocations 1) 472 32
        (s.heap.layout.split [(440, ⟨32, true, true⟩)] 472 ⟨160, false, true⟩ [] 32) ∧
      s.GrowsBy 216 224 544 (.full 4096) := by
  obtain ⟨s, hr, hf⟩ := exists_run_allocate
  have hblocks : s.heap.blocks = [(440, ⟨32, true, true⟩), (472, ⟨160, false, true⟩)] := by
    rw [hf.shows.blocks_eq]
    decide
  have htop : s.heap.arena.top = 632 := by rw [hf.shows.top]; decide
  have hhost : s.heap.host = .full 4096 := by rw [hf.shows.host]; rfl
  have hsmall : blockSize? 24 = some 32 := rfl
  have hlarge : blockSize? 216 = some 224 := rfl
  refine ⟨s, hr, ?_, ?_⟩
  · obtain ⟨x, t, before, after, hfinds, -, hsplit⟩ :=
      (step_allocate_fits ⟨_, hr⟩ hsmall).1
        ⟨(472, ⟨160, false, true⟩), by simp [hblocks], rfl, by decide⟩
    have hat := hfinds.blocks
    have hfree := hfinds.free
    rw [hblocks] at hat
    obtain _ | ⟨q, _ | ⟨_, _⟩⟩ := before
    · simp only [List.nil_append, List.cons.injEq, Prod.mk.injEq] at hat
      obtain ⟨⟨-, rfl⟩, -⟩ := hat
      cases hfree
    · simp only [List.cons_append, List.nil_append, List.cons.injEq, Prod.mk.injEq] at hat
      obtain ⟨rfl, ⟨rfl, rfl⟩, rfl⟩ := hat
      exact hsplit (by decide)
    · simp at hat
  · have hgrow := (step_allocate_fits ⟨_, hr⟩ hlarge).2 (by simp [hblocks])
    refine hgrow.2.2.1 _ ?_
    rw [htop, hhost]
    rfl

end Session

end SegregatedFit
