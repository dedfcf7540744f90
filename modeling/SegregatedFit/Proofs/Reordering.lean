import Mathlib
import SegregatedFit.Proofs.Accounting
import SegregatedFit.Proofs.Overflow

/-!
Frees in any order. Blocks that are freed one after the other are listed, merged or released in ways
that depend on the order, and yet the heap ends the same: no two free blocks touch, and none is at the
top but what was there before, so that the blocks in use and the top say where every block is.
-/
namespace SegregatedFit

open Row

namespace Row

variable {p : Bool} {off : Nat} {t : Tag} {ts ts' : Row}

def firstUsed (off : Nat) (ts : Row) : Nat :=
  ((sites true off ts).head?.map Prod.fst).getD (off + span ts)

def lastEnd (off : Nat) (ts : Row) : Nat :=
  ((sites true off ts).getLast?.map fun q => q.1 + q.2).getD off

theorem firstUsed_of_used (ht : t.used = true) : firstUsed off (t :: ts) = off := by
  simp [firstUsed, sites_cons, ht]

theorem firstUsed_of_free (ht : t.used = false) (hf : Flagged false ts) (hm : Merged ts) :
    firstUsed off (t :: ts) = off + t.size := by
  cases ts with
  | nil => simp [firstUsed, sites_cons, ht]
  | cons s ts => simp [firstUsed, sites_cons, ht, hm.head_used hf]

theorem lastEnd_of_lastUsed (hl : lastUsed true ts = true) : lastEnd off ts = off + span ts := by
  rcases List.eq_nil_or_concat' ts with rfl | ⟨xs, t, rfl⟩
  · rfl
  · rw [lastUsed_append] at hl
    have ht : t.used = true := hl
    simp [lastEnd, sites_append, sites_cons, ht, Nat.add_assoc]

theorem head_eq_of_sites (hz : Sized (t :: ts)) (hz' : Sized (t' :: ts')) (hf : Flagged p (t :: ts))
    (hf' : Flagged p (t' :: ts')) (hm : Merged ts) (hm' : Merged ts')
    (hs : sites true off (t :: ts) = sites true off (t' :: ts'))
    (hspan : span (t :: ts) = span (t' :: ts')) : t = t' := by
  have hmin := (sized_cons.mp hz).1.1
  have hmin' := (sized_cons.mp hz').1.1
  simp only [minBlock, wordSize] at hmin hmin'
  -- the first used block begins with the row, or where a free block ends that the row begins with
  have hfirst : firstUsed off (t :: ts) = firstUsed off (t' :: ts') := by
    rw [firstUsed, firstUsed, hs, hspan]
  have hboth : t.used = t'.used ∧ t.size = t'.size := by
    cases hu : t.used <;> cases hu' : t'.used
    · rw [firstUsed_of_free hu (hu ▸ hf.2) hm, firstUsed_of_free hu' (hu' ▸ hf'.2) hm'] at hfirst
      exact ⟨rfl, Nat.add_left_cancel hfirst⟩
    · rw [firstUsed_of_free hu (hu ▸ hf.2) hm, firstUsed_of_used hu'] at hfirst
      omega
    · rw [firstUsed_of_used hu, firstUsed_of_free hu' (hu' ▸ hf'.2) hm'] at hfirst
      omega
    · rw [sites_cons, sites_cons, if_pos hu, if_pos hu'] at hs
      exact ⟨rfl, congrArg Prod.snd (List.cons.inj hs).1⟩
  have hprev : t.prevUsed = t'.prevUsed := hf.1.trans hf'.1.symm
  cases t
  cases t'
  simp_all

/-- The used blocks of a row and its span determine the others. -/
theorem eq_of_sites (hz : Sized ts) (hz' : Sized ts') (hf : Flagged p ts) (hf' : Flagged p ts')
    (hm : Merged ts) (hm' : Merged ts') (hs : sites true off ts = sites true off ts')
    (hspan : span ts = span ts') : ts = ts' := by
  induction ts generalizing p off ts' with
  | nil =>
    cases ts' with
    | nil => rfl
    | cons t' ts' =>
      have ht' := (sized_cons.mp hz').1.1
      simp only [minBlock, wordSize, span_nil, span_cons] at ht' hspan
      omega
  | cons t ts ih =>
    cases ts' with
    | nil =>
      have ht := (sized_cons.mp hz).1.1
      simp only [minBlock, wordSize, span_nil, span_cons] at ht hspan
      omega
    | cons t' ts' =>
      obtain ⟨-, hrest⟩ := merged_cons.mp hm
      obtain ⟨-, hrest'⟩ := merged_cons.mp hm'
      obtain rfl := head_eq_of_sites hz hz' hf hf' hrest hrest' hs hspan
      have htail : sites true (off + t.size) ts = sites true (off + t.size) ts' := by
        rw [sites_cons, sites_cons] at hs
        split at hs
        · exact (List.cons.inj hs).2
        · exact hs
      rw [ih (sized_cons.mp hz).2 (sized_cons.mp hz').2 hf.2 hf'.2 hrest hrest' htail
        (Nat.add_left_cancel hspan)]

end Row

structure Gauge.Level (g : Gauge) : Prop where
  heapSize : g.heapSize = g.top - prologueSize
  le_max : g.heapSize ≤ g.maxHeapSize

theorem Gauge.Sinks.level {g g' : Gauge} (h : g.Sinks g') (hg : g.Level) :
    g'.Level ∧ g'.maxHeapSize = g.maxHeapSize := by
  cases h with
  | stay => exact ⟨hg, rfl⟩
  | drop hlt =>
    have hmax := hg.le_max
    rw [hg.heapSize] at hmax
    exact ⟨⟨rfl, Nat.le_max_right _ _⟩, max_eq_left (by omega)⟩

theorem Chart.Matches.level {chart : Chart} {g : Gauge} (h : chart.Matches g) : g.Level where
  heapSize := h.heapSize
  le_max := by
    rw [h.heapSize]
    exact h.maxHeapSize.2 (Set.mem_image_of_mem _ (List.mem_of_getLast? h.last))

namespace Sketch

variable {H : Type} {k k₁ k₂ : Sketch H} {d n ptr x : Nat} {run : Heap.Run} {xs us ys : Row}
  {ptrs ptrs' : List Nat} {c : Counter}

/-- Where the last used block ends. -/
def usedEnd (k : Sketch H) : Nat := lastEnd prologueSize k.row

theorem usedEnd_congr (h : k₁.sites true = k.sites true) : k₁.usedEnd = k.usedEnd := by
  rw [usedEnd, lastEnd, ← sites, h]
  rfl

/-- The last used block is the same one and the top as well, or it is another one and ends at the
top. -/
def Trims (k k₁ : Sketch H) : Prop :=
  (k₁.usedEnd = k.usedEnd ∧ k₁.top = k.top) ∨ (k₁.usedEnd < k.usedEnd ∧ k₁.top = k₁.usedEnd)

theorem Trims.trans (h : k.Trims k₁) (h' : k₁.Trims k₂) : k.Trims k₂ := by
  rcases h with ⟨hend, htop⟩ | ⟨hend, htop⟩ <;> rcases h' with ⟨hend', htop'⟩ | ⟨hend', htop'⟩
  · exact .inl ⟨hend'.trans hend, htop'.trans htop⟩
  · exact .inr ⟨hend ▸ hend', htop'⟩
  · exact .inr ⟨hend' ▸ hend, by rw [htop', htop, hend']⟩
  · exact .inr ⟨hend'.trans hend, htop'⟩

theorem Trims.top_eq (h : k.Trims k₁) (h' : k.Trims k₂) (hend : k₁.usedEnd = k₂.usedEnd) :
    k₁.top = k₂.top := by
  rcases h with ⟨h1, htop⟩ | ⟨h1, htop⟩ <;> rcases h' with ⟨h2, htop'⟩ | ⟨h2, htop'⟩ <;> omega

theorem Digs.settleRun_trims (hk : k.Digs run xs us ys false x n d) : k.Trims (k.settleRun run) := by
  unfold settleRun
  split
  · next hend =>
    obtain rfl := hk.end_iff.mp hend
    have hx : (x, n) ∈ Row.sites true (prologueSize + span xs) us := by simp [hk.used]
    have hn := (hk.hole.sized.2.1.of_site hx).1
    have hb := (sites_bounds hx).1
    have hlast : (k.release run).usedEnd = prologueSize + span xs := by
      rw [hk.release_eq]
      exact lastEnd_of_lastUsed hk.before
    have hbefore : k.usedEnd = x + n := by
      rw [usedEnd, lastEnd, ← sites, hk.sites_eq]
      simp
    simp only [minBlock, wordSize] at hn
    exact .inr ⟨by omega, hk.top_release.trans hlast.symm⟩
  · next hend =>
    refine .inl ⟨?_, hk.top_list⟩
    cases ys with
    | nil => exact absurd (hk.end_iff.mpr rfl) hend
    | cons g ys =>
      rw [usedEnd, usedEnd, lastEnd, lastEnd, ← sites, ← sites, hk.sites_list, hk.sites_eq]
      simp [sites_cons, hk.next_used, List.getLast?_append, List.getLast?_cons]

theorem Settled.freeBlock_trims (hk : k.Settled) (hx : (x, n) ∈ k.sites true) :
    k.Trims (k.freeBlock x) := by
  obtain ⟨k', run, xs, us, ys, hd, hs, htop, he⟩ := hk.freeBlock_digs hx
  have htrims := hd.settleRun_trims
  rw [Trims, usedEnd_congr hs, htop] at htrims
  rw [he]
  exact htrims

theorem Tidy.sites_eq_of_perm {u : Bool} (hk : k.Tidy) (hk₁ : k₁.Tidy) (hp : (k.sites u).Perm (k₁.sites u)) :
    k.sites u = k₁.sites u :=
  List.Perm.eq_of_pairwise (fun _ _ _ _ hlt hgt => absurd hgt (Nat.lt_asymm hlt))
    (hk.sized.pairwise_sites u prologueSize) (hk₁.sized.pairwise_sites u prologueSize) hp

theorem Charged.sites_freeBlock (hk : k.Charged) (hx : (x, n) ∈ k.sites true) :
    (k.freeBlock x).sites true = (k.sites true).filter fun q => q.1 ≠ x := by
  obtain ⟨hk', hp, -⟩ := hk.freeBlock hx
  have hfresh := hk.settled.tidy.fresh_site hp
  have hsorted := hk.settled.tidy.sized.pairwise_sites true prologueSize
  have hsorted' := hk'.settled.tidy.sized.pairwise_sites true prologueSize
  have hrest : ((k.freeBlock x).sites true).filter (fun q => q.1 ≠ x) = (k.freeBlock x).sites true :=
    List.filter_eq_self.mpr fun q hq => decide_eq_true fun he =>
      hfresh (List.mem_map.mpr ⟨q, hq, he⟩)
  have hperm := hp.filter fun q => q.1 ≠ x
  rw [List.filter_cons_of_neg (by simp), hrest] at hperm
  exact List.Perm.eq_of_pairwise (fun _ _ _ _ hlt hgt => absurd hgt (Nat.lt_asymm hlt)) hsorted'
    (hsorted.filter _) hperm.symm

def callRise : Counter → Nat := freeRise + Pi.single .frees 1

/-- The blocks at the pointers were freed: all that comes of it in whatever order. -/
structure Clears (k : Sketch H) (ptrs : List Nat) (k₁ : Sketch H) : Prop where
  charged : k₁.Charged
  host : k₁.host = k.host
  sites : k₁.sites true = (k.sites true).filter fun q => q.1 + headerSize ∉ ptrs
  trims : k.Trims k₁
  level : k₁.gauge.Level
  maxHeapSize : k₁.stats.maxHeapSize = k.stats.maxHeapSize
  frees : k₁.stats.frees = k.stats.frees + ptrs.length
  rise : k.stats.Rise (ptrs.length • callRise) k₁.stats

namespace Clears

theorem refl (hk : k.Charged) (hl : k.gauge.Level) : k.Clears [] k where
  charged := hk
  host := rfl
  sites := by simp
  trims := .inl ⟨rfl, rfl⟩
  level := hl
  maxHeapSize := rfl
  frees := rfl
  rise := .refl _ _

theorem trans (h : k.Clears ptrs k₁) (h' : k₁.Clears ptrs' k₂) : k.Clears (ptrs ++ ptrs') k₂ where
  charged := h'.charged
  host := h'.host.trans h.host
  sites := by
    rw [h'.sites, h.sites, List.filter_filter]
    refine List.filter_congr fun q _ => ?_
    simp [Bool.and_comm]
  trims := h.trims.trans h'.trims
  level := h'.level
  maxHeapSize := h'.maxHeapSize.trans h.maxHeapSize
  frees := by rw [h'.frees, h.frees, List.length_append, Nat.add_assoc]
  rise := by
    rw [List.length_append, add_nsmul]
    exact h.rise.trans h'.rise

theorem row_eq (h : k.Clears ptrs k₁) (h' : k.Clears ptrs' k₂) (hp : ptrs.Perm ptrs') :
    k₁.row = k₂.row := by
  have hsites : k₁.sites true = k₂.sites true := by
    rw [h.sites, h'.sites]
    refine List.filter_congr fun q _ => ?_
    simp [hp.mem_iff]
  -- the top is where the trimmed heap has it, and the span with it
  have htop := h.trims.top_eq h'.trims (usedEnd_congr hsites)
  have hs := h.charged.settled
  have hs' := h'.charged.settled
  exact eq_of_sites hs.tidy.sized hs'.tidy.sized hs.flagged hs'.flagged hs.merged hs'.merged hsites
    (Nat.add_left_cancel htop)

theorem stats_eq (h : k.Clears ptrs k₁) (h' : k.Clears ptrs' k₂) (hp : ptrs.Perm ptrs') :
    { k₁.stats with coalesces := 0, heapShrinks := 0 } =
      ({ k₂.stats with coalesces := 0, heapShrinks := 0 } : Stats) := by
  have hrow := h.row_eq h' hp
  have hget (c : Counter) (hc : callRise c = 0) : k₁.stats.get c = k₂.stats.get c := by
    rw [h.rise.get_eq (by simp [hc]), h'.rise.get_eq (by simp [hc])]
  have hfrees : k₁.stats.frees = k₂.stats.frees := by rw [h.frees, h'.frees, hp.length_eq]
  have hinUse : k₁.stats.bytesInUse = k₂.stats.bytesInUse := by
    rw [h.charged.inUse, h'.charged.inUse, hrow]
  have hsize : k₁.stats.heapSize = k₂.stats.heapSize := by
    have htop : k₁.gauge.top = k₂.gauge.top := congrArg (prologueSize + span ·) hrow
    exact h.level.heapSize.trans (htop ▸ h'.level.heapSize.symm)
  have hmax := h.maxHeapSize.trans h'.maxHeapSize.symm
  refine Stats.ext_get (fun c => ?_) hinUse hsize hmax
  cases c with
  | coalesces | heapShrinks => rfl
  | frees => exact hfrees
  | allocations => exact hget .allocations rfl
  | reallocsUnchanged => exact hget .reallocsUnchanged rfl
  | reallocsInPlace => exact hget .reallocsInPlace rfl
  | reallocsMoved => exact hget .reallocsMoved rfl
  | splits => exact hget .splits rfl
  | heapGrows => exact hget .heapGrows rfl

theorem full (h : k.Clears ptrs k₁)
    (hd : wordLimit ≤ k₁.stats.get c + (ptrs'.length • callRise) c) :
    wordLimit ≤ k.stats.get c + ((ptrs ++ ptrs').length • callRise) c := by
  have hrise := (h.rise c).2
  rw [List.length_append, add_nsmul, Pi.add_apply]
  omega

end Clears

theorem full_of_callRise {s : Stats} (hs : s.Fits)
    (h : ∃ d, wordLimit ≤ s.get d + (n • callRise) d) :
    wordLimit ≤ s.coalesces + 2 * n ∨ wordLimit ≤ s.heapShrinks + n ∨ wordLimit ≤ s.frees + n := by
  obtain ⟨d, hd⟩ := h
  have hfit := hs d
  cases d <;> simp [callRise, freeRise, Stats.get] at hd hfit <;> omega

theorem Charged.free_clears (hk : k.Charged) (hl : k.gauge.Level) (hx : (x, n) ∈ k.sites true) :
    k.Clears [x + headerSize] (k.free (x + headerSize)) := by
  have hsinks := (hk.settled.freeBlock_sinks hx).level hl
  have hrise := (freeBlock_rise k x).trans (Stats.rise_bump _ .frees)
  have hfrees := (freeBlock_rise k x).get_eq (c := .frees) rfl
  rw [Sketch.free, Nat.add_sub_cancel]
  exact {
    charged := (hk.freeBlock hx).1.count .frees
    host := host_freeBlock k x
    sites := by
      refine (hk.sites_freeBlock hx).trans (List.filter_congr fun q _ => ?_)
      simp
    trims := hk.settled.freeBlock_trims hx
    level := hsinks.1
    maxHeapSize := hsinks.2
    frees := congrArg (· + 1) hfrees
    rise := by
      rw [List.length_singleton, one_nsmul]
      exact hrise }

end Sketch

namespace Session

variable {H : Type} [Host H] {s t t' : Session H} {cs : List Call} {k : Sketch H} {ptr : Nat}
  {ptrs ptrs' : List Nat}

def freeAll (s : Session H) : List Nat → Except Fault (Session H)
  | [] => .ok s
  | ptr :: ptrs =>
    match s.step (.free ptr) with
    | .ok (_, s) => s.freeAll ptrs
    | .error e => .error e

/-- Two heaps with the same blocks, which may only list them in another order, and have come to them
by other merges and shrinks. -/
structure AlikeButForOrder (s t : Session H) : Prop where
  low : s.heap.arena.low = t.heap.arena.low
  top : s.heap.arena.top = t.heap.arena.top
  blocks : s.heap.blocks = t.heap.blocks
  lists (b : Fin bucketCount) : ∃ l l', l.Perm l' ∧ (sentinel b :: l).Nodup ∧
    s.heap.arena.mem.Ring (sentinel b) l ∧ t.heap.arena.mem.Ring (sentinel b) l'
  bins : s.heap.bins = t.heap.bins
  topUsed : s.heap.topUsed = t.heap.topUsed
  stats : { s.heap.stats with coalesces := 0, heapShrinks := 0 } =
    ({ t.heap.stats with coalesces := 0, heapShrinks := 0 } : Stats)
  host : s.heap.host = t.heap.host
  live : s.live = t.live

theorem Follows.alikeButForOrder {cs₁ cs₂ : List Call} {k₁ k₂ : Sketch H} (ht : t.Follows cs₁ k₁)
    (ht' : t'.Follows cs₂ k₂) (hk : k.Clears ptrs k₁) (hk' : k.Clears ptrs' k₂)
    (hp : ptrs.Perm ptrs') (hl : t.live = t'.live) : t.AlikeButForOrder t' := by
  have hrow := hk.row_eq hk' hp
  have hs := ht.valid.settled
  have hs' := ht'.valid.settled
  have hlists (b : Fin bucketCount) : (k₁.lists b).Perm (k₂.lists b) := by
    have h := hs.lists_perm_entries b
    rw [hrow] at h
    exact h.trans (hs'.lists_perm_entries b).symm
  constructor
  case low => rw [ht.shows.low, ht'.shows.low]
  case top => rw [ht.shows.top, ht'.shows.top, Sketch.top, Sketch.top, hrow]
  case blocks => rw [ht.shows.blocks_eq, ht'.shows.blocks_eq, Sketch.blocks, Sketch.blocks, hrow]
  case lists =>
    exact fun b => ⟨_, _, hlists b, hs.tidy.ring_nodup b, ht.shows.rings b, ht'.shows.rings b⟩
  case bins =>
    refine Bins.ext_length fun b => ?_
    rw [ht.shows.lengths, ht'.shows.lengths, (hlists b).length_eq]
  case topUsed => rw [ht.shows.topUsed, ht'.shows.topUsed, hs.topUsed, hs'.topUsed, hrow]
  case stats =>
    rw [ht.shows.stats, ht'.shows.stats]
    exact hk.stats_eq hk' hp
  case host => rw [ht.shows.host, ht'.shows.host, hk.host, hk'.host]
  case live => exact hl

variable [LawfulHost H]

theorem Follows.step_free (hf : s.Follows cs k) (hl : k.gauge.Level) (hp : ptr ∈ s.live.pointers) :
    k.Clears [ptr] (k.free ptr) ∧
      match s.step (.free ptr) with
      | .ok (_, s₁) => s₁.Follows (cs ++ [.free ptr]) (k.free ptr) ∧ s₁.live = s.live.drop ptr
      | .error e => e = .addOverflow ∧ ∃ d, wordLimit ≤ (k.free ptr).stats.get d := by
  have hm := hf.step (c := .free ptr) hp
  obtain ⟨x, n, hx, rfl⟩ := hf.site hp
  refine ⟨hf.valid.charged.free_clears hl hx, ?_⟩
  cases hstep : s.step (.free (x + headerSize)) with
  | error e =>
    rw [hstep] at hm
    obtain ⟨d, hd⟩ := not_forall.mp hm.2
    exact ⟨hm.1, d, Nat.not_lt.mp hd⟩
  | ok r =>
    obtain ⟨a, s₁⟩ := r
    rw [hstep] at hm
    obtain rfl : a = .ok none := hm.1.answer
    exact ⟨hm.2, (exec_of_step hstep).2⟩

theorem Follows.freeAll_foldl (hf : s.Follows cs k) (hl : k.gauge.Level) (hnd : ptrs.Nodup)
    (hlive : ptrs ⊆ s.live.pointers) :
    match s.freeAll ptrs with
    | .ok t => (∃ cs', t.Follows cs' (ptrs.foldl Sketch.free k)) ∧
        k.Clears ptrs (ptrs.foldl Sketch.free k) ∧ t.live = s.live.filter fun q => q.1 ∉ ptrs
    | .error e => e = .addOverflow ∧
        ∃ d, wordLimit ≤ k.stats.get d + (ptrs.length • Sketch.callRise) d := by
  induction ptrs generalizing s cs k with
  | nil => exact ⟨⟨cs, hf⟩, .refl hf.valid.charged hl, by simp⟩
  | cons ptr ptrs ih =>
    obtain ⟨hfresh, hnd⟩ := List.nodup_cons.mp hnd
    obtain ⟨hclears, hm⟩ := hf.step_free hl (hlive List.mem_cons_self)
    rw [Session.freeAll]
    cases hstep : s.step (.free ptr) with
    | error e =>
      rw [hstep] at hm
      obtain ⟨he, d, hd⟩ := hm
      have hmore := Nat.le_add_right ((k.free ptr).stats.get d) ((ptrs.length • Sketch.callRise) d)
      exact ⟨he, d, hclears.full (hd.trans hmore)⟩
    | ok r =>
      obtain ⟨a, s₁⟩ := r
      rw [hstep] at hm
      obtain ⟨hf₁, hlive₁⟩ := hm
      -- no pointer comes twice, so those that are left are live still
      have hrest : ptrs ⊆ s₁.live.pointers := by
        intro q hq
        rw [hlive₁]
        exact Live.mem_pointers_drop.mpr ⟨hlive (List.mem_cons_of_mem _ hq), fun he => hfresh (he ▸ hq)⟩
      have hih := ih hf₁ hclears.level hnd hrest
      dsimp only
      cases hend : s₁.freeAll ptrs with
      | error e =>
        rw [hend] at hih
        obtain ⟨he, d, hd⟩ := hih
        exact ⟨he, d, hclears.full hd⟩
      | ok t =>
        rw [hend] at hih
        obtain ⟨hf', hclears', hlive'⟩ := hih
        refine ⟨hf', hclears.trans hclears', ?_⟩
        rw [hlive', hlive₁, Live.drop, List.filter_filter]
        refine List.filter_congr fun q _ => ?_
        simp [Bool.and_comm]

theorem Follows.freeAll (hf : s.Follows cs k) (hl : k.gauge.Level) (hnd : ptrs.Nodup)
    (hlive : ptrs ⊆ s.live.pointers) :
    match s.freeAll ptrs with
    | .ok t => (∃ cs' k', t.Follows cs' k' ∧ k.Clears ptrs k') ∧
        t.live = s.live.filter fun q => q.1 ∉ ptrs
    | .error e => e = .addOverflow ∧
        ∃ d, wordLimit ≤ k.stats.get d + (ptrs.length • Sketch.callRise) d := by
  have hend := hf.freeAll_foldl hl hnd hlive
  cases hres : s.freeAll ptrs with
  | error e =>
    rw [hres] at hend
    exact hend
  | ok t =>
    rw [hres] at hend
    obtain ⟨⟨cs', hf'⟩, hclears, hlive'⟩ := hend
    exact ⟨⟨cs', _, hf', hclears⟩, hlive'⟩

/-- The order in which blocks are freed does not matter. Frees of live pointers in some order come to
an end, with all other blocks still in use, unless a counter is full; and all orders that come to an end
come to the same, but for the order in the lists and the merges and shrinks that are counted. -/
theorem reachable_frees_commute (hs : s.Reachable) (hnd : ptrs.Nodup)
    (hlive : ptrs ⊆ s.live.pointers) :
    ((∃ t, s.freeAll ptrs = .ok t ∧
        t.heap.usedBlocks = (s.heap.usedBlocks.filter fun q => q.1 + headerSize ∉ ptrs) ∧
        t.heap.stats.frees = s.heap.stats.frees + ptrs.length) ∨
      s.freeAll ptrs = .error .addOverflow ∧
        (wordLimit ≤ s.heap.stats.coalesces + 2 * ptrs.length ∨
          wordLimit ≤ s.heap.stats.heapShrinks + ptrs.length ∨
          wordLimit ≤ s.heap.stats.frees + ptrs.length)) ∧
    ∀ ptrs' t t', ptrs.Perm ptrs' → s.freeAll ptrs = .ok t → s.freeAll ptrs' = .ok t' →
      t.AlikeButForOrder t' := by
  obtain ⟨cs, hr⟩ := hs
  obtain ⟨chart, hchart⟩ := hr.charted
  obtain ⟨cs, k, hf, hm, -⟩ := hchart.follows
  have hl := hm.level
  have hend := hf.freeAll hl hnd hlive
  constructor
  · cases hres : s.freeAll ptrs with
    | ok t =>
      rw [hres] at hend
      obtain ⟨⟨cs', k', hf', hk'⟩, -⟩ := hend
      refine .inl ⟨t, rfl, ?_, ?_⟩
      · rw [hf'.shows.usedBlocks_eq, hf.shows.usedBlocks_eq]
        exact hk'.sites
      · rw [hf'.shows.stats, hf.shows.stats]
        exact hk'.frees
    | error e =>
      rw [hres] at hend
      obtain ⟨rfl, hfull⟩ := hend
      refine .inr ⟨rfl, ?_⟩
      rw [hf.shows.stats]
      exact Sketch.full_of_callRise hf.shows.fits hfull
  · intro ptrs' t t' hp ht ht'
    have hend' := hf.freeAll hl (hp.nodup_iff.mp hnd) fun q hq => hlive (hp.mem_iff.mpr hq)
    rw [ht] at hend
    rw [ht'] at hend'
    obtain ⟨⟨cs₁, k₁, hf₁, hk₁⟩, hlive₁⟩ := hend
    obtain ⟨⟨cs₂, k₂, hf₂, hk₂⟩, hlive₂⟩ := hend'
    refine hf₁.alikeButForOrder hf₂ hk₁ hk₂ hp ?_
    rw [hlive₁, hlive₂]
    refine List.filter_congr fun q _ => ?_
    simp [hp.mem_iff]

theorem reachable_frees_commute_three :
    ∃ s t t' : Session Reserve, Run [.allocate 24, .allocate 24, .allocate 24] s ∧
      s.freeAll [480, 512] = .ok t ∧ s.freeAll [512, 480] = .ok t' ∧ t.AlikeButForOrder t' := by
  obtain ⟨s₁, hr₁, hf₁⟩ := exists_run_allocate
  obtain ⟨s₂, -, hr₂, hf₂⟩ := hf₁.advance (c := .allocate 24) hr₁ trivial (by decide) (by decide)
  obtain ⟨s, -, hr, hf⟩ := hf₂.advance (c := .allocate 24) hr₂ trivial (by decide) (by decide)
  have h₁ : 480 ∈ s.live.pointers := hf.tracks.owned (x := 472) (m := 32) (by decide)
  have h₂ : 512 ∈ s.live.pointers := hf.tracks.owned (x := 504) (m := 32) (by decide)
  have hs : s.Reachable := ⟨_, hr⟩
  have hcommute := reachable_frees_commute hs (by decide : [480, 512].Nodup) (by simp [h₁, h₂])
  have hcommute' := reachable_frees_commute hs (by decide : [512, 480].Nodup) (by simp [h₁, h₂])
  have hroom : ¬ (wordLimit ≤ s.heap.stats.coalesces + 2 * 2 ∨
      wordLimit ≤ s.heap.stats.heapShrinks + 2 ∨ wordLimit ≤ s.heap.stats.frees + 2) := by
    rw [hf.shows.stats]
    decide
  obtain ⟨t, ht, -⟩ := hcommute.1.resolve_right fun h => hroom h.2
  obtain ⟨t', ht', -⟩ := hcommute'.1.resolve_right fun h => hroom h.2
  exact ⟨s, t, t', hr, ht, ht', hcommute.2 _ t t' (by decide) ht ht'⟩

end Session

end SegregatedFit
