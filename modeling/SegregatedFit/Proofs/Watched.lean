import Mathlib
import SegregatedFit.Proofs.Mirrored
import SegregatedFit.Proofs.Runs

/-!
Growth observed. A heap raises its top in one place only, where it asks its host, but it asks for what
is not committed yet, and so most growth goes unseen. A host that never admits to have committed
anything is asked each time: it passes on to the host behind it what that one would have been asked, and
notes the tops that are reached. A heap on such a host is the heap that it is without.
-/
namespace SegregatedFit

open Row

variable {H : Type}

/-- A host that is asked for every growth, and the host that stands behind it. -/
structure Watched (H : Type) where
  host : H
  /-- The tops that growth reached, the first one first. -/
  reached : List Nat

namespace Watched

def start (host : H) : Watched H := ⟨host, []⟩

variable [Host H]

def extend (w : Watched H) (top : Nat) : Extension (Watched H) :=
  match Host.secure w.host 0 top with
  | (.ok (), host) => ⟨⟨host, w.reached ++ [top]⟩, .ok 0, #[]⟩
  | (.error reason, host) => ⟨⟨host, w.reached⟩, .error reason, #[]⟩

instance : Host (Watched H) where
  base w := Host.base w.host
  committed _ := 0
  extend := extend

variable {w w' : Watched H} {top delta size chunk : Nat} {reason : Refusal}

theorem secure_eq (w : Watched H) (hpos : 0 < top + delta) :
    Host.secure w top delta =
      match Host.secure w.host top delta with
      | (.ok (), host) => (.ok (), ⟨host, w.reached ++ [top + delta]⟩)
      | (.error reason, host) => (.error reason, ⟨host, w.reached⟩) := by
  have hcommitted : Host.committed w = 0 := rfl
  have hextend : Host.extend w (top + delta) = w.extend (top + delta) := rfl
  unfold Host.secure
  by_cases hlim : wordLimit ≤ top + delta
  · rw [if_pos hlim, if_pos hlim]
  · rw [if_neg hlim, if_neg hlim, hcommitted, if_pos hpos, Nat.sub_zero, hextend, extend,
      Host.secure, Nat.zero_add, if_neg hlim]
    by_cases hc : Host.committed w.host < top + delta
    · rw [if_pos hc]
      dsimp only
      cases (Host.extend w.host (top + delta - Host.committed w.host)).granted <;> rfl
    · rw [if_neg hc]
      rfl

theorem reached_of_secure_ok (hpos : 0 < top + delta)
    (h : Host.secure w top delta = (.ok (), w')) : w'.reached = w.reached ++ [top + delta] := by
  rw [secure_eq w hpos] at h
  split at h
  · cases h; rfl
  · cases h

theorem reached_of_secure_error (hpos : 0 < top + delta)
    (h : Host.secure w top delta = (.error reason, w')) : w'.reached = w.reached := by
  rw [secure_eq w hpos] at h
  split at h
  · cases h
  · cases h; rfl

theorem reached_of_secureChunk_ok (hpos : 0 < top)
    (h : Host.secureChunk w top size = (.ok chunk, w')) :
    w'.reached = w.reached ++ [top + chunk] := by
  unfold Host.secureChunk at h
  split at h
  · next w1 h1 =>
    cases h
    exact reached_of_secure_ok (by omega) h1
  · next r w1 h1 =>
    have hw := reached_of_secure_error (by omega) h1
    split at h
    · split at h
      · next w2 h2 =>
        cases h
        rw [reached_of_secure_ok (by omega) h2, hw]
      · cases h
    · cases h

theorem reached_of_secureChunk_error (hpos : 0 < top)
    (h : Host.secureChunk w top size = (.error reason, w')) : w'.reached = w.reached := by
  unfold Host.secureChunk at h
  split at h
  · cases h
  · next r w1 h1 =>
    have hw := reached_of_secure_error (by omega) h1
    split at h
    · split at h
      · cases h
      · next w2 h2 =>
        cases h
        rw [reached_of_secure_error (by omega) h2, hw]
    · cases h
      exact hw

omit [Host H] in
theorem nonempty (host : H) : Nonempty (Watched H) := ⟨start host⟩

def coupling (host : H) : Host.Coupling H (Watched H) where
  nonempty := nonempty host
  rel host w := w.host = host
  guard _ := True
  reasons := Eq
  refl _ := rfl
  back _ := trivial
  secure {host w top delta} hw _ := by
    subst hw
    by_cases hpos : 0 < top + delta
    · rw [secure_eq w hpos]
      match Host.secure w.host top delta with
      | (.ok (), host) => exact ⟨.ok (), rfl⟩
      | (.error reason, host) => exact ⟨.error rfl, rfl⟩
    · have hnone {H : Type} [Host H] (host : H) : Host.secure host top delta = (.ok (), host) := by
        rw [Host.secure, if_neg (by simp only [wordLimit]; omega), if_neg (by omega)]
      rw [hnone, hnone]
      exact ⟨.ok (), rfl⟩

end Watched

namespace Heap

variable [Host H] {h h' : Heap (Watched H)} {j : Journal} {delta : Nat} {r : Except Refusal Nat}

theorem grow_notes (hpos : 0 < h.arena.top + delta)
    (hr : ((grow delta).exec h j).1 = .ok (r, h')) :
    (∃ top, r = .ok top ∧ h'.host.reached = h.host.reached ++ [h'.arena.top]) ∨
      ((∃ reason, r = .error reason) ∧ h'.host.reached = h.host.reached ∧ h'.arena = h.arena) := by
  match hs : Host.secure h.host h.arena.top delta with
  | (.ok (), host) =>
    rw [exec_grow_ok j hs] at hr
    cases hr
    exact .inl ⟨_, rfl, Watched.reached_of_secure_ok hpos hs⟩
  | (.error reason, host) =>
    rw [exec_grow_error j hs] at hr
    cases hr
    exact .inr ⟨⟨_, rfl⟩, Watched.reached_of_secure_error hpos hs, rfl⟩

end Heap

namespace Session

variable [Host H] {s s' : Session H} {c : Call} {a : Answer}

/-- The tops that growth reaches in the course of a call, in order. -/
def climbs (s : Session H) (c : Call) : List Nat :=
  match (s.rehost (Watched.start s.heap.host)).step c with
  | .ok (_, s') => s'.heap.host.reached
  | .error _ => []

theorem step_watched (h : s.step c = .ok (a, s')) :
    (s.rehost (Watched.start s.heap.host)).step c =
      .ok (a, s'.rehost (⟨s'.heap.host, s.climbs c⟩ : Watched H)) := by
  obtain ⟨b, w, hw, hab, hhost⟩ :=
    step_mirrors (Watched.coupling s.heap.host) h
      (rfl : (Watched.coupling s.heap.host).rel s.heap.host (.start s.heap.host)) trivial
  obtain rfl : a = b := Refusal.Agree.eq hab
  have hclimbs : s.climbs c = w.reached := by rw [climbs, hw]; rfl
  obtain ⟨host, reached⟩ := w
  obtain rfl : host = s'.heap.host := hhost
  rw [hw, hclimbs]

end Session

structure Gauge where
  top : Nat
  heapGrows : Nat
  heapShrinks : Nat
  heapSize : Nat
  maxHeapSize : Nat

namespace Gauge

def of (top : Nat) (s : Stats) : Gauge :=
  ⟨top, s.heapGrows, s.heapShrinks, s.heapSize, s.maxHeapSize⟩

/-- The top comes to another place. -/
def reach (g : Gauge) (top : Nat) : Gauge :=
  { g with
    top
    heapSize := top - prologueSize
    maxHeapSize := max g.maxHeapSize (top - prologueSize) }

def climb (g : Gauge) (top : Nat) : Gauge := { g.reach top with heapGrows := g.heapGrows + 1 }

def drop (g : Gauge) (top : Nat) : Gauge := { g.reach top with heapShrinks := g.heapShrinks + 1 }

inductive Rises : Gauge → List Nat → Gauge → Prop
  | stay (g : Gauge) : Rises g [] g
  | climb {g : Gauge} {top : Nat} : g.top < top → Rises g [top] (g.climb top)

inductive Sinks : Gauge → Gauge → Prop
  | stay (g : Gauge) : Sinks g g
  | drop {g : Gauge} {top : Nat} : top < g.top → Sinks g (g.drop top)

variable {g g' : Gauge} {ups : List Nat}

theorem Rises.eq_or_lt (h : g.Rises ups g') : (ups = [] ∧ g' = g) ∨ (ups = [g'.top] ∧ g.top < g'.top) := by
  cases h with
  | stay => exact .inl ⟨rfl, rfl⟩
  | climb hlt => exact .inr ⟨rfl, hlt⟩

theorem Sinks.top_le (h : g.Sinks g') : g'.top ≤ g.top := by
  cases h with
  | stay => exact Nat.le_refl _
  | drop hlt => exact hlt.le

end Gauge

namespace Sketch

section

variable {k k' : Sketch H} {b : Fin bucketCount} {d m n off request size chunk x y : Nat} {t : Tag}
  {run : Heap.Run} {xs us ys : Row}

def gauge (k : Sketch H) : Gauge := .of k.top k.stats

theorem gauge_recordHeapSize (k : Sketch H) : k.recordHeapSize.gauge = k.gauge.reach k.top := by
  simp [gauge, Gauge.of, Gauge.reach, Stats.recordHeapSize, top]

theorem Settled.gauge_place (hk : k.Settled) (hx : x ∈ k.lists b) (hfits : size ≤ k.sizeAt x) :
    (k.place x size).gauge = k.gauge := by
  have hstats (n : Nat) : Gauge.of n (k.place x size).stats = Gauge.of n k.stats := by
    unfold Sketch.place
    split
    · split <;> rfl
    · rfl
  rw [gauge, hk.top_place hx hfits, hstats, gauge]

theorem gauge_carve (k : Sketch H) (hle : size ≤ chunk) :
    (k.carve size chunk).gauge = k.gauge.climb (k.top + chunk) := by
  rw [← top_carve k hle]
  unfold carve
  split <;> exact (gauge_recordHeapSize _).trans rfl

theorem gauge_mergePrev (k : Sketch H) (x : Nat) (t : Tag) : (k.mergePrev x t).1.gauge = k.gauge := by
  unfold mergePrev
  split
  · rfl
  · split <;> rfl

theorem Digs.gauge_mergeNext (hk : k.Digs run xs us ys true x n d) :
    (k.mergeNext run).1.gauge = k.gauge := by
  have hstats (m : Nat) : Gauge.of m (k.mergeNext run).1.stats = Gauge.of m k.stats := by
    unfold Sketch.mergeNext
    split
    · split <;> rfl
    · rfl
  obtain ⟨-, -, -, -, htop⟩ := hk.mergeNext
  rw [gauge, htop, hstats, gauge]

theorem Digs.settleRun_sinks (hk : k.Digs run xs us ys false x n d) :
    k.gauge.Sinks (k.settleRun run).gauge := by
  have htop := hk.hole.top_eq
  have hsize := hk.sized_run.1
  unfold settleRun
  split
  · rw [hk.release_eq, gauge_recordHeapSize]
    refine .drop (?_ : prologueSize + span xs < k.top)
    rw [htop, ← hk.size]
    simp only [minBlock, wordSize] at hsize
    omega
  · have hgauge : (k.list run).gauge = k.gauge := congrArg (Gauge.of · k.stats) hk.top_list
    exact hgauge ▸ .stay _

theorem Settled.freeBlock_gauge (hk : k.Settled) (hx : (x, n) ∈ k.sites true) :
    ∃ (k' : Sketch H) (run : Heap.Run) (xs us ys : Row), k'.Digs run xs us ys false x n k.merges ∧
      k'.sites true = k.sites true ∧ k'.gauge = k.gauge ∧ k.freeBlock x = k'.settleRun run := by
  obtain ⟨t, ht, hu, rfl⟩ := mem_sites_iff.mp hx
  obtain ⟨xs, ys, hrow, hxs⟩ := mem_located_iff.mp ht
  obtain ⟨xs', us, hd⟩ := hk.mergePrev_digs hrow hxs hu
  obtain ⟨us', ys', hd', hs, -⟩ := hd.mergeNext
  refine ⟨_, _, xs', us', ys', hd', ?_, ?_, hk.tidy.freeBlock_eq hrow hxs⟩
  · rw [hs, sites, row_mergePrev]
    rfl
  · rw [hd.gauge_mergeNext, gauge_mergePrev]
    rfl

theorem Settled.freeBlock_sinks (hk : k.Settled) (hx : (x, n) ∈ k.sites true) :
    k.gauge.Sinks (k.freeBlock x).gauge := by
  obtain ⟨k', run, xs, us, ys, hd, -, hgauge, he⟩ := hk.freeBlock_gauge hx
  rw [he, ← hgauge]
  exact hd.settleRun_sinks

theorem Settled.gauge_freeBlock_of_lt (hk : k.Settled) (hx : (x, n) ∈ k.sites true)
    (hy : (y, m) ∈ k.sites true) (hlt : x < y) : (k.freeBlock x).gauge = k.gauge := by
  obtain ⟨k', run, xs, us, ys, hd, hsites, hgauge, he⟩ := hk.freeBlock_gauge hx
  have hend : run.start + run.size ≠ k'.top := by
    intro htop
    obtain rfl := hd.end_iff.mp htop
    have hx' : (x, n) ∈ Row.sites true (prologueSize + span xs) us := by simp [hd.used]
    have hbelow := (sites_bounds hx').1
    rw [← hsites, hd.sites_eq, sites_nil, List.mem_append, List.mem_singleton] at hy
    rcases hy with hy | hy
    · have hb := (sites_bounds hy).2
      omega
    · cases hy
      exact Nat.lt_irrefl _ hlt
  rw [he, settleRun, if_neg hend, ← hgauge]
  exact congrArg (Gauge.of · k'.stats) hd.top_list

/-- The block at `x` has come into use where a free one began, or at the old top, which the heap has
grown above. -/
def Source (k k' : Sketch H) (x : Nat) : Prop :=
  ((∃ n, (x, n) ∈ k.sites false) ∧ k'.top = k.top) ∨ (x = k.top ∧ k.top < k'.top)

variable [Host H]

theorem Settled.obtain_source (hk : k.Settled) (hsize : minBlock ≤ size ∧ size % alignment = 0)
    (h : k.obtain size = (.ok x, k')) : k.Source k' x := by
  unfold obtain at h
  split at h
  · unfold Sketch.extend at h
    split at h
    · cases h
    · next chunk host hc =>
      cases h
      obtain ⟨-, hle, -⟩ := Host.chunk_of_secureChunk hsize hc
      have hmin := hsize.1
      simp only [minBlock, wordSize] at hmin
      refine .inr ⟨rfl, ?_⟩
      rw [top_carve _ hle]
      change k.top < k.top + chunk
      omega
  · next y hy =>
    cases h
    obtain ⟨b, hb, hfits⟩ := firstFit_some hy
    obtain ⟨n, hn, -⟩ := hk.tidy.listed hb
    exact .inl ⟨⟨n, hn⟩, hk.top_place hb hfits⟩

theorem Settled.allocateBlock_source (hk : k.Settled) (h : k.allocateBlock request = (.ok x, k')) :
    k.Source k' x := by
  unfold allocateBlock at h
  split at h
  · cases h
  · next size hsize =>
    split at h
    · cases h
    · next y k₁ h₁ =>
      cases h
      have hs : k.Source k₁ x := hk.obtain_source (blockSize?_some hsize).2 h₁
      exact hs

end

section

variable {k k' : Sketch (Watched H)} {c : Call} {n off request size x : Nat} {t : Tag}

def Rises (k k' : Sketch (Watched H)) : Prop :=
  ∃ ups, k.gauge.Rises ups k'.gauge ∧ k'.host.reached = k.host.reached ++ ups

def Shifts (k k' : Sketch (Watched H)) : Prop :=
  k.Rises k' ∨ (k.gauge.Sinks k'.gauge ∧ k'.host.reached = k.host.reached)

theorem Rises.of_eq (hg : k'.gauge = k.gauge) (hr : k'.host.reached = k.host.reached) : k.Rises k' :=
  ⟨[], hg ▸ .stay _, by rw [hr, List.append_nil]⟩

theorem Rises.congr {k₁ : Sketch (Watched H)} (h : k.Rises k₁) (hg : k'.gauge = k₁.gauge)
    (hr : k'.host.reached = k₁.host.reached) : k.Rises k' := by
  rw [Rises, hg, hr]
  exact h

theorem top_pos (k : Sketch H) : 0 < k.top :=
  (by decide : 0 < prologueSize).trans_le k.prologueSize_le_top

variable [Host H]

theorem extend_rises (k : Sketch (Watched H)) (hsize : minBlock ≤ size ∧ size % alignment = 0) :
    k.Rises (k.extend size).2 := by
  unfold extend
  split
  · next reason w hw => exact .of_eq rfl (Watched.reached_of_secureChunk_error k.top_pos hw)
  · next chunk w hw =>
    have hle := (Host.chunk_of_secureChunk hsize hw).2.1
    have hmin := hsize.1
    simp only [minBlock, wordSize] at hmin
    refine ⟨[k.top + chunk], ?_, ?_⟩
    · rw [gauge_carve _ hle]
      exact .climb (by change k.top < k.top + chunk; omega)
    · rw [host_carve]
      exact Watched.reached_of_secureChunk_ok k.top_pos hw

theorem Settled.obtain_rises (hk : k.Settled) (hsize : minBlock ≤ size ∧ size % alignment = 0) :
    k.Rises (k.obtain size).2 := by
  unfold obtain
  split
  · exact extend_rises k hsize
  · next y hy =>
    obtain ⟨b, hb, hfits⟩ := firstFit_some hy
    exact .of_eq (hk.gauge_place hb hfits) (by rw [host_place])

theorem Settled.allocateBlock_rises (hk : k.Settled) (request : Nat) :
    k.Rises (k.allocateBlock request).2 := by
  unfold allocateBlock
  split
  · exact .of_eq rfl rfl
  · next size hsize =>
    have hr := hk.obtain_rises (blockSize?_some hsize).2
    split
    · next k1 h1 =>
      rw [h1] at hr
      exact hr
    · next y k1 h1 =>
      rw [h1] at hr
      exact hr

theorem reached_of_growTop_false (h : k.growTop off t size = (false, k')) :
    k'.host.reached = k.host.reached := by
  unfold growTop at h
  split at h
  · cases h; rfl
  · split at h
    · next reason w hw =>
      cases h
      exact Watched.reached_of_secure_error (k.top_pos.trans_le (Nat.le_add_right _ _)) hw
    · cases h

theorem Tidy.growTop_rises (hk : k.Tidy) (hx : (off, t) ∈ k.blocks) (hlt : t.size < size)
    (h : k.growTop off t size = (true, k')) : k.Rises k' := by
  obtain ⟨xs, ys, hrow, hxs⟩ := mem_located_iff.mp hx
  unfold growTop at h
  split at h
  · cases h
  next hend =>
  split at h
  · cases h
  next w hw =>
  rw [hk.cut_eq hrow hxs] at h
  cases h
  have htop : prologueSize + span (xs ++ [{ t with size }]) = k.top + (size - t.size) := by
    rw [← not_not.mp hend, hxs]
    simp only [span_append, span_cons, span_nil]
    omega
  refine ⟨[k.top + (size - t.size)], ?_, ?_⟩
  · rw [gauge_recordHeapSize]
    change k.gauge.Rises _ (k.gauge.climb (prologueSize + span (xs ++ [{ t with size }])))
    rw [htop]
    exact .climb (by change k.top < k.top + (size - t.size); omega)
  · exact Watched.reached_of_secure_ok (k.top_pos.trans_le (Nat.le_add_right _ _)) hw

theorem Charged.moved_shifts {k₁ : Sketch (Watched H)} {y : Nat} (hk : k.Charged) (hx : (x, n) ∈ k.sites true)
    (ha : k.allocateBlock request = (.ok y, k₁)) : k.Shifts (k₁.freeBlock x) := by
  obtain ⟨hk₁, hy, -⟩ := hk.allocateBlock_ok ha
  have hrises := hk.settled.allocateBlock_rises request
  rw [ha] at hrises
  have hsinks := hk₁.settled.freeBlock_sinks (hy.kept hx)
  have hend := (sites_bounds hx).2
  have hmin := (hk.settled.tidy.of_site hx).2.2.1
  simp only [minBlock, wordSize] at hmin
  -- it moves to where a free block was, or above all others, and then what it leaves is not at the top
  rcases hk.settled.allocateBlock_source ha with ⟨-, htop⟩ | ⟨rfl, -⟩
  · obtain ⟨ups, hups, hreached⟩ := hrises
    obtain ⟨rfl, hgauge⟩ | ⟨-, hlt⟩ := hups.eq_or_lt
    · rw [hgauge] at hsinks
      refine .inr ⟨hsinks, ?_⟩
      rw [host_freeBlock, hreached, List.append_nil]
    · exact absurd htop hlt.ne'
  · refine .inl (hrises.congr (hk₁.settled.gauge_freeBlock_of_lt (hy.kept hx) hy.site ?_) ?_)
    · change x < prologueSize + span k.row
      omega
    · rw [host_freeBlock]

theorem Charged.reallocate_shifts (hk : k.Charged) (hx : (x, n) ∈ k.sites true) (request : Nat) :
    k.Shifts (k.reallocate (x + headerSize) request).2 := by
  obtain ⟨t, ht, hu, rfl⟩ := mem_sites_iff.mp hx
  obtain ⟨xs, ys, hrow, hxs⟩ := mem_located_iff.mp ht
  unfold Sketch.reallocate
  rw [Nat.add_sub_cancel, hk.settled.tidy.cut_eq hrow hxs]
  rcases hr : blockSize? request with _ | size
  · exact .inl (.of_eq rfl rfl)
  dsimp only
  by_cases hle : size ≤ t.size
  · rw [if_pos hle]
    exact .inl (.of_eq rfl rfl)
  rw [if_neg hle, enlarge]
  rcases hg : k.growTop x t size with ⟨_ | _, k1⟩
  · have hk1 := Sketch.growTop_false hg
    have hc1 := hk.growTop_false hg
    have hgauge : k1.gauge = k.gauge := by rw [hk1]; rfl
    have hreached := reached_of_growTop_false hg
    have hsites : k1.sites true = k.sites true := by rw [hk1]; rfl
    dsimp only
    rcases ha : k1.allocateBlock request with ⟨reason | y, k2⟩
    · have hrises := hc1.settled.allocateBlock_rises request
      rw [ha, Rises, hgauge, hreached] at hrises
      exact .inl hrises
    · have hshifts := hc1.moved_shifts (hsites ▸ hx) ha
      rw [Shifts, Rises, hgauge, hreached] at hshifts
      exact hshifts
  · exact .inl (hk.settled.tidy.growTop_rises ht (Nat.not_le.mp hle) hg)

theorem Charged.perform_shifts (hk : k.Charged) (hc : k.Admits c) (hinit : c ≠ .init) :
    k.Shifts (k.perform c).2 := by
  cases c with
  | allocate request =>
    have hrises := hk.settled.allocateBlock_rises request
    change k.Shifts (k.allocate request).2
    unfold allocate
    match ha : k.allocateBlock request with
    | (.error reason, k1) =>
      rw [ha] at hrises
      exact .inl hrises
    | (.ok x, k1) =>
      rw [ha] at hrises
      exact .inl (hrises.congr rfl rfl)
  | free ptr =>
    obtain ⟨x, n, hx, rfl⟩ := hc
    change k.Shifts ((k.freeBlock (x + headerSize - headerSize)).count .frees)
    rw [Nat.add_sub_cancel]
    refine .inr ⟨hk.settled.freeBlock_sinks hx, ?_⟩
    rw [host_count, host_freeBlock]
  | reallocate ptr request =>
    obtain ⟨x, n, hx, rfl⟩ := hc
    exact hk.reallocate_shifts hx request
  | init => exact absurd rfl hinit
  | write ptr i b => exact .inl (.of_eq rfl rfl)

end

end Sketch

theorem Heap.Shows.rehosted {H' : Type} {h : Heap H} {k : Sketch H} (hs : h.Shows k) (host : H') :
    (h.rehost host).Shows (k.rehost host) := by
  obtain ⟨⟨h1, h2, h3, h4⟩, -, h6, h7, h8, h9, h10, h11, h12, h13, h14⟩ := hs
  exact ⟨⟨h1, h2, h3, h4⟩, rfl, h6, h7, h8, h9, h10, h11, h12, h13, h14⟩

theorem Heap.Shows.gauge_eq {h : Heap H} {k : Sketch H} (hs : h.Shows k) :
    k.gauge = .of h.arena.top h.stats := by
  rw [Sketch.gauge, hs.top, hs.stats]

theorem Sketch.Admits.rehost {H' : Type} {k : Sketch H} {c : Call} (hc : k.Admits c) (host : H') :
    (k.rehost host).Admits c := by
  cases c <;> exact hc

namespace Session

variable [Host H] {s s' : Session H} {cs : List Call} {c : Call} {k : Sketch H} {a : Answer}

/-- On another host, lawful or not, a call that ends as it does here comes to what the sketch on that
host makes of it. -/
theorem Follows.rehosted {H' : Type} [Host H'] {host host' : H'} (hf : s.Follows cs k) (hc : s.Allows c)
    (hinit : c ≠ .init) (h : (s.rehost host).step c = .ok (a, s'.rehost host')) :
    (s'.rehost host').heap.Shows ((k.rehost host).perform c).2 := by
  have hm := Heap.perform_meets_of_ne_init (hf.shows.rehosted host) (hf.valid.charged.rehost host)
    ((hf.admits hc).rehost host) hinit
  exact (hm.of_ok (exec_of_step h).1).shows

variable [LawfulHost H]

theorem Follows.shifts (hf : s.Follows cs k) (hc : s.Allows c) (hinit : c ≠ .init)
    (h : s.step c = .ok (a, s')) :
    k.gauge.Rises (s.climbs c) (k.perform c).2.gauge ∨
      (s.climbs c = [] ∧ k.gauge.Sinks (k.perform c).2.gauge) := by
  let w := Watched.start s.heap.host
  have hshows := hf.rehosted hc hinit (step_watched h)
  have hgauge := hshows.gauge_eq.trans (hf.of_step hc h).1.shows.gauge_eq.symm
  -- the host that watches has seen nothing before the call
  have hclimbs : ((k.rehost w).perform c).2.host.reached = s.climbs c := by rw [← hshows.host]; rfl
  rw [← hgauge]
  have hk := hf.valid.charged.rehost w
  rcases hk.perform_shifts ((hf.admits hc).rehost w) hinit with ⟨ups, hups, hreached⟩ | ⟨hsinks, hreached⟩
  · obtain rfl : s.climbs c = ups := hclimbs.symm.trans (hreached.trans (List.nil_append ups))
    exact .inl hups
  · exact .inr ⟨hclimbs.symm.trans hreached, hsinks⟩

theorem Follows.moves (hf : s.Follows cs k) (hc : s.Allows c) (hinit : c ≠ .init)
    (h : s.step c = .ok (a, s')) :
    ∃ g, k.gauge.Rises (s.climbs c) g ∧ g.Sinks (k.perform c).2.gauge := by
  rcases hf.shifts hc hinit h with hrises | ⟨hnone, hsinks⟩
  · exact ⟨_, hrises, .stay _⟩
  · exact ⟨_, hnone ▸ .stay _, hsinks⟩

end Session

end SegregatedFit
