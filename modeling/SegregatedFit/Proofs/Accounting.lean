import Mathlib
import SegregatedFit.Proofs.Promises
import SegregatedFit.Proofs.Watched

/-!
The books of a heap. What is counted agrees with what is there: the bytes, the blocks and the calls, and
every move of the top since the heap was last initialized.
-/
namespace SegregatedFit

open Row

/-- How often a list goes down from one element to the next. -/
def descents : List Nat → Nat
  | x :: y :: l => (if y < x then 1 else 0) + descents (y :: l)
  | _ => 0

theorem descents_concat {l : List Nat} {x : Nat} (hx : l.getLast? = some x) (y : Nat) :
    descents (l ++ [y]) = descents l + if y < x then 1 else 0 := by
  induction l with
  | nil => cases hx
  | cons z l ih =>
    cases l with
    | nil =>
      obtain rfl : z = x := by simpa using hx
      simp [descents]
    | cons w l =>
      have hx' : (w :: l).getLast? = some x := by rwa [List.getLast?_cons_cons] at hx
      have hih := ih hx'
      simp only [List.cons_append] at hih ⊢
      rw [descents, descents, hih, Nat.add_assoc]

theorem setOf_mem_singleton (x : Nat) : {y | y ∈ [x]} = ({x} : Set Nat) := by
  ext y
  exact List.mem_singleton

theorem setOf_mem_concat (l : List Nat) (x : Nat) : {y | y ∈ l ++ [x]} = insert x {y | y ∈ l} := by
  ext y
  rw [Set.mem_insert_iff]
  exact (List.mem_append.trans or_comm).trans (or_congr_left List.mem_singleton)

/-- What the top of a heap did since the heap was last initialized. -/
structure Chart where
  growths : List Nat
  /-- The places that the top was at: after the start, after each growth, and after each call. -/
  course : List Nat

namespace Chart

variable {chart : Chart} {g g₁ g' : Gauge} {ups : List Nat}

def start (top : Nat) : Chart := ⟨[], [top]⟩

def extend (chart : Chart) (ups : List Nat) (top : Nat) : Chart :=
  ⟨chart.growths ++ ups, chart.course ++ ups ++ [top]⟩

/-- The gauge is right about what the top did. -/
structure Matches (chart : Chart) (g : Gauge) : Prop where
  last : chart.course.getLast? = some g.top
  heapGrows : g.heapGrows = chart.growths.length
  heapShrinks : g.heapShrinks = descents chart.course
  heapSize : g.heapSize = g.top - prologueSize
  maxHeapSize : IsGreatest ((· - prologueSize) '' {top | top ∈ chart.course}) g.maxHeapSize

theorem matches_start : (start prologueSize).Matches (.of prologueSize {}) where
  last := rfl
  heapGrows := rfl
  heapShrinks := rfl
  heapSize := (Nat.sub_self _).symm
  maxHeapSize := by
    rw [start, setOf_mem_singleton, Set.image_singleton, Nat.sub_self]
    exact isGreatest_singleton

theorem Matches.reach (h : chart.Matches g) (top : Nat) :
    Matches ⟨chart.growths, chart.course ++ [top]⟩
      { g.reach top with heapShrinks := g.heapShrinks + if top < g.top then 1 else 0 } where
  last := List.getLast?_concat
  heapGrows := h.heapGrows
  heapShrinks := by
    rw [descents_concat h.last, ← h.heapShrinks]
  heapSize := rfl
  maxHeapSize := by
    rw [setOf_mem_concat, Set.image_insert_eq]
    change IsGreatest _ (max g.maxHeapSize (top - prologueSize))
    rw [max_comm]
    exact h.maxHeapSize.insert _

theorem Matches.climb {top : Nat} (h : chart.Matches g) (hlt : g.top < top) :
    Matches ⟨chart.growths ++ [top], chart.course ++ [top]⟩ (g.climb top) := by
  obtain ⟨h1, h2, h3, h4, h5⟩ := h.reach top
  refine ⟨h1, ?_, ?_, h4, h5⟩
  · rw [List.length_append, ← h.heapGrows]
    rfl
  · rw [← h3, if_neg (by omega)]
    rfl

theorem Matches.drop {top : Nat} (h : chart.Matches g) (hlt : top < g.top) :
    Matches ⟨chart.growths, chart.course ++ [top]⟩ (g.drop top) := by
  have hr := h.reach top
  rw [if_pos hlt] at hr
  exact hr

theorem Matches.stay (h : chart.Matches g) :
    Matches ⟨chart.growths, chart.course ++ [g.top]⟩ g := by
  have hr := h.reach g.top
  rw [if_neg (Nat.lt_irrefl _)] at hr
  have hmax : max g.maxHeapSize (g.top - prologueSize) = g.maxHeapSize :=
    max_eq_left (h.maxHeapSize.2 (Set.mem_image_of_mem _ (List.mem_of_getLast? h.last)))
  have hreach : g.reach g.top = g := by
    rw [Gauge.reach, hmax, ← h.heapSize]
  rw [hreach] at hr
  exact hr

theorem Matches.moves (h : chart.Matches g) (hups : g.Rises ups g₁) (hsinks : g₁.Sinks g') :
    (chart.extend ups g'.top).Matches g' := by
  have hmid : Matches ⟨chart.growths ++ ups, chart.course ++ ups⟩ g₁ := by
    cases hups with
    | stay => simpa only [List.append_nil] using h
    | climb hlt => exact h.climb hlt
  cases hsinks with
  | stay => exact hmid.stay
  | drop hlt => exact hmid.drop hlt

end Chart

theorem Stats.Rise.get_eq {f : Counter → Nat} {s s' : Stats} {c : Counter} (h : s.Rise f s')
    (hf : f c = 0) : s'.get c = s.get c := by
  have hc := h c
  omega

namespace Sketch

variable {H : Type} {k k' : Sketch H} {c : Call} {d : Counter} {n x : Nat}

def Booked (k : Sketch H) : Prop :=
  k.stats.get .allocations = k.stats.get .frees + (k.sites true).length

theorem Booked.congr (hk : k.Booked) (hs : k'.stats = k.stats) (hrow : k'.row = k.row) :
    k'.Booked := by
  unfold Booked sites at *
  rw [hs, hrow]
  exact hk

variable [Host H]

theorem reallocate_steady (k : Sketch H) (ptr request : Nat) (hd : d = .allocations ∨ d = .frees) :
    (k.reallocate ptr request).2.stats.get d = k.stats.get d := by
  unfold reallocate
  split
  · rfl
  · rfl
  next size t ys _ _ =>
  split
  · exact (Stats.rise_bump _ _).get_eq (by rcases hd with rfl | rfl <;> rfl)
  unfold enlarge
  have hg := (growTop_rise k (ptr - headerSize) t size).get_eq (c := d)
    (by rcases hd with rfl | rfl <;> rfl)
  split
  · next k1 h1 =>
    rw [h1] at hg
    exact hg
  · next k1 h1 =>
    rw [h1] at hg
    have ha := (allocateBlock_rise k1 request).get_eq (c := d) (by rcases hd with rfl | rfl <;> rfl)
    split
    · next reason k2 h2 =>
      rw [h2] at ha
      exact ha.trans hg
    · next target k2 h2 =>
      rw [h2] at ha
      have hf := ((freeBlock_rise k2 (ptr - headerSize)).trans (Stats.rise_bump _ .reallocsMoved)).get_eq
        (c := d) (by rcases hd with rfl | rfl <;> rfl)
      exact hf.trans (ha.trans hg)

theorem Charged.length_reallocate (hk : k.Charged) (hx : (x, n) ∈ k.sites true) (request : Nat) :
    ((k.reallocate (x + headerSize) request).2.sites true).length = (k.sites true).length := by
  have hout := (hk.reallocate hx request).2.2
  rcases ho : k.reallocate (x + headerSize) request with ⟨reason | ptr, k1⟩
  · rw [ho] at hout
    rw [hout]
    rfl
  · rw [ho] at hout
    obtain ⟨y, -, n, m, rest, h1, h2, -⟩ := hout
    rw [h1.length_eq, h2.length_eq]
    rfl

theorem Charged.perform_booked (hk : k.Charged) (hc : k.Admits c) (hb : k.Booked) :
    (k.perform c).2.Booked := by
  cases c with
  | allocate request =>
    change (k.allocate request).2.Booked
    unfold allocate
    match ha : k.allocateBlock request with
    | (.error reason, k1) =>
      have hk1 := Sketch.allocateBlock_error ha
      exact hb.congr (by rw [hk1]) (by rw [hk1])
    | (.ok x, k1) =>
      obtain ⟨-, hy, -⟩ := hk.allocateBlock_ok ha
      have hlen := hy.2.length_eq
      have hrise := allocateBlock_rise k request
      rw [ha] at hrise
      have halloc := hrise.get_eq (c := .allocations) rfl
      have hfree := hrise.get_eq (c := .frees) rfl
      change k1.stats.get .allocations + 1 = k1.stats.get .frees + (k1.sites true).length
      rw [List.length_cons] at hlen
      rw [halloc, hfree, hlen, hb, Nat.add_assoc]
  | free ptr =>
    obtain ⟨x, n, hx, rfl⟩ := hc
    obtain ⟨-, hperm, -⟩ := hk.freeBlock hx
    have hlen := hperm.length_eq
    have hrise := freeBlock_rise k x
    have halloc := hrise.get_eq (c := .allocations) rfl
    have hfree := hrise.get_eq (c := .frees) rfl
    change ((k.freeBlock (x + headerSize - headerSize)).count .frees).Booked
    rw [Nat.add_sub_cancel]
    change (k.freeBlock x).stats.get .allocations =
      (k.freeBlock x).stats.get .frees + 1 + ((k.freeBlock x).sites true).length
    rw [List.length_cons] at hlen
    rw [halloc, hfree, hb, hlen]
    omega
  | reallocate ptr request =>
    obtain ⟨x, n, hx, rfl⟩ := hc
    -- one block is used in place of another, and neither counter moves
    have halloc := reallocate_steady k (x + headerSize) request (.inl rfl)
    have hfree := reallocate_steady k (x + headerSize) request (.inr rfl)
    have hlen := hk.length_reallocate hx request
    change (k.reallocate (x + headerSize) request).2.Booked
    rw [Booked, halloc, hfree, hlen]
    exact hb
  | init => rfl
  | write ptr i b => exact hb

end Sketch

theorem Row.span_eq (off : Nat) (ts : Row) :
    span ts = usedBytes ts + ((sites false off ts).map Prod.snd).sum := by
  induction ts generalizing off with
  | nil => rfl
  | cons t ts ih =>
    rw [span_cons, usedBytes_cons, sites_cons, ih (off + t.size)]
    cases t.used <;> simp <;> omega

theorem Row.length_sites (u : Bool) (off : Nat) (ts : Row) :
    (sites u off ts).length = (located off ts).countP (·.2.used == u) := by
  induction ts generalizing off with
  | nil => rfl
  | cons t ts ih =>
    rw [sites_cons, located, List.countP_cons, ← ih (off + t.size)]
    by_cases hu : t.used = u
    · rw [if_pos hu, if_pos (by simp [hu]), List.length_cons]
    · rw [if_neg hu, if_neg (by simp [hu]), Nat.add_zero]

theorem Bins.total_eq (bins : Bins) :
    bins.total = ((List.finRange bucketCount).map bins.length).sum := by
  have hlist : bins.lengths.toList = (List.finRange bucketCount).map bins.length := by
    apply List.ext_getElem
    · simp
    · intro i h1 h2
      simp [length, Vector.get_eq_getElem]
  rw [total, hlist, List.sum_eq_foldl]

theorem Sketch.Settled.sum_listed {H : Type} {k : Sketch H} (hk : k.Settled) :
    ∑ b, ((k.lists b).map k.sizeAt).sum = ((k.sites false).map Prod.snd).sum := by
  have hp := (hk.lists_perm.map k.sizeAt).sum_eq
  rw [List.map_map] at hp
  have hsnd : (k.sites false).map (k.sizeAt ∘ Prod.fst) = (k.sites false).map Prod.snd :=
    List.map_congr_left fun q hq => hk.tidy.sizeAt_site hq
  rw [hsnd] at hp
  rw [Fin.sum_univ_def, ← hp, List.map_flatMap, List.flatMap_def, List.sum_flatten, List.map_map]
  rfl

namespace Session

section

variable {H : Type} [Host H]

/-- The session, and what the top of its heap did since the heap was last initialized. -/
inductive Charted : Session H → Chart → Prop
  | start {host : H} {config : Config} {mem : Memory} {heap : Heap H} :
    (Heap.init.exec (.blank host config mem) #[]).1 = .ok (.ok (), heap) →
      Charted ⟨heap, []⟩ (.start heap.arena.top)
  | init {s s' : Session H} {chart : Chart} : Charted s chart → s.step .init = .ok (.ok none, s') →
      Charted s' (.start s'.heap.arena.top)
  | call {s s' : Session H} {chart : Chart} {c : Call} {a : Answer} : Charted s chart → s.Allows c →
      c ≠ .init → s.step c = .ok (a, s') →
      Charted s' (chart.extend (s.climbs c) s'.heap.arena.top)

/-- What is counted agrees with the heap, and with what its top did. -/
structure Accounts (s : Session H) (chart : Chart) : Prop where
  bytesInUse : s.heap.stats.bytesInUse =
    ((s.heap.blocks.filter (·.2.used)).map (·.2.size)).sum
  heapSize : s.heap.stats.heapSize = s.heap.size
  listed : ∃ lists : Fin bucketCount → List (Nat × Nat),
    (∀ b, (sentinel b :: (lists b).map Prod.fst).Nodup ∧
      s.heap.arena.mem.Ring (sentinel b) ((lists b).map Prod.fst) ∧
      ∀ q ∈ lists b, s.heap.arena.blockSize q.1 = .ok q.2) ∧
    s.heap.stats.heapSize = s.heap.stats.bytesInUse + ∑ b, ((lists b).map Prod.snd).sum
  maxHeapSize : IsGreatest ((· - s.heap.arena.low) '' {top | top ∈ chart.course})
    s.heap.stats.maxHeapSize
  allocations : s.heap.stats.allocations = s.heap.stats.frees + s.heap.blocks.countP (·.2.used)
  freeBlocks : s.heap.freeBlocks = s.heap.blocks.countP (!·.2.used)
  heapGrows : s.heap.stats.heapGrows = chart.growths.length
  heapShrinks : s.heap.stats.heapShrinks = descents chart.course

variable {s : Session H} {chart : Chart} {cs : List Call} {k : Sketch H}

theorem Follows.accounts (hf : s.Follows cs k) (hm : chart.Matches k.gauge) (hb : k.Booked) :
    s.Accounts chart := by
  have hset := hf.valid.settled
  have hstats := hf.shows.stats
  have hblocks : s.heap.blocks = located prologueSize k.row := hf.shows.blocks_eq
  have hsize : k.stats.heapSize = span k.row :=
    hm.heapSize.trans (Nat.add_sub_cancel_left ..)
  constructor
  case bytesInUse =>
    rw [hstats, hf.valid.inUse, hblocks, usedBytes_eq prologueSize, sites_eq_filter, List.map_map]
    rfl
  case heapSize => rw [hstats, hsize, hf.shows.size_eq]
  case listed =>
    have hfst (b : Fin bucketCount) :
        ((k.lists b).map fun x => (x, k.sizeAt x)).map Prod.fst = k.lists b := by
      rw [List.map_map]
      exact List.map_id _
    -- the lists tell the free blocks, and these are all that is not in use
    refine ⟨fun b => (k.lists b).map fun x => (x, k.sizeAt x), fun b => ⟨?_, ?_, ?_⟩, ?_⟩
    · rw [hfst]
      exact hset.tidy.ring_nodup b
    · rw [hfst]
      exact hf.shows.rings b
    · intro q hq
      obtain ⟨x, hx, rfl⟩ := List.mem_map.mp hq
      obtain ⟨n, hn, -⟩ := hset.tidy.listed hx
      obtain ⟨t, ht, -, rfl⟩ := mem_sites_iff.mp hn
      rw [hf.shows.blockSize_eq ht, hset.tidy.sizeAt_eq ht]
    · rw [hstats, hsize, hf.valid.inUse, span_eq prologueSize]
      simp only [List.map_map]
      exact congrArg _ hset.sum_listed.symm
  case maxHeapSize =>
    rw [hstats, hf.shows.low]
    exact hm.maxHeapSize
  case allocations =>
    have hlen := length_sites true prologueSize k.row
    simp only [beq_true] at hlen
    rw [hstats, hblocks, ← hlen]
    exact hb
  case freeBlocks =>
    have hlen := length_sites false prologueSize k.row
    simp only [beq_false] at hlen
    rw [hblocks, ← hlen, Heap.freeBlocks, Bins.total_eq]
    refine Eq.trans ?_ hset.sum_lengths
    exact congrArg List.sum (List.map_congr_left fun b _ => hf.shows.lengths b)
  case heapGrows =>
    rw [hstats]
    exact hm.heapGrows
  case heapShrinks =>
    rw [hstats]
    exact hm.heapShrinks

variable [LawfulHost H]

theorem Run.charted (hr : Run cs s) : ∃ chart, s.Charted chart := by
  induction hr with
  | start hi => exact ⟨_, .start hi⟩
  | @step cs s s' c a hr hc hstep ih =>
    obtain ⟨chart, hchart⟩ := ih
    by_cases hinit : c = .init
    · subst hinit
      obtain ⟨k, hf⟩ := hr.follows
      obtain rfl : a = .ok none := (hf.of_step hc hstep).1.answer
      exact ⟨_, hchart.init hstep⟩
    · exact ⟨_, hchart.call hc hinit hstep⟩

theorem Charted.follows (h : s.Charted chart) :
    ∃ cs k, s.Follows cs k ∧ chart.Matches k.gauge ∧ k.Booked := by
  induction h with
  | start hi =>
    have hf := start_follows hi
    refine ⟨_, _, hf, ?_, rfl⟩
    rw [hf.shows.top]
    exact Chart.matches_start
  | @init s s' chart _ hstep ih =>
    obtain ⟨cs, k, hf, -, -⟩ := ih
    have hf' := (hf.of_step (c := .init) trivial hstep).2
    refine ⟨_, _, hf', ?_, rfl⟩
    rw [hf'.shows.top]
    exact Chart.matches_start
  | @call s s' chart c a _ hc hinit hstep ih =>
    obtain ⟨cs, k, hf, hm, hb⟩ := ih
    have hf' := (hf.of_step hc hstep).2
    obtain ⟨g, hups, hsinks⟩ := hf.moves hc hinit hstep
    refine ⟨_, _, hf', ?_, hf.valid.charged.perform_booked (hf.admits hc) hb⟩
    rw [hf'.shows.top]
    exact hm.moves hups hsinks

/-- In every state the books are in order. -/
theorem reachable_accounts (hs : s.Reachable) :
    (∃ chart, s.Charted chart) ∧ ∀ chart, s.Charted chart → s.Accounts chart := by
  obtain ⟨cs, hr⟩ := hs
  refine ⟨hr.charted, fun chart hchart => ?_⟩
  obtain ⟨cs, k, hf, hm, hb⟩ := hchart.follows
  exact hf.accounts hm hb

end

theorem reachable_accounts_free :
    ∃ (s : Session Reserve) (chart : Chart), Run [.allocate 24, .free 448] s ∧ s.Charted chart ∧
      chart.growths.length = 1 ∧ descents chart.course = 1 ∧ s.heap.stats.maxHeapSize = 192 := by
  obtain ⟨s, hr, hf⟩ := exists_run_allocate
  have hadm : ((Sketch.empty (Reserve.full 4096) .checked).perform (.allocate 24)).2.Admits
      (.free 448) := ⟨440, 32, by decide, rfl⟩
  obtain ⟨s', -, hr', hf'⟩ := hf.advance hr hadm (by decide) (by decide)
  obtain ⟨⟨chart, hchart⟩, hall⟩ := reachable_accounts ⟨_, hr'⟩
  have haccounts := hall chart hchart
  refine ⟨s', chart, hr', hchart, ?_, ?_, ?_⟩
  · rw [← haccounts.heapGrows, hf'.shows.stats]
    rfl
  · rw [← haccounts.heapShrinks, hf'.shows.stats]
    rfl
  · rw [hf'.shows.stats]
    rfl

end Session

end SegregatedFit
