import Mathlib
import SegregatedFit.Proofs.Auditing

/-!
Freeing: the block that is freed opens a hole, free neighbours fall into it, and one free block fills
it, or the row ends where it starts.
-/
namespace SegregatedFit

open Row Memory

variable {H : Type}

namespace Sketch

variable {k : Sketch H} {d n off x y : Nat} {v : Bool} {f g t : Tag} {run : Heap.Run}
  {xs ys us : Row}

/-- The run is a hole that holds one used block, `n` bytes at `x`, and that a used block precedes. The
merges so far and the free blocks around the hole number `d`. -/
structure Digs (k : Sketch H) (run : Heap.Run) (xs us ys : Row) (v : Bool) (x n d : Nat) : Prop where
  hole : k.Hole xs us ys v
  start : run.start = prologueSize + span xs
  size : run.size = span us
  prevUsed : run.prevUsed = true
  before : lastUsed true xs = true
  used : Row.sites true (prologueSize + span xs) us = [(x, n)]
  topUsed : ys ≠ [] → k.topUsed = lastUsed true ys
  merges : k.stats.coalesces + (Row.sites false prologueSize xs).length +
    (Row.sites false (prologueSize + span xs + span us) ys).length = d

theorem mergePrev_used (hp : t.prevUsed = true) : k.mergePrev off t = (k, ⟨off, t.size, true⟩) :=
  if_pos hp

theorem Tidy.mergePrev_free (hk : k.Tidy) (hrow : k.row = (xs ++ [f]) ++ ys)
    (hoff : off = prologueSize + span (xs ++ [f])) (hp : t.prevUsed = false) :
    k.mergePrev off t = ((k.unlist (prologueSize + span xs)).count .coalesces,
      ⟨prologueSize + span xs, t.size + f.size, f.prevUsed⟩) := by
  have hstart : off - f.size = prologueSize + span xs := by
    rw [hoff, span_append, span_cons, span_nil]
    omega
  rw [mergePrev, hp, hk.cut_eq hrow hoff]
  simp only [Bool.false_eq_true, if_false, List.getLast?_concat, hstart]

theorem Hole.mergePrev (hk : k.Hole xs [t] ys true) (ht : t.used = true)
    (hp : t.prevUsed = lastUsed true xs) (hoff : off = prologueSize + span xs)
    (htop : ys ≠ [] → k.topUsed = lastUsed true ys)
    (hd : k.stats.coalesces + (Row.sites false prologueSize xs).length +
      (Row.sites false (prologueSize + span xs + span [t]) ys).length = d) :
    ∃ xs' us, (k.mergePrev off t).1.Digs (k.mergePrev off t).2 xs' us ys true off t.size d := by
  cases hl : lastUsed true xs with
  | true =>
    rw [mergePrev_used (hp.trans hl)]
    exact ⟨xs, [t], hk, hoff, by simp, rfl, hl, by simp [sites_cons, ht, hoff], htop, hd⟩
  | false =>
    obtain ⟨xs', f, rfl, hf, hfp, hb⟩ := hk.prev_of_false hl
    rw [hk.tidy.mergePrev_free hk.row hoff (hp.trans hl)]
    have hh := hk.takePrev hf
    refine ⟨xs', [f, t], hh.congr rfl rfl, rfl, ?_, hfp, hb, ?_, htop, ?_⟩
    · simp only [span_cons, span_nil]
      omega
    · simp [sites_cons, hf, ht, hoff, Nat.add_assoc]
    · rw [← hd]
      simp [sites_append, sites_cons, hf, Nat.add_assoc]
      omega

theorem Tidy.mergeNext_nil (hk : k.Tidy) (hrow : k.row = xs) (hend : run.start + run.size =
    prologueSize + span xs) : k.mergeNext run = (k, run) := by
  rw [mergeNext, hk.cut_eq (hrow.trans (List.append_nil xs).symm) hend]

theorem Tidy.mergeNext_used (hk : k.Tidy) (hrow : k.row = xs ++ g :: ys) (hend : run.start + run.size =
    prologueSize + span xs) (hg : g.used = true) :
    k.mergeNext run = ({ k with row := xs ++ { g with prevUsed := false } :: ys }, run) := by
  rw [mergeNext, hk.cut_eq hrow hend]
  exact if_pos hg

theorem Tidy.mergeNext_free (hk : k.Tidy) (hrow : k.row = xs ++ g :: ys) (hend : run.start + run.size =
    prologueSize + span xs) (hg : g.used = false) :
    k.mergeNext run = ((k.unlist (run.start + run.size)).count .coalesces,
      { run with size := run.size + g.size }) := by
  rw [mergeNext, hk.cut_eq hrow hend]
  exact if_neg (by simp [hg])

theorem Digs.end_eq (hk : k.Digs run xs us ys v x n d) :
    run.start + run.size = prologueSize + span (xs ++ us) := by
  rw [hk.start, hk.size, span_append, Nat.add_assoc]

theorem Digs.row_eq (hk : k.Digs run xs us ys v x n d) : k.row = (xs ++ us) ++ ys := by
  rw [hk.hole.row, List.append_assoc]

/-- A run with its free neighbour, if there is one, makes a run that no free block follows. -/
theorem Digs.mergeNext (hk : k.Digs run xs us ys true x n d) :
    ∃ us' ys', (k.mergeNext run).1.Digs (k.mergeNext run).2 xs us' ys' false x n d ∧
      (k.mergeNext run).1.sites true = k.sites true ∧ (k.mergeNext run).1.top = k.top := by
  have hend := hk.end_eq
  have hrow := hk.row_eq
  have hh := hk.hole
  cases ys with
  | nil =>
    rw [List.append_nil] at hrow
    rw [hh.tidy.mergeNext_nil hrow hend]
    exact ⟨us, [], { hk with hole := { hh with right := trivial } }, rfl, rfl⟩
  | cons g ys =>
    cases hg : g.used with
    | true =>
      rw [hh.tidy.mergeNext_used hrow hend hg]
      have hs := hh.settle false (by simp [hg])
      refine ⟨us, { g with prevUsed := false } :: ys, ⟨?_, hk.start, hk.size, hk.prevUsed, hk.before,
        hk.used, fun _ => ?_, ?_⟩, ?_, ?_⟩
      · rw [List.append_assoc]
        exact hs
      · exact hk.topUsed (by simp)
      · rw [← hk.merges]
        simp [sites_cons, hg]
      · simp [sites, hrow, sites_append, sites_cons]
      · simp [top, hrow]
    | false =>
      rw [hh.tidy.mergeNext_free hrow hend hg]
      have ht := hh.takeFree hg
      have hx : prologueSize + span xs + span us = run.start + run.size := by
        rw [hend, span_append, Nat.add_assoc]
      rw [hx] at ht
      refine ⟨us ++ [g], ys, ⟨ht.congr rfl rfl, hk.start, ?_, hk.prevUsed, hk.before, ?_, ?_, ?_⟩, rfl, rfl⟩
      · simp [hk.size]
      · simp [sites_append, hk.used, sites_cons, hg]
      · intro hne
        have htop := hk.topUsed (by simp)
        cases ys with
        | nil => exact absurd rfl hne
        | cons s ys => exact htop
      · rw [← hk.merges]
        simp [sites_cons, hg, Nat.add_assoc]
        omega

theorem Digs.list_eq (hk : k.Digs run xs us ys v x n d) :
    k.list run = ({ k with
      row := xs ++ (⟨run.size, false, true⟩ : Tag) :: ys }).enlist run.start run.size := by
  rw [list, hk.hole.tidy.cut_eq hk.hole.row hk.start, hk.hole.tidy.cut_eq hk.row_eq hk.end_eq,
    hk.prevUsed]

theorem Digs.release_eq (hk : k.Digs run xs us ys v x n d) :
    k.release run = (({ k with row := xs, topUsed := true }).count .heapShrinks).recordHeapSize := by
  rw [release, hk.hole.tidy.cut_eq hk.hole.row hk.start]

theorem Digs.top_list (hk : k.Digs run xs us ys v x n d) : (k.list run).top = k.top := by
  rw [hk.list_eq, hk.hole.top_eq]
  simp only [top, row_enlist, span_append, span_cons, hk.size]
  omega

theorem Digs.top_release (hk : k.Digs run xs us ys v x n d) :
    (k.release run).top = prologueSize + span xs := by
  rw [hk.release_eq]
  rfl

theorem Digs.next_used (hk : k.Digs run xs us (g :: ys) false x n d) : g.used = true :=
  hk.hole.rightMerged.head_used hk.hole.right

theorem Digs.end_iff (hk : k.Digs run xs us ys v x n d) : run.start + run.size = k.top ↔ ys = [] := by
  rw [hk.start, hk.size]
  exact hk.hole.end_iff

theorem Digs.sized_run (hk : k.Digs run xs us ys v x n d) :
    minBlock ≤ run.size ∧ run.size % alignment = 0 := by
  obtain ⟨-, hz, -⟩ := hk.hole.sized
  rw [hk.size]
  refine ⟨?_, hz.span_mod⟩
  have hx : (x, n) ∈ Row.sites true (prologueSize + span xs) us := by rw [hk.used]; simp
  have hb := sites_bounds hx
  have hn := (hz.of_site hx).1
  omega

theorem Digs.fresh (hk : k.Digs run xs us ys v x n d) (b : Fin bucketCount) :
    run.start ∉ k.lists b := by
  have hz := hk.sized_run
  simp only [minBlock, wordSize] at hz
  have hs := hk.size
  exact hk.hole.fresh (Nat.le_of_eq hk.start.symm) (.inr (by rw [hk.start]; omega)) b

theorem Digs.list_settled (hk : k.Digs run xs us ys false x n d) (hys : ys ≠ []) :
    (k.list run).Settled := by
  rw [hk.list_eq]
  have hh := hk.hole
  have hz := hk.sized_run
  have hroom := hh.tidy.room
  refine hh.fill (r := [⟨run.size, false, true⟩]) rfl ?_ ?_ (.inr (by simp [hk.size]))
    (sized_cons.mpr ⟨hz, sized_nil⟩) ⟨hk.before.symm, trivial⟩ (.inr rfl) (by simp [Merged]) ?_
    (nodup_enlist hh.tidy.nodup hk.fresh _)
  · change k.topUsed = _
    rw [hk.topUsed hys]
    cases ys with
    | nil => exact absurd rfl hys
    | cons s ys => simp [lastUsed]
  · have htop := hh.top_eq
    simp only [top, row_enlist, span_append, span_cons, hk.size] at *
    omega
  · intro b y
    rw [← hk.start]
    exact mem_enlist_iff

theorem Digs.release_settled (hk : k.Digs run xs us [] false x n d) : (k.release run).Settled := by
  rw [hk.release_eq]
  have hh := hk.hole
  have hroom := hh.tidy.room
  refine hh.fill (r := []) (List.append_nil _).symm ?_ ?_ (.inl rfl) sized_nil trivial (.inl rfl)
    (by simp [Merged]) (by simp; intro b y; rfl) hh.tidy.nodup
  · change true = _
    simp [hk.before]
  · have htop := hh.top_eq
    simp only [top, row_recordHeapSize, row_count] at *
    omega

def settleRun (k : Sketch H) (run : Heap.Run) : Sketch H :=
  if run.start + run.size = k.top then k.release run else k.list run

theorem Tidy.freeBlock_eq (hk : k.Tidy) (hrow : k.row = xs ++ t :: ys)
    (hx : x = prologueSize + span xs) :
    k.freeBlock x = (((k.discharge t.size).mergePrev x t).1.mergeNext
      ((k.discharge t.size).mergePrev x t).2).1.settleRun
        (((k.discharge t.size).mergePrev x t).1.mergeNext
          ((k.discharge t.size).mergePrev x t).2).2 := by
  rw [freeBlock, hk.cut_eq hrow hx]
  rfl

theorem Settled.hole_used (hk : k.Settled) (hrow : k.row = xs ++ t :: ys) (ht : t.used = true) :
    k.Hole xs [t] ys true := (hk.hole hrow).takeUsed ht

theorem Settled.prevUsed_eq (hk : k.Settled) (hrow : k.row = xs ++ t :: ys) :
    t.prevUsed = lastUsed true xs := by
  have hf := hk.flagged
  rw [hrow, flagged_append] at hf
  exact hf.2.1

theorem row_mergePrev (k : Sketch H) (x : Nat) (t : Tag) : (k.mergePrev x t).1.row = k.row := by
  unfold mergePrev
  split
  · rfl
  · split <;> rfl

theorem Settled.mergePrev_digs (hk : k.Settled) (hrow : k.row = xs ++ t :: ys)
    (hx : x = prologueSize + span xs) (ht : t.used = true) :
    ∃ xs' us, ((k.discharge t.size).mergePrev x t).1.Digs ((k.discharge t.size).mergePrev x t).2
      xs' us ys true x t.size k.merges := by
  have hh : (k.discharge t.size).Hole xs [t] ys true := (hk.hole_used hrow ht).congr rfl rfl
  refine hh.mergePrev ht (hk.prevUsed_eq hrow) hx ?_ ?_
  · intro hys
    change k.topUsed = _
    rw [hk.topUsed, hrow]
    cases ys with
    | nil => exact absurd rfl hys
    | cons s ys => simp [lastUsed]
  · simp [merges, discharge, sites, hrow, sites_append, sites_cons, ht, Nat.add_assoc]

theorem Settled.freeBlock_digs (hk : k.Settled) (hx : (x, n) ∈ k.sites true) :
    ∃ (k' : Sketch H) (run : Heap.Run) (xs us ys : Row), k'.Digs run xs us ys false x n k.merges ∧
      k'.sites true = k.sites true ∧ k'.top = k.top ∧ k.freeBlock x = k'.settleRun run := by
  obtain ⟨t, ht, hu, rfl⟩ := mem_sites_iff.mp hx
  obtain ⟨xs, ys, hrow, hxs⟩ := mem_located_iff.mp ht
  obtain ⟨xs', us, hd⟩ := hk.mergePrev_digs hrow hxs hu
  obtain ⟨us', ys', hd', hs, htop⟩ := hd.mergeNext
  refine ⟨_, _, xs', us', ys', hd', ?_, ?_, hk.tidy.freeBlock_eq hrow hxs⟩
  · rw [hs, sites, row_mergePrev]
    rfl
  · rw [htop, top, row_mergePrev]
    rfl

theorem Digs.settleRun_settled (hk : k.Digs run xs us ys false x n d) : (k.settleRun run).Settled := by
  unfold settleRun
  split
  · next h =>
    obtain rfl := hk.end_iff.mp h
    exact hk.release_settled
  · next h => exact hk.list_settled fun hys => h (hk.end_iff.mpr hys)

theorem Digs.sites_eq (hk : k.Digs run xs us ys v x n d) :
    k.sites true = Row.sites true prologueSize xs ++ (x, n) ::
      Row.sites true (prologueSize + span xs + span us) ys := by
  simp [sites, hk.hole.row, sites_append, hk.used]

theorem Digs.sites_list (hk : k.Digs run xs us ys v x n d) :
    (k.list run).sites true = Row.sites true prologueSize xs ++
      Row.sites true (prologueSize + span xs + span us) ys := by
  rw [hk.list_eq]
  simp [sites, sites_append, sites_cons, hk.size]

theorem Digs.settleRun_sites (hk : k.Digs run xs us ys v x n d) :
    (k.sites true).Perm ((x, n) :: (k.settleRun run).sites true) := by
  rw [hk.sites_eq]
  unfold settleRun
  split
  · next h =>
    obtain rfl := hk.end_iff.mp h
    rw [hk.release_eq]
    simp [sites]
  · rw [hk.sites_list]
    exact List.perm_middle

theorem Digs.settleRun_merges (hk : k.Digs run xs us ys v x n d) :
    (k.settleRun run).merges ≤ d + 1 := by
  have hm := hk.merges
  unfold settleRun
  split
  · next h =>
    obtain rfl := hk.end_iff.mp h
    rw [hk.release_eq]
    simp [Sketch.merges, Sketch.sites] at *
    omega
  · rw [hk.list_eq]
    simp [Sketch.merges, Sketch.sites, sites_append, sites_cons, hk.size] at *
    omega

theorem Digs.settleRun_top (hk : k.Digs run xs us ys v x n d) : (k.settleRun run).top ≤ k.top := by
  unfold settleRun
  split
  · have htop := hk.hole.top_eq
    rw [hk.top_release]
    omega
  · exact Nat.le_of_eq hk.top_list

theorem settleRun_host (k : Sketch H) (run : Heap.Run) : (k.settleRun run).host = k.host := by
  unfold settleRun
  split <;> rfl

theorem settleRun_rise (k : Sketch H) (run : Heap.Run) :
    k.stats.Rise (Pi.single .heapShrinks 1) (k.settleRun run).stats := by
  unfold settleRun
  split
  · exact (Stats.rise_bump _ _).trans (Stats.rise_recordHeapSize _ _)
  · exact Stats.Rise.refl _ _

def freeRise : Counter → Nat := Pi.single .coalesces 2 + Pi.single .heapShrinks 1

theorem mergePrev_rise (k : Sketch H) (x : Nat) (t : Tag) :
    k.stats.Rise (Pi.single .coalesces 1) (k.mergePrev x t).1.stats := by
  unfold mergePrev
  split
  · exact Stats.Rise.refl _ _
  · split
    · exact Stats.rise_bump _ _
    · exact Stats.Rise.refl _ _

theorem mergeNext_rise (k : Sketch H) (run : Heap.Run) :
    k.stats.Rise (Pi.single .coalesces 1) (k.mergeNext run).1.stats := by
  unfold mergeNext
  split
  · split
    · exact Stats.Rise.refl _ _
    · exact Stats.rise_bump _ _
  · exact Stats.Rise.refl _ _

theorem discharge_rise (k : Sketch H) (n : Nat) : k.stats.Rise 0 (k.discharge n).stats := by
  intro c
  simp [discharge]

theorem freeBlock_rise (k : Sketch H) (x : Nat) : k.stats.Rise freeRise (k.freeBlock x).stats := by
  unfold freeBlock
  split
  · next t ys _ =>
    have h := (((discharge_rise k t.size).trans (mergePrev_rise _ x t)).trans
      (mergeNext_rise _ ((k.discharge t.size).mergePrev x t).2)).trans (settleRun_rise _
        (((k.discharge t.size).mergePrev x t).1.mergeNext ((k.discharge t.size).mergePrev x t).2).2)
    refine h.mono fun c => ?_
    cases c <;> simp [freeRise]
  · exact Stats.Rise.refl _ _

theorem bytesInUse_mergePrev (k : Sketch H) (x : Nat) (t : Tag) :
    (k.mergePrev x t).1.stats.bytesInUse = k.stats.bytesInUse := by
  unfold mergePrev
  split
  · rfl
  · split <;> simp

theorem bytesInUse_mergeNext (k : Sketch H) (run : Heap.Run) :
    (k.mergeNext run).1.stats.bytesInUse = k.stats.bytesInUse := by
  unfold mergeNext
  split
  · split <;> simp
  · rfl

theorem bytesInUse_settleRun (k : Sketch H) (run : Heap.Run) :
    (k.settleRun run).stats.bytesInUse = k.stats.bytesInUse := by
  unfold settleRun
  split
  · simp [release]
  · simp [list]

theorem bytesInUse_freeBlock (hk : k.Tidy) (hx : (x, t) ∈ k.blocks) :
    (k.freeBlock x).stats.bytesInUse = k.stats.bytesInUse - t.size := by
  obtain ⟨xs, ys, hrow, hx⟩ := mem_located_iff.mp hx
  rw [hk.freeBlock_eq hrow hx, bytesInUse_settleRun, bytesInUse_mergeNext, bytesInUse_mergePrev]
  rfl

theorem Charged.size_le (hk : k.Charged) (hx : (x, n) ∈ k.sites true) : n ≤ k.stats.bytesInUse := by
  obtain ⟨t, ht, hu, rfl⟩ := mem_sites_iff.mp hx
  obtain ⟨xs, ys, hrow, -⟩ := mem_located_iff.mp ht
  rw [hk.inUse, hrow]
  simp only [usedBytes_append, usedBytes_cons, hu, if_true]
  omega

theorem host_freeBlock (k : Sketch H) (x : Nat) : (k.freeBlock x).host = k.host := by
  have hp : ∀ (k : Sketch H) t, (k.mergePrev x t).1.host = k.host := by
    intro k t
    unfold mergePrev
    split
    · rfl
    · split <;> rfl
  have hn : ∀ (k : Sketch H) run, (k.mergeNext run).1.host = k.host := by
    intro k run
    unfold mergeNext
    split
    · split <;> rfl
    · rfl
  unfold freeBlock
  split
  · exact (settleRun_host _ _).trans ((hn _ _).trans ((hp _ _).trans rfl))
  · rfl

theorem Settled.top_freeBlock (hk : k.Settled) (hx : (x, n) ∈ k.sites true) :
    (k.freeBlock x).top ≤ k.top := by
  obtain ⟨k', run, xs, us, ys, hd, -, htop, he⟩ := hk.freeBlock_digs hx
  rw [he, ← htop]
  exact hd.settleRun_top

/-- A used block is freed: it is in use no more, and all else stays in use. -/
theorem Charged.freeBlock (hk : k.Charged) (hx : (x, n) ∈ k.sites true) :
    (k.freeBlock x).Charged ∧ (k.sites true).Perm ((x, n) :: (k.freeBlock x).sites true) ∧
      (k.freeBlock x).merges ≤ k.merges + 1 := by
  obtain ⟨k', run, xs, us, ys, hd, hs, -, he⟩ := hk.settled.freeBlock_digs hx
  have hset := hd.settleRun_settled
  have hperm := hd.settleRun_sites
  have hmer := hd.settleRun_merges
  rw [← he] at hset hperm hmer
  rw [hs] at hperm
  refine ⟨⟨hset, ?_⟩, hperm, hmer⟩
  have hsum := (hperm.map Prod.snd).sum_eq
  rw [List.map_cons, List.sum_cons] at hsum
  obtain ⟨t, ht, -, rfl⟩ := mem_sites_iff.mp hx
  rw [bytesInUse_freeBlock hk.settled.tidy ht, hk.inUse, usedBytes_eq prologueSize,
    usedBytes_eq prologueSize (k.freeBlock x).row]
  change (List.map Prod.snd (k.sites true)).sum - t.size =
    (List.map Prod.snd ((k.freeBlock x).sites true)).sum
  omega

theorem Valid.freeBlock [Host H] (hk : k.Valid) (hx : (x, n) ∈ k.sites true) :
    (k.freeBlock x).Valid ∧ (k.sites true).Perm ((x, n) :: (k.freeBlock x).sites true) ∧
      (k.freeBlock x).merges ≤ k.merges + 1 := by
  obtain ⟨hc, hrest⟩ := hk.charged.freeBlock hx
  refine ⟨hc.valid ?_, hrest⟩
  rw [host_freeBlock]
  exact (hk.settled.top_freeBlock hx).trans hk.backed

end Sketch

end SegregatedFit
