import Mathlib
import SegregatedFit.Proofs.Overflow

/-!
Nothing stays behind. Freed blocks merge, and are released as soon as they reach the top, so that a
heap with no used block has no block at all.
-/
namespace SegregatedFit

open Row Memory

namespace Row

theorem eq_nil_of_lastUsed {off : Nat} {ts : Row} (hl : lastUsed true ts = true)
    (hs : sites true off ts = []) : ts = [] := by
  rcases List.eq_nil_or_concat' ts with rfl | ⟨xs, t, rfl⟩
  · rfl
  · rw [lastUsed_append] at hl
    have ht : t.used = true := hl
    simp [sites_append, sites_cons, ht] at hs

end Row

theorem Bins.total_eq_zero {bins : Bins} (h : ∀ b, bins.length b = 0) : bins.total = 0 := by
  have hz : bins = .empty := Bins.ext_length fun b => by
    rw [h]
    simp [Bins.empty, Bins.length, Vector.get]
  rw [hz]
  rfl

theorem Heap.lists_eq_nil {H : Type} {h : Heap H} (hr : ∀ b, h.arena.mem.Ring (sentinel b) []) :
    h.lists = [] := by
  rw [Heap.lists, List.filterMap_eq_nil_iff]
  intro b _
  have hnext : h.arena.nextLink (sentinel b) = sentinel b := (hr b).1
  simp only [hnext, if_true]

namespace Sketch

variable {H : Type} {k k' : Sketch H} {c : Call} {d n x : Nat} {run : Heap.Run} {xs us ys : Row}

/-- Where no block is used there is no block. -/
def Anchored (k : Sketch H) : Prop := k.sites true = [] → k.row = []

theorem anchored_of_site (hx : (x, n) ∈ k.sites true) : k.Anchored := by
  intro h
  rw [h] at hx
  cases hx

theorem Anchored.congr (hk : k.Anchored) (hrow : k'.row = k.row) : k'.Anchored := by
  unfold Anchored sites
  rw [hrow]
  exact hk

theorem Digs.settleRun_anchored (hk : k.Digs run xs us ys false x n d) :
    (k.settleRun run).Anchored := by
  unfold settleRun
  split
  · rw [hk.release_eq]
    exact eq_nil_of_lastUsed hk.before
  · next hend =>
    cases ys with
    | nil => exact absurd (hk.end_iff.mpr rfl) hend
    | cons g ys =>
      have hused := hk.next_used
      rw [hk.list_eq]
      intro hs
      simp [sites, sites_append, sites_cons, hused] at hs

variable [Host H] [LawfulHost H]

theorem Valid.perform_anchored (hk : k.Valid) (hc : k.Admits c) (ha : k.Anchored) :
    (k.perform c).2.Anchored := by
  cases c with
  | allocate request =>
    change (k.allocate request).2.Anchored
    unfold allocate
    match ho : k.allocateBlock request with
    | (.error reason, k1) =>
      have hrow : k1.row = k.row := by rw [Sketch.allocateBlock_error ho]
      exact ha.congr hrow
    | (.ok y, k1) => exact anchored_of_site (hk.allocateBlock_ok ho).2.1.site
  | free ptr =>
    obtain ⟨x, n, hx, rfl⟩ := hc
    -- the last used block may go here, so the run it merges into has to be looked at
    obtain ⟨k', run, xs, us, ys, hd, -, -, he⟩ := hk.settled.freeBlock_digs hx
    change ((k.freeBlock (x + headerSize - headerSize)).count .frees).Anchored
    rw [Nat.add_sub_cancel, he]
    exact hd.settleRun_anchored.congr rfl
  | reallocate ptr request =>
    obtain ⟨x, n, hx, rfl⟩ := hc
    have hout := (hk.reallocate hx request).2.2
    change (k.reallocate (x + headerSize) request).2.Anchored
    match ho : k.reallocate (x + headerSize) request with
    | (.error reason, k1) =>
      rw [ho] at hout
      have hrow : k1.row = k.row := by rw [show k1 = { k with host := k1.host } from hout]
      exact ha.congr hrow
    | (.ok ptr, k1) =>
      rw [ho] at hout
      obtain ⟨y, -, n, m, rest, -, hperm, -⟩ := hout
      exact anchored_of_site (hperm.symm.subset List.mem_cons_self)
  | init => exact fun _ => rfl
  | write ptr i b => exact ha

end Sketch

namespace Session

variable {H : Type} [Host H] {s : Session H} {cs : List Call} {k : Sketch H}

theorem Follows.sites_eq_nil (hf : s.Follows cs k) (hl : s.live = []) : k.sites true = [] := by
  rw [List.eq_nil_iff_forall_not_mem]
  rintro ⟨x, m⟩ hx
  have hp := hf.tracks.owned hx
  rw [hl] at hp
  cases hp

theorem Follows.live_eq_nil (hf : s.Follows cs k) (hs : k.sites true = []) : s.live = [] := by
  rw [List.eq_nil_iff_forall_not_mem]
  rintro ⟨ptr, n⟩ hp
  obtain ⟨x, m, hx, -⟩ := hf.tracks.placed hp
  rw [hs] at hx
  cases hx

variable [LawfulHost H]

theorem Run.follows_anchored (hr : Run cs s) : ∃ k, s.Follows cs k ∧ k.Anchored :=
  hr.follows_with (fun _ _ _ => rfl) fun _ _ hk hc ha => hk.perform_anchored hc ha

/-- What is left when all is freed. -/
theorem reachable_empty (hs : s.Reachable) (hl : s.live = []) :
    s.heap.size = 0 ∧ s.heap.arena.top = s.heap.arena.low ∧ s.heap.blocks = [] ∧
    s.heap.freeBlocks = 0 ∧
    (∀ b, s.heap.arena.mem.Ring (sentinel b) [] ∧ s.heap.bins.length b = 0) ∧ s.heap.lists = [] ∧
    s.heap.stats.bytesInUse = 0 ∧ s.heap.topUsed = true := by
  obtain ⟨cs, hr⟩ := hs
  obtain ⟨k, hf, ha⟩ := hr.follows_anchored
  have hrow : k.row = [] := ha (hf.sites_eq_nil hl)
  have hlists : ∀ b, k.lists b = [] := by
    intro b
    rw [List.eq_nil_iff_forall_not_mem]
    intro x hx
    obtain ⟨n, hn, -⟩ := hf.valid.settled.tidy.listed hx
    rw [Sketch.sites, hrow] at hn
    cases hn
  have hlengths : ∀ b, s.heap.bins.length b = 0 := by
    intro b
    rw [hf.shows.lengths, hlists]
    rfl
  have hrings : ∀ b, s.heap.arena.mem.Ring (sentinel b) [] := by
    intro b
    rw [← hlists b]
    exact hf.shows.rings b
  refine ⟨?_, ?_, ?_, ?_, fun b => ⟨hrings b, hlengths b⟩, Heap.lists_eq_nil hrings, ?_, ?_⟩
  · rw [hf.shows.size_eq, hrow]
    rfl
  · rw [hf.shows.top, hf.shows.low, Sketch.top, hrow]
    rfl
  · rw [hf.shows.blocks_eq, Sketch.blocks, hrow]
    rfl
  · rw [Heap.freeBlocks, Bins.total_eq_zero hlengths]
  · rw [hf.shows.stats, hf.valid.inUse, hrow]
    rfl
  · rw [hf.shows.topUsed, hf.valid.settled.topUsed, hrow]
    rfl

theorem reachable_empty_churn :
    ∃ s : Session Reserve, Run churn s ∧ s.live = [] ∧ s.heap.size = 0 := by
  obtain ⟨s, stats, hr, hf, -⟩ := exists_run_churns 1 (by decide)
  have hl : s.live = [] := hf.live_eq_nil rfl
  exact ⟨s, hr, hl, (reachable_empty ⟨_, hr⟩ hl).1⟩

end Session

end SegregatedFit
