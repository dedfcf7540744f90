import Mathlib
import SegregatedFit.Proofs.Entering
import SegregatedFit.Proofs.Exhaustion
import SegregatedFit.Proofs.Histories

/-!
First fit against the naive search. The search through the buckets finds nothing only if all free
blocks are too small. What it finds lies in the lowest bucket that has a block large enough, and of the
blocks there that are large enough it was put in last. It passes no block twice.
-/
namespace SegregatedFit

open Memory

namespace Bins

/-- The block of `n` bytes at `x` is the one to take for `size` bytes among the listed blocks, which come
with their sizes, the one put in last first. -/
structure Best (listed : List (Nat × Nat)) (size x n : Nat) : Prop where
  fits : size ≤ n
  lowest : ∀ e ∈ listed, size ≤ e.2 → bucketFor n ≤ bucketFor e.2
  /-- Those of its bucket that were put in later are too small. -/
  latest : ∃ newer older, listed = newer ++ (x, n) :: older ∧
    ∀ e ∈ newer, bucketFor e.2 = bucketFor n → e.2 < size
  /-- It is the smallest one, if any one that is large enough is too small for the last bucket. -/
  least : (∃ e ∈ listed, size ≤ e.2 ∧ e.2 < minChunk) → ∀ e ∈ listed, size ≤ e.2 → n ≤ e.2

/-- The naive search: in the lowest bucket that has a block large enough, the first one. -/
def naive (listed : List (Nat × Nat)) (size : Nat) : Option (Nat × Nat) :=
  (List.finRange bucketCount).findSome? fun b =>
    listed.find? fun e => bucketFor e.2 = b ∧ size ≤ e.2

variable {a : Arena} {bins : Bins} {listed : List (Nat × Nat)} {b : Fin bucketCount} {size x : Nat}

theorem size_le_of_bucketFor_le {m n : Nat} (hm : m % alignment = 0) (hlt : n < minChunk)
    (h : bucketFor m ≤ bucketFor n) : m ≤ n := by
  rw [Fin.le_def, val_bucketFor, val_bucketFor] at h
  have hc : minChunk = 544 := rfl
  simp only [alignment] at hm
  omega

theorem naive_eq_none_iff : naive listed size = none ↔ ∀ e ∈ listed, e.2 < size := by
  rw [naive, List.findSome?_eq_none_iff]
  constructor
  · intro h e he
    have hb := List.find?_eq_none.mp (h (bucketFor e.2) (List.mem_finRange _)) e he
    simpa using hb
  · intro h b _
    rw [List.find?_eq_none]
    intro e he hfits
    have := h e he
    have := (of_decide_eq_true hfits).2
    omega

theorem best_of_naive {n : Nat} (hmod : ∀ e ∈ listed, e.2 % alignment = 0)
    (h : naive listed size = some (x, n)) : Best listed size x n := by
  obtain ⟨lower, b, higher, hsplit, hfound, hlower⟩ := List.findSome?_eq_some_iff.mp h
  obtain ⟨he, newer, older, hlisted, hnewer⟩ := List.find?_eq_some_iff_append.mp hfound
  obtain ⟨rfl, hfits⟩ := of_decide_eq_true he
  have hlowest : ∀ e ∈ listed, size ≤ e.2 → bucketFor n ≤ bucketFor e.2 := by
    intro e he hfit
    by_contra hlt
    have hsorted := hsplit ▸ List.pairwise_lt_finRange bucketCount
    have hmem : bucketFor e.2 ∈ lower ++ bucketFor n :: higher := hsplit ▸ List.mem_finRange _
    -- the bucket of `e` comes before that of the block, where nothing was found
    have hin : bucketFor e.2 ∈ lower := by
      rcases List.mem_append.mp hmem with hin | hin
      · exact hin
      rcases List.mem_cons.mp hin with heq | hin
      · exact absurd heq.ge hlt
      · exact absurd ((List.pairwise_cons.mp (List.pairwise_append.mp hsorted).2.1).1 _ hin).le hlt
    have hnone := List.find?_eq_none.mp (hlower _ hin) e he
    simp [hfit] at hnone
  constructor
  case fits => exact hfits
  case lowest => exact hlowest
  case latest =>
    refine ⟨newer, older, hlisted, fun e he heq => ?_⟩
    simpa [heq] using hnewer e he
  case least =>
    rintro ⟨f, hf, hfit, hlt⟩ e he hfit'
    have hn : n % alignment = 0 := hmod (x, n) (by rw [hlisted]; simp)
    have hle := size_le_of_bucketFor_le hn hlt (hlowest f hf hfit)
    by_cases hlt' : e.2 < minChunk
    · exact size_le_of_bucketFor_le hn hlt' (hlowest e he hfit')
    · omega

namespace Stacks

theorem size_mod (hs : bins.Stacks a listed) {e : Nat × Nat} (he : e ∈ listed) :
    e.2 % alignment = 0 := by
  rw [← (hs.lays.block e he).2.2.2.2]
  exact Tag.decode_size_mod _

theorem firstIn_eq (hs : bins.Stacks a listed) (size : Nat) (b : Fin bucketCount) :
    firstIn a (stack listed) size b =
      (listed.find? fun e => bucketFor e.2 = b ∧ size ≤ e.2).map Prod.fst := by
  rw [firstIn]
  split
  · next hb =>
    symm
    rw [Option.map_eq_none_iff, List.find?_eq_none]
    intro e _ he
    obtain ⟨rfl, hfits⟩ := of_decide_eq_true he
    exact not_lt.mpr (bucketFor_mono hfits) hb
  · rw [stack, List.find?_map, List.find?_filter]
    congr 1
    apply List.find?_congr
    intro e he
    have hsize := (hs.lays.block e he).2.2.2.2
    simp only [Function.comp_apply, hsize, decide_eq_true_eq]

theorem nodup_flatMap (hs : bins.Stacks a listed) :
    ((List.finRange bucketCount).flatMap (stack listed)).Nodup := by
  refine List.nodup_flatMap.mpr ⟨fun b _ => hs.keeps.nodup b, ?_⟩
  refine (List.nodup_finRange bucketCount).imp fun hne y hb hc => hne ?_
  exact hs.keeps.ring_unique (List.mem_cons_of_mem _ hb) (List.mem_cons_of_mem _ hc)

/-- The search through the buckets is the naive search, and it passes no block twice. -/
theorem firstFitSeen_eq (hs : bins.Stacks a listed) (size : Nat) :
    ∃ seen, bins.firstFitSeen a size = .ok ((naive listed size).map Prod.fst, seen) ∧ seen.Nodup ∧
      seen ⊆ listed.map Prod.fst := by
  obtain ⟨seen, hr, hsub⟩ := hs.keeps.bucketsSeen_eq size (List.finRange bucketCount)
  refine ⟨seen, ?_, hsub.nodup hs.nodup_flatMap, fun y hy => ?_⟩
  · rw [firstFitSeen, hr, naive, List.map_findSome?, funext (hs.firstIn_eq size)]
    rfl
  · obtain ⟨b, -, hy⟩ := List.mem_flatMap.mp (hsub.subset hy)
    obtain ⟨n, hn, -⟩ := mem_stack.mp hy
    exact List.mem_map.mpr ⟨_, hn, rfl⟩

end Stacks

end Bins

open Row

variable {H : Type}

namespace Heap

variable {h : Heap H} {k : Sketch H} {listed : List (Nat × Nat)}

def freeSites (h : Heap H) : List (Nat × Nat) :=
  (h.blocks.filter (·.2.used == false)).map fun q => (q.1, q.2.size)

theorem Shows.freeSites_eq (hs : h.Shows k) : h.freeSites = k.sites false := by
  rw [freeSites, hs.blocks_eq, Sketch.sites, sites_eq_filter_beq]
  rfl

theorem Shows.stacks (hs : h.Shows k) (hk : k.Settled) (hb : k.Books listed) :
    h.bins.Stacks h.arena listed where
  lays.low := hs.low.ge
  lays.room := hs.top ▸ hk.tidy.room
  lays.block e he := by
    obtain ⟨t, ht, -, hn⟩ := mem_sites_iff.mp (hb.free e he)
    obtain ⟨hlow, hle, hmin, -, hmod⟩ := hk.tidy.of_site (hb.free e he)
    rw [hs.low, hs.top, hs.tagSize_eq ht]
    simp only [headerSize, alignment, wordSize] at *
    exact ⟨by omega, hlow, hle, hmin, hn⟩
  lays.clear := by
    refine (hb.nodup hk.tidy).pairwise_of_forall_ne fun e he f hf hne => ?_
    rcases sites_apart (hb.free e he) (hb.free f hf) with ⟨h₁, h₂, -⟩ | hc
    · exact absurd (Prod.ext h₁ h₂) hne
    · exact hc
  keeps := hb.lists ▸ hs.keeps

end Heap

namespace Session

/-- The calls lead to the session from a heap that was just made, and the journal holds what was
reported on the way. -/
inductive Reports [Host H] : List Call → Session H → Journal → Prop
  | start {host : H} {config : Config} {mem : Memory} {heap : Heap H} {j : Journal} :
    Heap.init.exec (.blank host config mem) #[] = (.ok (.ok (), heap), j) → Reports [] ⟨heap, []⟩ j
  | step {cs : List Call} {s : Session H} {c : Call} {a : Answer} {heap : Heap H} {j j' : Journal} :
    Reports cs s j → s.Allows c → c.perform.exec s.heap j = (.ok (a, heap), j') →
      Reports (cs ++ [c]) ⟨heap, c.record s.live a⟩ j'

section

variable [Host H] {s : Session H} {cs : List Call} {j : Journal}

theorem Run.reports (hr : Run cs s) : ∃ j, Reports cs s j := by
  induction hr with
  | @start host config mem heap hi =>
    match hx : Heap.init.exec (.blank host config mem) #[] with
    | (r, j) =>
      rw [hx] at hi
      cases hi
      exact ⟨j, .start hx⟩
  | @step cs s s' c a _ hc hstep ih =>
    obtain ⟨j, hj⟩ := ih
    obtain ⟨hexec, hlive⟩ := exec_of_step hstep
    match hx : c.perform.exec s.heap j with
    | (r, j') =>
      have hr := Call.exec_journal j hexec
      rw [hx] at hr
      cases hr
      obtain ⟨heap, live⟩ := s'
      cases hlive
      exact ⟨j', hj.step hc hx⟩

theorem Run.quiet (hr : Run cs s) : Run cs (s.rehost (⟨s.heap.host⟩ : Quiet H)) := by
  obtain ⟨host, config, mem, h, hh, rfl⟩ := hr.history
  let C := Quiet.coupling host
  obtain ⟨⟨_⟩, hh', rfl⟩ := hh.rehost C rfl (rfl : C.rel host ⟨host⟩) trivial
  exact hh'.run

theorem Reports.books [LawfulHost H] {s : Session (Quiet H)} (hr : Reports cs s j) :
    ∃ k, s.Follows cs k ∧ k.Books j.listed := by
  induction hr with
  | @start host config mem heap j hi =>
    refine ⟨_, start_follows (congrArg Prod.fst hi), ?_⟩
    rw [(Heap.init_enters (.blank host config mem)).spec rfl hi rfl]
    exact Sketch.books_empty _ _
  | @step cs s c a heap j j' _ hc hexec ih =>
    obtain ⟨k, hf, hb⟩ := ih
    have hstep := step_of_exec (Call.exec_journal #[] (congrArg Prod.fst hexec))
    exact ⟨_, (hf.of_step hc hstep).2,
      (Heap.perform_enters hf.shows hf.valid (hf.admits hc) hb).spec rfl hexec⟩

end

/-- The free blocks can be read off the journal in the order in which they were put into their lists. In
every state that calls lead to, and for every size, the search comes to an end and passes no block
twice. It finds nothing only if all free blocks are too small. Otherwise the block found is large
enough, in the lowest bucket that has such a block, and of those in that bucket it was put in last. -/
theorem firstFit_best [Host H] [LawfulHost H] {s : Session H} {cs : List Call} (hr : Run cs s) :
    (∃ j, Reports cs (s.rehost (⟨s.heap.host⟩ : Quiet H)) j) ∧
    ∀ j, Reports cs (s.rehost (⟨s.heap.host⟩ : Quiet H)) j →
      j.listed.Perm s.heap.freeSites ∧ Bins.History j.listed s.heap.bins s.heap.arena ∧
      ∀ size, ∃ found seen, s.heap.bins.firstFit s.heap.arena size = .ok found ∧
        s.heap.bins.firstFitSeen s.heap.arena size = .ok (found, seen) ∧
        seen.Nodup ∧ seen ⊆ s.heap.freeSites.map Prod.fst ∧
        (found = none ↔ ∀ e ∈ s.heap.freeSites, e.2 < size) ∧
        ∀ x, found = some x → ∃ n, Bins.Best j.listed size x n := by
  refine ⟨hr.quiet.reports, fun j hj => ?_⟩
  obtain ⟨k, hf, hb⟩ := hj.books
  have hk := hf.valid.settled
  have hfree : (s.rehost (⟨s.heap.host⟩ : Quiet H)).heap.freeSites = k.sites false :=
    hf.shows.freeSites_eq
  have hperm : j.listed.Perm s.heap.freeSites := hfree ▸ hb.perm hk
  have hs : s.heap.bins.Stacks s.heap.arena j.listed := hf.shows.stacks hk hb
  refine ⟨hperm, hs.history, fun size => ?_⟩
  obtain ⟨seen, hseen, hnodup, hsub⟩ := hs.firstFitSeen_eq size
  refine ⟨_, seen, ?_, hseen, hnodup, ?_, ?_, ?_⟩
  · rw [← Bins.firstFitSeen_fst, hseen]
    rfl
  · exact List.Subset.trans hsub (hperm.map Prod.fst).subset
  · rw [Option.map_eq_none_iff, Bins.naive_eq_none_iff]
    exact ⟨fun h e he => h e (hperm.symm.subset he), fun h e he => h e (hperm.subset he)⟩
  · intro x hx
    obtain ⟨⟨_, n⟩, he, rfl⟩ := Option.map_eq_some_iff.mp hx
    exact ⟨n, Bins.best_of_naive (fun e he => hs.size_mod he) he⟩

theorem firstFit_best_freed :
    ∃ (s : Session Reserve) (j : Journal),
      Run [.allocate 24, .allocate 24, .allocate 24, .allocate 24, .free 448, .free 512] s ∧
      Reports [.allocate 24, .allocate 24, .allocate 24, .allocate 24, .free 448, .free 512]
        (s.rehost (⟨s.heap.host⟩ : Quiet Reserve)) j ∧
      s.heap.bins.firstFit s.heap.arena 32 = .ok (some 504) ∧
      (440, 32) ∈ j.listed ∧ Bins.Best j.listed 32 504 32 := by
  obtain ⟨s₁, hr₁, hf₁⟩ := exists_run_allocate
  obtain ⟨s₂, -, hr₂, hf₂⟩ := hf₁.advance (c := .allocate 24) hr₁ trivial (by decide) (by decide)
  obtain ⟨s₃, -, hr₃, hf₃⟩ := hf₂.advance (c := .allocate 24) hr₂ trivial (by decide) (by decide)
  obtain ⟨s₄, -, hr₄, hf₄⟩ := hf₃.advance (c := .allocate 24) hr₃ trivial (by decide) (by decide)
  obtain ⟨s₅, -, hr₅, hf₅⟩ := hf₄.advance (c := .free 448) hr₄ ⟨440, 32, by decide, rfl⟩ (by decide)
    (by decide)
  obtain ⟨s, -, hr, hf⟩ := hf₅.advance (c := .free 512) hr₅ ⟨504, 32, by decide, rfl⟩ (by decide)
    (by decide)
  obtain ⟨⟨j, hj⟩, hall⟩ := firstFit_best hr
  obtain ⟨hperm, -, hsearch⟩ := hall j hj
  obtain ⟨found, -, hfound, -, -, -, -, hbest⟩ := hsearch 32
  have hfree : s.heap.freeSites = [(440, 32), (504, 32), (568, 64)] := by
    rw [hf.shows.freeSites_eq]
    decide
  have hfirst : s.heap.bins.firstFit s.heap.arena 32 = .ok (some 504) := by
    rw [hf.shows.firstFit]
    decide
  rw [hfree] at hperm
  obtain ⟨n, hn⟩ := hbest 504 (Except.ok.inj (hfound.symm.trans hfirst))
  obtain ⟨newer, older, hlisted, -⟩ := hn.latest
  have hin : (504, n) ∈ j.listed := by rw [hlisted]; simp
  obtain rfl : n = 32 := by simpa using hperm.subset hin
  exact ⟨s, j, hr, hj, hfirst, hperm.symm.subset (by simp), hn⟩

end Session

end SegregatedFit
