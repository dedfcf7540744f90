import Mathlib
import SegregatedFit.Proofs.Moving
import SegregatedFit.Proofs.Reordering

/-!
An allocation taken back. Wherever the new block came from, to free it leaves the used blocks as they
were, and with them the free blocks between them: a remainder that was cut off merges again, and a
block taken whole is listed again. Only what lay free at the top does not come back once it was cut or
grown over: the heap then ends with its last used block.
-/
namespace SegregatedFit

open Row

namespace Row

variable {e n off x : Nat} {ts : Row}

theorem lastEnd_le_iff : lastEnd off ts ≤ e ↔ off ≤ e ∧ ∀ x n, (x, n) ∈ sites true off ts → x + n ≤ e := by
  induction ts using List.reverseRecOn with
  | nil => simp [lastEnd]
  | append_singleton xs t ih =>
    cases ht : t.used with
    | false =>
      have hsites : sites true off (xs ++ [t]) = sites true off xs := by
        simp [sites_append, sites_cons, ht]
      rw [lastEnd, hsites]
      exact ih
    | true =>
      have hlast : lastUsed true (xs ++ [t]) = true := by rw [lastUsed_append]; exact ht
      rw [lastEnd_of_lastUsed hlast]
      constructor
      · intro hle
        exact ⟨by omega, fun x n hx => (sites_bounds hx).2.trans hle⟩
      · rintro ⟨-, hall⟩
        have hend := hall (off + span xs) t.size (by simp [sites_append, sites_cons, ht])
        simpa [Nat.add_assoc] using hend

end Row

namespace Sketch

variable {H : Type} {k k₁ : Sketch H} {e n request size x : Nat} {t : Tag} {xs : Row}

theorem usedEnd_le_iff : k.usedEnd ≤ e ↔ prologueSize ≤ e ∧ ∀ x n, (x, n) ∈ k.sites true → x + n ≤ e :=
  lastEnd_le_iff

theorem le_usedEnd (hx : (x, n) ∈ k.sites true) : x + n ≤ k.usedEnd :=
  (usedEnd_le_iff.mp (Nat.le_refl _)).2 x n hx

theorem usedEnd_le_top (k : Sketch H) : k.usedEnd ≤ k.top :=
  usedEnd_le_iff.mpr ⟨k.prologueSize_le_top, fun _ _ hx => (sites_bounds hx).2⟩

/-- A block above all others that are used goes with what is free around it. One below another used block
gives back the space it was taken from. -/
theorem Charged.freeBlock_yielded (hk : k.Charged) (hk₁ : k₁.Charged) (hy : k.Yields k₁ x size)
    (hs : k.Source k₁ x) :
    (k₁.freeBlock x).sites true = k.sites true ∧
      (k.usedEnd ≤ x → (k₁.freeBlock x).top = k.usedEnd) ∧ (x < k.usedEnd → (k₁.freeBlock x).top = k.top) := by
  have hx := hy.site
  have hmin := (hk₁.settled.tidy.of_site hx).2.2.1
  simp only [minBlock, wordSize] at hmin
  obtain ⟨hk₂, hp, -⟩ := hk₁.freeBlock hx
  have hsites : (k₁.freeBlock x).sites true = k.sites true :=
    hk₂.settled.tidy.sites_eq_of_perm hk.settled.tidy (hp.symm.trans hy.2).cons_inv
  have htrims := hk₁.settled.freeBlock_trims hx
  rw [Trims, usedEnd_congr hsites] at htrims
  refine ⟨hsites, fun hle => ?_, fun hlt => ?_⟩
  · have hend := le_usedEnd hx
    rcases htrims with ⟨he, -⟩ | ⟨-, htop⟩
    · omega
    · exact htop
  · -- another used block ends after `x`, and so it lies above it
    obtain ⟨y, m, hy', hlt'⟩ : ∃ y m, (y, m) ∈ k.sites true ∧ x < y + m := by
      by_contra hno
      push Not at hno
      exact absurd (usedEnd_le_iff.mpr ⟨(hk₁.settled.tidy.of_site hx).1, hno⟩) (Nat.not_le.mpr hlt)
    have hxy : x < y := by
      have hne := hy.ne hk₁.settled.tidy hy'
      rcases sites_apart hx (hy.kept hy') with h | h | h <;> omega
    have htop := congrArg Gauge.top (hk₁.settled.gauge_freeBlock_of_lt hx (hy.kept hy') hxy)
    rcases hs with ⟨-, hsame⟩ | ⟨rfl, -⟩
    · exact htop.trans hsame
    · exact absurd k.usedEnd_le_top (Nat.not_le.mpr hlt)

theorem Settled.row_eq (hk₁ : k₁.Settled) (hk : k.Settled) (hsites : k₁.sites true = k.sites true)
    (htop : k₁.top = k.top) : k₁.row = k.row :=
  eq_of_sites hk₁.tidy.sized hk.tidy.sized hk₁.flagged hk.flagged hk₁.merged hk.merged hsites
    (Nat.add_left_cancel htop)

theorem Settled.usedEnd_eq_top (hk : k.Settled) (htop : k.topUsed = true) : k.usedEnd = k.top :=
  lastEnd_of_lastUsed (hk.topUsed.symm.trans htop)

theorem Settled.usedEnd_of_free (hk : k.Settled) (hrow : k.row = xs ++ [t]) (ht : t.used = false) :
    k.usedEnd = prologueSize + span xs ∧ lastUsed true xs = true := by
  have hf := hk.flagged
  have hm := hk.merged
  rw [hrow] at hf hm
  have hlast : lastUsed true xs = true :=
    (flagged_append.mp hf).2.1.symm.trans ((hm t (by simp)).resolve_left (by simp [ht]))
  have hsites : Row.sites true prologueSize (xs ++ [t]) = Row.sites true prologueSize xs := by
    simp [sites_append, sites_cons, ht]
  refine ⟨?_, hlast⟩
  rw [usedEnd, hrow, lastEnd, hsites]
  exact lastEnd_of_lastUsed hlast

theorem Settled.row_of_usedEnd (hk₁ : k₁.Settled) (hk : k.Settled) (hsites : k₁.sites true = k.sites true)
    (htop : k₁.top = k.usedEnd) (hrow : k.row = xs ++ [t]) (ht : t.used = false) : k₁.row = xs := by
  have hz := hk.tidy.sized
  have hf := hk.flagged
  have hm := hk.merged
  have hbefore : Row.sites true prologueSize k₁.row = Row.sites true prologueSize xs := by
    rw [← sites, hsites, sites, hrow]
    simp [sites_append, sites_cons, ht]
  rw [hrow] at hz hf hm
  exact eq_of_sites hk₁.tidy.sized (sized_append.mp hz).1 hk₁.flagged (flagged_append.mp hf).1 hk₁.merged
    (merged_append.mp hm).1 hbefore (Nat.add_left_cancel (htop.trans (hk.usedEnd_of_free hrow ht).1))

theorem Settled.usedEnd_le_iff_source (hk : k.Settled) (hsrc : k.Source k₁ x) (hrow : k.row = xs ++ [t])
    (ht : t.used = false) : k.usedEnd ≤ x ↔ x = prologueSize + span xs ∨ k.top < k₁.top := by
  have hend := (hk.usedEnd_of_free hrow ht).1
  constructor
  · intro hle
    rcases hsrc with ⟨⟨n, hx⟩, -⟩ | ⟨-, htop⟩
    · have hn := (hk.tidy.of_site hx).2.2.1
      simp only [minBlock, wordSize] at hn
      rw [sites, hrow, sites_append] at hx
      rcases List.mem_append.mp hx with hx | hx
      · have hb := (sites_bounds hx).2
        omega
      · rw [sites_cons, if_pos ht] at hx
        simp only [sites_nil, List.mem_singleton, Prod.mk.injEq] at hx
        exact .inl hx.1
    · exact .inr htop
  · rintro (hx | htop)
    · omega
    · rcases hsrc with ⟨-, hsame⟩ | ⟨rfl, -⟩
      · omega
      · exact k.usedEnd_le_top

theorem Settled.exists_concat_of_free (hk : k.Settled) (htop : k.topUsed = false) :
    ∃ xs t, k.row = xs ++ [t] ∧ t.used = false := by
  rw [hk.topUsed] at htop
  rcases List.eq_nil_or_concat' k.row with hnil | ⟨xs, t, hrow⟩
  · rw [hnil] at htop
    cases htop
  · rw [hrow, lastUsed_append] at htop
    exact ⟨xs, t, hrow, htop⟩

end Sketch

namespace Session

variable {H : Type} {s s' : Session H} {cs : List Call} {k : Sketch H} {ptr request x : Nat} {t : Tag}

/-- The allocation of `ptr` that led to `s'` was served from the free block `t` at `x`, the one at the
top, or by growth above it. -/
def UsesUp (s s' : Session H) (ptr x : Nat) (t : Tag) : Prop :=
  s.heap.blocks.getLast? = some (x, t) ∧ t.used = false ∧
    (ptr = x + headerSize ∨ s.heap.arena.top < s'.heap.arena.top)

/-- What is left of the allocation of `ptr`, which led from `s` to `s'`, in `s₂`: at most that a free
block at the top is gone. -/
structure Undoes (s s' : Session H) (ptr : Nat) (s₂ : Session H) : Prop where
  used : s₂.heap.blocks.filter (·.2.used) = s.heap.blocks.filter (·.2.used)
  bytes : ∀ x t, (x, t) ∈ s.heap.blocks → t.used = true → ∀ i, x + headerSize ≤ i → i < x + t.size →
    s₂.byte i = s.byte i
  inUse : s₂.heap.stats.bytesInUse = s.heap.stats.bytesInUse
  usedUp : ∀ x t, s.UsesUp s' ptr x t → s.heap.blocks = s₂.heap.blocks ++ [(x, t)] ∧
    s₂.heap.arena.top + t.size = s.heap.arena.top ∧ s₂.heap.topUsed = true
  restored : (∀ x t, ¬ s.UsesUp s' ptr x t) →
    s₂.heap.blocks = s.heap.blocks ∧ s₂.heap.arena.top = s.heap.arena.top
  top_le : s₂.heap.arena.top ≤ s.heap.arena.top

theorem getLast?_blocks (hs : s.heap.Shows k) :
    s.heap.blocks.getLast? = some (x, t) ↔ ∃ xs, k.row = xs ++ [t] ∧ x = prologueSize + span xs := by
  rw [hs.blocks_eq, Sketch.blocks]
  rcases List.eq_nil_or_concat' k.row with hnil | ⟨xs, u, hrow⟩
  · simp [hnil, located]
  · rw [hrow, located_append]
    simp only [located, List.getLast?_append, List.getLast?_singleton, Option.some_or, Option.some.injEq,
      Prod.mk.injEq, List.append_singleton_inj]
    constructor
    · rintro ⟨rfl, rfl⟩
      exact ⟨xs, ⟨rfl, rfl⟩, rfl⟩
    · rintro ⟨_, ⟨rfl, rfl⟩, rfl⟩
      exact ⟨rfl, rfl⟩

variable [Host H]

theorem Follows.undoes {cs' : List Call} {s₂ : Session H} {k₁ k₂ : Sketch H} {size : Nat}
    (hf : s.Follows cs k) (htop₁ : s'.heap.arena.top = k₁.top) (hk₁ : k₁.Charged) (hy : k.Yields k₁ x size)
    (hsrc : k.Source k₁ x) (hf₂ : s₂.Follows cs' k₂) (hrow₂ : k₂.row = (k₁.freeBlock x).row)
    (hbytes : ∀ y n, (y, n) ∈ k.sites true → ∀ i, y + headerSize ≤ i → i < y + n → s₂.byte i = s.byte i) :
    s.Undoes s' (x + headerSize) s₂ := by
  have hk := hf.valid.settled
  have hk₂ := hf₂.valid.settled
  have htop : s.heap.arena.top = k.top := hf.shows.top
  have htop₂ : s₂.heap.arena.top = k₂.top := hf₂.shows.top
  obtain ⟨hsites, habove, hbelow⟩ := hf.valid.charged.freeBlock_yielded hk₁ hy hsrc
  rw [Sketch.sites, ← hrow₂] at hsites
  rw [Sketch.top, ← hrow₂] at habove hbelow
  -- what is freed lies above all used blocks: the free block at the top goes down with it
  have hgone (y : Nat) (t : Tag) (hlast : s.heap.blocks.getLast? = some (y, t)) (ht : t.used = false)
      (hx : k.usedEnd ≤ x) : s.heap.blocks = s₂.heap.blocks ++ [(y, t)] ∧
        s₂.heap.arena.top + t.size = s.heap.arena.top ∧ s₂.heap.topUsed = true := by
    obtain ⟨xs, hrow, rfl⟩ := (getLast?_blocks hf.shows).mp hlast
    have hxs := hk₂.row_of_usedEnd hk hsites (habove hx) hrow ht
    refine ⟨?_, ?_, ?_⟩
    · rw [hf.shows.blocks_eq, hf₂.shows.blocks_eq, Sketch.blocks, Sketch.blocks, hrow, hxs, located_append]
      rfl
    · rw [htop, htop₂, Sketch.top, Sketch.top, hrow, hxs, span_append, span_cons, span_nil]
      omega
    · rw [hf₂.shows.topUsed, hk₂.topUsed, hxs]
      exact (hk.usedEnd_of_free hrow ht).2
  -- the used blocks and the top tell the whole heap
  have hsame (ht : k₂.top = k.top) :
      s₂.heap.blocks = s.heap.blocks ∧ s₂.heap.arena.top = s.heap.arena.top := by
    rw [hf.shows.blocks_eq, hf₂.shows.blocks_eq, Sketch.blocks, Sketch.blocks, hk₂.row_eq hk hsites ht, htop,
      htop₂, ht]
    exact ⟨rfl, rfl⟩
  have huses (y : Nat) (t : Tag) : s.UsesUp s' (x + headerSize) y t ↔
      s.heap.blocks.getLast? = some (y, t) ∧ t.used = false ∧ k.usedEnd ≤ x := by
    rw [UsesUp, htop, htop₁, Nat.add_left_inj]
    refine and_congr_right fun hlast => and_congr_right fun ht => ?_
    obtain ⟨xs, hrow, rfl⟩ := (getLast?_blocks hf.shows).mp hlast
    exact (hk.usedEnd_le_iff_source hsrc hrow ht).symm
  have hnone (hno : ∀ y t, ¬ s.UsesUp s' (x + headerSize) y t) : k₂.top = k.top := by
    by_cases hx : x < k.usedEnd
    · exact hbelow hx
    cases hu : k.topUsed with
    | true => exact (habove (Nat.not_lt.mp hx)).trans (hk.usedEnd_eq_top hu)
    | false =>
      obtain ⟨xs, t, hrow, ht⟩ := hk.exists_concat_of_free hu
      exact absurd ((huses _ t).mpr ⟨(getLast?_blocks hf.shows).mpr ⟨xs, hrow, rfl⟩, ht, Nat.not_lt.mp hx⟩)
        (hno _ t)
  constructor
  case used =>
    by_cases hup : ∃ y t, s.UsesUp s' (x + headerSize) y t
    · obtain ⟨y, t, hup⟩ := hup
      obtain ⟨hlast, ht, hx⟩ := (huses y t).mp hup
      simp [(hgone y t hlast ht hx).1, ht]
    · rw [(hsame (hnone fun y t h => hup ⟨y, t, h⟩)).1]
  case bytes =>
    intro y t hyt hu
    rw [hf.shows.blocks_eq] at hyt
    exact hbytes y t.size (mem_sites_iff.mpr ⟨t, hyt, hu, rfl⟩)
  case inUse =>
    rw [hf.shows.stats, hf₂.shows.stats, hf.valid.inUse, hf₂.valid.inUse, usedBytes_eq prologueSize, hsites,
      usedBytes_eq prologueSize k.row, Sketch.sites]
  case usedUp =>
    intro y t hup
    obtain ⟨hlast, ht, hx⟩ := (huses y t).mp hup
    exact hgone y t hlast ht hx
  case restored => exact fun hno => hsame (hnone hno)
  case top_le =>
    rw [htop, htop₂]
    by_cases hx : x < k.usedEnd
    · exact (hbelow hx).le
    · exact (habove (Nat.not_lt.mp hx)).trans_le k.usedEnd_le_top

variable [LawfulHost H]

/-- To free what was just allocated undoes the allocation. The used blocks and the bytes in them are as
before, and so are the free blocks; only a free block at the top is gone where the allocation was
served from it or by growth, and then the heap ends below it. -/
theorem step_allocate_undone (hs : s.Reachable)
    (h : s.step (.allocate request) = .ok (.ok (some ptr), s')) :
    s'.Ends (.free ptr) Sketch.callRise fun a s₂ => a = .ok none ∧ s.Undoes s' ptr s₂ := by
  obtain ⟨cs, hr⟩ := hs
  obtain ⟨k, hf⟩ := hr.follows
  obtain ⟨x, k₁, -, hout, rfl, hf', -, -⟩ := hf.of_allocated h
  obtain ⟨hk₁, hy, -⟩ := hf.valid.charged.allocateBlock_ok hout
  have hsrc := hf.valid.settled.allocateBlock_source hout
  have hfree : (k₁.count .allocations).free (x + headerSize) =
      ((k₁.count .allocations).freeBlock x).count .frees := by
    rw [Sketch.free, Nat.add_sub_cancel]
  have hallow := hf'.allows (c := .free (x + headerSize)) ⟨x, k₁.sizeAt x, hy.site, rfl⟩
  refine hf'.ends hallow (fun d => ?_) fun s₂ hstep hf₂ => ⟨rfl, ?_⟩
  · change ((k₁.count .allocations).free (x + headerSize)).stats.get d ≤ _
    rw [hfree]
    exact ((Sketch.freeBlock_rise _ x).trans (Stats.rise_bump _ .frees) d).2
  · change s₂.Follows _ ((k₁.count .allocations).free (x + headerSize)) at hf₂
    rw [hfree] at hf₂
    have htop : s'.heap.arena.top = (k₁.count .allocations).top := hf'.shows.top
    refine hf.undoes htop (hk₁.count .allocations) hy hsrc hf₂ rfl ?_
    intro y n hyn i hle hlt
    have hne : y ≠ x := hy.ne hk₁.settled.tidy hyn
    have hkept := (hf.of_step (c := .allocate request) trivial h).1.kept y n hyn id i hle hlt
    have hkept₂ := (hf'.of_step hallow hstep).1.kept y n (hy.kept hyn)
      (fun ht => hne (Nat.add_right_cancel ht).symm) i hle hlt
    exact hkept₂.trans hkept

theorem step_allocate_undone_rest :
    ∃ s s' s₂ : Session Reserve, Run [.allocate 24] s ∧
      s.step (.allocate 24) = .ok (.ok (some 480), s') ∧ s'.step (.free 480) = .ok (.ok none, s₂) ∧
      s.UsesUp s' 480 472 ⟨160, false, true⟩ ∧ s.Undoes s' 480 s₂ ∧ s₂.heap.arena.top = 472 := by
  obtain ⟨s, hr, hf⟩ := exists_run_allocate
  obtain ⟨s', hstep, hr', hf'⟩ := hf.advance (c := .allocate 24) hr trivial (by decide) (by decide)
  have hadm : ((((Sketch.empty (Reserve.full 4096) .checked).perform (.allocate 24)).2.perform
      (.allocate 24)).2).Admits (.free 480) := ⟨472, 32, by decide, rfl⟩
  obtain ⟨s₂, hstep₂, -, -⟩ := hf'.advance hr' hadm (by decide) (by decide)
  obtain ⟨-, hundoes⟩ := (step_allocate_undone ⟨_, hr⟩ hstep).of_ok hstep₂
  have hup : s.UsesUp s' 480 472 ⟨160, false, true⟩ := by
    refine ⟨?_, rfl, .inl rfl⟩
    rw [hf.shows.blocks_eq]
    decide
  have htop : s.heap.arena.top = 632 := by rw [hf.shows.top]; decide
  obtain ⟨-, hend, -⟩ := hundoes.usedUp _ _ hup
  refine ⟨s, s', s₂, hr, hstep, hstep₂, hup, hundoes, ?_⟩
  rw [htop] at hend
  exact Nat.add_right_cancel hend

end Session

end SegregatedFit
