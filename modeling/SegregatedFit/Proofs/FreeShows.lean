import Mathlib
import SegregatedFit.Proofs.Freeing

/-!
A heap frees as its sketch does, and writes to no payload but the one that is freed.
-/
namespace SegregatedFit.Heap

open Row Memory HeapM

variable {H : Type} {h : Heap H} {k : Sketch H} {d n off x : Nat} {v : Bool} {f g t : Tag} {run : Run}
  {xs ys us : Row} {limit : Stats}

/-- The tail tag of a free block leads back to its head. -/
theorem Shows.prevFree (hs : h.Shows k) (hx : (x, f) ∈ k.blocks) (hf : f.used = false) :
    h.arena.prevFree (x + f.size) = .ok x := by
  have hb := hs.tidy.of_block hx
  have hroom := hs.tidy.room
  obtain ⟨p, hp⟩ := hs.spells.tail hx hf
  have hw : h.arena.HasWord (x + f.size - wordSize) := by
    simp only [alignment, headerSize, minBlock, wordSize] at *
    exact hs.hasWord (by simp only [wordSize]; omega) (by simp only [wordSize]; omega)
  have hm : minus (x + f.size) wordSize = .ok (x + f.size - wordSize) := by
    simp only [minBlock, wordSize] at *
    exact minus_eq_ok (by omega)
  have hd : (Tag.decode (Tag.word ⟨f.size, false, p⟩)).size = f.size := by
    have hlt : f.size < wordLimit := hs.tidy.size_lt hx
    rw [Tag.decode_word (t := ⟨f.size, false, p⟩) hb.2.2.2.1 hlt]
  rw [Arena.prevFree, hm]
  simp only [bind, Except.bind, Arena.word_eq_ok hw, hp, hd]
  rw [minus_eq_ok (Nat.le_add_left _ _), Nat.add_sub_cancel]

theorem mergePrev_meets (hs : h.Shows k) (hk : k.Hole xs [t] ys v)
    (hp : t.prevUsed = lastUsed true xs) (hoff : off = prologueSize + span xs)
    (hl : (k.mergePrev off t).1.stats.Below limit) :
    (mergePrev off t).Meets h limit fun run h' =>
      run = (k.mergePrev off t).2 ∧ h'.Shows (k.mergePrev off t).1 ∧
        SameOff k.Owns h.arena.mem h'.arena.mem := by
  cases hpu : t.prevUsed with
  | true =>
    rw [Sketch.mergePrev_used hpu, mergePrev, if_pos hpu]
    exact meets_pure ⟨rfl, hs, SameOff.refl _⟩
  | false =>
    obtain ⟨xs', f, rfl, hf, -, -⟩ := hk.prev_of_false (hp.symm.trans hpu)
    rw [hk.tidy.mergePrev_free hk.row hoff hpu] at hl ⊢
    have hin := hk.block_prev
    have hbf := hk.tidy.of_block hin
    have hbt := hk.tidy.of_block (mem_located_iff.mpr ⟨xs' ++ [f], ys, hk.row, hoff⟩)
    have hroom := hk.tidy.room
    have hprev : off = prologueSize + span xs' + f.size := by
      rw [hoff, span_append, span_cons, span_nil, Nat.add_zero, Nat.add_assoc]
    rw [mergePrev, if_neg (by simp [hpu])]
    apply meets_view (hprev ▸ hs.prevFree hin hf)
    apply meets_view (hs.tag_eq hin)
    apply meets_unlist hs (hk.entry_prev hf)
    intro h1 hs1 hm1
    apply meets_lift (plus_eq_ok (by omega))
    refine meets_count_shown hs1 hl ?_
    intro h2 hs2 ha2
    exact meets_pure ⟨rfl, hs2, ha2 ▸ hm1⟩

theorem mergeNext_meets (hs : h.Shows k) (hk : k.Digs run xs us ys v x n d)
    (hl : (k.mergeNext run).1.stats.Below limit) :
    (mergeNext run).Meets h limit fun run' h' =>
      run' = (k.mergeNext run).2 ∧ h'.Shows (k.mergeNext run).1 ∧
        SameOff k.Owns h.arena.mem h'.arena.mem := by
  have hh := hk.hole
  have hroom := hh.tidy.room
  have hend := hk.end_eq
  have hrow := hk.row_eq
  have hx : prologueSize + span xs + span us = run.start + run.size := by
    rw [hend, span_append, Nat.add_assoc]
  have htop := hh.top_eq
  rw [hx] at htop
  apply meets_lift (plus_eq_ok (by omega))
  apply meets_get
  cases ys with
  | nil =>
    -- nothing follows the run, so there is no block to merge with and no flag to clear
    rw [List.append_nil] at hrow
    rw [hh.tidy.mergeNext_nil hrow hend, if_pos (by rw [hs.top, htop]; simp)]
    exact meets_pure ⟨rfl, hs, SameOff.refl _⟩
  | cons g ys =>
    have hin := hh.block_next
    rw [hx] at hin
    have hb := hs.tidy.of_block hin
    have hlt : ¬ h.arena.top ≤ run.start + run.size := by
      simp only [minBlock, wordSize] at hb
      rw [hs.top]
      omega
    rw [if_neg hlt]
    apply meets_view (hs.tag_eq hin)
    by_cases hg : g.used = true
    · rw [hh.tidy.mergeNext_used hrow hend hg, if_pos hg]
      refine meets_retag hs hrow hend hg rfl (hs.tidy.unlisted hin hg) ?_
      intro h1 hs1 hm1
      exact meets_pure ⟨rfl, hs1, hm1⟩
    · rw [if_neg hg]
      rw [Bool.not_eq_true] at hg
      rw [hh.tidy.mergeNext_free hrow hend hg] at hl ⊢
      apply meets_unlist hs (hx ▸ hh.entry_next hg)
      intro h1 hs1 hm1
      apply meets_lift (plus_eq_ok (by omega))
      refine meets_count_shown hs1 hl ?_
      intro h2 hs2 ha2
      exact meets_pure ⟨rfl, hs2, ha2 ▸ hm1⟩

theorem release_meets (hs : h.Shows k) (hk : k.Digs run xs us [] v x n d)
    (hl : (k.release run).stats.Below limit) :
    (release run).Meets h limit fun _ h' =>
      h'.Shows (k.release run) ∧ h'.arena.mem = h.arena.mem := by
  rw [hk.release_eq] at hl ⊢
  have hh := hk.hole
  have htop := hh.top_eq
  rw [span_nil, Nat.add_zero, ← hk.size] at htop
  have hroom := hh.tidy.room
  have hlow : h.arena.low ≤ h.arena.top - run.size := by
    rw [hs.low, hs.top]
    omega
  have hshrink : h.arena.shrink run.size =
      .ok { h.arena with top := h.arena.top - run.size, low_le_top := hlow } := by
    rw [Arena.shrink, if_pos (by rw [hs.top]; omega), dif_pos hlow]
  have hs1 : Shows
      { h with arena := { h.arena with top := h.arena.top - run.size, low_le_top := hlow } }
      { k with row := xs ++ ([] ++ []) } := by
    refine hs.refill hh rfl rfl ?_ ?_ (.inl rfl) sized_nil (SameOff.refl _) trivial
    · simp only [List.append_nil, span_nil, hs.top]
      omega
    · simp only [hs.top]
      omega
  rw [List.append_nil, List.append_nil] at hs1
  apply meets_edit hshrink
  apply meets_setTopUsed
  refine meets_count_shown (hs1.setTopUsed true) ((Stats.below_recordHeapSize _ _).trans hl) ?_
  intro h1 hs2 ha1
  refine meets_recordHeapSize_shown hs2 ?_
  intro h2 hs3 ha2
  apply meets_get
  apply Meets.last
  refine meets_note (meets_pure ⟨hs3, ?_⟩)
  rw [ha2, ha1]

theorem list_meets (hs : h.Shows k) (hk : k.Digs run xs us ys v x n d) :
    (list run).Meets h limit fun _ h' =>
      h'.Shows (k.list run) ∧ SameOff (k.list run).Owns h.arena.mem h'.arena.mem := by
  rw [hk.list_eq]
  have hh := hk.hole
  have hz := hk.sized_run
  have htop := hh.top_eq
  have hroom := hh.tidy.room
  have hstart := hk.start
  have hmod := hh.sized.1.span_mod
  have hsize := hk.size
  have hn : minBlock ≤ run.size := hz.1
  simp only [minBlock, wordSize, alignment] at hz hmod
  have hw1 : h.arena.HasWord run.start := by
    rw [prologueSize_eq] at *
    exact hs.hasWord (by simp only [wordSize]; omega) (by simp only [wordSize]; omega)
  have hw2 : h.arena.HasWord (run.start + run.size - wordSize) := by
    rw [prologueSize_eq] at *
    exact hs.hasWord (by simp only [wordSize]; omega) (by simp only [wordSize]; omega)
  have hm := sameOff_setFree (t := ⟨run.size, false, true⟩) h.arena.mem run.start hn
  -- the run is one block from here on, before any list knows of it
  have hs1 : Shows
      { h with arena := h.arena.mapMem (·.setFree run.start ⟨run.size, false, true⟩) }
      { k with row := xs ++ ([⟨run.size, false, true⟩] ++ ys) } := by
    refine hs.refill hh hstart rfl ?_ (hs.top ▸ hroom) (.inr ?_) ?_ hm (spells_setFree _ _ hn)
    · simp only [Arena.mapMem_top, hs.top, htop, span_append, span_cons, span_nil]
      omega
    · rw [span_cons, span_nil, hsize, Nat.add_zero]
    · exact sized_cons.mpr ⟨⟨hn, hz.2⟩, sized_nil⟩
  have hsite : (run.start, run.size) ∈
      Row.sites false prologueSize (xs ++ (⟨run.size, false, true⟩ : Tag) :: ys) := by
    simp [sites_append, sites_cons, hstart]
  apply meets_edit (by rw [hk.prevUsed]; exact writeFree_eq hw1 hw2 hn hz.2 true)
  refine meets_enlist hs1 hsite hk.fresh ?_
  intro h1 hs2 hm1
  apply Meets.last
  refine meets_note (meets_pure ⟨hs2, (hm.mono ?_).trans hm1⟩)
  rintro j ⟨h1, h2⟩
  exact Sketch.owns_of_free hsite h1 h2

theorem settleRun_meets (hs : h.Shows k) (hk : k.Digs run xs us ys false x n d)
    (hl : (k.settleRun run).stats.Below limit) :
    HeapM.Meets (do
      if (← plus run.start run.size) = (← get).arena.top then release run else list run : HeapM H Unit)
      h limit fun _ h' =>
        h'.Shows (k.settleRun run) ∧ SameOff (k.settleRun run).Owns h.arena.mem h'.arena.mem := by
  have hle : run.start + run.size ≤ k.top := by
    have := hk.hole.top_eq
    rw [hk.start, hk.size]
    omega
  have hroom := hk.hole.tidy.room
  apply meets_lift (plus_eq_ok (by omega))
  apply meets_get
  rw [hs.top]
  unfold Sketch.settleRun at hl ⊢
  by_cases hend : run.start + run.size = k.top
  · obtain rfl := hk.end_iff.mp hend
    rw [if_pos hend] at hl ⊢
    rw [if_pos hend]
    refine (release_meets hs hk hl).mono ?_
    rintro _ h1 ⟨hs1, hm1⟩
    refine ⟨hs1, ?_⟩
    rw [hm1]
    exact SameOff.refl _
  · rw [if_neg hend] at hl ⊢
    rw [if_neg hend]
    exact list_meets hs hk

theorem freeBlock_meets (hs : h.Shows k) (hk : k.Charged) (hx : (x, n) ∈ k.sites true)
    (hl : (k.freeBlock x).stats.Below limit) :
    (freeBlock x).Meets h limit fun _ h' =>
      h'.Shows (k.freeBlock x) ∧ SameOff (k.freeBlock x).Owns h.arena.mem h'.arena.mem := by
  have hperm := (hk.freeBlock hx).2.1
  have hle := hk.size_le hx
  obtain ⟨t, ht, hu, rfl⟩ := mem_sites_iff.mp hx
  obtain ⟨xs, ys, hrow, hxs⟩ := mem_located_iff.mp ht
  have hh : (k.discharge t.size).Hole xs [t] ys true := (hk.settled.hole_used hrow hu).congr rfl rfl
  obtain ⟨xs', us, hd1⟩ := hk.settled.mergePrev_digs hrow hxs hu
  obtain ⟨us', ys', hd2, hs2, -⟩ := hd1.mergeNext
  have hown : ∀ i, k.Owns i → (k.freeBlock x).Owns i := fun i hi =>
    hi.mono fun s hm => hperm.symm.subset (List.mem_cons_of_mem _ hm)
  have hown1 : ((k.discharge t.size).mergePrev x t).1.sites true = k.sites true := by
    rw [Sketch.sites, Sketch.row_mergePrev]
    rfl
  rw [hk.settled.tidy.freeBlock_eq hrow hxs] at hl
  have hl2 := (Sketch.settleRun_rise _ _).below.trans hl
  have hl1 := (Sketch.mergeNext_rise _ _).below.trans hl2
  apply meets_view (hs.tag_eq ht)
  rw [if_neg (by simp [hu])]
  refine meets_discharge_shown hs hle ?_
  intro h0 hs0 ha0
  refine (mergePrev_meets hs0 hh (hk.settled.prevUsed_eq hrow) hxs hl1).bind ?_
  rintro _ h1 ⟨rfl, hs1, hm1⟩
  rw [ha0] at hm1
  refine (mergeNext_meets hs1 hd1 hl2).bind ?_
  rintro _ h2 ⟨rfl, hs2', hm2⟩
  refine (settleRun_meets hs2' hd2 hl).mono ?_
  rintro _ h3 ⟨hs3, hm3⟩
  rw [← hk.settled.tidy.freeBlock_eq hrow hxs] at hs3 hm3
  refine ⟨hs3, SameOff.trans (hm1.mono hown) (.trans (hm2.mono fun i hi => hown i ?_) hm3)⟩
  exact fun y m hy => hi y m (hown1 ▸ hy)

theorem free_meets (hs : h.Shows k) (hk : k.Charged) (hx : (x, n) ∈ k.sites true)
    (hl : (k.free (x + headerSize)).stats.Below limit) :
    (free (x + headerSize)).Meets h limit fun _ h' =>
      h'.Shows (k.free (x + headerSize)) ∧
        SameOff (k.freeBlock x).Owns h.arena.mem h'.arena.mem := by
  have hset := (hk.freeBlock hx).1.settled
  obtain ⟨t, ht, -, -⟩ := mem_sites_iff.mp hx
  rw [Sketch.free, Nat.add_sub_cancel] at hl ⊢
  refine (blockAt_meets hs ht).bind ?_
  rintro _ _ ⟨rfl, rfl⟩
  refine (freeBlock_meets hs hk hx ((Stats.below_bump _ _).trans hl)).bind ?_
  rintro _ h1 ⟨hs1, hm1⟩
  refine meets_count_shown hs1 hl ?_
  intro h2 hs2 ha2
  apply Meets.last
  apply meets_verify hs2 (hset.congr rfl rfl rfl)
  exact meets_pure ⟨hs2, ha2 ▸ hm1⟩

end SegregatedFit.Heap
