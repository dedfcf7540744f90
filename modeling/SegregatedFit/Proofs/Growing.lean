import Mathlib
import SegregatedFit.Proofs.Settled
import SegregatedFit.Proofs.Shows

/-!
Growth: what the host grants becomes blocks at the end of the row, and a refusal changes no more than
the host.
-/
namespace SegregatedFit

open Row Memory

variable {H : Type}

theorem Host.room_of_secure [Host H] {host host' : H} {top delta : Nat}
    (h : Host.secure host top delta = (.ok (), host')) : top + delta < wordLimit := by
  unfold Host.secure at h
  split at h
  · cases h
  · next hlim => exact Nat.not_le.mp hlim

theorem Host.of_secure_ok [Host H] [LawfulHost H] {host host' : H} {top delta : Nat}
    (h : Host.secure host top delta = (.ok (), host')) :
    top + delta < wordLimit ∧ top + delta ≤ Host.committed host' ∧
      Host.committed host ≤ Host.committed host' := by
  refine ⟨room_of_secure h, ?_⟩
  unfold Host.secure at h
  split at h
  · cases h
  · next hlim =>
    split at h
    · next hc =>
      obtain ⟨hg, rfl⟩ := Prod.mk.inj h
      cases hx : (Host.extend host (top + delta - Host.committed host)).granted with
      | error r => rw [hx] at hg; cases hg
      | ok start =>
        have := (LawfulHost.of_granted (by omega) hx).2
        omega
    · next hc =>
      cases h
      exact ⟨Nat.not_lt.mp hc, Nat.le_refl _⟩

theorem Host.of_secure_error [Host H] [LawfulHost H] {host host' : H} {top delta : Nat} {r : Refusal}
    (h : Host.secure host top delta = (.error r, host')) :
    Host.committed host' = Host.committed host := by
  unfold Host.secure at h
  split at h
  · cases h; rfl
  · split at h
    · obtain ⟨hg, rfl⟩ := Prod.mk.inj h
      cases hx : (Host.extend host (top + delta - Host.committed host)).granted with
      | error s => exact LawfulHost.of_refused hx
      | ok start => rw [hx] at hg; cases hg
    · cases h

theorem chunkFor_spec {size : Nat} (hs : minBlock ≤ size ∧ size % alignment = 0) :
    size ≤ chunkFor size ∧ (chunkFor size - size) % alignment = 0 ∧
      (size < chunkFor size → minBlock ≤ chunkFor size - size) := by
  obtain ⟨h1, h2⟩ := hs
  have hc : minChunk = 544 := rfl
  have ht : tinyChunk = 192 := rfl
  have hm : minSplit = 64 := rfl
  simp only [chunkFor, hc, ht, hm, minBlock, wordSize, alignment] at *
  split <;> split <;> omega

theorem Host.chunk_of_secureChunk [Host H] {host host' : H} {top size chunk : Nat}
    (hs : minBlock ≤ size ∧ size % alignment = 0)
    (h : Host.secureChunk host top size = (.ok chunk, host')) :
    top + chunk < wordLimit ∧ size ≤ chunk ∧ (chunk - size) % alignment = 0 ∧
      (size < chunk → minBlock ≤ chunk - size) := by
  unfold Host.secureChunk at h
  split at h
  · next host1 h1 =>
    cases h
    exact ⟨room_of_secure h1, chunkFor_spec hs⟩
  · split at h
    · split at h
      · next host2 h2 =>
        cases h
        exact ⟨room_of_secure h2, Nat.le_refl _, by simp, by omega⟩
      · cases h
    · cases h

theorem Host.of_secureChunk_ok [Host H] [LawfulHost H] {host host' : H} {top size chunk : Nat}
    (h : Host.secureChunk host top size = (.ok chunk, host')) :
    top + chunk ≤ Host.committed host' ∧ Host.committed host ≤ Host.committed host' := by
  unfold Host.secureChunk at h
  split at h
  · next host1 h1 =>
    cases h
    exact (Host.of_secure_ok h1).2
  · next r host1 h1 =>
    have hc := Host.of_secure_error h1
    split at h
    · split at h
      · next host2 h2 =>
        cases h
        exact hc ▸ (Host.of_secure_ok h2).2
      · cases h
    · cases h

theorem Host.of_secureChunk_error [Host H] [LawfulHost H] {host host' : H} {top size : Nat}
    {r : Refusal} (h : Host.secureChunk host top size = (.error r, host')) :
    Host.committed host' = Host.committed host := by
  unfold Host.secureChunk at h
  split at h
  · cases h
  · next r1 host1 h1 =>
    have hc := Host.of_secure_error h1
    split at h
    · split at h
      · cases h
      · next r2 host2 h2 =>
        cases h
        exact (Host.of_secure_error h2).trans hc
    · cases h
      exact hc

namespace Sketch

variable {k : Sketch H} {size chunk : Nat}

theorem Settled.hole_end (hk : k.Settled) : k.Hole k.row [] [] (lastUsed true k.row) :=
  hk.hole (List.append_nil _).symm

theorem host_carve (k : Sketch H) (size chunk : Nat) : (k.carve size chunk).host = k.host := by
  unfold carve
  split <;> rfl

theorem top_carve (k : Sketch H) (hle : size ≤ chunk) : (k.carve size chunk).top = k.top + chunk := by
  unfold carve
  split <;> simp [top] <;> omega

theorem Settled.carve (hk : k.Settled) (hsize : minBlock ≤ size ∧ size % alignment = 0)
    (hle : size ≤ chunk) (hmod : (chunk - size) % alignment = 0)
    (hrest : size < chunk → minBlock ≤ chunk - size) (hroom : k.top + chunk < wordLimit) :
    (k.carve size chunk).Settled := by
  have hh := hk.hole_end
  have htop : k.top = prologueSize + span k.row := rfl
  by_cases hlt : size < chunk
  · have hfresh : ∀ b, k.top + size ∉ k.lists b := hh.fresh (by omega) (.inl rfl)
    rw [Sketch.carve, if_pos hlt]
    refine hh.fill (r := [⟨size, true, k.topUsed⟩, ⟨chunk - size, false, true⟩]) (by rfl) ?_ ?_
      (.inl rfl) ?_ ⟨hk.topUsed, rfl, trivial⟩ (.inl rfl) ?_ ?_ ?_
    · change false = _
      simp [lastUsed]
    · change prologueSize + span (k.row ++ [_, _]) < _
      simp only [span_append, span_cons, span_nil]
      omega
    · exact sized_cons.mpr ⟨hsize, sized_cons.mpr ⟨⟨hrest hlt, hmod⟩, sized_nil⟩⟩
    · simp [Merged]
    · intro b y
      exact mem_enlist_iff
    · exact nodup_enlist hh.tidy.nodup hfresh _
  · rw [Sketch.carve, if_neg hlt]
    refine hh.fill (r := [⟨size, true, k.topUsed⟩]) (by rfl) ?_ ?_ (.inl rfl) ?_
      ⟨hk.topUsed, trivial⟩ (.inl rfl) ?_ ?_ hh.tidy.nodup
    · change true = _
      simp [lastUsed]
    · change prologueSize + span (k.row ++ [_]) < _
      simp only [span_append, span_cons, span_nil]
      omega
    · exact sized_cons.mpr ⟨hsize, sized_nil⟩
    · simp [Merged]
    · intro b y
      simp [sites_cons]
      rfl

theorem Settled.extend [Host H] (hk : k.Settled)
    (hsize : minBlock ≤ size ∧ size % alignment = 0) : (k.extend size).2.Settled := by
  unfold Sketch.extend
  split
  · exact hk.congr rfl rfl rfl
  · next chunk host hc =>
    obtain ⟨h1, h2, h3, h4⟩ := Host.chunk_of_secureChunk hsize hc
    have hk' : Settled { k with host } := hk.congr rfl rfl rfl
    exact hk'.carve hsize h2 h3 h4 h1

end Sketch

namespace Heap

open HeapM

variable {h : Heap H} {k : Sketch H} {x size chunk delta : Nat} {limit : Stats}

theorem cover_meets [Host H] (h : Heap H) (top : Nat) :
    (cover top).Meets h limit fun r h' => ∃ host, h' = { h with host } ∧
      (r, host) = if Host.committed h.host < top then
          ((Host.extend h.host (top - Host.committed h.host)).granted.map fun _ => (),
            (Host.extend h.host (top - Host.committed h.host)).host)
        else (.ok (), h.host) := by
  apply meets_get
  by_cases hc : Host.committed h.host < top
  · rw [if_pos hc, if_pos hc]
    refine meets_bind_step (fun j => by rw [exec_commit]) ?_
    exact meets_pure ⟨_, rfl, rfl⟩
  · rw [if_neg hc, if_neg hc]
    exact meets_pure ⟨_, rfl, rfl⟩

/-- Growth raises the top where the host covers it, and changes no more than the host if not. -/
theorem grow_meets [Host H] (h : Heap H) (delta : Nat) :
    (grow delta).Meets h limit fun r h' =>
      match Host.secure h.host h.arena.top delta with
      | (.ok (), host) => r = .ok h.arena.top ∧ h' = { h with host, arena := h.arena.raise delta }
      | (.error reason, host) => r = .error reason ∧ h' = { h with host } := by
  apply meets_get
  unfold Host.secure
  by_cases hlim : wordLimit ≤ h.arena.top + delta
  · rw [if_pos hlim, if_pos hlim]
    exact meets_pure ⟨rfl, rfl⟩
  rw [if_neg hlim, if_neg hlim]
  refine (cover_meets h _).bind ?_
  rintro r _ ⟨host, rfl, hr⟩
  by_cases hc : Host.committed h.host < h.arena.top + delta
  · rw [if_pos hc] at hr ⊢
    obtain ⟨rfl, rfl⟩ := Prod.mk.inj hr
    cases hg : (Host.extend h.host (h.arena.top + delta - Host.committed h.host)).granted with
    | error reason =>
      apply meets_pure
      simp only [hg]
      exact ⟨rfl, rfl⟩
    | ok start =>
      refine meets_edit rfl (meets_pure ?_)
      simp only [hg]
      exact ⟨trivial, rfl⟩
  · rw [if_neg hc] at hr ⊢
    obtain ⟨rfl, rfl⟩ := Prod.mk.inj hr
    exact meets_edit rfl (meets_pure ⟨rfl, rfl⟩)

theorem grow_meets_ok [Host H] {host : H} (hg : Host.secure h.host h.arena.top delta = (.ok (), host)) :
    (grow delta).Meets h limit fun r h' =>
      r = .ok h.arena.top ∧ h' = { h with host, arena := h.arena.raise delta } := by
  have hm : (grow delta).Meets h limit _ := grow_meets h delta
  rwa [hg] at hm

theorem grow_meets_error [Host H] {host : H} {reason : Refusal}
    (hg : Host.secure h.host h.arena.top delta = (.error reason, host)) :
    (grow delta).Meets h limit fun r h' => r = .error reason ∧ h' = { h with host } := by
  have hm : (grow delta).Meets h limit _ := grow_meets h delta
  rwa [hg] at hm

theorem growOrWarn_meets [Host H] (h : Heap H) (delta : Nat) :
    (growOrWarn delta).Meets h limit fun r h' =>
      match Host.secure h.host h.arena.top delta with
      | (.ok (), host) => r = .ok h.arena.top ∧ h' = { h with host, arena := h.arena.raise delta }
      | (.error reason, host) => r = .error reason ∧ h' = { h with host } := by
  refine (grow_meets h delta).bind ?_
  intro r h' hr
  match hg : Host.secure h.host h.arena.top delta with
  | (.ok (), host) =>
    rw [hg] at hr
    obtain ⟨rfl, rfl⟩ := hr
    exact meets_pure ⟨rfl, rfl⟩
  | (.error reason, host) =>
    rw [hg] at hr
    obtain ⟨rfl, rfl⟩ := hr
    exact meets_note (meets_pure ⟨rfl, rfl⟩)

theorem growChunk_meets [Host H] (h : Heap H) (size : Nat) :
    (growChunk size).Meets h limit fun r h' =>
      match Host.secureChunk h.host h.arena.top size with
      | (.ok chunk, host) =>
        r = .ok (h.arena.top, chunk) ∧ h' = { h with host, arena := h.arena.raise chunk }
      | (.error reason, host) => r = .error reason ∧ h' = { h with host } := by
  simp only [growChunk, Host.secureChunk]
  by_cases hlt : size < chunkFor size
  · rw [if_pos hlt]
    refine (grow_meets h _).bind ?_
    intro r h' hr
    match hg : Host.secure h.host h.arena.top (chunkFor size) with
    | (.ok (), host) =>
      rw [hg] at hr
      obtain ⟨rfl, rfl⟩ := hr
      exact meets_pure ⟨rfl, rfl⟩
    | (.error reason, host) =>
      rw [hg] at hr
      obtain ⟨rfl, rfl⟩ := hr
      -- the chunk's refusal is passed over, and only that of the block alone is reported
      simp only [hlt, if_true]
      refine (growOrWarn_meets _ size).bind ?_
      intro r h' hr
      match hg' : Host.secure host h.arena.top size with
      | (.ok (), host') =>
        rw [hg'] at hr
        obtain ⟨rfl, rfl⟩ := hr
        exact meets_pure ⟨rfl, rfl⟩
      | (.error reason, host') =>
        rw [hg'] at hr
        obtain ⟨rfl, rfl⟩ := hr
        exact meets_pure ⟨rfl, rfl⟩
  · rw [if_neg hlt]
    refine (growOrWarn_meets h _).bind ?_
    intro r h' hr
    match hg : Host.secure h.host h.arena.top (chunkFor size) with
    | (.ok (), host) =>
      rw [hg] at hr
      obtain ⟨rfl, rfl⟩ := hr
      exact meets_pure ⟨rfl, rfl⟩
    | (.error reason, host) =>
      rw [hg] at hr
      obtain ⟨rfl, rfl⟩ := hr
      simp only [hlt, if_false]
      exact meets_pure ⟨rfl, rfl⟩

theorem recordGrowth_meets {e : Heap H → Event} (hs : h.Shows k)
    (hl : ((k.count .heapGrows).recordHeapSize).stats.Below limit) :
    HeapM.Meets (do
      count .heapGrows
      recordHeapSize
      note (e (← get)) : HeapM H Unit) h limit fun _ h' =>
        h'.Shows (k.count .heapGrows).recordHeapSize ∧ h'.arena = h.arena := by
  refine meets_count_shown hs ((Stats.below_recordHeapSize _ _).trans hl) ?_
  intro h1 hs1 ha1
  refine meets_recordHeapSize_shown hs1 ?_
  intro h2 hs2 ha2
  apply meets_get
  apply Meets.last
  exact meets_note (meets_pure ⟨hs2, ha2.trans ha1⟩)

theorem carve_meets (hs : h.Shows k) (hk : k.Settled) (hx : x = k.top)
    (hsize : minBlock ≤ size ∧ size % alignment = 0) (hle : size ≤ chunk)
    (hmod : (chunk - size) % alignment = 0) (hrest : size < chunk → minBlock ≤ chunk - size)
    (hroom : k.top + chunk < wordLimit) (hl : (k.carve size chunk).stats.Below limit) :
    (carve x size chunk).Meets { h with arena := h.arena.raise chunk } limit fun _ h' =>
      h'.Shows (k.carve size chunk) ∧ SameOff k.Owns h.arena.mem h'.arena.mem := by
  subst hx
  have hh := hk.hole_end
  have hmodx : k.top % wordSize = 0 := by
    have := hk.tidy.sized.span_mod
    rw [Sketch.top, prologueSize_eq]
    simp only [alignment, wordSize] at *
    omega
  have htop : (h.arena.raise chunk).top = k.top + chunk := by rw [← hs.top]; rfl
  have hend : k.top = prologueSize + span k.row := rfl
  have hown : ∀ j, k.top ≤ j → k.Owns j := fun j hj => hk.tidy.owns_of_le hj
  have hroom' : (h.arena.raise chunk).top < wordLimit := htop ▸ hroom
  obtain ⟨hw1, -⟩ := Arena.hasWord_ends hmodx hsize (by omega) hroom'
  apply meets_get
  apply meets_edit (Arena.setTag_eq_ok hw1 hsize.2)
  -- beyond the block, the chunk leaves a free one below the new top
  by_cases hlt : size < chunk
  · have hn : minBlock ≤ chunk - size ∧ (chunk - size) % alignment = 0 := ⟨hrest hlt, hmod⟩
    have hmod' : (k.top + size) % wordSize = 0 := by
      simp only [alignment, wordSize] at *
      omega
    obtain ⟨hw2, hw3⟩ := Arena.hasWord_ends hmod' hn (by omega) hroom'
    rw [if_pos hlt]
    rw [Sketch.carve, if_pos hlt] at hl ⊢
    apply meets_lift (plus_eq_ok (by omega))
    apply meets_edit (writeFree_eq (hw2.put _ _) (hw3.put _ _) hn.1 hn.2 true)
    have hm := sameOff_pair (t := ⟨size, true, h.topUsed⟩) (p := true) h.arena.mem k.top hsize.1 hn.1
    have hs1 := hs.refillPair (a := h.arena.raise chunk) hh rfl rfl rfl
      (by rw [htop, span_nil, Nat.add_zero, Nat.add_sub_cancel' hle, hend]) hroom' (.inl rfl) hsize hn
      h.topUsed
    rw [← hs.topUsed]
    refine meets_enlist (n := chunk - size) hs1 ?_ ?_ ?_
    · simp [Sketch.sites, Sketch.top, sites_append, sites_cons, Nat.add_assoc]
    · exact hh.fresh (by rw [← Sketch.top]; omega) (.inl rfl)
    intro h2 hs2 hm2
    apply meets_setTopUsed
    refine (recordGrowth_meets (hs2.setTopUsed false) hl).mono ?_
    rintro _ h3 ⟨hs3, ha3⟩
    refine ⟨hs3, ?_⟩
    rw [ha3]
    refine (hm.mono ?_).trans (hm2.mono fun i hi => hi.mono ?_)
    · rintro j ⟨hj, -⟩
      exact hown j hj
    · rw [Sketch.sites, Sketch.sites, sites_append]
      exact List.subset_append_left _ _
  · obtain rfl : size = chunk := by omega
    rw [if_neg hlt]
    rw [Sketch.carve, if_neg hlt] at hl ⊢
    have hs1 := hs.refillUsed (a := h.arena.raise size) (t := ⟨size, true, h.topUsed⟩) hh rfl rfl rfl
      (by rw [htop, span_nil, Nat.add_zero, hend]) hroom' (.inl rfl) rfl hsize
    rw [← hs.topUsed]
    apply meets_setTopUsed
    refine (recordGrowth_meets (hs1.setTopUsed true) hl).mono ?_
    rintro _ h3 ⟨hs3, ha3⟩
    refine ⟨hs3, ?_⟩
    rw [ha3]
    exact SameOff.setWord fun j hj _ => hown j hj

end Heap

end SegregatedFit
