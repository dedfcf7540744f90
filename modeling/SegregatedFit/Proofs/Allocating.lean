import Mathlib
import SegregatedFit.Proofs.Auditing
import SegregatedFit.Proofs.Growing
import SegregatedFit.Proofs.Placing
import SegregatedFit.Proofs.Sizes

/-!
Allocation as a whole: a request ends in a refusal that changes no more than the host, or in one more
used block that is large enough for it.
-/
namespace SegregatedFit

open Row Memory

variable {H : Type}

namespace Sketch

variable {k k' : Sketch H} {b : Fin bucketCount} {n x y size chunk request : Nat} {t : Tag}
  {xs ys : Row}

/-- The second sketch has one used block more, at `x` and of at least `size` bytes. -/
def Yields (k k' : Sketch H) (x size : Nat) : Prop :=
  size ≤ k'.sizeAt x ∧ (k'.sites true).Perm ((x, k'.sizeAt x) :: k.sites true)

theorem Tidy.sizeAt_site {u : Bool} (hk : k.Tidy) (h : (x, n) ∈ k.sites u) : k.sizeAt x = n := by
  obtain ⟨t, ht, -, rfl⟩ := mem_sites_iff.mp h
  exact hk.sizeAt_eq ht

theorem Tidy.yields (hk' : k'.Tidy) (hn : size ≤ n)
    (hp : (k'.sites true).Perm ((x, n) :: k.sites true)) : k.Yields k' x size := by
  have hx : k'.sizeAt x = n := hk'.sizeAt_site (hp.symm.subset (by simp))
  rw [Yields, hx]
  exact ⟨hn, hp⟩

theorem Yields.site (h : k.Yields k' x size) : (x, k'.sizeAt x) ∈ k'.sites true :=
  h.2.symm.subset List.mem_cons_self

theorem Yields.congr {k₀ : Sketch H} (h : k.Yields k' x size) (hs : k.sites true = k₀.sites true) :
    k₀.Yields k' x size :=
  ⟨h.1, hs ▸ h.2⟩

theorem Yields.kept (h : k.Yields k' x size) (hy : (y, n) ∈ k.sites true) :
    (y, n) ∈ k'.sites true :=
  h.2.symm.subset (List.mem_cons_of_mem _ hy)

theorem Yields.ne (h : k.Yields k' x size) (hk' : k'.Tidy) (hy : (y, n) ∈ k.sites true) : y ≠ x :=
  fun he => hk'.fresh_site h.2 (he ▸ List.mem_map_of_mem hy)

theorem Yields.usedBytes_eq (h : k.Yields k' x size) :
    usedBytes k'.row = k'.sizeAt x + usedBytes k.row := by
  rw [Row.usedBytes_eq prologueSize, Row.usedBytes_eq prologueSize k.row]
  exact (h.2.map Prod.snd).sum_eq.trans (by simp [Sketch.sites])

theorem Settled.place_yields (hk : k.Settled) (hx : x ∈ k.lists b) (hfits : size ≤ k.sizeAt x)
    (hsize : minBlock ≤ size ∧ size % alignment = 0) : k.Yields (k.place x size) x size := by
  have htidy := (hk.place hx hfits hsize).tidy
  obtain ⟨xs, t, ys, hrow, hxs, hu, hle, -⟩ := hk.of_listed hx hfits
  have hsites : k.sites true =
      Row.sites true prologueSize xs ++ Row.sites true (x + t.size) ys := by
    simp [sites, hrow, sites_append, sites_cons, hu, hxs]
  by_cases hrest : t.size - size < minSplit
  · apply htidy.yields hle
    rw [hsites, hk.tidy.place_whole hrow hxs hrest]
    simp [sites, sites_append, sites_cons, hxs]
  · apply htidy.yields (Nat.le_refl size)
    rw [hsites, hk.tidy.place_split hrow hxs hrest]
    have hend : x + size + (t.size - size) = x + t.size := by omega
    simp [sites, sites_append, sites_cons, ← hxs, hend]

theorem Settled.carve_yields (hk' : (k.carve size chunk).Settled) :
    k.Yields (k.carve size chunk) k.top size := by
  apply hk'.tidy.yields (Nat.le_refl size)
  by_cases hlt : size < chunk
  · rw [Sketch.carve, if_pos hlt]
    simp [sites, sites_append, sites_cons, top]
  · rw [Sketch.carve, if_neg hlt]
    simp [sites, sites_append, sites_cons, top]

theorem firstFit_some (h : k.firstFit size = some x) :
    ∃ b, x ∈ k.lists b ∧ size ≤ k.sizeAt x := by
  obtain ⟨b, -, hb⟩ := List.exists_of_findSome?_eq_some h
  split at hb
  · cases hb
  · exact ⟨b, List.mem_of_find?_eq_some hb, by simpa using List.find?_some hb⟩

theorem blockSize?_some (h : blockSize? request = some size) :
    request + headerSize ≤ size ∧ minBlock ≤ size ∧ size % alignment = 0 := by
  obtain ⟨-, hmod, hroom, -⟩ := blockSize?_eq_some_iff.mp h
  exact ⟨hroom, (blockSize?_bounds h).1, hmod⟩

def allocationRise : Counter → Nat := Pi.single .splits 1 + Pi.single .heapGrows 1

theorem place_rise (k : Sketch H) (x size : Nat) :
    k.stats.Rise (Pi.single .splits 1) (k.place x size).stats := by
  unfold place
  split
  · split
    · exact Stats.Rise.refl _ _
    · exact Stats.rise_bump _ _
  · exact Stats.Rise.refl _ _

theorem carve_rise (k : Sketch H) (size chunk : Nat) :
    k.stats.Rise (Pi.single .heapGrows 1) (k.carve size chunk).stats := by
  unfold carve
  split
  · exact (Stats.rise_bump _ _).trans (Stats.rise_recordHeapSize _ _)
  · exact (Stats.rise_bump _ _).trans (Stats.rise_recordHeapSize _ _)

theorem extend_rise [Host H] (k : Sketch H) (size : Nat) :
    k.stats.Rise (Pi.single .heapGrows 1) (k.extend size).2.stats := by
  unfold extend
  split
  · exact Stats.Rise.refl _ _
  · next chunk host _ => exact carve_rise { k with host } size chunk

theorem obtain_rise [Host H] (k : Sketch H) (size : Nat) :
    k.stats.Rise allocationRise (k.obtain size).2.stats := by
  unfold obtain
  split
  · exact (extend_rise k size).mono fun c => Nat.le_add_left _ _
  · exact (place_rise k _ size).mono fun c => Nat.le_add_right _ _

theorem allocateBlock_rise [Host H] (k : Sketch H) (request : Nat) :
    k.stats.Rise allocationRise (k.allocateBlock request).2.stats := by
  unfold allocateBlock
  split
  · exact Stats.Rise.refl _ _
  · next size _ =>
    have h := obtain_rise k size
    split
    · next k' hk' => rw [hk'] at h; exact h
    · next x k' hk' =>
      rw [hk'] at h
      intro c
      simpa [charge] using h c

theorem Settled.place_merges (hk : k.Settled) (hx : x ∈ k.lists b) (hfits : size ≤ k.sizeAt x) :
    (k.place x size).merges ≤ k.merges := by
  obtain ⟨xs, t, ys, hrow, hxs, hu, hle, -⟩ := hk.of_listed hx hfits
  by_cases hrest : t.size - size < minSplit
  · rw [hk.tidy.place_whole hrow hxs hrest]
    simp [merges, sites, hrow, sites_append, sites_cons, hu]
  · rw [hk.tidy.place_split hrow hxs hrest]
    have hend : x + size + (t.size - size) = x + t.size := by omega
    simp [merges, sites, hrow, sites_append, sites_cons, hu, ← hxs, hend]

theorem carve_merges (k : Sketch H) (size chunk : Nat) : (k.carve size chunk).merges ≤ k.merges + 1 := by
  unfold carve
  split
  · simp [merges, sites, sites_append, sites_cons]
    omega
  · simp [merges, sites, sites_append, sites_cons]

variable [Host H]

theorem extend_error {reason : Refusal} (h : k.extend size = (.error reason, k')) :
    k' = { k with host := k'.host } := by
  unfold extend at h
  split at h
  · cases h; rfl
  · cases h

theorem obtain_error {reason : Refusal} (h : k.obtain size = (.error reason, k')) :
    k' = { k with host := k'.host } := by
  unfold obtain at h
  split at h
  · exact extend_error h
  · cases h

theorem allocateBlock_error {reason : Refusal} (h : k.allocateBlock request = (.error reason, k')) :
    k' = { k with host := k'.host } := by
  unfold allocateBlock at h
  split at h
  · cases h; rfl
  · split at h
    · next hk' => cases h; exact obtain_error hk'
    · cases h

theorem Charged.allocateBlock_error (hk : k.Charged) {reason : Refusal}
    (h : k.allocateBlock request = (.error reason, k')) : k'.Charged := by
  rw [Sketch.allocateBlock_error h]
  exact hk.rehost _

theorem Settled.extend_ok (hk : k.Settled) (hsize : minBlock ≤ size ∧ size % alignment = 0)
    (h : k.extend size = (.ok x, k')) :
    k'.Settled ∧ k.Yields k' x size ∧ k'.stats.bytesInUse = k.stats.bytesInUse ∧
      k'.merges ≤ k.merges + 1 := by
  have hset := hk.extend hsize
  rw [h] at hset
  unfold Sketch.extend at h
  split at h
  · cases h
  · next chunk host hc =>
    cases h
    refine ⟨hset, ?_, ?_, carve_merges { k with host } size chunk⟩
    · exact Settled.carve_yields (k := { k with host }) hset
    · unfold Sketch.carve
      split <;> simp

theorem Settled.obtain_ok (hk : k.Settled) (hsize : minBlock ≤ size ∧ size % alignment = 0)
    (h : k.obtain size = (.ok x, k')) :
    k'.Settled ∧ k.Yields k' x size ∧ k'.stats.bytesInUse = k.stats.bytesInUse ∧
      k'.merges ≤ k.merges + 1 := by
  unfold obtain at h
  split at h
  · exact hk.extend_ok hsize h
  · next y hy =>
    cases h
    obtain ⟨b, hb, hfits⟩ := firstFit_some hy
    exact ⟨hk.place hb hfits hsize, hk.place_yields hb hfits hsize, bytesInUse_place k _ size,
      (hk.place_merges hb hfits).trans (Nat.le_succ _)⟩

theorem Charged.allocateBlock_ok (hk : k.Charged) (h : k.allocateBlock request = (.ok x, k')) :
    k'.Charged ∧ k.Yields k' x (request + headerSize) ∧ k'.merges ≤ k.merges + 1 := by
  unfold allocateBlock at h
  split at h
  · cases h
  · next size hsize =>
    obtain ⟨hreq, hsize⟩ := blockSize?_some hsize
    split at h
    · cases h
    · next y k1 h1 =>
      cases h
      obtain ⟨hset, hy, huse, hmer⟩ := hk.settled.obtain_ok hsize h1
      refine ⟨⟨hset.congr rfl rfl rfl, ?_⟩, ⟨hreq.trans hy.1, hy.2⟩, hmer⟩
      have hb := hy.usedBytes_eq
      rw [charge]
      simp only
      rw [hb, huse, hk.inUse, Nat.add_comm]

variable [LawfulHost H]

theorem committed_extend (k : Sketch H) (size : Nat) :
    Host.committed k.host ≤ Host.committed (k.extend size).2.host := by
  unfold extend
  split
  · next h => exact Nat.le_of_eq (Host.of_secureChunk_error h).symm
  · next chunk host h =>
    rw [host_carve]
    exact (Host.of_secureChunk_ok h).2

theorem committed_obtain (k : Sketch H) (size : Nat) :
    Host.committed k.host ≤ Host.committed (k.obtain size).2.host := by
  unfold obtain
  split
  · exact committed_extend k size
  · exact Nat.le_of_eq (congrArg Host.committed (host_place k _ size).symm)

theorem committed_allocateBlock (k : Sketch H) (request : Nat) :
    Host.committed k.host ≤ Host.committed (k.allocateBlock request).2.host := by
  unfold allocateBlock
  split
  · exact Nat.le_refl _
  · next size _ =>
    have h := committed_obtain k size
    split
    · next k' hk' => rw [hk'] at h; exact h
    · next x k' hk' => rw [hk'] at h; exact h

theorem backed_extend (hsize : minBlock ≤ size ∧ size % alignment = 0)
    (h : k.extend size = (.ok x, k')) : k'.top ≤ Host.committed k'.host := by
  unfold extend at h
  split at h
  · cases h
  · next chunk host hc =>
    cases h
    rw [host_carve, top_carve _ (Host.chunk_of_secureChunk hsize hc).2.1]
    exact (Host.of_secureChunk_ok hc).1

theorem Valid.backed_obtain (hk : k.Valid) (hsize : minBlock ≤ size ∧ size % alignment = 0)
    (h : k.obtain size = (.ok x, k')) : k'.top ≤ Host.committed k'.host := by
  unfold obtain at h
  split at h
  · exact backed_extend hsize h
  · next y hy =>
    cases h
    obtain ⟨b, hb, hfits⟩ := firstFit_some hy
    rw [host_place, hk.settled.top_place hb hfits]
    exact hk.backed

theorem Valid.allocateBlock_error (hk : k.Valid) {reason : Refusal}
    (h : k.allocateBlock request = (.error reason, k')) : k'.Valid := by
  have hcom := committed_allocateBlock k request
  rw [h] at hcom
  refine (hk.charged.allocateBlock_error h).valid ?_
  rw [Sketch.allocateBlock_error h]
  exact hk.backed.trans hcom

theorem Valid.allocateBlock_ok (hk : k.Valid) (h : k.allocateBlock request = (.ok x, k')) :
    k'.Valid ∧ k.Yields k' x (request + headerSize) ∧ k'.merges ≤ k.merges + 1 := by
  obtain ⟨hc, hrest⟩ := hk.charged.allocateBlock_ok h
  refine ⟨hc.valid ?_, hrest⟩
  unfold allocateBlock at h
  split at h
  · cases h
  · next size hsize =>
    split at h
    · cases h
    · next y k1 h1 =>
      cases h
      have hb := hk.backed_obtain (blockSize?_some hsize).2 h1
      exact hb

end Sketch

namespace Heap

open HeapM

variable {h h' : Heap H} {k : Sketch H} {size request : Nat} {limit : Stats}
  {out : Except Refusal Nat × Sketch H} {a : Except Refusal Nat}

/-- The heap `h`, which showed `k`, has come to show the outcome. It kept its used blocks, and after a
refusal it is what it was but for its host. -/
structure Lands (h : Heap H) (k : Sketch H) (out : Except Refusal Nat × Sketch H)
    (a : Except Refusal Nat) (h' : Heap H) : Prop where
  answer : a = out.1
  shows : h'.Shows out.2
  same : SameOff k.Owns h.arena.mem h'.arena.mem
  refused : ∀ reason, a = .error reason → h' = { h with host := out.2.host }

variable [Host H]

theorem extend_meets (hs : h.Shows k) (hk : k.Settled)
    (hsize : minBlock ≤ size ∧ size % alignment = 0)
    (hl : (k.extend size).2.stats.Below limit) :
    (extend size).Meets h limit (Lands h k (k.extend size)) := by
  refine (growChunk_meets h size).bind ?_
  intro r h1 hr
  unfold Sketch.extend at hl ⊢
  rw [hs.host, hs.top] at hr
  match hc : Host.secureChunk k.host k.top size with
  | (.error reason, host) =>
    rw [hc] at hr
    obtain ⟨rfl, rfl⟩ := hr
    exact meets_pure ⟨rfl, hs.rehost host, SameOff.refl _, fun _ _ => rfl⟩
  | (.ok chunk, host) =>
    rw [hc] at hr hl
    obtain ⟨rfl, rfl⟩ := hr
    obtain ⟨hroom, hle, hmod, hrest⟩ := Host.chunk_of_secureChunk hsize hc
    have hk' : Sketch.Settled { k with host } := hk.congr rfl rfl rfl
    refine (carve_meets (hs.rehost host) hk' rfl hsize hle hmod hrest hroom hl).bind ?_
    rintro _ h2 ⟨hs2, hm2⟩
    exact meets_pure ⟨rfl, hs2, hm2, fun _ hf => by cases hf⟩

omit [Host H] in
theorem firstFit_meets (hs : h.Shows k) (size : Nat) :
    (firstFit size).Meets h limit fun r h' => r = k.firstFit size ∧ h' = h := by
  apply meets_get
  exact meets_step (fun j => by rw [exec_view, hs.firstFit]; rfl) ⟨rfl, rfl⟩

theorem obtain_meets (hs : h.Shows k) (hk : k.Settled)
    (hsize : minBlock ≤ size ∧ size % alignment = 0)
    (hl : (k.obtain size).2.stats.Below limit) :
    (obtain size).Meets h limit (Lands h k (k.obtain size)) := by
  refine (firstFit_meets hs size).bind ?_
  rintro r h' ⟨rfl, rfl⟩
  unfold Sketch.obtain at hl ⊢
  match hf : k.firstFit size with
  | none =>
    rw [hf] at hl
    exact extend_meets hs hk hsize hl
  | some x =>
    rw [hf] at hl
    obtain ⟨b, hb, hfits⟩ := Sketch.firstFit_some hf
    refine (place_meets hs hk hb hfits hsize hl).bind ?_
    rintro _ h1 ⟨hs1, hm1⟩
    exact meets_pure ⟨rfl, hs1, hm1, fun _ hf => by cases hf⟩

theorem allocateBlock_meets (hs : h.Shows k) (hk : k.Charged)
    (hl : (k.allocateBlock request).2.stats.Below limit) :
    (allocateBlock request).Meets h limit (Lands h k (k.allocateBlock request)) := by
  unfold allocateBlock
  unfold Sketch.allocateBlock at hl ⊢
  match hr : blockSize? request with
  | none => exact meets_pure ⟨rfl, hs, SameOff.refl _, fun _ _ => by rw [← hs.host]⟩
  | some size =>
    rw [hr] at hl
    dsimp only at hl ⊢
    obtain ⟨-, hsize⟩ := Sketch.blockSize?_some hr
    have hle : (k.obtain size).2.stats.Below limit := by
      match ho : k.obtain size with
      | (.error reason, k1) => rw [ho] at hl; exact hl
      | (.ok x, k1) =>
        rw [ho] at hl
        intro c
        simpa [Sketch.charge] using hl c
    refine (obtain_meets hs hk.settled hsize hle).bind ?_
    intro r h1 hr1
    match ho : k.obtain size with
    | (.error reason, k1) =>
      rw [ho] at hr1
      obtain rfl := hr1.answer
      exact meets_pure ⟨rfl, hr1.shows, hr1.same, fun reason hf => hr1.refused reason hf⟩
    | (.ok x, k1) =>
      rw [ho] at hr1 hl
      obtain rfl := hr1.answer
      obtain ⟨hset, hy, huse, -⟩ := hk.settled.obtain_ok hsize ho
      obtain ⟨t, ht, -, hn⟩ := mem_sites_iff.mp hy.site
      have hs1 := hr1.shows
      -- blocks in use lie below the top, so what they come to fits a word
      have hfit : k1.stats.bytesInUse + k1.sizeAt x < wordLimit := by
        have hb := hy.usedBytes_eq
        have hc := usedBytes_le_span k1.row
        have hd := hset.tidy.room
        rw [Sketch.top] at hd
        rw [huse, hk.inUse]
        omega
      apply meets_view (hs1.blockSize_eq ht)
      rw [hn]
      refine meets_charge_shown hs1 hfit ?_
      intro h2 hs2 ha2
      exact meets_pure ⟨rfl, hs2, ha2 ▸ hr1.same, fun _ hf => by cases hf⟩

theorem allocate_meets (hs : h.Shows k) (hk : k.Charged)
    (hl : (k.allocate request).2.stats.Below limit) :
    (allocate request).Meets h limit (Lands h k (k.allocate request)) := by
  unfold Sketch.allocate at hl ⊢
  match ho : k.allocateBlock request with
  | (.error reason, k1) =>
    rw [ho] at hl
    refine (allocateBlock_meets hs hk (ho ▸ hl)).bind ?_
    intro r h1 hr
    rw [ho] at hr
    obtain rfl := hr.answer
    exact meets_pure hr
  | (.ok x, k1) =>
    rw [ho] at hl
    have hle : k1.stats.Below limit := (Stats.below_bump _ _).trans hl
    refine (allocateBlock_meets hs hk (ho ▸ hle)).bind ?_
    intro r h1 hr
    rw [ho] at hr
    obtain rfl := hr.answer
    obtain ⟨hv, hy, -⟩ := hk.allocateBlock_ok ho
    refine meets_count_shown hr.shows hl ?_
    intro h2 hs2 ha2
    apply meets_verify hs2 (hv.settled.count _)
    obtain ⟨t, ht, -, -⟩ := mem_sites_iff.mp hy.site
    refine (payload_meets hs2 ht).bind ?_
    rintro _ _ ⟨rfl, rfl⟩
    exact meets_pure ⟨rfl, hs2, ha2 ▸ hr.same, fun _ hf => by cases hf⟩

end Heap

end SegregatedFit
