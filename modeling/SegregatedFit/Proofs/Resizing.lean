import Mathlib
import SegregatedFit.Proofs.Allocating
import SegregatedFit.Proofs.Freeing

/-!
Reallocation in sketches: the block stays, grows into the end of the row, or another block takes its
place. In each case the other used blocks are what they were.
-/
namespace SegregatedFit.Sketch

open Row

variable {H : Type} {k k' : Sketch H} {n off request size x y : Nat} {t : Tag} {xs ys : Row}

/-- The second sketch has a used block of at least `size` bytes at `y` in place of the one at `x`. -/
def Replaces (k k' : Sketch H) (x y size : Nat) : Prop :=
  ∃ n m rest, (k.sites true).Perm ((x, n) :: rest) ∧ (k'.sites true).Perm ((y, m) :: rest) ∧ size ≤ m

def reallocationRise : Counter → Nat := fun c => if c = .coalesces then 2 else 1

variable [Host H]

theorem growTop_rise (k : Sketch H) (off : Nat) (t : Tag) (size : Nat) :
    k.stats.Rise (Pi.single .heapGrows 1 + Pi.single .reallocsInPlace 1)
      (k.growTop off t size).2.stats := by
  unfold growTop
  split
  · exact Stats.Rise.refl _ _
  · split
    · exact Stats.Rise.refl _ _
    · intro c
      cases c <;> simp [charge, Stats.bump, Stats.get, Stats.recordHeapSize]

theorem growTop_false (h : k.growTop off t size = (false, k')) : k' = { k with host := k'.host } := by
  unfold growTop at h
  split at h
  · cases h; rfl
  · split at h
    · cases h; rfl
    · cases h

theorem reallocate_rise (k : Sketch H) (ptr request : Nat) :
    k.stats.Rise reallocationRise (k.reallocate ptr request).2.stats := by
  unfold reallocate
  split
  · exact Stats.Rise.refl _ _
  · exact Stats.Rise.refl _ _
  · next size t ys _ _ =>
    split
    · exact (Stats.rise_bump _ _).mono fun c => by cases c <;> simp [reallocationRise]
    · unfold enlarge
      have hg := growTop_rise k (ptr - headerSize) t size
      split
      · next k1 h1 =>
        rw [h1] at hg
        exact hg.mono fun c => by cases c <;> simp [reallocationRise]
      · next k1 h1 =>
        have ha := allocateBlock_rise k1 request
        have hs : k.stats = k1.stats := by rw [growTop_false h1]
        rw [← hs] at ha
        split
        · next reason k2 h2 =>
          rw [h2] at ha
          exact ha.mono fun c => by cases c <;> simp [allocationRise, reallocationRise]
        · next target k2 h2 =>
          rw [h2] at ha
          refine ((ha.trans (freeBlock_rise k2 _)).trans (Stats.rise_bump _ .reallocsMoved)).mono ?_
          intro c
          cases c <;> simp [allocationRise, freeRise, reallocationRise]

theorem Charged.growTop_true (hk : k.Charged) (hrow : k.row = xs ++ t :: ys)
    (hx : off = prologueSize + span xs) (ht : t.used = true) (hlt : t.size < size)
    (hsize : size % alignment = 0) (h : k.growTop off t size = (true, k')) :
    k'.Charged ∧ k.Replaces k' off off size ∧ k'.merges ≤ k.merges := by
  unfold growTop at h
  split at h
  · cases h
  next htop =>
  rw [not_not] at htop
  split at h
  · cases h
  next host hsec =>
  have hroom := Host.room_of_secure hsec
  have hh := hk.settled.hole_used hrow ht
  have hz := hh.sized
  have hzt := (sized_cons.mp hz.2.1).1
  -- a block that ends at the top is the last one
  obtain rfl : ys = [] := hh.end_iff.mp (by rw [← htop, hx]; simp)
  cases h
  have hprev := hk.settled.prevUsed_eq hrow
  have huse := hk.inUse
  rw [hrow] at huse
  rw [hk.settled.tidy.cut_eq hrow hx]
  simp only
  refine ⟨⟨?_, ?_⟩, ⟨t.size, size, Row.sites true prologueSize xs, ?_, ?_, Nat.le_refl _⟩, ?_⟩
  · refine hh.fill (r := [{ t with size }]) (by rfl) ?_ ?_ (.inl rfl) ?_
      ⟨hprev, trivial⟩ (.inl rfl) ?_ ?_ hh.tidy.nodup
    · change k.topUsed = _
      rw [hk.settled.topUsed, hrow]
      simp [lastUsed]
    · simp only [top, row_recordHeapSize, row_count, row_charge, span_append, span_cons, span_nil]
      omega
    · refine sized_cons.mpr ⟨⟨?_, hsize⟩, sized_nil⟩
      exact hzt.1.trans (Nat.le_of_lt hlt)
    · simp [Merged, ht]
    · intro b y
      simp [sites_cons, ht]
      rfl
  · simp [charge, ht] at huse ⊢
    omega
  · simp [sites, hrow, sites_append, sites_cons, ht, hx]
  · simp [sites, sites_append, sites_cons, ht, hx]
  · simp [merges, sites, hrow, sites_append, sites_cons, ht, charge]

theorem Charged.growTop_false (hk : k.Charged) (h : k.growTop off t size = (false, k')) :
    k'.Charged := by
  rw [Sketch.growTop_false h]
  exact hk.rehost _

theorem Charged.reallocate (hk : k.Charged) (hx : (x, n) ∈ k.sites true) (request : Nat) :
    (k.reallocate (x + headerSize) request).2.Charged ∧
      (k.reallocate (x + headerSize) request).2.merges ≤ k.merges + 2 ∧
      match k.reallocate (x + headerSize) request with
      | (.error _, k') => k' = { k with host := k'.host }
      | (.ok ptr, k') => ∃ y, ptr = y + headerSize ∧ k.Replaces k' x y (request + headerSize) := by
  obtain ⟨t, ht, hu, rfl⟩ := mem_sites_iff.mp hx
  obtain ⟨xs, ys, hrow, hxs⟩ := mem_located_iff.mp ht
  unfold Sketch.reallocate
  rw [Nat.add_sub_cancel, hk.settled.tidy.cut_eq hrow hxs]
  match hr : blockSize? request with
  | none => exact ⟨hk, Nat.le_add_right _ _, rfl⟩
  | some size =>
    obtain ⟨hreq, hsize⟩ := blockSize?_some hr
    dsimp only
    have hperm : (k.sites true).Perm ((x, t.size) :: (k.sites true).erase (x, t.size)) :=
      List.perm_cons_erase hx
    by_cases hle : size ≤ t.size
    · rw [if_pos hle]
      refine ⟨hk.count _, ?_, x, rfl, ?_⟩
      · rw [merges_count k (by decide)]
        exact Nat.le_add_right _ _
      · exact ⟨t.size, t.size, _, hperm, hperm, hreq.trans hle⟩
    rw [if_neg hle, enlarge]
    match hg : k.growTop x t size with
    | (true, k1) =>
      obtain ⟨hv, ⟨n, m, rest, h1, h2, h3⟩, hm⟩ :=
        hk.growTop_true hrow hxs hu (Nat.not_le.mp hle) hsize.2 hg
      exact ⟨hv, hm.trans (Nat.le_add_right _ _), x, rfl, n, m, rest, h1, h2, hreq.trans h3⟩
    | (false, k1) =>
      have hv1 := hk.growTop_false hg
      have hk1 := Sketch.growTop_false hg
      dsimp only
      match ha : k1.allocateBlock request with
      | (.error reason, k2) =>
        have hk2 := Sketch.allocateBlock_error ha
        have hm : k2.merges = k.merges := by rw [hk2, hk1]; rfl
        refine ⟨hv1.allocateBlock_error ha, by rw [hm]; exact Nat.le_add_right _ _, ?_⟩
        rw [hk2, hk1]
      | (.ok y, k2) =>
        obtain ⟨hv2, hy, hm2⟩ := hv1.allocateBlock_ok ha
        have hsites : k1.sites true = k.sites true := by rw [hk1]; rfl
        have hmerges : k1.merges = k.merges := by rw [hk1]; rfl
        have hy := hy.congr hsites
        -- the old block is still used while the new one is taken, so neither merges with the other
        obtain ⟨hv3, hp3, hm3⟩ := hv2.freeBlock (hy.kept hx)
        refine ⟨hv3.count _, ?_, y, rfl, t.size, k2.sizeAt y, _, hperm, ?_, hy.1⟩
        · rw [merges_count _ (by decide)]
          omega
        · have hswap := (hy.2.trans (hperm.cons _)).trans (.swap (x, t.size) (y, k2.sizeAt y) _)
          exact (hp3.symm.trans hswap).cons_inv

section

variable [LawfulHost H]

theorem Tidy.backed_of_growTop_true (hk : k.Tidy) (hx : (off, t) ∈ k.blocks) (hlt : t.size < size)
    (h : k.growTop off t size = (true, k')) : k'.top ≤ Host.committed k'.host := by
  obtain ⟨xs, ys, hrow, hxs⟩ := mem_located_iff.mp hx
  unfold growTop at h
  split at h
  · cases h
  next htop =>
  split at h
  · cases h
  next host hsec =>
  cases h
  have hcom := (Host.of_secure_ok hsec).2.1
  rw [hk.cut_eq hrow hxs]
  simp only [top, row_recordHeapSize, row_count, row_charge, host_recordHeapSize, host_count,
    host_charge, span_append, span_cons, span_nil] at hcom htop ⊢
  omega

theorem committed_of_growTop_false (h : k.growTop off t size = (false, k')) :
    Host.committed k'.host = Host.committed k.host := by
  unfold growTop at h
  split at h
  · cases h; rfl
  · split at h
    · next r host hsec =>
      cases h
      exact Host.of_secure_error hsec
    · cases h

theorem Valid.growTop_false (hk : k.Valid) (h : k.growTop off t size = (false, k')) : k'.Valid := by
  refine (hk.charged.growTop_false h).valid ?_
  rw [committed_of_growTop_false h, Sketch.growTop_false h]
  exact hk.backed

theorem Valid.reallocate (hk : k.Valid) (hx : (x, n) ∈ k.sites true) (request : Nat) :
    (k.reallocate (x + headerSize) request).2.Valid ∧
      (k.reallocate (x + headerSize) request).2.merges ≤ k.merges + 2 ∧
      match k.reallocate (x + headerSize) request with
      | (.error _, k') => k' = { k with host := k'.host }
      | (.ok ptr, k') => ∃ y, ptr = y + headerSize ∧ k.Replaces k' x y (request + headerSize) := by
  obtain ⟨hc, hrest⟩ := hk.charged.reallocate hx request
  refine ⟨hc.valid ?_, hrest⟩
  obtain ⟨t, ht, hu, rfl⟩ := mem_sites_iff.mp hx
  obtain ⟨xs, ys, hrow, hxs⟩ := mem_located_iff.mp ht
  unfold Sketch.reallocate
  rw [Nat.add_sub_cancel, hk.settled.tidy.cut_eq hrow hxs]
  match hr : blockSize? request with
  | none => exact hk.backed
  | some size =>
    dsimp only
    by_cases hle : size ≤ t.size
    · rw [if_pos hle]
      exact hk.backed
    rw [if_neg hle, enlarge]
    match hg : k.growTop x t size with
    | (true, k1) => exact hk.settled.tidy.backed_of_growTop_true ht (Nat.not_le.mp hle) hg
    | (false, k1) =>
      have hv1 := hk.growTop_false hg
      have hsites : k1.sites true = k.sites true := by rw [Sketch.growTop_false hg]; rfl
      dsimp only
      match ha : k1.allocateBlock request with
      | (.error reason, k2) => exact (hv1.allocateBlock_error ha).backed
      | (.ok y, k2) =>
        obtain ⟨hv2, hy, -⟩ := hv1.allocateBlock_ok ha
        exact (hv2.freeBlock (hy.kept (hsites ▸ hx))).1.backed

end

end SegregatedFit.Sketch
