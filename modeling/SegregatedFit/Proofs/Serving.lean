import Mathlib
import SegregatedFit.Proofs.Resizing
import SegregatedFit.Proofs.Session
import SegregatedFit.Proofs.Starting

/-!
Sketches that serve a client. Each call leads from what holds between calls to the same, keeps the
used blocks that it is not about, and lets the live pointers keep up with them.
-/
namespace SegregatedFit

open Row

/-- The most neighbours that a call merges, with those that its own blocks may need later. -/
def Call.toll : Call → Nat
  | .allocate _ => 1
  | .free _ => 1
  | .reallocate .. => 2
  | _ => 0

/-- How much a call may add to each counter. -/
def Call.rise : Call → Counter → Nat
  | .allocate _ => fun d => if d = .coalesces then 0 else 1
  | .free _ => fun d => if d = .coalesces then 2 else 1
  | .reallocate .. => fun d => if d = .coalesces then 2 else 1
  | _ => 0

theorem Call.rise_le {c : Call} {d : Counter} (hd : d ≠ .coalesces) :
    c.rise d ≤ if c.asks then 1 else 0 := by
  cases c <;> simp [rise, asks, hd]

theorem Call.rise_coalesces_le (c : Call) : c.rise .coalesces ≤ 2 := by
  cases c <;> simp [rise]

theorem Host.secure_eq_ok {H : Type} [Host H] {host : H} {top delta : Nat}
    (hroom : top + delta < wordLimit) (hle : top + delta ≤ Host.committed host) :
    Host.secure host top delta = (.ok (), host) := by
  rw [Host.secure, if_neg (Nat.not_le.mpr hroom), if_neg (Nat.not_lt.mpr hle)]

namespace Sketch

variable {H : Type} {k k' : Sketch H} {c : Call} {n m ptr request x y : Nat}

def perform [Host H] (k : Sketch H) : Call → Answer × Sketch H
  | .allocate request => ((k.allocate request).1.map some, (k.allocate request).2)
  | .free ptr => (.ok none, k.free ptr)
  | .reallocate ptr request => ((k.reallocate ptr request).1.map some, (k.reallocate ptr request).2)
  | .init => (.ok none, .empty k.host k.config)
  | .write .. => (.ok none, k)

/-- The call is about a used block, and writes inside its payload. -/
def Admits (k : Sketch H) : Call → Prop
  | .free ptr => ∃ x n, (x, n) ∈ k.sites true ∧ ptr = x + headerSize
  | .reallocate ptr _ => ∃ x n, (x, n) ∈ k.sites true ∧ ptr = x + headerSize
  | .write ptr i _ => ∃ x n, (x, n) ∈ k.sites true ∧ ptr = x + headerSize ∧ i < n - headerSize
  | _ => True

/-- What the answer to a call comes to. -/
structure Serves [Host H] (k : Sketch H) (c : Call) (a : Answer) (k' : Sketch H) : Prop where
  valid : k'.Valid
  merges : k'.merges ≤ k.merges + c.toll
  refused : ∀ reason, a = .error reason → k' = { k with host := k'.host }
  stays : ∀ x n, (x, n) ∈ k.sites true → ¬ c.Takes (x + headerSize) → (x, n) ∈ k'.sites true
  tracked : ∀ live : Live, live.Tracks (k.sites true) → (c.record live a).Tracks (k'.sites true)

theorem empty_valid [Host H] {host : H} (config : Config) (h : prologueSize ≤ Host.committed host) :
    (empty host config).Valid :=
  ⟨empty_settled host config, rfl, h⟩

variable [Host H]

theorem perform_rise (k : Sketch H) (hc : c ≠ .init) :
    k.stats.Rise c.rise (k.perform c).2.stats := by
  cases c with
  | allocate request =>
    have h := allocateBlock_rise k request
    change k.stats.Rise _ (k.allocate request).2.stats
    unfold allocate
    split
    · next k1 h1 =>
      rw [h1] at h
      exact h.mono fun d => by cases d <;> simp [allocationRise, Call.rise]
    · next x k1 h1 =>
      rw [h1] at h
      exact (h.trans (Stats.rise_bump _ .allocations)).mono fun d => by
        cases d <;> simp [allocationRise, Call.rise]
  | free ptr =>
    refine ((freeBlock_rise k (ptr - headerSize)).trans (Stats.rise_bump _ .frees)).mono fun d => ?_
    cases d <;> simp [freeRise, Call.rise]
  | reallocate ptr request => exact reallocate_rise k ptr request
  | init => exact absurd rfl hc
  | write ptr i b => exact Stats.Rise.refl _ _

theorem Valid.serves_free (hk : k.Valid) (hx : (x, n) ∈ k.sites true) :
    k.Serves (.free (x + headerSize)) (.ok none) (k.free (x + headerSize)) := by
  obtain ⟨hv, hp, hm⟩ := hk.freeBlock hx
  rw [free, Nat.add_sub_cancel]
  refine ⟨hv.count _, ?_, fun _ hf => (by cases hf), ?_, ?_⟩
  · rw [merges_count _ (by decide)]
    exact hm
  · intro y m hy hne
    exact site_of_ne hp hy fun he => hne (congrArg (· + headerSize) he.symm)
  · intro live hl
    exact (hl.perm hp).drop (hk.settled.tidy.fresh_site hp)

variable [LawfulHost H]

theorem Valid.serves_allocate (hk : k.Valid) (request : Nat) :
    k.Serves (.allocate request) ((k.allocate request).1.map some) (k.allocate request).2 := by
  unfold allocate
  match ho : k.allocateBlock request with
  | (.error reason, k1) =>
    have hk1 := Sketch.allocateBlock_error ho
    have hsites : k1.sites true = k.sites true := by rw [hk1]; rfl
    refine ⟨hk.allocateBlock_error ho, ?_, fun _ _ => hk1, ?_, ?_⟩
    · rw [show k1.merges = k.merges by rw [hk1]; rfl]
      exact Nat.le_add_right _ _
    · intro x n hx _
      exact hsites ▸ hx
    · intro live hl
      exact hsites ▸ hl
  | (.ok x, k1) =>
    obtain ⟨hv, hy, hm⟩ := hk.allocateBlock_ok ho
    refine ⟨hv.count _, ?_, fun _ hf => (by cases hf), ?_, ?_⟩
    · rw [merges_count k1 (by decide)]
      exact hm
    · intro y n hy' _
      exact hy.kept hy'
    · intro live hl
      exact (hl.cons (hv.settled.tidy.fresh_site hy.2) hy.1).perm hy.2.symm

theorem Valid.serves_reallocate (hk : k.Valid) (hx : (x, n) ∈ k.sites true) (request : Nat) :
    k.Serves (.reallocate (x + headerSize) request)
      ((k.reallocate (x + headerSize) request).1.map some)
      (k.reallocate (x + headerSize) request).2 := by
  obtain ⟨hv, hm, hout⟩ := hk.reallocate hx request
  match ho : k.reallocate (x + headerSize) request with
  | (.error reason, k1) =>
    rw [ho] at hv hm hout
    have hsites : k1.sites true = k.sites true := by rw [hout]; rfl
    refine ⟨hv, hm, fun _ _ => hout, ?_, ?_⟩
    · intro y m hy _
      exact hsites ▸ hy
    · intro live hl
      exact hsites ▸ hl
  | (.ok ptr, k1) =>
    rw [ho] at hv hm hout
    obtain ⟨y, rfl, n, m, rest, h1, h2, hle⟩ := hout
    refine ⟨hv, hm, fun _ hf => (by cases hf), ?_, ?_⟩
    · intro z l hz hne
      have hz := site_of_ne h1 hz fun he => hne (congrArg (· + headerSize) he.symm)
      exact h2.symm.subset (List.mem_cons_of_mem _ hz)
    · intro live hl
      exact (((hl.perm h1).drop (hk.settled.tidy.fresh_site h1)).cons
        (hv.settled.tidy.fresh_site h2) hle).perm h2.symm

theorem Valid.serves (hk : k.Valid) (hc : k.Admits c) :
    k.Serves c (k.perform c).1 (k.perform c).2 := by
  cases c with
  | allocate request => exact hk.serves_allocate request
  | free ptr =>
    obtain ⟨x, n, hx, rfl⟩ := hc
    exact hk.serves_free hx
  | reallocate ptr request =>
    obtain ⟨x, n, hx, rfl⟩ := hc
    exact hk.serves_reallocate hx request
  | init =>
    exact ⟨empty_valid k.config (k.prologueSize_le_top.trans hk.backed), Nat.zero_le _,
      fun _ hf => (by cases hf), fun _ _ _ ht => absurd trivial ht, fun _ _ => Live.Tracks.nil⟩
  | write ptr i b =>
    exact ⟨hk, Nat.le_refl _, fun _ hf => (by cases hf), fun _ _ hx _ => hx, fun _ hl => hl⟩

end Sketch

end SegregatedFit
