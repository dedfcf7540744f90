import Mathlib
import SegregatedFit.Proofs.Emptying

/-!
What a heap keeps at its top. A free block comes to the top only as what growth leaves over of a chunk.
From then on it is cut down, taken as it is, or released with a freed block that it merges into, so it
is never larger than what a chunk can leave over.
-/
namespace SegregatedFit

open Row

namespace Row

variable {n m : Nat} {xs ys : Row}

def remnant (n : Nat) : Row → Nat
  | [] => n
  | t :: ts => remnant (if t.used then 0 else t.size) ts

@[simp] theorem remnant_append (n : Nat) (xs ys : Row) :
    remnant n (xs ++ ys) = remnant (remnant n xs) ys := by
  induction xs generalizing n with
  | nil => rfl
  | cons t xs ih => exact ih _

@[simp] theorem remnant_settle (n : Nat) (p : Bool) (ts : Row) :
    remnant n (settle p ts) = remnant n ts := by
  cases ts <;> rfl

theorem remnant_of_ne_nil (hne : ys ≠ []) (n m : Nat) : remnant n ys = remnant m ys := by
  cases ys with
  | nil => exact absurd rfl hne
  | cons t ys => rfl

theorem remnant_mono (h : n ≤ m) (ys : Row) : remnant n ys ≤ remnant m ys := by
  cases ys with
  | nil => exact h
  | cons t ys => exact Nat.le_refl _

theorem remnant_of_lastUsed (h : lastUsed true xs = true) : remnant 0 xs = 0 := by
  induction xs using List.reverseRecOn with
  | nil => rfl
  | append_singleton xs t =>
    have ht : t.used = true := by simpa [lastUsed] using h
    simp [remnant, ht]

end Row

theorem chunkFor_sub_le {size : Nat} (hs : minBlock ≤ size ∧ size % alignment = 0) :
    chunkFor size - size ≤ minChunk - minSplit := by
  have hc : minChunk = 544 := rfl
  have ht : tinyChunk = 192 := rfl
  have hm : minSplit = 64 := rfl
  simp only [chunkFor, hc, ht, hm, minBlock, wordSize, alignment] at *
  split <;> split <;> omega

namespace Host

variable {H : Type} [Host H] {host host' : H} {top size chunk : Nat}

theorem secureChunk_eq (h : secureChunk host top size = (.ok chunk, host')) :
    chunk = chunkFor size ∨ chunk = size := by
  unfold secureChunk at h
  split at h
  · cases h
    exact .inl rfl
  · split at h
    · split at h
      · cases h
        exact .inr rfl
      · cases h
    · cases h

end Host

namespace Sketch

variable {H : Type} {k k' : Sketch H} {b : Fin bucketCount} {c : Call}
  {chunk d n off request size x : Nat} {t : Tag} {run : Heap.Run} {xs us ys : Row} {v : Bool}

def remnant (k : Sketch H) : Nat := Row.remnant 0 k.row

theorem remnant_congr (hrow : k'.row = k.row) : k'.remnant = k.remnant := by
  rw [remnant, hrow, remnant]

theorem Settled.remnant_place (hk : k.Settled) (hx : x ∈ k.lists b) (hfits : size ≤ k.sizeAt x) :
    (k.place x size).remnant ≤ k.remnant := by
  obtain ⟨xs, t, ys, hrow, hxs, hu, hle, -⟩ := hk.of_listed hx hfits
  have hold : k.remnant = Row.remnant t.size ys := by simp [remnant, Row.remnant, hrow, hu]
  rw [hold]
  by_cases hrest : t.size - size < minSplit
  · rw [hk.tidy.place_whole hrow hxs hrest]
    calc Row.remnant 0 (xs ++ { t with used := true } :: settle true ys)
      _ = Row.remnant 0 ys := by simp [Row.remnant]
      _ ≤ Row.remnant t.size ys := remnant_mono (Nat.zero_le _) ys
  · rw [hk.tidy.place_split hrow hxs hrest]
    calc Row.remnant 0 (xs ++ (⟨size, true, t.prevUsed⟩ : Tag) :: ⟨t.size - size, false, true⟩ :: ys)
      _ = Row.remnant (t.size - size) ys := by simp [Row.remnant]
      _ ≤ Row.remnant t.size ys := remnant_mono (Nat.sub_le ..) ys

theorem remnant_carve (k : Sketch H) (size chunk : Nat) : (k.carve size chunk).remnant = chunk - size := by
  unfold carve
  split
  · change Row.remnant 0 (k.row ++ _) = _
    simp [Row.remnant]
  · change Row.remnant 0 (k.row ++ _) = _
    simp [Row.remnant]
    omega

theorem Digs.remnant_mergeNext (hk : k.Digs run xs us ys v x n d) :
    (k.mergeNext run).1.remnant = k.remnant := by
  have hend := hk.end_eq
  have hrow := hk.row_eq
  have htidy := hk.hole.tidy
  cases ys with
  | nil => rw [htidy.mergeNext_nil (hrow.trans (List.append_nil _)) hend]
  | cons g ys =>
    cases hg : g.used with
    | true =>
      rw [htidy.mergeNext_used hrow hend hg]
      simp [remnant, Row.remnant, hrow]
    | false => rw [htidy.mergeNext_free hrow hend hg]; rfl

/-- A run that is settled leaves a used block at the top, or the block that was there. -/
theorem Digs.remnant_settleRun (hk : k.Digs run xs us ys false x n d) :
    (k.settleRun run).remnant ≤ k.remnant := by
  unfold settleRun
  split
  · rw [hk.release_eq]
    change Row.remnant 0 xs ≤ _
    rw [remnant_of_lastUsed hk.before]
    exact Nat.zero_le _
  · next hend =>
    have hys : ys ≠ [] := fun hys => hend (hk.end_iff.mpr hys)
    rw [hk.list_eq]
    change Row.remnant 0 (xs ++ (⟨run.size, false, true⟩ : Tag) :: ys) ≤ _
    rw [List.append_cons, remnant_append, remnant_of_ne_nil hys _ (Row.remnant 0 (xs ++ us)),
      ← remnant_append, ← hk.row_eq]
    exact Nat.le_refl _

theorem Settled.remnant_freeBlock (hk : k.Settled) (hx : (x, n) ∈ k.sites true) :
    (k.freeBlock x).remnant ≤ k.remnant := by
  obtain ⟨t, ht, hu, rfl⟩ := mem_sites_iff.mp hx
  obtain ⟨xs, ys, hrow, hxs⟩ := mem_located_iff.mp ht
  obtain ⟨xs', us, hd⟩ := hk.mergePrev_digs hrow hxs hu
  obtain ⟨us', ys', hd', -, -⟩ := hd.mergeNext
  rw [hk.tidy.freeBlock_eq hrow hxs]
  calc _ ≤ (((k.discharge t.size).mergePrev x t).1.mergeNext _).1.remnant := hd'.remnant_settleRun
    _ = ((k.discharge t.size).mergePrev x t).1.remnant := hd.remnant_mergeNext
    _ = (k.discharge t.size).remnant := remnant_congr (row_mergePrev _ x t)
    _ = k.remnant := rfl

/-- No more is free at the top than a chunk can leave over. -/
def Capped (k : Sketch H) : Prop := k.remnant ≤ minChunk - minSplit

theorem Capped.congr (hk : k.Capped) (hrow : k'.row = k.row) : k'.Capped :=
  (remnant_congr hrow).trans_le hk

variable [Host H]

theorem Capped.extend (hk : k.Capped) (hsize : minBlock ≤ size ∧ size % alignment = 0) :
    (k.extend size).2.Capped := by
  unfold Sketch.extend
  split
  · exact hk.congr rfl
  · next chunk host h =>
    rw [Capped, remnant_carve]
    cases Host.secureChunk_eq h with
    | inl hc => exact hc ▸ chunkFor_sub_le hsize
    | inr hc =>
      rw [hc, Nat.sub_self]
      exact Nat.zero_le _

theorem Capped.obtain (hk : k.Capped) (hs : k.Settled)
    (hsize : minBlock ≤ size ∧ size % alignment = 0) : (k.obtain size).2.Capped := by
  unfold Sketch.obtain
  split
  · exact hk.extend hsize
  · next y hy =>
    obtain ⟨b, hb, hfits⟩ := firstFit_some hy
    exact (hs.remnant_place hb hfits).trans hk

theorem Capped.allocateBlock (hk : k.Capped) (hs : k.Settled) (request : Nat) :
    (k.allocateBlock request).2.Capped := by
  unfold Sketch.allocateBlock
  split
  · exact hk
  · next size hsize =>
    have hc := hk.obtain hs (blockSize?_some hsize).2
    split
    · next h => rw [h] at hc; exact hc
    · next h => rw [h] at hc; exact hc.congr rfl

theorem Capped.growTop (hk : k.Capped) (ht : t.used = true) (off size : Nat) :
    (k.growTop off t size).2.Capped := by
  unfold Sketch.growTop
  split
  · exact hk
  · split
    · exact hk.congr rfl
    · have hrow : Row.remnant 0 ((k.cut off).1 ++ [{ t with size }]) = 0 := by
        simp [Row.remnant, ht]
      exact hrow.trans_le (Nat.zero_le _)

theorem Charged.reallocate_capped (hk : k.Charged) (hx : (x, n) ∈ k.sites true) (hc : k.Capped)
    (request : Nat) : (k.reallocate (x + headerSize) request).2.Capped := by
  obtain ⟨t, ht, hu, rfl⟩ := mem_sites_iff.mp hx
  obtain ⟨xs, ys, hrow, hxs⟩ := mem_located_iff.mp ht
  unfold Sketch.reallocate
  rw [Nat.add_sub_cancel, hk.settled.tidy.cut_eq hrow hxs]
  cases blockSize? request with
  | none => exact hc
  | some size =>
    dsimp only
    by_cases hle : size ≤ t.size
    · rw [if_pos hle]
      exact hc.congr rfl
    rw [if_neg hle, enlarge]
    have hg := hc.growTop hu x size
    rcases h : k.growTop x t size with ⟨_ | _, k1⟩
    · rw [h] at hg
      have hk1 := hk.growTop_false h
      have hx1 : (x, t.size) ∈ k1.sites true := by rwa [Sketch.growTop_false h]
      have ha := hg.allocateBlock hk1.settled request
      dsimp only
      rcases h2 : k1.allocateBlock request with ⟨reason | target, k2⟩
      · rw [h2] at ha
        exact ha
      · rw [h2] at ha
        obtain ⟨hk2, hy, -⟩ := hk1.allocateBlock_ok h2
        exact (hk2.settled.remnant_freeBlock (hy.kept hx1)).trans ha
    · rw [h] at hg
      exact hg

theorem Charged.perform_capped (hk : k.Charged) (hc : k.Admits c) (hcap : k.Capped) :
    (k.perform c).2.Capped := by
  cases c with
  | allocate request =>
    have ha := hcap.allocateBlock hk.settled request
    change (k.allocate request).2.Capped
    unfold allocate
    rcases h : k.allocateBlock request with ⟨reason | off, k1⟩
    · rw [h] at ha
      exact ha
    · rw [h] at ha
      exact ha.congr rfl
  | free ptr =>
    obtain ⟨x, n, hx, rfl⟩ := hc
    change ((k.freeBlock (x + headerSize - headerSize)).count .frees).Capped
    rw [Nat.add_sub_cancel]
    exact (hk.settled.remnant_freeBlock hx).trans hcap
  | reallocate ptr request =>
    obtain ⟨x, n, hx, rfl⟩ := hc
    exact hk.reallocate_capped hx hcap request
  | init => exact Nat.zero_le _
  | write ptr i b => exact hcap

end Sketch

namespace Session

variable {H : Type} [Host H] [LawfulHost H] {s : Session H} {cs : List Call} {x : Nat} {t : Tag}
  {bs : List (Nat × Tag)}

theorem Run.follows_capped (hr : Run cs s) : ∃ k, s.Follows cs k ∧ k.Anchored ∧ k.Capped :=
  hr.follows_with (fun _ _ => ⟨fun _ => rfl, Nat.zero_le _⟩) fun _ _ hk hc h =>
    ⟨hk.perform_anchored hc h.1, hk.charged.perform_capped hc h.2⟩

/-- A free block at the top is no larger than 480 bytes, which is the most that a chunk leaves over, and
the block before it is used. -/
theorem reachable_top_free (hs : s.Reachable) (hb : s.heap.blocks = bs ++ [(x, t)])
    (hu : t.used = false) :
    t.size ≤ minChunk - minSplit ∧ ∃ cs y u, bs = cs ++ [(y, u)] ∧ u.used = true := by
  obtain ⟨calls, hr⟩ := hs
  obtain ⟨k, hf, hanchored, hcapped⟩ := hr.follows_capped
  have hrow : k.row = bs.map Prod.snd ++ [t] := by
    rw [← hf.shows.tags_eq, Heap.tags, hb, List.map_append]
    rfl
  have hlast : lastUsed true (bs.map Prod.snd) = true := by
    have hset := hf.valid.settled
    have hm := hset.merged t (by simp [hrow])
    rw [← hset.prevUsed_eq hrow]
    exact hm.resolve_left (by simp [hu])
  constructor
  · have hrem : k.remnant = t.size := by simp [Sketch.remnant, Row.remnant, hrow, hu]
    exact hrem ▸ hcapped
  · induction bs using List.reverseRecOn with
    | nil =>
      have hnone : k.sites true = [] := by simp [Sketch.sites, hrow, sites_cons, hu]
      simp [hanchored hnone] at hrow
    | append_singleton cs q =>
      refine ⟨cs, q.1, q.2, rfl, ?_⟩
      simpa [lastUsed] using hlast

theorem reachable_top_free_allocate :
    ∃ (s : Session Reserve) (bs : List (Nat × Tag)) (t : Tag), s.Reachable ∧
      s.heap.blocks = bs ++ [(504, t)] ∧ t.used = false ∧ t.size = 480 ∧
      t.size ≤ minChunk - minSplit ∧ ∃ cs y u, bs = cs ++ [(y, u)] ∧ u.used = true := by
  have hroom : Host.secure (Reserve.full 4096) 0 prologueSize = (.ok (), .full 4096) := rfl
  obtain ⟨heap, hi, hf⟩ := init_follows hroom .checked .zero
  obtain ⟨s, -, hr, hf⟩ := hf.advance (c := .allocate 56) (.start hi) trivial (by decide) (by decide)
  have hb : s.heap.blocks = [(440, ⟨64, true, true⟩)] ++ [(504, ⟨480, false, true⟩)] :=
    hf.shows.blocks_eq.trans rfl
  exact ⟨s, _, _, ⟨_, hr⟩, hb, rfl, rfl, reachable_top_free ⟨_, hr⟩ hb rfl⟩

end Session

end SegregatedFit
