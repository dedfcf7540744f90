import Mathlib
import SegregatedFit.Proofs.Searching
import SegregatedFit.Proofs.Settled
import SegregatedFit.Proofs.Shows

/-!
Requests served from the free lists: the search finds what the sketch says, and the block found is
made a used one, whole or in part.
-/
namespace SegregatedFit

open Row Memory

variable {H : Type}

namespace Sketch

variable {k : Sketch H} {b : Fin bucketCount} {n x size : Nat} {t : Tag} {xs ys : Row}

theorem Tidy.place_whole (hk : k.Tidy) (hrow : k.row = xs ++ t :: ys) (hx : x = prologueSize + span xs)
    (hrest : t.size - size < minSplit) :
    k.place x size = { k.unlist x with
      row := xs ++ { t with used := true } :: Row.settle true ys
      topUsed := k.topUsed || ys.isEmpty } := by
  rw [place, hk.cut_eq hrow hx]
  exact if_pos hrest

theorem Tidy.place_split (hk : k.Tidy) (hrow : k.row = xs ++ t :: ys) (hx : x = prologueSize + span xs)
    (hrest : ¬ t.size - size < minSplit) :
    k.place x size =
      (({ k.unlist x with
        row := xs ++ (⟨size, true, t.prevUsed⟩ : Tag) :: ⟨t.size - size, false, true⟩ :: ys }).enlist
          (x + size) (t.size - size)).count .splits := by
  rw [place, hk.cut_eq hrow hx]
  exact if_neg hrest

theorem host_place (k : Sketch H) (x size : Nat) : (k.place x size).host = k.host := by
  unfold place
  split
  · split <;> rfl
  · rfl

theorem bytesInUse_place (k : Sketch H) (x size : Nat) :
    (k.place x size).stats.bytesInUse = k.stats.bytesInUse := by
  unfold place
  split
  · split <;> simp
  · rfl

theorem Settled.unlist (hk : k.Settled) (hrow : k.row = xs ++ t :: ys)
    (hx : x = prologueSize + span xs) (ht : t.used = false) : (k.unlist x).Hole xs [t] ys false := by
  have hh := (hk.hole hrow).takeFree ht
  rw [span_nil, Nat.add_zero, ← hx] at hh
  exact hh

theorem Settled.next_used (hk : k.Settled) (hrow : k.row = xs ++ t :: ys) (ht : t.used = false) :
    ∀ s ∈ ys.head?, s.used = true := by
  intro s hs
  cases ys with
  | nil => cases hs
  | cons g ys =>
    obtain rfl : g = s := by simpa using hs
    have hf := hk.flagged
    have hm := hk.merged
    rw [hrow, flagged_append] at hf
    rw [hrow, merged_append, merged_cons] at hm
    exact hm.2.2.head_used (ht ▸ hf.2.2)

theorem Settled.of_listed (hk : k.Settled) (hx : x ∈ k.lists b) (hfits : size ≤ k.sizeAt x) :
    ∃ xs t ys, k.row = xs ++ t :: ys ∧ x = prologueSize + span xs ∧ t.used = false ∧
      size ≤ t.size ∧ bucketFor t.size = b := by
  obtain ⟨n, hn, hb⟩ := hk.tidy.listed hx
  obtain ⟨t, ht, hu, rfl⟩ := mem_sites_iff.mp hn
  rw [hk.tidy.sizeAt_eq ht] at hfits
  obtain ⟨xs, ys, hrow, hx⟩ := mem_located_iff.mp ht
  exact ⟨xs, t, ys, hrow, hx, hu, hfits, hb⟩

theorem Settled.top_place (hk : k.Settled) (hx : x ∈ k.lists b) (hfits : size ≤ k.sizeAt x) :
    (k.place x size).top = k.top := by
  obtain ⟨xs, t, ys, hrow, hxs, hu, hle, -⟩ := hk.of_listed hx hfits
  by_cases hrest : t.size - size < minSplit
  · rw [hk.tidy.place_whole hrow hxs hrest]
    simp [top, hrow]
  · rw [hk.tidy.place_split hrow hxs hrest]
    simp [top, hrow]
    omega

theorem Settled.place (hk : k.Settled) (hx : x ∈ k.lists b) (hfits : size ≤ k.sizeAt x)
    (hsize : minBlock ≤ size ∧ size % alignment = 0) : (k.place x size).Settled := by
  obtain ⟨xs, t, ys, hrow, rfl, hu, hle, -⟩ := hk.of_listed hx hfits
  have hh := hk.unlist hrow rfl hu
  have htop := hh.top_eq
  have hroom := hh.tidy.room
  have hflag := hk.flagged
  rw [hrow, flagged_append] at hflag
  have hprev : t.prevUsed = lastUsed true xs := hflag.2.1
  obtain ⟨hzx, hzt, hzy⟩ := hh.sized
  rw [sized_cons] at hzt
  by_cases hrest : t.size - size < minSplit
  · rw [hk.tidy.place_whole hrow rfl hrest]
    have hh' := (hh.swap (r := [{ t with used := true }]) (by simpa using hzt.1)
      (by simp)).settle true (by simp)
    refine hh'.fill rfl ?_ hh'.tidy.room (.inr rfl) hh'.sized.2.1 ⟨hprev, trivial⟩ (.inr rfl)
      (merged_cons.mpr ⟨.inl rfl, by simp [Merged]⟩) ?_ hh'.tidy.nodup
    · change (k.topUsed || ys.isEmpty) = _
      rw [hk.topUsed, hrow]
      cases ys <;> simp [lastUsed, Row.settle]
    · simp [sites_cons]
  · rw [hk.tidy.place_split hrow rfl hrest]
    have hfresh : ∀ b, prologueSize + span xs + size ∉ (k.unlist (prologueSize + span xs)).lists b := by
      simp only [minSplit, alignment] at hrest
      exact hh.fresh (by omega) (.inr (by simp only [span_cons, span_nil]; omega))
    simp only [minSplit, minBlock, wordSize, alignment, span_cons, span_nil, top_unlist] at *
    refine hh.fill (r := [⟨size, true, t.prevUsed⟩, ⟨t.size - size, false, true⟩]) rfl ?_ ?_ ?_ ?_
      ⟨hprev, rfl, trivial⟩ (.inr rfl) ?_ ?_ ?_
    · change k.topUsed = _
      rw [hk.topUsed, hrow]
      simp [lastUsed, hu]
    · change prologueSize + span (xs ++ _ :: _ :: ys) < _
      simp only [span_append, span_cons]
      omega
    · right
      simp only [span_cons, span_nil]
      omega
    · simp only [sized_cons, sized_nil, minBlock, wordSize, alignment, and_true]
      omega
    · simp [Merged]
    · intro b y
      exact mem_enlist_iff
    · exact nodup_enlist hh.tidy.nodup hfresh _

end Sketch

namespace Heap

variable {h : Heap H} {k : Sketch H} {b : Fin bucketCount} {n x size s : Nat} {t : Tag}
  {xs ys us : Row} {v : Bool} {zs : List Nat} {limit : Stats}

theorem Shows.firstFit (hs : h.Shows k) (size : Nat) :
    h.bins.firstFit h.arena size = .ok (k.firstFit size) := by
  rw [hs.keeps.firstFit_eq, Sketch.firstFit]
  congr 2
  funext b
  rw [Bins.firstIn]
  split
  · rfl
  · apply List.find?_congr
    intro x hx
    obtain ⟨n, hn, -⟩ := hs.tidy.listed hx
    obtain ⟨t, ht, -, -⟩ := mem_sites_iff.mp hn
    rw [hs.tagSize_eq ht, hs.tidy.sizeAt_eq ht]

open HeapM

theorem markPrevUsed_meets (hs : h.Shows k) (hk : k.Hole xs us ys v)
    (hx : x = prologueSize + span xs + span us) (hhead : ∀ t ∈ ys.head?, t.used = true) :
    (markPrevUsed x).Meets h limit fun _ h' =>
      h'.Shows { k with
        row := xs ++ (us ++ settle true ys)
        topUsed := k.topUsed || ys.isEmpty } ∧
      SameOff k.Owns h.arena.mem h'.arena.mem := by
  have htop := hk.top_eq
  apply meets_get
  cases ys with
  | nil =>
    rw [if_neg (by rw [hs.top, htop, hx, span_nil]; omega)]
    apply Meets.last
    apply meets_setTopUsed
    apply meets_pure
    have hs' := hs.setTopUsed true
    refine ⟨?_, SameOff.refl _⟩
    simpa only [settle, List.isEmpty_nil, Bool.or_true, ← hk.row] using hs'
  | cons g ys =>
    have hg : g.used = true := hhead g (by simp)
    have hin := hk.block_next
    have hz := (hs.tidy.of_block hin).2.2.1
    simp only [minBlock, wordSize] at hz
    rw [if_pos (by rw [hs.top, htop, hx, span_cons]; omega)]
    apply meets_view (hx ▸ hs.tag_eq hin)
    apply Meets.last
    have hrow : k.row = (xs ++ us) ++ g :: ys := by rw [hk.row, List.append_assoc]
    refine meets_retag hs hrow (by rw [hx, span_append, Nat.add_assoc]) hg rfl
      (hx ▸ hs.tidy.unlisted hin hg) ?_
    intro h' hs' hm
    apply meets_pure
    refine ⟨?_, hm⟩
    simpa only [settle, List.isEmpty_cons, Bool.or_false, List.append_assoc] using hs'

theorem place_meets (hs : h.Shows k) (hk : k.Settled) (hx : x ∈ k.lists b)
    (hfits : size ≤ k.sizeAt x) (hsize : minBlock ≤ size ∧ size % alignment = 0)
    (hl : (k.place x size).stats.Below limit) :
    (place x size).Meets h limit fun _ h' =>
      h'.Shows (k.place x size) ∧ SameOff k.Owns h.arena.mem h'.arena.mem := by
  obtain ⟨xs, t, ys, hrow, hxs, hu, hle, -⟩ := hk.of_listed hx hfits
  have hin : (x, t) ∈ k.blocks := mem_located_iff.mpr ⟨xs, ys, hrow, hxs⟩
  have hb := hk.tidy.of_block hin
  have hh := hk.unlist hrow hxs hu
  have hroom := hk.tidy.room
  have hfree : ∀ j, x ≤ j → j < x + t.size → k.Owns j := fun j h1 h2 =>
    Sketch.owns_of_free (mem_sites_iff.mpr ⟨t, hin, hu, rfl⟩) h1 h2
  apply meets_view (hs.tag_eq hin)
  apply meets_lift (minus_eq_ok hle)
  apply meets_unlist hs hx
  intro h1 hs1 hm1
  -- what is left over is too small for a block and stays with this one, or becomes a free block
  by_cases hrest : t.size - size < minSplit
  · rw [if_pos hrest]
    rw [hk.tidy.place_whole hrow hxs hrest] at hl ⊢
    refine meets_retag hs1 hrow hxs rfl rfl ?_ ?_
    · exact hh.fresh (Nat.le_of_eq hxs.symm)
        (.inr (by simp only [span_cons, span_nil, minBlock, wordSize] at *; omega))
    intro h2 hs2 hm2
    have hh2 := hh.swap (r := [{ t with used := true }]) (by simpa using hb.2.2.imp_right (·.1))
      (by simp)
    have hin2 : (x, ({ t with used := true } : Tag)) ∈
        located prologueSize (xs ++ { t with used := true } :: ys) :=
      mem_located_iff.mpr ⟨xs, ys, rfl, hxs⟩
    apply meets_view (hs2.blockEnd_eq hin2)
    refine (markPrevUsed_meets hs2 hh2 (by rw [hxs]; simp) (hk.next_used hrow hu)).bind ?_
    rintro _ h3 ⟨hs3, hm3⟩
    apply Meets.last
    apply meets_note
    apply meets_pure
    refine ⟨hs3, hm1.trans (hm2.trans (hm3.mono fun i hi => hi.mono ?_))⟩
    rw [Sketch.sites, Sketch.row_unlist, hrow]
    exact sites_subset (r := [t]) (s := [{ t with used := true }]) (by simp) (by simp [sites_cons, hu])
  · have hn : minBlock ≤ t.size - size ∧ (t.size - size) % alignment = 0 := by
      simp only [minSplit, minBlock, wordSize, alignment] at *
      omega
    have hroom1 : h1.arena.top < wordLimit := hs1.top ▸ hroom
    have hend : size + (t.size - size) = t.size := by omega
    have htop : h1.arena.top = x + (size + (t.size - size)) + span ys := by
      rw [hend, hxs, hs1.top, hh.top_eq, span_cons, span_nil, Nat.add_zero]
    have hmod : (x + size) % wordSize = 0 := by
      simp only [alignment, headerSize, wordSize] at *
      omega
    obtain ⟨hw2, hw3⟩ := Arena.hasWord_ends hmod hn (by omega) hroom1
    rw [if_neg hrest]
    rw [hk.tidy.place_split hrow hxs hrest] at hl ⊢
    apply meets_lift (plus_eq_ok (by omega))
    apply meets_edit (Arena.setTag_eq_ok (hs1.hasWord_head hin) hsize.2)
    apply meets_edit (writeFree_eq (hw2.put _ _) (hw3.put _ _) hn.1 hn.2 true)
    have hm2 := sameOff_pair (t := ⟨size, true, t.prevUsed⟩) (p := true) h1.arena.mem x hsize.1 hn.1
    have hs2 := hs1.refillPair hh hxs rfl rfl htop hroom1 (.inr (by simpa using hend)) hsize hn
      t.prevUsed
    refine meets_enlist (n := t.size - size) hs2 ?_ ?_ ?_
    · simp [Sketch.sites, sites_append, sites_cons, hxs]
    · simp only [minSplit, minBlock, wordSize, alignment] at *
      exact hh.fresh (by omega) (.inr (by simp only [span_cons, span_nil]; omega))
    intro h3 hs3 hm3
    refine meets_count_shown hs3 hl ?_
    intro h4 hs4 ha4
    apply Meets.last
    apply meets_note
    apply meets_pure
    refine ⟨hs4, ?_⟩
    rw [ha4]
    refine hm1.trans (.trans (hm2.mono ?_) (hm3.mono fun i hi => hi.mono ?_))
    · rintro j ⟨h1, h2⟩
      exact hfree j h1 (hend ▸ h2)
    · rw [Sketch.sites, hrow]
      exact sites_subset (r := [t]) (by simpa using hend.symm) (by simp [sites_cons, hu])

end Heap

end SegregatedFit
