import Mathlib
import SegregatedFit.Proofs.Trails

/-!
What a passed heap check says of the free lists, and what it leaves open. The entries are as many as
the free blocks and no two are the same, so the lists hold exactly the free blocks as long as no entry
is a stray: an offset inside a block where the memory looks like a free block. One stray can stand
in for a free block of its bucket that is missing, and then the check passes all the same.
-/
namespace SegregatedFit

open Row Memory

namespace Memory

variable {m m' : Memory} {s x : Nat} {l l' : List Nat}

theorem Linked.tail (h : m.Linked (x :: l)) : m.Linked l := by
  cases l with
  | nil => trivial
  | cons y l => exact h.2.2

/-- The next links decide what comes before they lead to `s`. -/
theorem Linked.unique (h : m.Linked (x :: (l ++ [s]))) (h' : m'.Linked (x :: (l' ++ [s])))
    (hn : ∀ y ∈ x :: l, m'.nextLink y = m.nextLink y) (hs : s ∉ l) (hs' : s ∉ l') : l = l' := by
  have hx := hn x List.mem_cons_self
  induction l generalizing x l' with
  | nil =>
    cases l' with
    | nil => rfl
    | cons y l' =>
      have hy : s = y := h.1.symm.trans (hx.symm.trans h'.1)
      exact absurd hy (Ne.symm (ne_of_mem_of_not_mem (by simp) hs'))
  | cons y l ih =>
    cases l' with
    | nil =>
      have hy : y = s := h.1.symm.trans (hx.symm.trans h'.1)
      exact absurd hy (ne_of_mem_of_not_mem (by simp) hs)
    | cons z l' =>
      obtain rfl : y = z := h.1.symm.trans (hx.symm.trans h'.1)
      have hn' : ∀ u ∈ y :: l, m'.nextLink u = m.nextLink u := fun u hu => hn u (List.mem_cons_of_mem _ hu)
      rw [ih h.tail h'.tail hn' (fun hm => hs (List.mem_cons_of_mem _ hm))
        (fun hm => hs' (List.mem_cons_of_mem _ hm)) (hn' y List.mem_cons_self)]

theorem Linked.nodup (h : m.Linked (l ++ [s])) (hs : s ∉ l) : l.Nodup := by
  induction l with
  | nil => exact List.nodup_nil
  | cons x l ih =>
    have hsl : s ∉ l := fun hm => hs (List.mem_cons_of_mem _ hm)
    refine List.nodup_cons.mpr ⟨fun hx => ?_, ih h.tail hsl⟩
    obtain ⟨ys, zs, rfl⟩ := List.append_of_mem hx
    have hagain : m.Linked (x :: (zs ++ [s])) := by
      rw [List.cons_append, List.append_assoc] at h
      exact (linked_append.mp h.tail).2
    have hsz : s ∉ zs := fun hm => hsl (by simp [hm])
    have hlen := congrArg List.length (Linked.unique h hagain (fun _ _ => rfl) hsl hsz)
    simp at hlen
    omega

theorem Ring.unique (h : m.Ring s l) (h' : m.Ring s l') (hs : s ∉ l) (hs' : s ∉ l') : l = l' :=
  Linked.unique h h' (fun _ _ => rfl) hs hs'

theorem Ring.nodup (h : m.Ring s l) (hs : s ∉ l) : l.Nodup := Linked.nodup (Linked.tail h) hs

end Memory

namespace Arena

variable {a : Arena} {bins : Bins} {b : Fin bucketCount} {off x : Nat} {ts : Row}
  {lists : Fin bucketCount → List Nat}

def freeBlocks (a : Arena) : List Nat := ((a.blocksFrom a.low).filter (!·.2.used)).map Prod.fst

theorem Tiles.blocksFrom_eq (h : a.Tiles off ts) : a.blocksFrom off = located off ts := by
  induction ts generalizing off with
  | nil =>
    have hoff := tiles_nil.mp h
    rw [blocksFrom, dif_neg (by simp only [wordSize]; omega)]
    rfl
  | cons t ts ih =>
    obtain ⟨hsize, hhead, -, hrest⟩ := tiles_cons.mp h
    have hends := hrest.ends
    simp only [minBlock, wordSize] at hsize
    rw [blocksFrom, dif_pos (by simp only [wordSize]; omega)]
    simp only [hhead]
    rw [dif_neg (by omega), located, ih hrest]

theorem Walkable.freeBlocks_eq (h : a.Walkable ts) :
    a.freeBlocks = (sites false a.low ts).map Prod.fst := by
  rw [freeBlocks, h.tiles.blocksFrom_eq, sites_eq_filter_beq, List.map_map]
  simp only [beq_false]
  rfl

theorem Intact.nodup (hf : a.Framed) (h : a.Intact bins ts lists) :
    ((List.finRange bucketCount).flatMap lists).Nodup := by
  have hout (b : Fin bucketCount) : sentinel b ∉ lists b :=
    fun hm => hf.sentinel_not_entry b (h.entries b _ hm)
  refine List.nodup_flatMap.mpr ⟨fun b _ => (h.rings b).nodup (hout b), ?_⟩
  refine (List.nodup_finRange bucketCount).imp ?_
  intro b c hbc x hb hc
  exact hbc ((h.entries b x hb).bucket.symm.trans (h.entries c x hc).bucket)

/-- Where a heap check passes, the lists have as many entries as there are free blocks, all of them
different. They are the free blocks if, and only if, every entry is where a block starts. -/
theorem Framed.check_ok_listed (hf : a.Framed) (h : (Audit.check bins a).run = .ok (.ok ())) :
    ∃ lists : Fin bucketCount → List Nat,
      (∀ b, a.mem.Ring (sentinel b) (lists b) ∧ (lists b).length = bins.length b ∧
        ∀ x ∈ lists b, a.Entry b x) ∧
      ((List.finRange bucketCount).flatMap lists).Nodup ∧
      ((List.finRange bucketCount).flatMap lists).length = a.freeBlocks.length ∧
      (((List.finRange bucketCount).flatMap lists).Perm a.freeBlocks ↔
        ∀ b, ∀ x ∈ lists b, ∃ t, (x, t) ∈ a.blocksFrom a.low) := by
  obtain ⟨r, hr, hiff⟩ := Audit.check_decides hf bins
  obtain rfl : r = .ok () := Except.ok.inj (hr.symm.trans h)
  obtain ⟨ts, lists, hi⟩ := (hiff ()).mp rfl
  have hfree := hi.toWalkable.freeBlocks_eq
  have hblocks := hi.tiles.blocksFrom_eq
  have hlen : ((List.finRange bucketCount).flatMap lists).length = a.freeBlocks.length := by
    rw [hfree, List.length_map, hi.total]
  refine ⟨lists, fun b => ⟨hi.rings b, hi.lengths b, hi.entries b⟩, hi.nodup hf, hlen, ?_⟩
  constructor
  · intro hp b x hx
    have hm : x ∈ a.freeBlocks := hp.subset (List.mem_flatMap.mpr ⟨b, List.mem_finRange b, hx⟩)
    rw [hfree] at hm
    obtain ⟨⟨_, n⟩, hn, rfl⟩ := List.mem_map.mp hm
    obtain ⟨t, ht, -, -⟩ := mem_sites_iff.mp hn
    exact ⟨t, hblocks ▸ ht⟩
  · intro hstart
    refine (List.subperm_of_subset (hi.nodup hf) ?_).perm_of_length_le hlen.ge
    intro x hx
    obtain ⟨b, -, hb⟩ := List.mem_flatMap.mp hx
    obtain ⟨t, ht⟩ := hstart b x hb
    rw [hblocks] at ht
    have hused : t.used = false := hi.tiles.heads x t ht ▸ (hi.entries b x hb).free
    rw [hfree]
    exact List.mem_map.mpr ⟨(x, t.size), mem_sites_iff.mpr ⟨t, ht, hused, rfl⟩, rfl⟩

theorem check_strayed :
    (Audit.check (Bins.empty.setLength (bucketFor 160) 1) strayed).run = .ok (.ok ()) := by
  obtain ⟨r, hr, hiff⟩ := Audit.check_decides strayed_framed (Bins.empty.setLength (bucketFor 160) 1)
  obtain rfl := (hiff ()).mpr ⟨_, _, strayed_intact⟩
  exact hr

theorem freeBlocks_strayed : strayed.freeBlocks = [472] := by
  rw [strayed_intact.freeBlocks_eq]
  decide

theorem strayed_ring_unique {b : Fin bucketCount} {l : List Nat} (h : strayed.mem.Ring (sentinel b) l)
    (hs : sentinel b ∉ l) : l = strayedLists b :=
  h.unique (strayed_ring b) hs fun hm =>
    strayed_framed.sentinel_not_entry b (strayed_intact.entries b _ hm)

/-- The check passes over a stray: the one free block, at 472, is in no list, and the one entry, at
448, is no block. -/
theorem check_ok_strayed : strayed.Framed ∧
    (Audit.check (Bins.empty.setLength (bucketFor 160) 1) strayed).run = .ok (.ok ()) ∧
    strayed.freeBlocks = [472] ∧
    ∀ b l, strayed.mem.Ring (sentinel b) l → sentinel b ∉ l →
      l = if b = bucketFor 160 then [448] else [] :=
  ⟨strayed_framed, check_strayed, freeBlocks_strayed, fun _ _ hl hs => strayed_ring_unique hl hs⟩

theorem check_ok_listed_strayed : strayed.Framed ∧
    (Audit.check (Bins.empty.setLength (bucketFor 160) 1) strayed).run = .ok (.ok ()) ∧
    ∃ b l, strayed.mem.Ring (sentinel b) l ∧ ∃ x ∈ l, ∀ t, (x, t) ∉ strayed.blocksFrom strayed.low := by
  refine ⟨strayed_framed, check_strayed, ?_⟩
  obtain ⟨lists, hlists, -, -, hiff⟩ := strayed_framed.check_ok_listed check_strayed
  have hnot : ¬ ((List.finRange bucketCount).flatMap lists).Perm strayed.freeBlocks := by
    intro hp
    have hm : 472 ∈ (List.finRange bucketCount).flatMap lists :=
      hp.symm.subset (by simp [freeBlocks_strayed])
    obtain ⟨b, -, hb⟩ := List.mem_flatMap.mp hm
    have hs : sentinel b ∉ lists b := fun hs =>
      strayed_framed.sentinel_not_entry b ((hlists b).2.2 _ hs)
    rw [strayed_ring_unique (hlists b).1 hs, strayedLists] at hb
    split at hb <;> simp at hb
  rw [hiff] at hnot
  push Not at hnot
  obtain ⟨b, x, hx, hb⟩ := hnot
  exact ⟨b, lists b, (hlists b).1, x, hx, hb⟩

end Arena

end SegregatedFit
