import Mathlib
import SegregatedFit.Heap.Survey
import SegregatedFit.Proofs.Shows

/-!
What a survey of a heap finds. Where the heap shows a sketch, the walk by decoded sizes meets the
blocks of the sketch, and between operations all the promises of the layout hold together.
-/
namespace SegregatedFit

open Row Memory

namespace Row

theorem map_snd_located (off : Nat) (ts : Row) : (located off ts).map Prod.snd = ts := by
  induction ts generalizing off with
  | nil => rfl
  | cons t ts ih => rw [located, List.map_cons, ih]

theorem sites_eq_filter_beq (u : Bool) (off : Nat) (ts : Row) :
    sites u off ts = ((located off ts).filter (·.2.used == u)).map fun q => (q.1, q.2.size) := by
  induction ts generalizing off with
  | nil => rfl
  | cons t ts ih =>
    rw [sites_cons, located, List.filter_cons, ih]
    cases t.used <;> cases u <;> rfl

theorem sites_eq_filter (off : Nat) (ts : Row) :
    sites true off ts = ((located off ts).filter (·.2.used)).map fun q => (q.1, q.2.size) := by
  simpa only [beq_true] using sites_eq_filter_beq true off ts

theorem Merged.isChain {p : Bool} {ts : Row} (hm : Merged ts) (hf : Flagged p ts) :
    ts.IsChain fun t u => t.used = true ∨ u.used = true := by
  induction ts generalizing p with
  | nil => exact .nil
  | cons t ts ih =>
    have hm' := (merged_cons.mp hm).2
    cases ts with
    | nil => exact .singleton t
    | cons u ts =>
      refine .cons_cons ?_ (ih hm' hf.2)
      have hu := (merged_cons.mp hm').1
      rw [hf.2.1] at hu
      exact hu.symm

end Row

namespace Heap

variable {H : Type} {h : Heap H} {k : Sketch H} {n off x : Nat} {t : Tag} {xs ys : Row}

def tags (h : Heap H) : Row := h.blocks.map Prod.snd

def usedBlocks (h : Heap H) : List (Nat × Nat) :=
  (h.blocks.filter (·.2.used)).map fun q => (q.1, q.2.size)

/-- The promises of the layout, said of what the memory spells. -/
structure Sound (h : Heap H) : Prop where
  low : h.arena.low = prologueSize
  /-- The walk by decoded sizes goes from `low` to the top. -/
  tiled : h.blocks = located h.arena.low h.tags ∧ h.arena.low + span h.tags = h.arena.top
  sizes : ∀ t ∈ h.tags, 0 < t.size ∧ t.size % alignment = 0
  flagged : Flagged true h.tags
  merged : h.tags.IsChain fun t u => t.used = true ∨ u.used = true
  tails : ∀ x t, (x, t) ∈ h.blocks → t.used = false →
    (h.arena.mem.word (x + t.size - wordSize) ^^^ h.arena.mem.word x) &&& ~~~Tag.prevUsedBit = 0
  topUsed : h.topUsed = lastUsed true h.tags
  /-- The ring of each bucket goes once through all free blocks of its sizes, and through nothing
  else. -/
  listed : ∀ b, ∃ l, h.arena.mem.Ring (sentinel b) l ∧ l.Nodup ∧ h.bins.length b = l.length ∧
    ∀ x, x ∈ l ↔ ∃ t, (x, t) ∈ h.blocks ∧ t.used = false ∧ bucketFor t.size = b

theorem Shows.blocksFrom_eq (hs : h.Shows k) (hrow : k.row = xs ++ ys)
    (hoff : off = prologueSize + span xs) : h.arena.blocksFrom off = located off ys := by
  induction ys generalizing xs off with
  | nil =>
    have htop : off = h.arena.top := by rw [hoff, hs.top, Sketch.top, hrow, List.append_nil]
    rw [Arena.blocksFrom, dif_neg (by simp only [wordSize]; omega)]
    rfl
  | cons t ys ih =>
    have hin : (off, t) ∈ k.blocks := mem_located_iff.mpr ⟨xs, ys, hrow, hoff⟩
    have hb := hs.tidy.of_block hin
    have htop := hs.top
    have hfit : off + wordSize ≤ h.arena.top := by
      simp only [minBlock, wordSize] at *
      omega
    have hz : ¬ (t.size = 0 ∨ h.arena.top - off < t.size) := by
      simp only [minBlock, wordSize] at hb
      omega
    rw [Arena.blocksFrom, dif_pos hfit]
    simp only [hs.decode_head hin]
    rw [dif_neg hz, located]
    have hrow' : k.row = (xs ++ [t]) ++ ys := by rw [hrow, List.append_assoc]; rfl
    have hoff' : off + t.size = prologueSize + span (xs ++ [t]) := by
      rw [hoff, span_append, span_cons, span_nil, Nat.add_zero, Nat.add_assoc]
    rw [ih hrow' hoff']

theorem Shows.blocks_eq (hs : h.Shows k) : h.blocks = k.blocks := by
  rw [blocks, hs.low]
  exact hs.blocksFrom_eq (List.nil_append _).symm rfl

theorem Shows.tags_eq (hs : h.Shows k) : h.tags = k.row := by
  rw [tags, hs.blocks_eq]
  exact map_snd_located _ _

theorem Shows.usedBlocks_eq (hs : h.Shows k) : h.usedBlocks = k.sites true := by
  rw [usedBlocks, hs.blocks_eq, Sketch.sites, sites_eq_filter]
  rfl

theorem Shows.sound (hs : h.Shows k) (hk : k.Settled) : h.Sound where
  low := hs.low
  tiled := by
    rw [hs.blocks_eq, hs.tags_eq, hs.low, hs.top]
    exact ⟨rfl, rfl⟩
  sizes := by
    rw [hs.tags_eq]
    intro t ht
    obtain ⟨hmin, hmod⟩ := hk.tidy.sized t ht
    simp only [minBlock, wordSize] at hmin
    exact ⟨by omega, hmod⟩
  flagged := by rw [hs.tags_eq]; exact hk.flagged
  merged := by rw [hs.tags_eq]; exact hk.merged.isChain hk.flagged
  tails := by
    rw [hs.blocks_eq]
    intro x t hx hu
    obtain ⟨q, hq⟩ := hs.spells.tail hx hu
    have ht : t.word = Tag.word ⟨t.size, false, t.prevUsed⟩ := by rw [← hu]
    rw [hq, hs.spells.head hx, ht, Tag.word_xor_word]
  topUsed := by rw [hs.tags_eq, hs.topUsed, hk.topUsed]
  listed b := by
    refine ⟨k.lists b, hs.rings b, hk.tidy.nodup b, hs.lengths b, fun x => ?_⟩
    rw [hk.listed_iff, hs.blocks_eq]
    constructor
    · rintro ⟨n, hn, hb⟩
      obtain ⟨t, ht, hu, rfl⟩ := mem_sites_iff.mp hn
      exact ⟨t, ht, hu, hb⟩
    · rintro ⟨t, ht, hu, hb⟩
      exact ⟨t.size, mem_sites_iff.mpr ⟨t, ht, hu, rfl⟩, hb⟩

theorem Shows.blockSize_payload (hs : h.Shows k) (hx : (x, n) ∈ k.sites true) :
    h.blockSize (x + headerSize) = .ok n := by
  obtain ⟨t, ht, -, rfl⟩ := mem_sites_iff.mp hx
  have hb := hs.tidy.of_block ht
  have hc : h.arena.contains (x + headerSize) := by
    simp only [Arena.contains, hs.low, hs.top, minBlock, wordSize, headerSize, Bool.and_eq_true,
      decide_eq_true_eq] at *
    omega
  simp only [blockSize, Arena.offset_of_contains hc, minus_eq_ok (Nat.le_add_left _ _),
    Nat.add_sub_cancel, hs.blockSize_eq ht, bind, Except.bind]

theorem Shows.usableSize_eq (hs : h.Shows k) (hx : (x, n) ∈ k.sites true) :
    h.usableSize (x + headerSize) = .ok (n - headerSize) := by
  have hb := hs.tidy.of_site hx
  have hz : headerSize ≤ n := by
    simp only [minBlock, wordSize, headerSize] at *
    omega
  simp only [usableSize, hs.blockSize_payload hx, bind, Except.bind]
  exact minus_eq_ok hz

end Heap

end SegregatedFit
