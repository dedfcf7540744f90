import Mathlib
import SegregatedFit.Proofs.Layouts
import SegregatedFit.Proofs.Promises
import SegregatedFit.Proofs.Strays

/-!
Damage to one word of the bookkeeping, and that a heap check finds it. A damaged link leads back to the
sentinel only along links that differ from the ones run the other way, so even entries forged in payloads
cannot make up for it. A damaged head changes what the next block has to record or how many free blocks
there are.
-/
namespace SegregatedFit

open Row Memory

namespace Memory

variable {m m' : Memory} {s v x y : Nat} {l l' xs : List Nat}

theorem Linked.unique_prev (h : m.Linked (s :: (l ++ [x]))) (h' : m'.Linked (s :: (l' ++ [x])))
    (hp : ∀ y ∈ l ++ [x], m'.prevLink y = m.prevLink y) (hs : s ∉ l) (hs' : s ∉ l') : l = l' := by
  -- Both lists are read from their ends, where `x` stands.
  induction l using List.reverseRecOn generalizing x l' with
  | nil =>
    have hx : m'.prevLink x = s := (hp x (by simp)).trans (linked_concat.mp h).2.2
    rcases List.eq_nil_or_concat' l' with rfl | ⟨zs, z, rfl⟩
    · rfl
    · have hz : m'.prevLink x = z := by
        rw [(linked_concat.mp h').2.2, List.getLastD_concat]
      exact absurd (hx.symm.trans hz) (ne_of_mem_of_not_mem (by simp) hs').symm
  | append_singleton ys y ih =>
    obtain ⟨hl, -, hx⟩ := linked_concat.mp h
    rw [List.getLastD_concat] at hx
    have hx' : m'.prevLink x = y := (hp x (by simp)).trans hx
    rcases List.eq_nil_or_concat' l' with rfl | ⟨zs, z, rfl⟩
    · have hz : m'.prevLink x = s := (linked_concat.mp h').2.2
      exact absurd (hz.symm.trans hx') (ne_of_mem_of_not_mem (by simp) hs).symm
    · obtain ⟨hl', -, hz⟩ := linked_concat.mp h'
      rw [List.getLastD_concat] at hz
      obtain rfl : y = z := hx'.symm.trans hz
      rw [ih hl hl' (fun u hu => hp u (List.mem_append_left _ hu)) (fun hm => hs (List.mem_append_left _ hm))
        fun hm => hs' (List.mem_append_left _ hm)]

/-- Where one previous link of a ring is another one, no ring is left: the next links still lead through
the same nodes. -/
theorem Ring.not_setPrev (h : m.Ring s xs) (hs : Separate (s :: xs)) (hnew : s ∉ xs) (hy : y ∈ s :: xs)
    (hv : v < wordLimit) (hne : v ≠ m.prevLink y) (hl : s ∉ l) : ¬ (m.setPrev y v).Ring s l := by
  intro h'
  obtain rfl : xs = l := Linked.unique h h' (fun u hu => nextLink_setPrev (hs y hy u hu) v) hnew hl
  have hlink := (h.links_eq h' hy).2
  rw [prevLink_setPrev_self hv] at hlink
  exact hne hlink

theorem Ring.not_setNext (h : m.Ring s xs) (hs : Separate (s :: xs)) (hnew : s ∉ xs) (hy : y ∈ s :: xs)
    (hv : v < wordLimit) (hne : v ≠ m.nextLink y) (hl : s ∉ l) : ¬ (m.setNext y v).Ring s l := by
  intro h'
  have hprev : ∀ u ∈ xs ++ [s], (m.setNext y v).prevLink u = m.prevLink u := by
    intro u hu
    rw [List.mem_append, List.mem_singleton, or_comm] at hu
    exact prevLink_setNext (hs y hy u (List.mem_cons.mpr hu)) v
  obtain rfl : xs = l := Linked.unique_prev h h' hprev hnew hl
  have hlink := (h.links_eq h' hy).1
  rw [nextLink_setNext_self hv] at hlink
  exact hne hlink

end Memory

namespace Arena

variable {a : Arena} {bins : Bins} {off : Nat} {ts us : Row} {lists : Fin bucketCount → List Nat}

theorem Tiles.eq_of_heads (h : a.Tiles off ts) (hsize : Sized us) (hend : off + span us = a.top)
    (hheads : ∀ x t, (x, t) ∈ located off us → Tag.decode (a.mem.word x) = t) : ts = us := by
  induction us generalizing off ts with
  | nil =>
    cases ts with
    | nil => rfl
    | cons t ts =>
      have hends := h.ends
      have hz := (tiles_cons.mp h).1.1
      rw [span_cons] at hends
      rw [span_nil] at hend
      simp only [minBlock, wordSize] at hz
      omega
  | cons u us ih =>
    obtain ⟨hz, hsize⟩ := sized_cons.mp hsize
    rw [span_cons] at hend
    simp only [minBlock, wordSize] at hz
    obtain ⟨vs, rfl⟩ := h.exists_cons (by omega)
    rw [hheads off u (by simp [located])] at h ⊢
    rw [ih (tiles_cons.mp h).2.2.2 hsize (by omega) fun x t hx => hheads x t (List.mem_cons_of_mem _ hx)]

theorem Intact.sum_lengths (h : a.Intact bins ts lists) :
    ((List.finRange bucketCount).map bins.length).sum = (sites false a.low ts).length := by
  rw [← h.total, List.length_flatMap]
  exact congrArg List.sum (List.map_congr_left fun b _ => (h.lengths b).symm)

theorem Intact.sentinel_not_mem (hf : a.Framed) (h : a.Intact bins ts lists) (b : Fin bucketCount) :
    sentinel b ∉ lists b := fun hm => hf.sentinel_not_entry b (h.entries b _ hm)

end Arena

/-- The committed bytes of a host have addresses, the first of which is an aligned one other than 0. -/
def Host.Addressed {H : Type} [Host H] (host : H) : Prop :=
  ∃ base, base ≠ 0 ∧ base % alignment = 0 ∧ base + Host.committed host ≤ wordLimit

namespace Heap

variable {H : Type} {h : Heap H} {k : Sketch H} {b : Fin bucketCount} {off x y : Nat} {t : Tag} {w : UInt64}

/-- Overwrites one word, whatever it is for. -/
def overwrite (h : Heap H) (off : Nat) (w : UInt64) : Heap H := h.mapMem (·.setWord off w)

@[simp] theorem low_overwrite : (h.overwrite off w).arena.low = h.arena.low := rfl

@[simp] theorem top_overwrite : (h.overwrite off w).arena.top = h.arena.top := rfl

@[simp] theorem word_overwrite_self : (h.overwrite off w).arena.mem.word off = w := word_setWord _ _ _

theorem word_overwrite (hx : x + wordSize ≤ off ∨ off + wordSize ≤ x) :
    (h.overwrite off w).arena.mem.word x = h.arena.mem.word x := word_setWord_of_disjoint _ _ hx

/-- The words that damage a heap, each with the offset where it does. -/
inductive Damage (h : Heap H) : Nat → UInt64 → Prop
  | prevLink {b : Fin bucketCount} {y : Nat} {w : UInt64} (hy : y ∈ sentinel b :: h.bucket b)
      (hw : w ≠ h.arena.mem.word (y + wordSize)) : Damage h (y + wordSize) w
  | nextLink {b : Fin bucketCount} {y : Nat} {w : UInt64} (hy : y ∈ sentinel b :: h.bucket b)
      (hw : w ≠ h.arena.mem.word (y + 2 * wordSize)) : Damage h (y + 2 * wordSize) w
  | tail {x : Nat} {t : Tag} {w : UInt64} (hx : (x, t) ∈ h.blocks) (hu : t.used = false)
      (hw : (h.arena.mem.word (x + t.size - wordSize) ^^^ w) &&& ~~~Tag.prevUsedBit ≠ 0) :
      Damage h (x + t.size - wordSize) w
  | head {x : Nat} {t : Tag} {w : UInt64} (hx : (x, t) ∈ h.blocks) (hsize : (Tag.decode w).size = t.size)
      (hw : (Tag.decode w).used ≠ t.used ∨ (Tag.decode w).prevUsed ≠ t.prevUsed) : Damage h x w

namespace Shows

theorem framed [Host H] (hs : h.Shows k) (hback : k.top ≤ Host.committed k.host)
    (ha : Host.Addressed h.host) : h.arena.Framed where
  low := hs.low
  whole := by
    rw [hs.low, hs.top, Sketch.top, Nat.add_sub_cancel_left]
    exact hs.tidy.sized.span_mod
  room := by
    obtain ⟨base, hne, hmod, hle⟩ := ha
    rw [hs.host] at hle
    rw [hs.top]
    simp only [minBlock, wordSize, alignment] at *
    omega

theorem ring_nodes (hs : h.Shows k) (b : Fin bucketCount) :
    Separate (sentinel b :: k.lists b) ∧ sentinel b ∉ k.lists b :=
  ⟨hs.tidy.separate fun _ hy => hs.tidy.node hy, hs.tidy.sentinel_unlisted⟩

theorem not_intact_prevLink (hs : h.Shows k) (hf : (h.overwrite (y + wordSize) w).arena.Framed)
    (hy : y ∈ sentinel b :: k.lists b) (hw : w ≠ h.arena.mem.word (y + wordSize)) (bins : Bins) (ts : Row)
    (lists : Fin bucketCount → List Nat) : ¬ (h.overwrite (y + wordSize) w).arena.Intact bins ts lists := by
  intro hi
  obtain ⟨hsep, hnew⟩ := hs.ring_nodes b
  have hne : w.toNat ≠ h.arena.mem.prevLink y := fun he => hw (UInt64.toNat_inj.mp he)
  have hring := hi.rings b
  have hmem : (h.overwrite (y + wordSize) w).arena.mem = h.arena.mem.setPrev y w.toNat := by
    rw [setPrev, UInt64.ofNat_toNat]
    rfl
  rw [hmem] at hring
  exact (hs.rings b).not_setPrev hsep hnew hy w.toNat_lt hne (hi.sentinel_not_mem hf b) hring

theorem not_intact_nextLink (hs : h.Shows k) (hf : (h.overwrite (y + 2 * wordSize) w).arena.Framed)
    (hy : y ∈ sentinel b :: k.lists b) (hw : w ≠ h.arena.mem.word (y + 2 * wordSize)) (bins : Bins) (ts : Row)
    (lists : Fin bucketCount → List Nat) : ¬ (h.overwrite (y + 2 * wordSize) w).arena.Intact bins ts lists := by
  intro hi
  obtain ⟨hsep, hnew⟩ := hs.ring_nodes b
  have hne : w.toNat ≠ h.arena.mem.nextLink y := fun he => hw (UInt64.toNat_inj.mp he)
  have hring := hi.rings b
  have hmem : (h.overwrite (y + 2 * wordSize) w).arena.mem = h.arena.mem.setNext y w.toNat := by
    rw [setNext, UInt64.ofNat_toNat]
    rfl
  rw [hmem] at hring
  exact (hs.rings b).not_setNext hsep hnew hy w.toNat_lt hne (hi.sentinel_not_mem hf b) hring

theorem row_eq (hs : h.Shows k) {us ts : Row} (hsized : Sized us) (hspan : span us = span k.row)
    (hheads : ∀ x t, (x, t) ∈ located prologueSize us →
      Tag.decode ((h.overwrite off w).arena.mem.word x) = t)
    (ht : (h.overwrite off w).arena.Tiles h.arena.low ts) : ts = us := by
  refine ht.eq_of_heads hsized ?_ (by rwa [hs.low])
  rw [top_overwrite, hs.low, hs.top, hspan]
  rfl

theorem not_intact_tail (hs : h.Shows k) (hx : (x, t) ∈ k.blocks) (hu : t.used = false)
    (hw : (h.arena.mem.word (x + t.size - wordSize) ^^^ w) &&& ~~~Tag.prevUsedBit ≠ 0) (bins : Bins) (ts : Row)
    (lists : Fin bucketCount → List Nat) :
    ¬ (h.overwrite (x + t.size - wordSize) w).arena.Intact bins ts lists := by
  intro hi
  have hxb := hs.tidy.of_block hx
  have hword : ∀ y u, (y, u) ∈ k.blocks →
      (h.overwrite (x + t.size - wordSize) w).arena.mem.word y = h.arena.mem.word y := by
    intro y u hy
    have hyb := hs.tidy.of_block hy
    simp only [minBlock, wordSize] at hxb hyb
    apply word_overwrite
    rcases located_apart hx hy with ⟨rfl, -⟩ | h | h <;> simp only [wordSize] <;> omega
  obtain rfl : ts = k.row := by
    refine hs.row_eq hs.tidy.sized rfl (fun y u hy => ?_) hi.tiles
    rw [hword y u hy]
    exact hs.decode_head hy
  have hnew : (h.arena.mem.word x ^^^ w) &&& ~~~Tag.prevUsedBit = 0 := by
    have htail := hi.tiles.tails x t (by rw [low_overwrite, hs.low]; exact hx) hu
    rwa [hword x t hx, word_overwrite_self] at htail
  have hold : (h.arena.mem.word x ^^^ h.arena.mem.word (x + t.size - wordSize)) &&& ~~~Tag.prevUsedBit = 0 := by
    obtain ⟨p, hp⟩ := hs.spells.tail hx hu
    rw [hs.spells.head hx, hp, ← hu]
    exact Tag.word_xor_word _ _ _ _
  exact hw (Tag.agree_trans hold hnew)

/-- Only one word of a heap is a head, and one with the size that it had: the row differs in one tag. -/
theorem row_eq_of_head (hs : h.Shows k) {xs ys ts : Row} (hrow : k.row = xs ++ t :: ys)
    (hx : x = prologueSize + span xs) (hsize : (Tag.decode w).size = t.size)
    (ht : (h.overwrite x w).arena.Tiles h.arena.low ts) : ts = xs ++ Tag.decode w :: ys := by
  have hsized := hs.tidy.sized
  rw [hrow, sized_append, sized_cons] at hsized
  have hin : (x, t) ∈ k.blocks := mem_located_iff.mpr ⟨xs, ys, hrow, hx⟩
  have hkept : ∀ y u, (y, u) ∈ k.blocks → y ≠ x →
      Tag.decode ((h.overwrite x w).arena.mem.word y) = u := by
    intro y u hy hne
    have hxb := hs.tidy.of_block hin
    have hyb := hs.tidy.of_block hy
    simp only [minBlock, wordSize] at hxb hyb
    rw [word_overwrite, hs.decode_head hy]
    rcases located_apart hin hy with ⟨rfl, -⟩ | h | h
    · exact absurd rfl hne
    · exact .inr (by simp only [wordSize]; omega)
    · exact .inl (by simp only [wordSize]; omega)
  refine hs.row_eq ?_ ?_ ?_ ht
  · rw [sized_append, sized_cons, hsize]
    exact hsized
  · rw [hrow, span_append, span_append, span_cons, span_cons, hsize]
  · intro y u hy
    have hblocks : k.blocks = located prologueSize xs ++ (x, t) :: located (x + t.size) ys := by
      rw [Sketch.blocks, hrow, located_append, hx]
      rfl
    rw [located_append, List.mem_append, ← hx] at hy
    rcases hy with hy | hy
    · have hb := located_bounds hy
      have hz := (hsized.1.of_located hy).1
      simp only [minBlock, wordSize] at hz
      exact hkept y u (by rw [hblocks]; exact List.mem_append_left _ hy) (by omega)
    rcases List.mem_cons.mp hy with hy | hy
    · cases hy
      rw [word_overwrite_self]
    · rw [hsize] at hy
      have hb := located_bounds hy
      have hz := hsized.2.1.1
      simp only [minBlock, wordSize] at hz
      refine hkept y u ?_ (by omega)
      rw [hblocks]
      exact List.mem_append_right _ (List.mem_cons_of_mem _ hy)

theorem not_intact_head (hs : h.Shows k) (hk : k.Settled) (hx : (x, t) ∈ k.blocks)
    (hsize : (Tag.decode w).size = t.size)
    (hw : (Tag.decode w).used ≠ t.used ∨ (Tag.decode w).prevUsed ≠ t.prevUsed) (ts : Row)
    (lists : Fin bucketCount → List Nat) : ¬ (h.overwrite x w).arena.Intact h.bins ts lists := by
  intro hi
  obtain ⟨xs, ys, hrow, rfl⟩ := mem_located_iff.mp hx
  obtain rfl := hs.row_eq_of_head hrow rfl hsize hi.tiles
  rcases hw with hused | hprev
  · -- One free block more or less than the recorded lengths say.
    have hnew := hi.sum_lengths
    have hold : ((List.finRange bucketCount).map h.bins.length).sum = (k.sites false).length := by
      rw [← hk.sum_lengths]
      exact congrArg List.sum (List.map_congr_left fun b _ => hs.lengths b)
    rw [hold, low_overwrite, hs.low, Sketch.sites, hrow] at hnew
    simp only [sites_append, sites_cons, hsize, List.length_append] at hnew
    cases hu : t.used <;> cases hv : (Tag.decode w).used <;> simp_all
  · have hflagged := hi.flagged
    have hk' := hk.flagged
    rw [hrow] at hk'
    rw [flagged_append] at hflagged hk'
    exact hprev (hflagged.2.1.trans hk'.2.1.symm)

theorem check_damaged (hs : h.Shows k) (hk : k.Settled) (hf : h.arena.Framed) (hd : h.Damage off w) :
    ∃ found, (h.overwrite off w).check = .ok (.error found) := by
  have hf' : (h.overwrite off w).arena.Framed := ⟨hf.low, hf.whole, hf.room⟩
  have hnone : ∀ ts lists, ¬ (h.overwrite off w).arena.Intact h.bins ts lists := by
    cases hd with
    | prevLink hy hw => exact hs.not_intact_prevLink hf' (hs.bucket_eq _ ▸ hy) hw h.bins
    | nextLink hy hw => exact hs.not_intact_nextLink hf' (hs.bucket_eq _ ▸ hy) hw h.bins
    | tail hx hu hw => exact hs.not_intact_tail (hs.blocks_eq ▸ hx) hu hw h.bins
    | head hx hsize hw => exact hs.not_intact_head hk (hs.blocks_eq ▸ hx) hsize hw
  obtain ⟨r, hr, hiff⟩ := Audit.check_decides hf' h.bins
  cases r with
  | error found => exact ⟨found, hr⟩
  | ok u =>
    obtain ⟨ts, lists, hi⟩ := (hiff u).mp rfl
    exact absurd hi (hnone ts lists)

end Shows

end Heap

namespace Session

open Heap

variable {H : Type} [Host H] [LawfulHost H] {s : Session H} {off : Nat} {w : UInt64}

/-- Whatever the clients have stored in their payloads, a heap check finds damage to a single word of
what the heap keeps for itself. -/
theorem reachable_damage_found (hs : s.Reachable) (ha : Host.Addressed s.heap.host) (hd : s.heap.Damage off w) :
    ∃ found, (s.heap.overwrite off w).check = .ok (.error found) := by
  obtain ⟨cs, hr⟩ := hs
  obtain ⟨k, hf⟩ := hr.follows
  exact hf.shows.check_damaged hf.valid.settled (hf.shows.framed hf.valid.backed ha) hd

theorem reachable_damage_found_link :
    ∃ s : Session Reserve, Run [.allocate 24] s ∧ Host.Addressed s.heap.host ∧ s.heap.Damage 488 448 ∧
      ∃ found, (s.heap.overwrite 488 448).check = .ok (.error found) := by
  obtain ⟨s, hr, hf⟩ := exists_run_allocate
  have ha : Host.Addressed s.heap.host := by
    rw [hf.shows.host]
    exact ⟨32, by decide, by decide, by decide⟩
  have hd : s.heap.Damage 488 448 := by
    have hlist : s.heap.bucket (bucketFor 160) = [472] := (hf.shows.bucket_eq _).trans (by decide)
    have hring := hf.shows.rings (bucketFor 160)
    rw [← hf.shows.bucket_eq, hlist] at hring
    refine Damage.nextLink (b := bucketFor 160) (y := 472) (by rw [hlist]; simp) fun hw => ?_
    have hnext : s.heap.arena.mem.nextLink 472 = sentinel (bucketFor 160) := hring.2.2.1
    rw [Memory.nextLink, ← hw] at hnext
    exact absurd hnext (by decide)
  exact ⟨s, hr, ha, hd, reachable_damage_found ⟨_, hr⟩ ha hd⟩

end Session

end SegregatedFit
