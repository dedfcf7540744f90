import Mathlib
import SegregatedFit.Proofs.Keeping
import SegregatedFit.Proofs.Meets
import SegregatedFit.Proofs.Settled

/-!
What it is for a heap to show a sketch: the memory spells the row and links the lists, and all else
in the heap is as in the sketch. Each step of an operation leads from a heap that shows a sketch to
one that shows the next, and changes no byte but those that the sketch owns.
-/
namespace SegregatedFit

open Row Memory

namespace Heap

variable {H β : Type}

structure Shows (h : Heap H) (k : Sketch H) : Prop where
  tidy : k.Tidy
  host : h.host = k.host
  topUsed : h.topUsed = k.topUsed
  config : h.config = k.config
  stats : h.stats = k.stats
  fits : k.stats.Fits
  low : h.arena.low = prologueSize
  top : h.arena.top = k.top
  spells : h.arena.mem.Spells prologueSize k.row
  rings (b : Fin bucketCount) : h.arena.mem.Ring (sentinel b) (k.lists b)
  lengths (b : Fin bucketCount) : h.bins.length b = (k.lists b).length

variable {h : Heap H} {k : Sketch H} {a : Arena} {b : Fin bucketCount} {i m n x y : Nat} {t t' : Tag}
  {xs ys u v us r : Row} {w : Bool} {limit : Stats} {R : β → Heap H → Prop} {f : Unit → HeapM H β}

namespace Shows

theorem hasWord (hs : h.Shows k) (hi : i % wordSize = 0) (ht : i + wordSize ≤ k.top) :
    h.arena.HasWord i :=
  ⟨hi, hs.top ▸ ht, hs.top ▸ hs.tidy.room⟩

theorem hasWord_head (hs : h.Shows k) (hx : (x, t) ∈ k.blocks) : h.arena.HasWord x := by
  have := hs.tidy.of_block hx
  simp only [alignment, headerSize, wordSize, minBlock] at *
  exact hs.hasWord (by simp only [wordSize]; omega) (by simp only [wordSize]; omega)

theorem decode_head (hs : h.Shows k) (hx : (x, t) ∈ k.blocks) :
    Tag.decode (h.arena.mem.word x) = t := by
  obtain ⟨-, -, -, hmod, -⟩ := hs.tidy.of_block hx
  rw [hs.spells.head hx, Tag.decode_word hmod (hs.tidy.size_lt hx)]

theorem tagSize_eq (hs : h.Shows k) (hx : (x, t) ∈ k.blocks) : h.arena.mem.tagSize x = t.size :=
  congrArg Tag.size (hs.decode_head hx)

theorem tag_eq (hs : h.Shows k) (hx : (x, t) ∈ k.blocks) : h.arena.tag x = .ok t := by
  rw [Arena.tag_eq_ok (hs.hasWord_head hx), hs.decode_head hx]

theorem blockSize_eq (hs : h.Shows k) (hx : (x, t) ∈ k.blocks) : h.arena.blockSize x = .ok t.size := by
  rw [Arena.blockSize_eq_ok (hs.hasWord_head hx), hs.decode_head hx]

theorem blockEnd_eq (hs : h.Shows k) (hx : (x, t) ∈ k.blocks) :
    h.arena.blockEnd x = .ok (x + t.size) := by
  have := hs.tidy.of_block hx
  have := hs.tidy.room
  rw [Arena.blockEnd, hs.blockSize_eq hx]
  exact plus_eq_ok (by omega)

theorem keeps (hs : h.Shows k) : h.bins.Keeps h.arena k.lists where
  prologue := by
    rw [hs.top]
    exact k.prologueSize_le_top
  room := by
    rw [hs.top]
    exact hs.tidy.room
  entry {b x} hx := by
    obtain ⟨n, hn, -⟩ := hs.tidy.listed hx
    obtain ⟨hmod, hle⟩ := hs.tidy.of_node (.inr ⟨n, hn⟩)
    exact ⟨hmod, (hs.tidy.of_site hn).1, by rwa [hs.top]⟩
  bucket {b x} hx := by
    obtain ⟨n, hn, rfl⟩ := hs.tidy.listed hx
    obtain ⟨t, ht, -, rfl⟩ := mem_sites_iff.mp hn
    rw [hs.tagSize_eq ht]
  apart hx hy :=
    hs.tidy.node_apart (hs.tidy.node (List.mem_cons_of_mem _ hx)) (hs.tidy.node (List.mem_cons_of_mem _ hy))
  nodup := hs.tidy.nodup
  rings := hs.rings
  lengths := hs.lengths

/-- Where only links of nodes change, all but the lists is shown as before. -/
theorem relinked (hs : h.Shows k) {lists : Fin bucketCount → List Nat} {m : Memory} {bins : Bins}
    {l : List Nat} (hk : Sketch.Tidy { k with lists })
    (hb : bins.Keeps (h.arena.mapMem fun _ => m) lists)
    (hm : SameOff (LinkBytes l) h.arena.mem m) (hl : ∀ y ∈ l, k.Node y) :
    Shows { h with bins, arena := h.arena.mapMem fun _ => m } { k with lists } ∧
      SameOff k.Owns h.arena.mem m :=
  ⟨⟨hk, hs.host, hs.topUsed, hs.config, hs.stats, hs.fits, hs.low, hs.top,
    hs.tidy.spells_of_links hs.spells hm hl, hb.rings, hb.lengths⟩,
    hm.mono fun _ hj => hs.tidy.owns_of_linkBytes hl hj⟩

theorem remove (hs : h.Shows k) (hx : x ∈ k.lists b) :
    ∃ bins, h.bins.remove h.arena x = .ok (bins, h.arena.mapMem (·.linkOut x)) ∧
      Shows { h with bins, arena := h.arena.mapMem (·.linkOut x) } (k.unlist x) ∧
      SameOff k.Owns h.arena.mem (h.arena.mem.linkOut x) := by
  obtain ⟨hr, hb⟩ := hs.keeps.remove hx
  exact ⟨_, hr, hs.relinked (hs.tidy.unlist x) hb (sameOff_linkOut h.arena.mem x)
    fun y hy => hs.tidy.node (hs.keeps.neighbours_mem hx y hy)⟩

theorem push (hs : h.Shows k) (hx : (x, n) ∈ k.sites false) (hnew : ∀ b, x ∉ k.lists b) :
    ∃ bins, h.bins.push h.arena x = .ok (bins, h.arena.mapMem (·.linkIn (sentinel (bucketFor n)) x)) ∧
      Shows { h with bins, arena := h.arena.mapMem (·.linkIn (sentinel (bucketFor n)) x) }
        (k.enlist x n) ∧
      SameOff k.Owns h.arena.mem (h.arena.mem.linkIn (sentinel (bucketFor n)) x) := by
  have hxn : k.Node x := .inr ⟨n, hx⟩
  obtain ⟨hmod, hle⟩ := hs.tidy.of_node hxn
  have hvacant : h.arena.Vacant k.lists x := by
    refine ⟨hmod, (hs.tidy.of_site hx).1, by rwa [hs.top], fun {b y} hy => ?_⟩
    exact (hs.tidy.node_apart hxn (hs.tidy.node (List.mem_cons_of_mem _ hy))).resolve_left
      fun he => hnew b (he ▸ hy)
  obtain ⟨t, ht, -, rfl⟩ := mem_sites_iff.mp hx
  obtain ⟨hr, hb⟩ := hs.keeps.push hvacant (congrArg bucketFor (hs.tagSize_eq ht))
  refine ⟨_, hr, hs.relinked (hs.tidy.enlist hx hnew) hb (sameOff_linkIn h.arena.mem _ x) ?_⟩
  intro y hy
  rcases List.mem_cons.mp (hs.keeps.front_mem x y hy) with rfl | hy
  · exact hxn
  · exact hs.tidy.node hy

/-- Some blocks of the row are replaced by others, which the memory now spells. The new ones take up
as many bytes, unless they are the last ones. No replaced block is listed. -/
theorem rewrite (hs : h.Shows k) (hrow : k.row = xs ++ (u ++ ys)) (hx : x = prologueSize + span xs)
    (hlow : a.low = h.arena.low) (htop : a.top = x + span (v ++ ys)) (hroom : a.top < wordLimit)
    (hspan : ys = [] ∨ span v = span u) (hsized : Sized v)
    (hm : SameOff (fun j => x ≤ j ∧ (ys = [] ∨ j < x + span u)) h.arena.mem a.mem)
    (hspell : a.mem.Spells x v)
    (hlists : ∀ b, ∀ y ∈ k.lists b, y < x ∨ x + span u ≤ y) :
    Shows { h with arena := a } { k with row := xs ++ (v ++ ys) } := by
  subst hx
  have htop : a.top = prologueSize + span (xs ++ (v ++ ys)) := by
    rw [htop, span_append xs, Nat.add_assoc]
  refine ⟨?_, hs.host, hs.topUsed, hs.config, hs.stats, hs.fits, hlow.trans hs.low, htop, ?_, ?_,
    hs.lengths⟩
  · exact hs.tidy.replace hrow (htop ▸ hroom) hspan hsized hlists
  · exact (hrow ▸ hs.spells).replace (hrow ▸ hs.tidy.sized) hspan hm hspell
  · intro b
    apply (hs.rings b).of_sameOff hm
    intro y hy j h1 h2
    exact hs.tidy.links_outside hrow hlists hy h1 h2

theorem refill (hs : h.Shows k) (hk : k.Hole xs us ys w) (hx : x = prologueSize + span xs)
    (hlow : a.low = h.arena.low) (htop : a.top = x + span (r ++ ys)) (hroom : a.top < wordLimit)
    (hspan : ys = [] ∨ span r = span us) (hsized : Sized r)
    (hm : SameOff (fun j => x ≤ j ∧ j < x + span r) h.arena.mem a.mem)
    (hspell : a.mem.Spells x r) :
    Shows { h with arena := a } { k with row := xs ++ (r ++ ys) } := by
  refine hs.rewrite hk.row hx hlow htop hroom hspan hsized (hm.mono ?_) hspell
    fun b y hy => hx ▸ hk.outside hy
  rintro j ⟨h1, h2⟩
  refine ⟨h1, hspan.imp_right fun he => ?_⟩
  rw [← he]
  exact h2

theorem refillUsed (hs : h.Shows k) (hk : k.Hole xs us ys w) (hx : x = prologueSize + span xs)
    (hmem : a.mem = h.arena.mem) (hlow : a.low = h.arena.low) (htop : a.top = x + t.size + span ys)
    (hroom : a.top < wordLimit) (hspan : ys = [] ∨ t.size = span us) (ht : t.used = true)
    (hz : minBlock ≤ t.size ∧ t.size % alignment = 0) :
    Shows { h with arena := a.put x t.word } { k with row := xs ++ ([t] ++ ys) } := by
  refine hs.refill hk hx hlow ?_ hroom (by simpa using hspan) (sized_cons.mpr ⟨hz, sized_nil⟩) ?_ ?_
  · rw [Arena.put_top, htop]
    simp only [span_append, span_cons, span_nil]
    omega
  · rw [Arena.put_mem, hmem]
    apply SameOff.setWord
    intro j h1 h2
    simp only [span_cons, span_nil, minBlock, wordSize] at *
    omega
  · exact ⟨word_setWord _ _ _, by simp [ht], trivial⟩

theorem refillPair (hs : h.Shows k) (hk : k.Hole xs us ys w) (hx : x = prologueSize + span xs)
    (hmem : a.mem = h.arena.mem) (hlow : a.low = h.arena.low)
    (htop : a.top = x + (m + n) + span ys) (hroom : a.top < wordLimit)
    (hspan : ys = [] ∨ m + n = span us) (hm : minBlock ≤ m ∧ m % alignment = 0)
    (hn : minBlock ≤ n ∧ n % alignment = 0) (p : Bool) :
    Shows
      { h with
        arena := (a.put x (Tag.word ⟨m, true, p⟩)).mapMem (·.setFree (x + m) ⟨n, false, true⟩) }
      { k with row := xs ++ ([⟨m, true, p⟩, ⟨n, false, true⟩] ++ ys) } := by
  refine hs.refill hk hx hlow ?_ hroom (by simpa using hspan) ?_ ?_ (spells_pair _ _ rfl hm.1 hn.1)
  · rw [Arena.mapMem_top, Arena.put_top, htop]
    simp only [span_append, span_cons, span_nil]
    omega
  · exact sized_cons.mpr ⟨hm, sized_cons.mpr ⟨hn, sized_nil⟩⟩
  · rw [← hmem]
    exact sameOff_pair _ _ hm.1 hn.1

theorem retag (hs : h.Shows k) (hrow : k.row = xs ++ t :: ys) (hx : x = prologueSize + span xs)
    (hu : t'.used = true) (hsize : t'.size = t.size) (hnew : ∀ b, x ∉ k.lists b) :
    h.arena.setTag x t' = .ok (h.arena.put x t'.word) ∧
      Shows { h with arena := h.arena.put x t'.word } { k with row := xs ++ t' :: ys } ∧
      SameOff k.Owns h.arena.mem (h.arena.mem.setWord x t'.word) := by
  have hin : (x, t) ∈ k.blocks := mem_located_iff.mpr ⟨xs, ys, hrow, hx⟩
  have hb := hs.tidy.of_block hin
  have hz : minBlock ≤ t'.size ∧ t'.size % alignment = 0 := by rw [hsize]; exact hb.2.2.imp_right (·.1)
  have hroom := hs.tidy.room
  refine ⟨Arena.setTag_eq_ok (hs.hasWord_head hin) hz.2, ?_, ?_⟩
  · refine hs.rewrite (u := [t]) (v := [t']) hrow hx ?_ ?_ ?_ ?_ ?_ ?_ ?_ ?_
    · rfl
    · rw [Arena.put_top, hs.top, Sketch.top, hrow, hx]
      simp only [span_append, span_cons, List.singleton_append, hsize, Nat.add_assoc]
    · rw [Arena.put_top, hs.top]
      exact hroom
    · exact .inr (by simp [hsize])
    · exact fun s hsm => by rw [List.mem_singleton.mp hsm]; exact hz
    · apply SameOff.setWord
      intro j h1 h2
      simp only [span_cons, span_nil, minBlock, wordSize] at *
      exact ⟨h1, .inr (by omega)⟩
    · refine ⟨word_setWord _ _ _, fun hf => ?_, trivial⟩
      rw [hu] at hf
      cases hf
    · intro b y hy
      exact hs.tidy.entry_outside hin hnew hy
  · exact SameOff.setWord fun j h1 h2 => hs.tidy.owns_of_head hin h1 h2

theorem recount (hs : h.Shows k) {s : Stats} (hf : s.Fits) :
    Shows { h with stats := s } { k with stats := s } where
  tidy := ⟨hs.tidy.sized, hs.tidy.room, hs.tidy.listed, hs.tidy.nodup⟩
  host := hs.host
  topUsed := hs.topUsed
  config := hs.config
  stats := rfl
  fits := hf
  low := hs.low
  top := hs.top
  spells := hs.spells
  rings := hs.rings
  lengths := hs.lengths

theorem setTopUsed (hs : h.Shows k) (u : Bool) :
    Shows { h with topUsed := u } { k with topUsed := u } where
  tidy := ⟨hs.tidy.sized, hs.tidy.room, hs.tidy.listed, hs.tidy.nodup⟩
  host := hs.host
  topUsed := rfl
  config := hs.config
  stats := hs.stats
  fits := hs.fits
  low := hs.low
  top := hs.top
  spells := hs.spells
  rings := hs.rings
  lengths := hs.lengths

theorem rehost (hs : h.Shows k) (host : H) : Shows { h with host } { k with host } where
  tidy := ⟨hs.tidy.sized, hs.tidy.room, hs.tidy.listed, hs.tidy.nodup⟩
  host := rfl
  topUsed := hs.topUsed
  config := hs.config
  stats := hs.stats
  fits := hs.fits
  low := hs.low
  top := hs.top
  spells := hs.spells
  rings := hs.rings
  lengths := hs.lengths

theorem size_eq (hs : h.Shows k) : h.size = span k.row := by
  rw [Heap.size, Arena.size, hs.top, hs.low, Sketch.top, Nat.add_sub_cancel_left]

end Shows

open HeapM

theorem meets_unlist (hs : h.Shows k) (hx : x ∈ k.lists b)
    (hf : ∀ h', h'.Shows (k.unlist x) → SameOff k.Owns h.arena.mem h'.arena.mem →
      (f ()).Meets h' limit R) : (unlist x >>= f).Meets h limit R := by
  obtain ⟨bins, hr, hs', hm⟩ := hs.remove hx
  exact meets_relink hr (hf _ hs' hm)

theorem meets_enlist (hs : h.Shows k) (hx : (x, n) ∈ k.sites false) (hnew : ∀ b, x ∉ k.lists b)
    (hf : ∀ h', h'.Shows (k.enlist x n) → SameOff k.Owns h.arena.mem h'.arena.mem →
      (f ()).Meets h' limit R) : (enlist x >>= f).Meets h limit R := by
  obtain ⟨bins, hr, hs', hm⟩ := hs.push hx hnew
  exact meets_relink hr (hf _ hs' hm)

theorem meets_retag (hs : h.Shows k) (hrow : k.row = xs ++ t :: ys) (hx : x = prologueSize + span xs)
    (hu : t'.used = true) (hsize : t'.size = t.size) (hnew : ∀ b, x ∉ k.lists b)
    (hf : ∀ h', h'.Shows { k with row := xs ++ t' :: ys } →
      SameOff k.Owns h.arena.mem h'.arena.mem → (f ()).Meets h' limit R) :
    (edit (·.setTag x t') >>= f).Meets h limit R := by
  obtain ⟨hr, hs', hm⟩ := hs.retag hrow hx hu hsize hnew
  exact meets_edit hr (hf _ hs' hm)

theorem meets_count_shown {c : Counter} (hs : h.Shows k) (hl : (k.stats.bump c).Below limit)
    (hf : ∀ h', h'.Shows (k.count c) → h'.arena = h.arena → (f ()).Meets h' limit R) :
    (count c >>= f).Meets h limit R := by
  have hfit : h.stats.Fits := hs.stats ▸ hs.fits
  refine meets_count hfit (hs.stats ▸ hl) fun hb => hf _ ?_ rfl
  rw [hs.stats] at hb ⊢
  exact hs.recount hb

theorem meets_charge_shown (hs : h.Shows k) (hn : k.stats.bytesInUse + n < wordLimit)
    (hf : ∀ h', h'.Shows (k.charge n) → h'.arena = h.arena → (f ()).Meets h' limit R) :
    (account (·.charge n) >>= f).Meets h limit R := by
  rw [← hs.stats] at hn
  refine meets_account (Stats.charge_eq_ok hn) (hf _ ?_ rfl)
  rw [hs.stats]
  exact hs.recount fun c => by rw [Stats.get_with_bytesInUse]; exact hs.fits c

theorem meets_discharge_shown (hs : h.Shows k) (hn : n ≤ k.stats.bytesInUse)
    (hf : ∀ h', h'.Shows (k.discharge n) → h'.arena = h.arena → (f ()).Meets h' limit R) :
    (account (·.discharge n) >>= f).Meets h limit R := by
  rw [← hs.stats] at hn
  refine meets_account (Stats.discharge_eq_ok hn) (hf _ ?_ rfl)
  rw [hs.stats]
  exact hs.recount fun c => by rw [Stats.get_with_bytesInUse]; exact hs.fits c

theorem meets_recordHeapSize_shown (hs : h.Shows k)
    (hf : ∀ h', h'.Shows k.recordHeapSize → h'.arena = h.arena → (f ()).Meets h' limit R) :
    (recordHeapSize >>= f).Meets h limit R := by
  refine meets_recordHeapSize (hf _ ?_ rfl)
  rw [hs.stats, hs.size_eq]
  exact hs.recount fun c => by rw [Stats.get_recordHeapSize]; exact hs.fits c

end Heap

end SegregatedFit
