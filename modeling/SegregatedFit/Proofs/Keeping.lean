import Mathlib
import SegregatedFit.Proofs.Tidy

/-!
Lists kept in an arena. The nodes of all buckets, their sentinels and their entries, lie apart, so an
edit of the links in one bucket leaves the tags of all nodes and the rings of the other buckets alone.
Putting an entry in front of its bucket and taking one out from anywhere succeed, and what is kept then
are the lists with the entry put in or taken out.
-/
namespace SegregatedFit

open Memory

def Memory.tagSize (m : Memory) (x : Nat) : Nat := (Tag.decode (m.word x)).size

/-- Entries of the buckets that lie apart from each other and from the sentinels, each in the bucket
of the size in its tag. -/
structure Arena.Places (a : Arena) (lists : Fin bucketCount → List Nat) : Prop where
  prologue : prologueSize ≤ a.top
  room : a.top < wordLimit
  entry {b : Fin bucketCount} {x : Nat} : x ∈ lists b →
    x % wordSize = 0 ∧ prologueSize ≤ x ∧ x + 3 * wordSize ≤ a.top
  bucket {b : Fin bucketCount} {x : Nat} : x ∈ lists b →
    bucketFor (a.mem.tagSize x) = b
  apart {b c : Fin bucketCount} {x y : Nat} : x ∈ lists b → y ∈ lists c → x = y ∨ Apart x y
  nodup (b : Fin bucketCount) : (lists b).Nodup

/-- The rings of all buckets run through the lists, and the lengths are those of the lists. -/
structure Bins.Keeps (bins : Bins) (a : Arena) (lists : Fin bucketCount → List Nat) : Prop
    extends a.Places lists where
  rings (b : Fin bucketCount) : a.mem.Ring (sentinel b) (lists b)
  lengths (b : Fin bucketCount) : bins.length b = (lists b).length

/-- Room for one more entry at `x`. -/
structure Arena.Vacant (a : Arena) (lists : Fin bucketCount → List Nat) (x : Nat) : Prop where
  aligned : x % wordSize = 0
  above : prologueSize ≤ x
  below : x + 3 * wordSize ≤ a.top
  apart {b : Fin bucketCount} {y : Nat} : y ∈ lists b → Apart x y

variable {a a' : Arena} {bins : Bins} {lists lists' : Fin bucketCount → List Nat}
  {b c : Fin bucketCount} {l : List Nat} {m : Memory} {x y : Nat}

namespace Arena.Places

theorem of_node (hp : a.Places lists) (hy : y ∈ sentinel b :: lists b) :
    y % wordSize = 0 ∧ y + 3 * wordSize ≤ a.top := by
  rcases List.mem_cons.mp hy with rfl | hy
  · exact ⟨by simp only [sentinel, sentinelSize, wordSize]; omega, (sentinel_le b).trans hp.prologue⟩
  · exact ⟨(hp.entry hy).1, (hp.entry hy).2.2⟩

theorem node_lt (hp : a.Places lists) (hy : y ∈ sentinel b :: lists b) : y < wordLimit := by
  have := (hp.of_node hy).2
  have := hp.room
  omega

theorem sentinel_apart_entry (hp : a.Places lists) (hy : y ∈ lists c) (b : Fin bucketCount) :
    Apart (sentinel b) y :=
  .inl ((sentinel_le b).trans (hp.entry hy).2.1)

theorem node_apart (hp : a.Places lists) (hx : x ∈ sentinel b :: lists b)
    (hy : y ∈ sentinel c :: lists c) : x = y ∨ Apart x y := by
  rcases List.mem_cons.mp hx with rfl | hx <;> rcases List.mem_cons.mp hy with rfl | hy
  · by_cases hbc : b = c
    · exact .inl (by rw [hbc])
    · exact .inr (sentinel_apart hbc)
  · exact .inr (hp.sentinel_apart_entry hy b)
  · exact .inr (hp.sentinel_apart_entry hx c).symm
  · exact hp.apart hx hy

theorem separate (hp : a.Places lists) (b : Fin bucketCount) : Separate (sentinel b :: lists b) :=
  fun _ hx _ hy => hp.node_apart hx hy

theorem ring_nodup (hp : a.Places lists) (b : Fin bucketCount) : (sentinel b :: lists b).Nodup :=
  List.nodup_cons.mpr ⟨fun h => (hp.sentinel_apart_entry h b).ne rfl, hp.nodup b⟩

theorem ring_unique (hp : a.Places lists) (hb : y ∈ sentinel b :: lists b)
    (hc : y ∈ sentinel c :: lists c) : b = c := by
  rcases List.mem_cons.mp hb with rfl | hb <;> rcases List.mem_cons.mp hc with hc | hc
  · by_contra hne
    exact (sentinel_apart hne).ne hc
  · exact absurd rfl (hp.sentinel_apart_entry hc b).ne
  · exact absurd hc.symm (hp.sentinel_apart_entry hb c).ne
  · rw [← hp.bucket hb, ← hp.bucket hc]

theorem length_le (hp : a.Places lists) (b : Fin bucketCount) :
    (lists b).length ≤ a.top / wordSize := by
  have hsub : lists b ⊆ (List.range (a.top / wordSize)).map (· * wordSize) := by
    intro x hx
    have := hp.entry hx
    refine List.mem_map.mpr ⟨x / wordSize, List.mem_range.mpr ?_, ?_⟩
    · simp only [wordSize] at *
      omega
    · simp only [wordSize] at *
      omega
  have hle := ((hp.nodup b).subperm hsub).length_le
  rwa [List.length_map, List.length_range] at hle

theorem length_lt (hp : a.Places lists) (b : Fin bucketCount) : (lists b).length + 1 < wordLimit := by
  have h1 := hp.length_le b
  have h2 := hp.room
  have h3 : 16 < wordLimit := by decide
  simp only [wordSize] at h1
  omega

theorem hasWord (hp : a.Places lists) (hy : y ∈ sentinel b :: lists b) {i : Nat} (hi : i ≤ 2) :
    a.HasWord (y + i * wordSize) := by
  have := hp.of_node hy
  refine ⟨?_, ?_, hp.room⟩
  · simp only [wordSize] at *
    omega
  · simp only [wordSize] at *
    omega

theorem hasWord_head (hp : a.Places lists) (hy : y ∈ sentinel b :: lists b) : a.HasWord y := by
  simpa using hp.hasWord hy (Nat.zero_le 2)

theorem hasWord_links (hp : a.Places lists) (hy : y ∈ sentinel b :: lists b) :
    a.HasWord (y + wordSize) ∧ a.HasWord (y + 2 * wordSize) :=
  ⟨by simpa using hp.hasWord hy (i := 1) (by decide), hp.hasWord hy (Nat.le_refl 2)⟩

theorem links_eq (hp : a.Places lists) (hy : y ∈ sentinel b :: lists b) :
    a.links y = .ok ⟨a.mem.prevLink y, a.mem.nextLink y⟩ :=
  Arena.links_eq_ok (hp.hasWord_links hy).1 (hp.hasWord_links hy).2

theorem blockSize_eq (hp : a.Places lists) (hy : y ∈ sentinel b :: lists b) :
    a.blockSize y = .ok (a.mem.tagSize y) :=
  Arena.blockSize_eq_ok (hp.hasWord_head hy)

theorem not_linkBytes_head (hp : a.Places lists) (hl : ∀ y ∈ l, y ∈ sentinel b :: lists b)
    (hx : x ∈ sentinel c :: lists c) {j : Nat} (h1 : x ≤ j) (h2 : j < x + 8) : ¬ LinkBytes l j := by
  rintro ⟨y, hy, h3, h4⟩
  simp only [wordSize] at *
  rcases hp.node_apart hx (hl y hy) with rfl | hxy | hyx
  · omega
  · simp only [wordSize] at *
    omega
  · simp only [wordSize] at *
    omega

theorem not_linkBytes_links (hp : a.Places lists) (hl : ∀ y ∈ l, y ∈ sentinel b :: lists b)
    (hx : x ∈ sentinel c :: lists c) (hc : c ≠ b) {j : Nat} (h1 : x + wordSize ≤ j)
    (h2 : j < x + 3 * wordSize) : ¬ LinkBytes l j :=
  not_linkBytes (fun y hy => (hp.node_apart hx (hl y hy)).resolve_left
    fun he => hc (hp.ring_unique hx (he ▸ hl y hy))) h1 h2

theorem relinked (hp : a.Places lists) (hm : SameOff (LinkBytes l) a.mem m)
    (hl : ∀ y ∈ l, y ∈ sentinel b :: lists b) : (a.mapMem fun _ => m).Places lists where
  prologue := hp.prologue
  room := hp.room
  entry hx := hp.entry hx
  bucket {c x} hx := by
    have hb := hp.bucket hx
    rwa [Memory.tagSize,
      ← hm.word_eq fun j => hp.not_linkBytes_head hl (List.mem_cons_of_mem _ hx)] at hb
  apart hx hy := hp.apart hx hy
  nodup := hp.nodup

theorem ring_of_ne (hp : a.Places lists) (hm : SameOff (LinkBytes l) a.mem m)
    (hl : ∀ y ∈ l, y ∈ sentinel b :: lists b) (hc : c ≠ b) (hr : a.mem.Ring (sentinel c) (lists c)) :
    m.Ring (sentinel c) (lists c) :=
  hr.of_sameOff hm fun _ hy _ h1 h2 => hp.not_linkBytes_links hl hy hc h1 h2

theorem erase (hp : a.Places lists) (x : Nat) : a.Places fun b => (lists b).erase x where
  prologue := hp.prologue
  room := hp.room
  entry hy := hp.entry (List.mem_of_mem_erase hy)
  bucket hy := hp.bucket (List.mem_of_mem_erase hy)
  apart hy hz := hp.apart (List.mem_of_mem_erase hy) (List.mem_of_mem_erase hz)
  nodup b := (hp.nodup b).erase x

end Arena.Places

theorem mem_update_cons :
    y ∈ Function.update lists b (x :: lists b) c ↔ (y = x ∧ c = b) ∨ y ∈ lists c := by
  by_cases hc : c = b
  · subst hc
    simp
  · simp [hc]

theorem Arena.Places.insert (hp : a.Places lists) (hx : a.Vacant lists x)
    (hb : bucketFor (a.mem.tagSize x) = b) :
    a.Places (Function.update lists b (x :: lists b)) where
  prologue := hp.prologue
  room := hp.room
  entry hy := by
    rcases mem_update_cons.mp hy with ⟨rfl, -⟩ | hy
    · exact ⟨hx.aligned, hx.above, hx.below⟩
    · exact hp.entry hy
  bucket hy := by
    rcases mem_update_cons.mp hy with ⟨rfl, rfl⟩ | hy
    · exact hb
    · exact hp.bucket hy
  apart hy hz := by
    rcases mem_update_cons.mp hy with ⟨hyx, -⟩ | hy <;>
      rcases mem_update_cons.mp hz with ⟨hzx, -⟩ | hz
    · exact .inl (hyx.trans hzx.symm)
    · exact .inr (hyx ▸ hx.apart hz)
    · exact .inr (hzx ▸ (hx.apart hy).symm)
    · exact hp.apart hy hz
  nodup c := by
    by_cases hc : c = b
    · subst hc
      rw [Function.update_self]
      exact List.nodup_cons.mpr ⟨fun h => (hx.apart h).ne rfl, hp.nodup c⟩
    · rw [Function.update_of_ne hc]
      exact hp.nodup c

namespace Bins

@[simp] theorem length_setLength (bins : Bins) (b c : Fin bucketCount) (n : Nat) :
    (bins.setLength b n).length c = if c = b then n else bins.length c := by
  simp only [length, setLength, Vector.get_eq_getElem, Vector.getElem_set, Fin.val_inj]
  simp only [eq_comm]

theorem ext_length {bins bins' : Bins} (h : ∀ b, bins.length b = bins'.length b) : bins = bins' := by
  obtain ⟨lengths⟩ := bins
  obtain ⟨lengths'⟩ := bins'
  refine congrArg mk (Vector.ext fun i hi => ?_)
  exact h ⟨i, hi⟩

namespace Keeps

theorem neighbours_mem (hk : bins.Keeps a lists) (hx : x ∈ lists b) :
    ∀ y ∈ [a.mem.prevLink x, a.mem.nextLink x], y ∈ sentinel b :: lists b := by
  obtain ⟨hp, hn⟩ := (hk.rings b).links_mem hx
  intro y hy
  simp only [List.mem_cons, List.not_mem_nil, or_false] at hy
  rcases hy with rfl | rfl
  · exact hp
  · exact hn

theorem front_mem (hk : bins.Keeps a lists) (x : Nat) :
    ∀ y ∈ [x, sentinel b, a.mem.nextLink (sentinel b)], y ∈ x :: sentinel b :: lists b := by
  intro y hy
  simp only [List.mem_cons, List.not_mem_nil, or_false] at hy
  rcases hy with rfl | rfl | rfl
  · exact List.mem_cons_self
  · exact List.mem_cons_of_mem _ List.mem_cons_self
  · exact List.mem_cons_of_mem _ (hk.rings b).nextLink_head_mem

theorem push (hk : bins.Keeps a lists) (hx : a.Vacant lists x)
    (hb : bucketFor (a.mem.tagSize x) = b) :
    bins.push a x = .ok (bins.setLength b (bins.length b + 1), a.mapMem (·.linkIn (sentinel b) x)) ∧
      (bins.setLength b (bins.length b + 1)).Keeps (a.mapMem (·.linkIn (sentinel b) x))
        (Function.update lists b (x :: lists b)) := by
  have hp := hk.toPlaces.insert hx hb
  have hperm : (x :: sentinel b :: lists b).Perm
      (sentinel b :: Function.update lists b (x :: lists b) b) := by
    rw [Function.update_self]
    exact List.Perm.swap ..
  have hl : ∀ y ∈ [x, sentinel b, a.mem.nextLink (sentinel b)],
      y ∈ sentinel b :: Function.update lists b (x :: lists b) b :=
    fun y hy => hperm.subset (hk.front_mem x y hy)
  constructor
  · have hxm := hl x (by simp)
    have hsm := hl (sentinel b) (by simp)
    have hfm := hl (a.mem.nextLink (sentinel b)) (by simp)
    have hlen : bins.length b + 1 < wordLimit := by
      rw [hk.lengths]
      exact hk.length_lt b
    obtain ⟨hw1, hw2⟩ := hp.hasWord_links hxm
    have hw3 := (hp.hasWord_links hfm).1
    have hw4 := (hp.hasWord_links hsm).2
    simp only [Bins.push, hp.blockSize_eq hxm, hb, hp.links_eq hsm,
      Arena.setPrev_eq_ok hw1, Arena.setNext_eq_ok (hw2.put _ _),
      Arena.setPrev_eq_ok ((hw3.put _ _).put _ _), Arena.setNext_eq_ok (((hw4.put _ _).put _ _).put _ _),
      plus_eq_ok hlen, bind, Except.bind, pure, Except.pure]
    rfl
  · refine ⟨hp.relinked (sameOff_linkIn a.mem (sentinel b) x) hl, ?_, ?_⟩
    · intro c
      -- only nodes of one ring are written to
      by_cases hc : c = b
      · subst hc
        rw [Function.update_self]
        refine (hk.rings c).linkIn (hperm.nodup_iff.mpr (hp.ring_nodup c)) ?_ ?_
        · exact fun y hy z hz => hp.separate c y (hperm.subset hy) z (hperm.subset hz)
        · exact fun y hy => hp.node_lt (hperm.subset hy)
      · have hr := hk.rings c
        rw [← Function.update_of_ne hc (x :: lists b) lists] at hr
        exact hp.ring_of_ne (sameOff_linkIn a.mem (sentinel b) x) hl hc hr
    · intro c
      rw [length_setLength]
      split
      · next hc => rw [hc, Function.update_self, hk.lengths, List.length_cons]
      · next hc => rw [Function.update_of_ne hc, hk.lengths]

theorem remove (hk : bins.Keeps a lists) (hx : x ∈ lists b) :
    bins.remove a x = .ok (bins.setLength b (bins.length b - 1), a.mapMem (·.linkOut x)) ∧
      (bins.setLength b (bins.length b - 1)).Keeps (a.mapMem (·.linkOut x))
        fun c => (lists c).erase x := by
  have hxr : x ∈ sentinel b :: lists b := List.mem_cons_of_mem _ hx
  have hl := hk.neighbours_mem hx
  constructor
  · have hw := (hk.hasWord_links (hl (a.mem.prevLink x) (by simp))).2
    have hw' := (hk.hasWord_links (hl (a.mem.nextLink x) (by simp))).1
    have hlen : bins.length b ≠ 0 := by
      rw [hk.lengths]
      exact Nat.ne_of_gt (List.length_pos_of_mem hx)
    simp only [Bins.remove, hk.blockSize_eq hxr, hk.bucket hx, hk.links_eq hxr,
      Arena.setNext_eq_ok hw, Arena.setPrev_eq_ok (hw'.put _ _), hlen, bind, Except.bind, pure,
      Except.pure, if_false]
    rfl
  · refine ⟨(hk.toPlaces.relinked (sameOff_linkOut a.mem x) hl).erase x, ?_, ?_⟩
    · intro c
      by_cases hc : c = b
      · subst hc
        obtain ⟨ys, zs, hyz⟩ := List.append_of_mem hx
        have hnd := hk.ring_nodup c
        have hsep := hk.separate c
        have hlt := fun y hy => hk.node_lt (y := y) (b := c) hy
        have hring := hk.rings c
        rw [hyz] at hnd hsep hlt hring
        have hxy : x ∉ ys := fun hxy =>
          (List.nodup_append.mp (List.nodup_cons.mp hnd).2).2.2 x hxy x (by simp) rfl
        rw [hyz, List.erase_append_right _ hxy, List.erase_cons_head]
        exact hring.linkOut hnd hsep hlt
      · have hxc : x ∉ lists c := fun h => hc (hk.ring_unique (List.mem_cons_of_mem _ h) hxr)
        rw [List.erase_of_not_mem hxc]
        exact hk.ring_of_ne (sameOff_linkOut a.mem x) hl hc (hk.rings c)
    · intro c
      rw [length_setLength]
      split
      · next hc => rw [hc, List.length_erase_of_mem hx, hk.lengths]
      · next hc =>
        have hxc : x ∉ lists c := fun h => hc (hk.ring_unique (List.mem_cons_of_mem _ h) hxr)
        rw [List.erase_of_not_mem hxc, hk.lengths]

end Keeps

end Bins

end SegregatedFit
