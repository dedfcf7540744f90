import Mathlib
import SegregatedFit.Proofs.Ring
import SegregatedFit.Proofs.Sketch
import SegregatedFit.Proofs.Spelling

/-!
What holds of a sketch at every moment of an operation. Its nodes, the sentinels and the free blocks,
lie apart; the lists hold free blocks only, though some free blocks may be missing from them.
-/
namespace SegregatedFit

open Row Memory

theorem prologueSize_eq : prologueSize = 440 := by decide

theorem sentinel_le (b : Fin bucketCount) : sentinel b + 3 * wordSize ≤ prologueSize := by
  have hb := b.isLt
  rw [prologueSize_eq]
  simp only [sentinel, sentinelSize, wordSize, bucketCount] at *
  omega

theorem sentinel_apart {b c : Fin bucketCount} (h : b ≠ c) : Apart (sentinel b) (sentinel c) := by
  have hv : b.val ≠ c.val := Fin.val_ne_of_ne h
  simp only [Apart, sentinel, sentinelSize, wordSize]
  omega

namespace Sketch

variable {H : Type} {k : Sketch H} {b c : Fin bucketCount} {i j n x y : Nat} {t : Tag}

def blocks (k : Sketch H) : List (Nat × Tag) := located prologueSize k.row

/-- The bytes in no payload of a used block, which are the ones that the heap may write. -/
def Owns (k : Sketch H) (i : Nat) : Prop :=
  ∀ x n, (x, n) ∈ k.sites true → i < x + headerSize ∨ x + n ≤ i

/-- The offset of a sentinel or of a free block. -/
def Node (k : Sketch H) (y : Nat) : Prop := (∃ b, y = sentinel b) ∨ ∃ n, (y, n) ∈ k.sites false

/-- What holds of a sketch at every moment of an operation. -/
structure Tidy (k : Sketch H) : Prop where
  sized : Sized k.row
  room : k.top < wordLimit
  listed {b : Fin bucketCount} {x : Nat} :
    x ∈ k.lists b → ∃ n, (x, n) ∈ k.sites false ∧ bucketFor n = b
  nodup (b : Fin bucketCount) : (k.lists b).Nodup

theorem prologueSize_le_top (k : Sketch H) : prologueSize ≤ k.top := Nat.le_add_right _ _

theorem Tidy.of_block (hk : k.Tidy) (h : (x, t) ∈ k.blocks) :
    prologueSize ≤ x ∧ x + t.size ≤ k.top ∧ minBlock ≤ t.size ∧ t.size % alignment = 0 ∧
      (x + headerSize) % alignment = 0 := by
  have hb := located_bounds h
  have hz := hk.sized.of_located h
  have hm := hk.sized.located_mod h
  rw [prologueSize_eq] at hm
  simp only [alignment, headerSize, wordSize] at *
  exact ⟨hb.1, hb.2, hz.1, hz.2, by omega⟩

theorem Tidy.size_lt (hk : k.Tidy) (h : (x, t) ∈ k.blocks) : t.size < wordLimit :=
  (Nat.le_add_left _ _).trans_lt ((hk.of_block h).2.1.trans_lt hk.room)

theorem Tidy.of_site {u : Bool} (hk : k.Tidy) (h : (x, n) ∈ k.sites u) :
    prologueSize ≤ x ∧ x + n ≤ k.top ∧ minBlock ≤ n ∧ n % alignment = 0 ∧
      (x + headerSize) % alignment = 0 := by
  obtain ⟨t, ht, -, rfl⟩ := mem_sites_iff.mp h
  exact hk.of_block ht

theorem Tidy.fresh_site {u : Bool} {rest : List (Nat × Nat)} (hk : k.Tidy)
    (hp : (k.sites u).Perm ((x, n) :: rest)) : x ∉ rest.map Prod.fst := by
  have hnd := hk.sized.nodup_sites u prologueSize
  exact (List.nodup_cons.mp ((hp.map Prod.fst).nodup_iff.mp hnd)).1

@[simp] theorem top_unlist (k : Sketch H) (x : Nat) : (k.unlist x).top = k.top := rfl

@[simp] theorem row_unlist (k : Sketch H) (x : Nat) : (k.unlist x).row = k.row := rfl
@[simp] theorem row_enlist (k : Sketch H) (x n : Nat) : (k.enlist x n).row = k.row := rfl
@[simp] theorem row_count (k : Sketch H) (c : Counter) : (k.count c).row = k.row := rfl
@[simp] theorem row_charge (k : Sketch H) (n : Nat) : (k.charge n).row = k.row := rfl
@[simp] theorem row_discharge (k : Sketch H) (n : Nat) : (k.discharge n).row = k.row := rfl
@[simp] theorem row_recordHeapSize (k : Sketch H) : k.recordHeapSize.row = k.row := rfl

@[simp] theorem host_unlist (k : Sketch H) (x : Nat) : (k.unlist x).host = k.host := rfl
@[simp] theorem host_enlist (k : Sketch H) (x n : Nat) : (k.enlist x n).host = k.host := rfl
@[simp] theorem host_count (k : Sketch H) (c : Counter) : (k.count c).host = k.host := rfl
@[simp] theorem host_charge (k : Sketch H) (n : Nat) : (k.charge n).host = k.host := rfl
@[simp] theorem host_discharge (k : Sketch H) (n : Nat) : (k.discharge n).host = k.host := rfl
@[simp] theorem host_recordHeapSize (k : Sketch H) : k.recordHeapSize.host = k.host := rfl

@[simp] theorem stats_unlist (k : Sketch H) (x : Nat) : (k.unlist x).stats = k.stats := rfl
@[simp] theorem stats_enlist (k : Sketch H) (x n : Nat) : (k.enlist x n).stats = k.stats := rfl
@[simp] theorem stats_count (k : Sketch H) (c : Counter) : (k.count c).stats = k.stats.bump c := rfl
@[simp] theorem stats_recordHeapSize (k : Sketch H) :
    k.recordHeapSize.stats = k.stats.recordHeapSize (span k.row) := rfl

theorem Tidy.node (hk : k.Tidy) (h : y ∈ sentinel b :: k.lists b) : k.Node y := by
  rcases List.mem_cons.mp h with rfl | h
  · exact .inl ⟨b, rfl⟩
  · obtain ⟨n, hn, -⟩ := hk.listed h
    exact .inr ⟨n, hn⟩

theorem Tidy.of_node (hk : k.Tidy) (h : k.Node y) : y % wordSize = 0 ∧ y + 3 * wordSize ≤ k.top := by
  rcases h with ⟨b, rfl⟩ | ⟨n, hn⟩
  · have := sentinel_le b
    have := k.prologueSize_le_top
    exact ⟨by simp only [sentinel, sentinelSize, wordSize]; omega, by omega⟩
  · have := hk.of_site hn
    simp only [headerSize, wordSize, minBlock, alignment] at *
    omega

theorem Tidy.node_apart (hk : k.Tidy) (hx : k.Node x) (hy : k.Node y) : x = y ∨ Apart x y := by
  rcases hx with ⟨b, rfl⟩ | ⟨n, hn⟩ <;> rcases hy with ⟨c, rfl⟩ | ⟨m, hm⟩
  · by_cases hbc : b = c
    · exact .inl (by rw [hbc])
    · exact .inr (sentinel_apart hbc)
  · have := sentinel_le b
    have := (hk.of_site hm).1
    exact .inr (.inl (by omega))
  · have := sentinel_le c
    have := (hk.of_site hn).1
    exact .inr (.inr (by omega))
  · have hn' := (hk.of_site hn).2.2.1
    have hm' := (hk.of_site hm).2.2.1
    simp only [minBlock, Apart, wordSize] at *
    rcases sites_apart hn hm with h | h | h
    · exact .inl h.1
    · exact .inr (.inl (by omega))
    · exact .inr (.inr (by omega))

theorem Tidy.separate (hk : k.Tidy) {l : List Nat} (hl : ∀ y ∈ l, k.Node y) : Separate l :=
  fun x hx y hy => hk.node_apart (hl x hx) (hl y hy)

theorem Tidy.sentinel_ne_site {u : Bool} (hk : k.Tidy) (hx : (x, n) ∈ k.sites u) : sentinel b ≠ x := by
  have h1 := (hk.of_site hx).1
  have h2 := sentinel_le b
  simp only [wordSize] at h2
  omega

theorem Tidy.sentinel_unlisted (hk : k.Tidy) : sentinel b ∉ k.lists c := by
  intro h
  obtain ⟨n, hn, -⟩ := hk.listed h
  exact hk.sentinel_ne_site hn rfl

theorem Tidy.ring_unique (hk : k.Tidy) (hb : y ∈ sentinel b :: k.lists b)
    (hc : y ∈ sentinel c :: k.lists c) : b = c := by
  rcases List.mem_cons.mp hb with rfl | hb <;> rcases List.mem_cons.mp hc with hc | hc
  · by_contra hne
    exact (sentinel_apart hne).ne hc
  · exact absurd hc hk.sentinel_unlisted
  · exact absurd (hc ▸ hb) hk.sentinel_unlisted
  · obtain ⟨n, hn, rfl⟩ := hk.listed hb
    obtain ⟨m, hm, rfl⟩ := hk.listed hc
    have hn' := (hk.of_site hn).2.2.1
    have hm' := (hk.of_site hm).2.2.1
    simp only [minBlock, wordSize] at hn' hm'
    rcases sites_apart hn hm with h | h | h
    · rw [h.2.1]
    · omega
    · omega

theorem Tidy.ring_nodup (hk : k.Tidy) (b : Fin bucketCount) : (sentinel b :: k.lists b).Nodup :=
  List.nodup_cons.mpr ⟨hk.sentinel_unlisted, hk.nodup b⟩

theorem Tidy.unlisted (hk : k.Tidy) (hx : (x, t) ∈ k.blocks) (hu : t.used = true)
    (b : Fin bucketCount) : x ∉ k.lists b := by
  intro h
  obtain ⟨n, hn, -⟩ := hk.listed h
  obtain ⟨s, hs, hf, -⟩ := mem_sites_iff.mp hn
  rw [hk.sized.located_unique hx hs, hf] at hu
  cases hu

theorem Tidy.entry_outside (hk : k.Tidy) (hx : (x, t) ∈ k.blocks) (hnew : ∀ b, x ∉ k.lists b)
    (hy : y ∈ k.lists b) : y < x ∨ x + t.size ≤ y := by
  obtain ⟨n, hn, -⟩ := hk.listed hy
  obtain ⟨s, hs, -, rfl⟩ := mem_sites_iff.mp hn
  have hz := (hk.of_block hs).2.2.1
  simp only [minBlock, wordSize] at hz
  rcases located_apart hx hs with ⟨rfl, -⟩ | h | h
  · exact absurd hy (hnew b)
  · exact .inr h
  · exact .inl (by omega)

theorem Tidy.length_le (hk : k.Tidy) (b : Fin bucketCount) :
    (k.lists b).length * minBlock ≤ span k.row := by
  have hsub : k.lists b ⊆ (k.sites false).map Prod.fst := by
    intro x hx
    obtain ⟨n, hn, -⟩ := hk.listed hx
    exact List.mem_map_of_mem hn
  have h1 := ((hk.nodup b).subperm hsub).length_le
  have h2 := length_sites_le false prologueSize k.row
  have h3 := hk.sized.length_le
  rw [List.length_map, sites] at h1
  simp only [minBlock, wordSize] at *
  omega

theorem Tidy.owns_of_lt (hk : k.Tidy) (h : i < prologueSize) : k.Owns i := by
  intro x n hx
  have := (hk.of_site hx).1
  omega

theorem Tidy.owns_of_le (hk : k.Tidy) (h : k.top ≤ i) : k.Owns i := by
  intro x n hx
  have := (hk.of_site hx).2.1
  omega

theorem Tidy.owns_of_head (hk : k.Tidy) (h : (x, t) ∈ k.blocks) (hx : x ≤ i)
    (hi : i < x + wordSize) : k.Owns i := by
  intro y n hy
  obtain ⟨s, hs, -, rfl⟩ := mem_sites_iff.mp hy
  have hz := (hk.of_block h).2.2.1
  simp only [minBlock, headerSize, wordSize] at *
  rcases located_apart h hs with ⟨rfl, -⟩ | h | h
  · exact .inl (by omega)
  · exact .inl (by omega)
  · exact .inr (by omega)

theorem Owns.mono {k' : Sketch H} (h : k'.Owns i) (hsub : k.sites true ⊆ k'.sites true) : k.Owns i :=
  fun x n hx => h x n (hsub hx)

theorem owns_of_free (h : (x, n) ∈ k.sites false) (hx : x ≤ i) (hi : i < x + n) : k.Owns i := by
  intro y m hy
  rcases sites_apart h hy with h | h | h
  · simp at h
  · exact .inl (by omega)
  · exact .inr (by omega)

theorem Tidy.owns_of_node (hk : k.Tidy) (h : k.Node y) (hy : y ≤ i) (hi : i < y + 3 * wordSize) :
    k.Owns i := by
  rcases h with ⟨b, rfl⟩ | ⟨n, hn⟩
  · have := sentinel_le b
    exact hk.owns_of_lt (by omega)
  · have := (hk.of_site hn).2.2.1
    simp only [minBlock, wordSize] at *
    exact owns_of_free hn hy (by omega)

theorem Tidy.owns_of_linkBytes (hk : k.Tidy) {l : List Nat} (hl : ∀ y ∈ l, k.Node y)
    (h : LinkBytes l i) : k.Owns i := by
  obtain ⟨y, hy, h1, h2⟩ := h
  exact hk.owns_of_node (hl y hy) (by simp only [wordSize] at *; omega) h2

theorem Tidy.spells_of_links (hk : k.Tidy) {m m' : Memory} {l : List Nat}
    (h : m.Spells prologueSize k.row) (hm : SameOff (LinkBytes l) m m') (hl : ∀ y ∈ l, k.Node y) :
    m'.Spells prologueSize k.row := by
  have hoff : ∀ x t, (x, t) ∈ k.blocks → ∀ j, x ≤ j → j < x + t.size →
      (j < x + 8 ∨ x + t.size - 8 ≤ j) → ¬ LinkBytes l j := by
    rintro x t hx j h1 h2 h3 ⟨y, hy, h4, h5⟩
    have hxb := hk.of_block hx
    simp only [wordSize, minBlock] at *
    rcases hl y hy with ⟨b, rfl⟩ | ⟨n, hn⟩
    · have := sentinel_le b
      simp only [wordSize] at this
      omega
    · obtain ⟨s, hs, -, rfl⟩ := mem_sites_iff.mp hn
      have hsb := (hk.of_block hs).2.2.1
      simp only [minBlock, wordSize] at hsb
      rcases located_apart hx hs with ⟨rfl, -⟩ | h | h <;> omega
  apply h.of_sameOff hm
  · intro x t hx j h1 h2
    have := (hk.of_block hx).2.2.1
    simp only [minBlock, wordSize] at this
    exact hoff x t hx j h1 (by omega) (.inl h2)
  · intro x t hx _ j h1 h2
    have := (hk.of_block hx).2.2.1
    simp only [minBlock, wordSize] at this
    exact hoff x t hx j (by omega) (by omega) (.inr h1)

theorem Tidy.mem_unlist (hk : k.Tidy) : y ∈ (k.unlist x).lists b ↔ y ≠ x ∧ y ∈ k.lists b :=
  (hk.nodup b).mem_erase_iff

theorem mem_enlist : y ∈ (k.enlist x n).lists b ↔ (y = x ∧ b = bucketFor n) ∨ y ∈ k.lists b := by
  simp only [enlist, Function.update_apply]
  split
  · next h => simp [h]
  · next h => simp [h]

theorem mem_enlist_iff : y ∈ (k.enlist x n).lists b ↔
    y ∈ k.lists b ∨ ∃ m, (y, m) ∈ [(x, n)] ∧ bucketFor m = b := by
  rw [mem_enlist]
  simp only [List.mem_singleton, Prod.mk.injEq]
  constructor
  · rintro (⟨rfl, rfl⟩ | hy)
    · exact .inr ⟨_, ⟨rfl, rfl⟩, rfl⟩
    · exact .inl hy
  · rintro (hy | ⟨m, ⟨rfl, rfl⟩, rfl⟩)
    · exact .inr hy
    · exact .inl ⟨rfl, rfl⟩

theorem nodup_enlist (hk : ∀ b, (k.lists b).Nodup) (hnew : ∀ b, x ∉ k.lists b) (n : Nat)
    (b : Fin bucketCount) : ((k.enlist x n).lists b).Nodup := by
  simp only [enlist, Function.update_apply]
  split
  · exact List.nodup_cons.mpr ⟨hnew _, hk _⟩
  · exact hk b

theorem Tidy.unlist (hk : k.Tidy) (x : Nat) : (k.unlist x).Tidy where
  sized := hk.sized
  room := hk.room
  listed h := hk.listed (hk.mem_unlist.mp h).2
  nodup b := (hk.nodup b).erase x

theorem Tidy.enlist (hk : k.Tidy) (hx : (x, n) ∈ k.sites false) (hnew : ∀ b, x ∉ k.lists b) :
    (k.enlist x n).Tidy where
  sized := hk.sized
  room := hk.room
  listed h := by
    rcases mem_enlist.mp h with ⟨rfl, rfl⟩ | h
    · exact ⟨n, hx, rfl⟩
    · exact hk.listed h
  nodup := nodup_enlist hk.nodup hnew n

section

variable {xs us ys vs : Row}

theorem Tidy.ne_nil_of_entry (hk : k.Tidy) (hrow : k.row = xs ++ (us ++ ys)) (hy : y ∈ k.lists b)
    (hle : prologueSize + span xs + span us ≤ y) : ys ≠ [] := by
  rintro rfl
  obtain ⟨n, hn, -⟩ := hk.listed hy
  have hb := hk.of_site hn
  rw [Sketch.top, hrow] at hb
  simp only [span_append, span_nil, minBlock, wordSize] at hb
  omega

theorem Tidy.replace (hk : k.Tidy) (hrow : k.row = xs ++ (us ++ ys))
    (hroom : prologueSize + span (xs ++ (vs ++ ys)) < wordLimit)
    (hspan : ys = [] ∨ span vs = span us) (hsized : Sized vs)
    (hlists : ∀ b, ∀ y ∈ k.lists b,
      y < prologueSize + span xs ∨ prologueSize + span xs + span us ≤ y) :
    Tidy { k with row := xs ++ (vs ++ ys) } where
  sized := by
    have hz := hk.sized
    simp only [hrow, sized_append] at hz
    exact sized_append.mpr ⟨hz.1, sized_append.mpr ⟨hsized, hz.2.2⟩⟩
  room := hroom
  listed {b y} hy := by
    obtain ⟨n, hn, hb⟩ := hk.listed hy
    refine ⟨n, ?_, hb⟩
    have hpos := (hk.of_site hn).2.2.1
    simp only [minBlock, wordSize] at hpos
    simp only [Sketch.sites, hrow, sites_append, List.mem_append] at hn ⊢
    rcases hn with hn | hn | hn
    · exact .inl hn
    · have := sites_bounds hn
      have := hlists b y hy
      omega
    · have := (sites_bounds hn).1
      rcases hlists b y hy with hlt | hle
      · omega
      · rw [hspan.resolve_left (hk.ne_nil_of_entry hrow hy hle)]
        exact .inr (.inr hn)
  nodup := hk.nodup

theorem Tidy.links_outside (hk : k.Tidy) (hrow : k.row = xs ++ (us ++ ys))
    (hlists : ∀ b, ∀ y ∈ k.lists b,
      y < prologueSize + span xs ∨ prologueSize + span xs + span us ≤ y)
    (hy : y ∈ sentinel b :: k.lists b) (h1 : y + wordSize ≤ j) (h2 : j < y + 3 * wordSize) :
    ¬ (prologueSize + span xs ≤ j ∧ (ys = [] ∨ j < prologueSize + span xs + span us)) := by
  rintro ⟨h3, h4⟩
  rcases List.mem_cons.mp hy with rfl | hy
  · have := sentinel_le b
    omega
  · obtain ⟨n, hn, -⟩ := hk.listed hy
    have hlen := (hk.of_site hn).2.2.1
    simp only [minBlock, wordSize] at *
    rcases hlists b y hy with hlt | hle
    · rw [Sketch.sites, hrow, sites_append, List.mem_append] at hn
      rcases hn with hn | hn
      · have := (sites_bounds hn).2
        omega
      · have := (sites_bounds hn).1
        omega
    · have := h4.resolve_left (hk.ne_nil_of_entry hrow hy hle)
      omega

end

end Sketch

end SegregatedFit
