import Mathlib
import SegregatedFit.Proofs.Tidy

/-!
What holds of a sketch between operations, and how an operation gets from there to there: it opens a
hole in the row, widens it over neighbours, and fills it with other blocks.
-/
namespace SegregatedFit

open Row

/-- Of two neighbours one is used. -/
def Row.Merged (ts : Row) : Prop := ∀ t ∈ ts, t.used = true ∨ t.prevUsed = true

theorem Row.merged_append {xs ys : Row} : Merged (xs ++ ys) ↔ Merged xs ∧ Merged ys := by
  simp only [Merged, List.mem_append]
  constructor
  · intro h
    exact ⟨fun t ht => h t (.inl ht), fun t ht => h t (.inr ht)⟩
  · intro ⟨hx, hy⟩ t ht
    exact ht.elim (hx t) (hy t)

theorem Row.merged_cons {t : Tag} {ts : Row} :
    Merged (t :: ts) ↔ (t.used = true ∨ t.prevUsed = true) ∧ Merged ts := by
  simp [Merged]

theorem Row.Merged.head_used {t : Tag} {ts : Row} (hm : Merged (t :: ts))
    (hf : Flagged false (t :: ts)) : t.used = true :=
  (merged_cons.mp hm).1.resolve_right (by simp [hf.1])

namespace Sketch

variable {H : Type} {k : Sketch H} {b : Fin bucketCount} {n x y : Nat} {v w : Bool}
  {f g t : Tag} {xs ys us r : Row}

structure Settled (k : Sketch H) : Prop where
  tidy : k.Tidy
  flagged : Flagged true k.row
  merged : Merged k.row
  complete {x n : Nat} : (x, n) ∈ k.sites false → x ∈ k.lists (bucketFor n)
  topUsed : k.topUsed = lastUsed true k.row

structure Charged (k : Sketch H) : Prop where
  settled : k.Settled
  inUse : k.stats.bytesInUse = usedBytes k.row

/-- What holds between operations of a sketch whose used blocks are all charged. -/
structure Valid [Host H] (k : Sketch H) : Prop where
  settled : k.Settled
  inUse : k.stats.bytesInUse = usedBytes k.row
  backed : k.top ≤ Host.committed k.host

/-- The merges so far and those that are still to come. -/
def merges (k : Sketch H) : Nat := k.stats.coalesces + (k.sites false).length

/-- The row of the sketch has a hole between `xs` and `ys`, with the blocks `us` in it. The lists hold
the free blocks around the hole, and the block after it records `v` about its predecessor. -/
structure Hole (k : Sketch H) (xs us ys : Row) (v : Bool) : Prop where
  tidy : k.Tidy
  row : k.row = xs ++ (us ++ ys)
  listed {b : Fin bucketCount} {y : Nat} : y ∈ k.lists b ↔
    ∃ n, ((y, n) ∈ Row.sites false prologueSize xs ∨
      (y, n) ∈ Row.sites false (prologueSize + span xs + span us) ys) ∧ bucketFor n = b
  left : Flagged true xs
  right : Flagged v ys
  leftMerged : Merged xs
  rightMerged : Merged ys

theorem merges_count (k : Sketch H) {c : Counter} (hc : c ≠ .coalesces) :
    (k.count c).merges = k.merges := by
  simp [merges, sites, hc]

theorem Tidy.cut_eq (hk : k.Tidy) (hrow : k.row = xs ++ ys) (hx : x = prologueSize + span xs) :
    k.cut x = (xs, ys) := by
  have hz := hk.sized
  rw [hrow, sized_append] at hz
  rw [cut, hrow, hx, hz.1.cut_append]

theorem Tidy.sizeAt_eq (hk : k.Tidy) (h : (x, t) ∈ k.blocks) : k.sizeAt x = t.size := by
  obtain ⟨xs, ys, hrow, hx⟩ := mem_located_iff.mp h
  rw [sizeAt, hk.cut_eq hrow hx]
  rfl

theorem Settled.listed_iff (hk : k.Settled) :
    y ∈ k.lists b ↔ ∃ n, (y, n) ∈ k.sites false ∧ bucketFor n = b := by
  constructor
  · exact hk.tidy.listed
  · rintro ⟨n, hn, rfl⟩
    exact hk.complete hn

theorem Settled.hole (hk : k.Settled) (hrow : k.row = xs ++ ys) :
    k.Hole xs [] ys (lastUsed true xs) := by
  have hf := hk.flagged
  have hm := hk.merged
  rw [hrow] at hf hm
  rw [flagged_append] at hf
  rw [merged_append] at hm
  refine ⟨hk.tidy, hrow, ?_, hf.1, hf.2, hm.1, hm.2⟩
  intro b y
  rw [hk.listed_iff, Sketch.sites, hrow, sites_append]
  simp only [List.mem_append, span_nil, Nat.add_zero]

theorem Tidy.congr (hk : k.Tidy) {k' : Sketch H} (hrow : k'.row = k.row)
    (hlists : k'.lists = k.lists) : k'.Tidy := by
  obtain ⟨h1, h2, h3, h4⟩ := hk
  simp only [Sketch.top, Sketch.sites] at *
  rw [← hrow] at h1 h2
  simp only [← hrow, ← hlists] at h3 h4
  exact ⟨h1, h2, h3, h4⟩

namespace Hole

theorem congr (hk : k.Hole xs us ys v) {k' : Sketch H} (hrow : k'.row = k.row)
    (hlists : k'.lists = k.lists) : k'.Hole xs us ys v := by
  refine ⟨hk.tidy.congr hrow hlists, hrow.trans hk.row, ?_, hk.left, hk.right, hk.leftMerged,
    hk.rightMerged⟩
  rw [hlists]
  exact hk.listed

theorem sized (hk : k.Hole xs us ys v) : Sized xs ∧ Sized us ∧ Sized ys := by
  have hz := hk.tidy.sized
  rw [hk.row] at hz
  simpa only [sized_append] using hz

theorem top_eq (hk : k.Hole xs us ys v) :
    k.top = prologueSize + span xs + span us + span ys := by
  rw [top, hk.row]
  simp only [span_append]
  omega

theorem end_iff (hk : k.Hole xs us ys v) : prologueSize + span xs + span us = k.top ↔ ys = [] := by
  rw [hk.top_eq, ← hk.sized.2.2.span_eq_zero_iff]
  omega

theorem outside (hk : k.Hole xs us ys v) (hy : y ∈ k.lists b) :
    y < prologueSize + span xs ∨ prologueSize + span xs + span us ≤ y := by
  obtain ⟨n, hn | hn, -⟩ := hk.listed.mp hy
  · have hb := (sites_bounds hn).2
    have hz := (hk.sized.1.of_site hn).1
    simp only [minBlock, wordSize] at hz
    exact .inl (by omega)
  · exact .inr (sites_bounds hn).1

theorem fresh (hk : k.Hole xs us ys v) (hx : prologueSize + span xs ≤ x)
    (hy : ys = [] ∨ x < prologueSize + span xs + span us) (b : Fin bucketCount) : x ∉ k.lists b := by
  intro h
  have hout := hk.outside h
  rcases hy with rfl | hy
  · obtain ⟨n, hn, -⟩ := hk.tidy.listed h
    have hb := hk.tidy.of_site hn
    have ht := hk.top_eq
    simp only [minBlock, wordSize, span_nil] at hb ht
    omega
  · omega

theorem block_next (hk : k.Hole xs us (g :: ys) v) :
    (prologueSize + span xs + span us, g) ∈ k.blocks :=
  mem_located_iff.mpr ⟨xs ++ us, ys, by rw [hk.row, List.append_assoc],
    by rw [span_append, Nat.add_assoc]⟩

theorem entry_next (hk : k.Hole xs us (g :: ys) v) (hg : g.used = false) :
    prologueSize + span xs + span us ∈ k.lists (bucketFor g.size) :=
  hk.listed.mpr ⟨g.size, .inr (by simp [sites_cons, hg]), rfl⟩

theorem block_prev (hk : k.Hole (xs ++ [f]) us ys v) : (prologueSize + span xs, f) ∈ k.blocks :=
  mem_located_iff.mpr ⟨xs, us ++ ys, by rw [hk.row, List.append_assoc]; rfl, rfl⟩

theorem entry_prev (hk : k.Hole (xs ++ [f]) us ys v) (hf : f.used = false) :
    prologueSize + span xs ∈ k.lists (bucketFor f.size) :=
  hk.listed.mpr ⟨f.size, .inl (by simp [sites_append, sites_cons, hf]), rfl⟩

theorem takeUsed (hk : k.Hole xs us (g :: ys) v) (hg : g.used = true) :
    k.Hole xs (us ++ [g]) ys true where
  tidy := hk.tidy
  row := by rw [hk.row, List.append_assoc]; rfl
  listed {b y} := by
    rw [hk.listed]
    simp only [sites_cons, hg, span_append, span_cons, span_nil, Nat.add_assoc, Nat.add_zero,
      Bool.true_eq_false, if_false]
  left := hk.left
  right := by rw [← hg]; exact hk.right.2
  leftMerged := hk.leftMerged
  rightMerged := (merged_cons.mp hk.rightMerged).2

theorem takeFree (hk : k.Hole xs us (g :: ys) v) (hg : g.used = false) :
    (k.unlist (prologueSize + span xs + span us)).Hole xs (us ++ [g]) ys false where
  tidy := hk.tidy.unlist _
  row := by rw [row_unlist, hk.row, List.append_assoc]; rfl
  listed {b y} := by
    obtain ⟨hzx, hzu, hzg⟩ := hk.sized
    have hg' := (sized_cons.mp hzg).1.1
    simp only [minBlock, wordSize] at hg'
    rw [hk.tidy.mem_unlist, hk.listed]
    simp only [sites_cons, hg, if_true, List.mem_cons, Prod.mk.injEq, span_append, span_cons,
      span_nil, Nat.add_zero, ← Nat.add_assoc]
    constructor
    · rintro ⟨hne, n, hn, hb⟩
      refine ⟨n, ?_, hb⟩
      rcases hn with hn | ⟨rfl, -⟩ | hn
      · exact .inl hn
      · exact absurd rfl hne
      · exact .inr hn
    · rintro ⟨n, hn | hn, hb⟩
      · have h1 := (sites_bounds hn).2
        have h2 := (hzx.of_site hn).1
        simp only [minBlock, wordSize] at h2
        exact ⟨by omega, n, .inl hn, hb⟩
      · have h1 := (sites_bounds hn).1
        exact ⟨by omega, n, .inr (.inr hn), hb⟩
  left := hk.left
  right := by rw [← hg]; exact hk.right.2
  leftMerged := hk.leftMerged
  rightMerged := (merged_cons.mp hk.rightMerged).2

theorem takePrev (hk : k.Hole (xs ++ [f]) us ys v) (hf : f.used = false) :
    (k.unlist (prologueSize + span xs)).Hole xs (f :: us) ys v where
  tidy := hk.tidy.unlist _
  row := by rw [row_unlist, hk.row, List.append_assoc]; rfl
  listed {b y} := by
    obtain ⟨hzx, hzu, hzy⟩ := hk.sized
    obtain ⟨hzx, hzf⟩ := sized_append.mp hzx
    have hf' := (sized_cons.mp hzf).1.1
    simp only [minBlock, wordSize] at hf'
    rw [hk.tidy.mem_unlist, hk.listed]
    simp only [sites_append, sites_cons, sites_nil, hf, if_true, List.mem_append, List.mem_singleton,
      Prod.mk.injEq, span_append, span_cons, span_nil, Nat.add_zero, ← Nat.add_assoc]
    constructor
    · rintro ⟨hne, n, hn, hb⟩
      refine ⟨n, ?_, hb⟩
      rcases hn with (hn | ⟨rfl, -⟩) | hn
      · exact .inl hn
      · exact absurd rfl hne
      · exact .inr hn
    · rintro ⟨n, hn | hn, hb⟩
      · have h1 := (sites_bounds hn).2
        have h2 := (hzx.of_site hn).1
        simp only [minBlock, wordSize] at h2
        exact ⟨by omega, n, .inl (.inl hn), hb⟩
      · have h1 := (sites_bounds hn).1
        exact ⟨by omega, n, .inr hn, hb⟩
  left := (flagged_append.mp hk.left).1
  right := hk.right
  leftMerged := (merged_append.mp hk.leftMerged).1
  rightMerged := hk.rightMerged

/-- The block before a hole is free where the hole's first block says so, and then the one before
that is used. -/
theorem prev_of_false (hk : k.Hole xs us ys v) (hx : lastUsed true xs = false) :
    ∃ xs' f, xs = xs' ++ [f] ∧ f.used = false ∧ f.prevUsed = true ∧ lastUsed true xs' = true := by
  rcases List.eq_nil_or_concat' xs with rfl | ⟨xs', f, rfl⟩
  · cases hx
  · rw [lastUsed_append] at hx
    obtain ⟨-, hf, -⟩ := flagged_append.mp hk.left
    have hm := (merged_append.mp hk.leftMerged).2 f (by simp)
    have hu : f.used = false := hx
    rw [hu] at hm
    have hp := hm.resolve_left (by simp)
    exact ⟨xs', f, rfl, hu, hp, hf ▸ hp⟩

theorem swap (hk : k.Hole xs us ys v) (hsized : Sized r) (hspan : span r = span us) :
    Hole { k with row := xs ++ (r ++ ys) } xs r ys v := by
  obtain ⟨hzx, hzu, hzy⟩ := hk.sized
  have hroom := hk.tidy.room
  rw [hk.top_eq] at hroom
  have hlist : ∀ {b y}, y ∈ k.lists b ↔ ∃ n, ((y, n) ∈ Row.sites false prologueSize xs ∨
      (y, n) ∈ Row.sites false (prologueSize + span xs + span r) ys) ∧ bucketFor n = b := by
    intro b y
    rw [hk.listed, hspan]
  refine ⟨⟨?_, ?_, ?_, hk.tidy.nodup⟩, rfl, hlist, hk.left, hk.right, hk.leftMerged, hk.rightMerged⟩
  · exact sized_append.mpr ⟨hzx, sized_append.mpr ⟨hsized, hzy⟩⟩
  · rw [top]
    simp only [span_append]
    omega
  · intro b y hy
    obtain ⟨n, hn, hb⟩ := hlist.mp hy
    refine ⟨n, ?_, hb⟩
    simp only [Sketch.sites, sites_append, List.mem_append]
    exact hn.imp_right .inr

theorem settle (hk : k.Hole xs us ys v) (w : Bool) (hw : w = false → ∀ t ∈ ys.head?, t.used = true) :
    Hole { k with row := xs ++ (us ++ Row.settle w ys) } xs us (Row.settle w ys) w := by
  obtain ⟨hzx, hzu, hzy⟩ := hk.sized
  have hroom := hk.tidy.room
  rw [hk.top_eq] at hroom
  have hlist : ∀ {b y}, y ∈ k.lists b ↔ ∃ n, ((y, n) ∈ Row.sites false prologueSize xs ∨
      (y, n) ∈ Row.sites false (prologueSize + span xs + span us) (Row.settle w ys)) ∧
        bucketFor n = b := by
    intro b y
    rw [hk.listed, sites_settle]
  refine ⟨⟨?_, ?_, ?_, hk.tidy.nodup⟩, rfl, hlist, hk.left, hk.right.settle w, hk.leftMerged, ?_⟩
  · exact sized_append.mpr ⟨hzx, sized_append.mpr ⟨hzu, sized_settle.mpr hzy⟩⟩
  · rw [top]
    simp only [span_append, span_settle]
    omega
  · intro b y hy
    obtain ⟨n, hn, hb⟩ := hlist.mp hy
    refine ⟨n, ?_, hb⟩
    simp only [Sketch.sites, sites_append, List.mem_append]
    exact hn.imp_right .inr
  · cases ys with
    | nil => exact fun t ht => by cases ht
    | cons t ys =>
      refine merged_cons.mpr ⟨?_, (merged_cons.mp hk.rightMerged).2⟩
      cases w with
      | false => exact .inl (hw rfl t (by simp))
      | true => exact .inr rfl

/-- The hole is filled with blocks that fit in, and their free blocks are put into the lists. -/
theorem fill (hk : k.Hole xs us ys v) {k' : Sketch H} (hrow : k'.row = xs ++ (r ++ ys))
    (htop : k'.topUsed = lastUsed true (xs ++ (r ++ ys))) (hroom : k'.top < wordLimit)
    (hspan : ys = [] ∨ span r = span us) (hsized : Sized r) (hflag : Flagged (lastUsed true xs) r)
    (hlast : ys = [] ∨ lastUsed (lastUsed true xs) r = v) (hmerged : Merged r)
    (hlists : ∀ b y, y ∈ k'.lists b ↔ y ∈ k.lists b ∨
      ∃ n, (y, n) ∈ Row.sites false (prologueSize + span xs) r ∧ bucketFor n = b)
    (hnodup : ∀ b, (k'.lists b).Nodup) : k'.Settled := by
  obtain ⟨hzx, hzu, hzy⟩ := hk.sized
  have hend : Row.sites false (prologueSize + span xs + span us) ys =
      Row.sites false (prologueSize + span xs + span r) ys := by
    rcases hspan with rfl | hspan
    · rfl
    · rw [hspan]
  have hlisted : ∀ b y, y ∈ k'.lists b ↔ ∃ n, (y, n) ∈ k'.sites false ∧ bucketFor n = b := by
    intro b y
    rw [hlists, hk.listed, Sketch.sites, hrow, hend]
    simp only [sites_append, List.mem_append]
    constructor
    · rintro (⟨n, hn, hb⟩ | ⟨n, hn, hb⟩)
      · exact ⟨n, hn.imp_right .inr, hb⟩
      · exact ⟨n, .inr (.inl hn), hb⟩
    · rintro ⟨n, hn | hn | hn, hb⟩
      · exact .inl ⟨n, .inl hn, hb⟩
      · exact .inr ⟨n, hn, hb⟩
      · exact .inl ⟨n, .inr hn, hb⟩
  have hright : Flagged (lastUsed (lastUsed true xs) r) ys := by
    rcases hlast with rfl | hlast
    · trivial
    · rw [hlast]; exact hk.right
  refine ⟨⟨?_, hroom, fun {b y} hy => (hlisted b y).mp hy, hnodup⟩, ?_, ?_, ?_, ?_⟩
  · rw [hrow]
    exact sized_append.mpr ⟨hzx, sized_append.mpr ⟨hsized, hzy⟩⟩
  · rw [hrow]
    exact flagged_append.mpr ⟨hk.left, flagged_append.mpr ⟨hflag, hright⟩⟩
  · rw [hrow]
    exact merged_append.mpr ⟨hk.leftMerged, merged_append.mpr ⟨hmerged, hk.rightMerged⟩⟩
  · intro x n hn
    exact (hlisted _ x).mpr ⟨n, hn, rfl⟩
  · rw [htop, hrow]

end Hole

theorem Settled.congr (hk : k.Settled) {k' : Sketch H} (hrow : k'.row = k.row)
    (hlists : k'.lists = k.lists) (htop : k'.topUsed = k.topUsed) : k'.Settled := by
  obtain ⟨h1, h2, h3, h4, h5⟩ := hk
  refine ⟨h1.congr hrow hlists, hrow ▸ h2, hrow ▸ h3, ?_, htop.trans (hrow ▸ h5)⟩
  intro x n hx
  rw [hlists]
  exact h4 (by rwa [sites, hrow] at hx)

theorem Settled.count (hk : k.Settled) (c : Counter) : (k.count c).Settled :=
  hk.congr rfl rfl rfl

theorem Valid.charged [Host H] (hk : k.Valid) : k.Charged := ⟨hk.settled, hk.inUse⟩

theorem Charged.valid [Host H] (hk : k.Charged) (hb : k.top ≤ Host.committed k.host) : k.Valid :=
  ⟨hk.settled, hk.inUse, hb⟩

def rehost {H' : Type} (k : Sketch H) (host : H') : Sketch H' :=
  ⟨host, k.row, k.lists, k.topUsed, k.config, k.stats⟩

theorem Charged.rehost {H' : Type} (hk : k.Charged) (host : H') : (k.rehost host).Charged := by
  obtain ⟨⟨⟨h1, h2, h3, h4⟩, h5, h6, h7, h8⟩, h9⟩ := hk
  exact ⟨⟨⟨h1, h2, h3, h4⟩, h5, h6, h7, h8⟩, h9⟩

theorem Charged.count (hk : k.Charged) (c : Counter) : (k.count c).Charged where
  settled := hk.settled.count c
  inUse := by
    rw [stats_count, Stats.bump_bytesInUse]
    exact hk.inUse

theorem Valid.count [Host H] (hk : k.Valid) (c : Counter) : (k.count c).Valid :=
  (hk.charged.count c).valid hk.backed

end Sketch

end SegregatedFit
