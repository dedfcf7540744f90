import Mathlib
import SegregatedFit.Proofs.Layouts
import SegregatedFit.Proofs.Promises

/-!
Coalescing. A free finds the neighbours of its block by the tags next to it. It comes to the same as a
look at the whole heap: the block is marked free, the longest run of free blocks that it is in becomes
one free block, and that block is dropped if the heap ends with it.
-/
namespace SegregatedFit

open Row

namespace Row

variable {off x : Nat} {t : Tag} {ts xs fs gs ys : Row}

def offsets (off : Nat) (ts : Row) : List Nat := (located off ts).map Prod.fst

theorem offsets_append (off : Nat) (xs ys : Row) :
    offsets off (xs ++ ys) = offsets off xs ++ offsets (off + span xs) ys := by
  rw [offsets, located_append, List.map_append]
  rfl

theorem offsets_cons : offsets off (t :: ts) = off :: offsets (off + t.size) ts := rfl

@[simp] theorem length_located (off : Nat) (ts : Row) : (located off ts).length = ts.length := by
  induction ts generalizing off with
  | nil => rfl
  | cons t ts ih => rw [located, List.length_cons, ih, List.length_cons]

@[simp] theorem length_offsets (off : Nat) (ts : Row) : (offsets off ts).length = ts.length := by
  rw [offsets, List.length_map, length_located]

theorem sum_sizes_located (off : Nat) (ts : Row) : ((located off ts).map (·.2.size)).sum = span ts := by
  induction ts generalizing off with
  | nil => rfl
  | cons t ts ih => rw [located, List.map_cons, List.sum_cons, ih, span_cons]

theorem Flagged.settle_eq {p : Bool} (h : Flagged p ts) : Row.settle p ts = ts := by
  cases ts with
  | nil => rfl
  | cons t ts =>
    obtain ⟨rfl, -⟩ := h
    rfl

theorem Sized.pairwise_located (h : Sized ts) (off : Nat) :
    (located off ts).Pairwise (·.1 < ·.1) := by
  induction ts generalizing off with
  | nil => exact List.Pairwise.nil
  | cons t ts ih =>
    rw [sized_cons] at h
    have ht := h.1.1
    simp only [minBlock, wordSize] at ht
    refine List.pairwise_cons.mpr ⟨fun q hq => ?_, ih h.2 _⟩
    have := (located_bounds (x := q.1) (t := q.2) hq).1
    omega

@[simp] theorem isEmpty_located (off : Nat) (ts : Row) : (located off ts).isEmpty = ts.isEmpty := by
  cases ts <;> rfl

theorem mem_of_located {q : Nat × Tag} (h : q ∈ located off ts) : q.2 ∈ ts := by
  obtain ⟨x, t⟩ := q
  obtain ⟨us, vs, rfl, -⟩ := mem_located_iff.mp h
  simp

theorem head?_located (off : Nat) (ts : Row) :
    (located off ts).head? = ts.head?.map fun t => (off, t) := by
  cases ts <;> rfl

theorem getLast?_located_used (h : lastUsed true ts = true) :
    ∀ q ∈ (located off ts).getLast?, q.2.used = true := by
  rcases List.eq_nil_or_concat' ts with rfl | ⟨us, t, rfl⟩
  · simp [located]
  · rw [lastUsed_append] at h
    have ht : t.used = true := h
    simp [located_append, located, ht]

theorem located_eq_append {A B : List (Nat × Tag)} (h : located off ts = A ++ B) :
    ∃ xs ys, ts = xs ++ ys ∧ A = located off xs ∧ B = located (off + span xs) ys := by
  induction A generalizing off ts with
  | nil => exact ⟨[], ts, rfl, rfl, h.symm⟩
  | cons q A ih =>
    cases ts with
    | nil => cases h
    | cons t ts =>
      obtain ⟨rfl, hrest⟩ := List.cons.inj h
      obtain ⟨xs, ys, rfl, rfl, rfl⟩ := ih hrest
      exact ⟨t :: xs, ys, rfl, rfl, by rw [span_cons, Nat.add_assoc]⟩

theorem located_eq_cons {q : Nat × Tag} {B : List (Nat × Tag)} (h : located off ts = q :: B) :
    ∃ t ys, ts = t :: ys ∧ q = (off, t) ∧ B = located (off + t.size) ys := by
  cases ts with
  | nil => cases h
  | cons t ys =>
    obtain ⟨rfl, rfl⟩ := List.cons.inj h
    exact ⟨t, ys, rfl, rfl, rfl⟩

/-- A row around one of its blocks: the free blocks next to it, one on each side at most, and the rest
of the row, which is used where it is next to these. -/
structure Basin (ts xs fs : Row) (t : Tag) (gs ys : Row) : Prop where
  row : ts = (xs ++ fs) ++ t :: (gs ++ ys)
  left : fs = [] ∨ ∃ f, fs = [f] ∧ f.used = false
  right : gs = [] ∨ ∃ g, gs = [g] ∧ g.used = false
  before : lastUsed true xs = true
  after : ∀ u ∈ ys.head?, u.used = true

end Row

namespace Layout

variable {q : Nat × Tag} {x : Nat} {blocks : List (Nat × Tag)}

def vacate (x : Nat) (blocks : List (Nat × Tag)) : List (Nat × Tag) :=
  blocks.map fun q => if q.1 = x then (q.1, { q.2 with used := false }) else q

structure Parts where
  before : List (Nat × Tag)
  run : List (Nat × Tag)
  after : List (Nat × Tag)

/-- The free blocks down from `x` and up from `x` as far as they go, and what is before and after. -/
def parts (x : Nat) (blocks : List (Nat × Tag)) : Parts :=
  let low := blocks.takeWhile fun q => q.1 < x
  let high := blocks.dropWhile fun q => q.1 < x
  ⟨low.rdropWhile fun q => !q.2.used,
    (low.rtakeWhile fun q => !q.2.used) ++ (high.takeWhile fun q => !q.2.used),
    high.dropWhile fun q => !q.2.used⟩

/-- The run is made of free blocks and has the block at `x`, and no free block is next to it. -/
structure Parts.Maximal (p : Parts) (x : Nat) (blocks : List (Nat × Tag)) : Prop where
  blocks_eq : blocks = p.before ++ p.run ++ p.after
  mem : ∃ t, (x, t) ∈ p.run
  free : ∀ q ∈ p.run, q.2.used = false
  left : ∀ q ∈ p.before.getLast?, q.2.used = true
  right : ∀ q ∈ p.after.head?, q.2.used = true

namespace Parts

variable (p : Parts)

def offsets : List Nat := p.run.map Prod.fst

def size : Nat := (p.run.map (·.2.size)).sum

end Parts

/-- The run is replaced by one free block. At the top that block is dropped, and the heap ends where the
run started. Elsewhere it comes to the front of the bucket of its size, and the block after it is told
that it is free. -/
def replace (l : Layout) (p : Parts) : Layout :=
  match p.run with
  | [] => l
  | (start, t) :: _ =>
    if start + p.size = l.top then ⟨start, p.before, discard l.buckets p.offsets, true⟩
    else ⟨l.top, p.before ++ (start, ⟨p.size, false, t.prevUsed⟩) :: settle false p.after,
      enlist (discard l.buckets p.offsets) start p.size, l.topUsed⟩

/-- The block at `x` is marked free, and the longest run of free blocks that it is in is replaced by one
free block. -/
def coalesce (l : Layout) (x : Nat) : Layout := l.replace (parts x (vacate x l.blocks))

theorem replace_of_run {l : Layout} {p : Parts} {start : Nat} {t : Tag} {rest : List (Nat × Tag)}
    (h : p.run = (start, t) :: rest) : l.replace p =
      if start + p.size = l.top then ⟨start, p.before, discard l.buckets p.offsets, true⟩
      else ⟨l.top, p.before ++ (start, ⟨p.size, false, t.prevUsed⟩) :: settle false p.after,
        enlist (discard l.buckets p.offsets) start p.size, l.topUsed⟩ := by
  unfold replace
  rw [h]

theorem vacate_eq_self (h : ∀ q ∈ blocks, q.1 ≠ x) : vacate x blocks = blocks :=
  (List.map_congr_left fun q hq => if_neg (h q hq)).trans (List.map_id' _)

theorem vacate_located {off : Nat} {t : Tag} {us vs : Row} (hz : Sized (us ++ t :: vs)) :
    vacate (off + span us) (located off (us ++ t :: vs)) =
      located off (us ++ { t with used := false } :: vs) := by
  have hs := hz.pairwise_located off
  simp only [located_append, located] at hs ⊢
  obtain ⟨-, hright, hleft⟩ := List.pairwise_append.mp hs
  have hleft' : vacate (off + span us) (located off us) = located off us :=
    vacate_eq_self fun q hq => Nat.ne_of_lt (hleft q hq _ List.mem_cons_self)
  have hright' : vacate (off + span us) (located (off + span us + t.size) vs) =
      located (off + span us + t.size) vs :=
    vacate_eq_self fun q hq => Nat.ne_of_gt ((List.pairwise_cons.mp hright).1 q hq)
  rw [vacate] at hleft' hright' ⊢
  rw [List.map_append, List.map_cons, hleft', hright', if_pos rfl]

theorem dropWhile_eq_self (h : ∀ q ∈ blocks.head?, q.2.used = true) :
    blocks.dropWhile (fun q => !q.2.used) = blocks := by
  cases blocks with
  | nil => rfl
  | cons q qs => exact List.dropWhile_cons_of_neg (by simp [h q (by simp)])

theorem takeWhile_eq_nil (h : ∀ q ∈ blocks.head?, q.2.used = true) :
    blocks.takeWhile (fun q => !q.2.used) = [] := by
  cases blocks with
  | nil => rfl
  | cons q qs => exact List.takeWhile_cons_of_neg (by simp [h q (by simp)])

theorem map_fst_vacate (x : Nat) (blocks : List (Nat × Tag)) :
    (vacate x blocks).map Prod.fst = blocks.map Prod.fst := by
  rw [vacate, List.map_map]
  refine List.map_congr_left fun q _ => ?_
  simp only [Function.comp_apply]
  split <;> rfl

theorem pairwise_vacate (h : blocks.Pairwise (·.1 < ·.1)) (x : Nat) :
    (vacate x blocks).Pairwise (·.1 < ·.1) := by
  rw [← List.pairwise_map (f := Prod.fst) (R := (· < ·))] at h ⊢
  rwa [map_fst_vacate]

theorem Parts.Maximal.eq {p : Parts} (hp : p.Maximal x blocks) (hs : blocks.Pairwise (·.1 < ·.1)) :
    p = parts x blocks := by
  obtain ⟨before, run, after⟩ := p
  obtain ⟨he, ⟨t, ht⟩, hfree, hleft, hright⟩ := hp
  dsimp only at he ht hfree hleft hright
  -- the run is free on both sides of `x`, up to blocks that are used
  obtain ⟨us, vs, rfl⟩ := List.append_of_mem ht
  have hfree' : ∀ q ∈ us ++ (x, t) :: vs, (!q.2.used) = true := fun q hq => by simp [hfree q hq]
  have hcut : blocks = (before ++ us) ++ ((x, t) :: vs ++ after) := by
    rw [he]
    simp only [List.append_assoc, List.cons_append]
  have hlow : ∀ q ∈ before ++ us, decide (q.1 < x) = true := by
    rw [hcut] at hs
    exact fun q hq => decide_eq_true ((List.pairwise_append.mp hs).2.2 q hq (x, t) (by simp))
  have htake : blocks.takeWhile (fun q => q.1 < x) = before ++ us := by
    rw [hcut, List.takeWhile_append_of_pos hlow, List.cons_append,
      List.takeWhile_cons_of_neg (by simp), List.append_nil]
  have hdrop : blocks.dropWhile (fun q => q.1 < x) = (x, t) :: vs ++ after := by
    rw [hcut, List.dropWhile_append_of_pos hlow, List.cons_append,
      List.dropWhile_cons_of_neg (by simp)]
  have hus : ∀ q ∈ us.reverse, (!q.2.used) = true := by
    intro q hq
    exact hfree' q (by simp [List.mem_reverse.mp hq])
  have hvs : ∀ q ∈ (x, t) :: vs, (!q.2.used) = true := fun q hq => hfree' q (by
    exact List.mem_append_right _ hq)
  have hrev : ∀ q ∈ before.reverse.head?, q.2.used = true := by
    rw [List.head?_reverse]
    exact hleft
  have hrdrop : (before ++ us).rdropWhile (fun q => !q.2.used) = before := by
    rw [List.rdropWhile, List.reverse_append, List.dropWhile_append_of_pos hus, dropWhile_eq_self hrev,
      List.reverse_reverse]
  have hrtake : (before ++ us).rtakeWhile (fun q => !q.2.used) = us := by
    rw [List.rtakeWhile, List.reverse_append, List.takeWhile_append_of_pos hus, takeWhile_eq_nil hrev,
      List.append_nil, List.reverse_reverse]
  rw [parts, htake, hdrop, hrdrop, hrtake, List.takeWhile_append_of_pos hvs,
    List.dropWhile_append_of_pos hvs, takeWhile_eq_nil hright, dropWhile_eq_self hright, List.append_nil]

end Layout

namespace Sketch

variable {H : Type} {k : Sketch H} {n x y : Nat} {run : Heap.Run} {t g : Tag} {us xs fs gs ys : Row}
  {offs offs' : List Nat}

def absorb (k : Sketch H) (offs : List Nat) : Sketch H :=
  { k with
    lists := Layout.discard k.lists offs
    stats := { k.stats with coalesces := k.stats.coalesces + offs.length } }

@[simp] theorem absorb_nil (k : Sketch H) : k.absorb [] = k := by
  simp [absorb]

theorem absorb_absorb (k : Sketch H) (offs offs' : List Nat) :
    (k.absorb offs).absorb offs' = k.absorb (offs ++ offs') := by
  simp only [absorb, Layout.discard_discard, List.length_append, Nat.add_assoc]

theorem Tidy.discard_singleton (hk : k.Tidy) (x : Nat) :
    Layout.discard k.lists [x] = (k.unlist x).lists := by
  funext b
  refine Eq.trans ?_ ((hk.nodup b).erase_eq_filter x).symm
  exact List.filter_congr fun y _ => by simp [bne, Bool.beq_eq_decide_eq]

theorem Tidy.absorb_singleton (hk : k.Tidy) (x : Nat) :
    k.absorb [x] = (k.unlist x).count .coalesces := by
  rw [absorb, hk.discard_singleton]
  rfl

theorem Tidy.absorb (hk : k.Tidy) (offs : List Nat) : (k.absorb offs).Tidy where
  sized := hk.sized
  room := hk.room
  listed h := hk.listed (List.mem_filter.mp h).1
  nodup b := (hk.nodup b).filter _

theorem Settled.basin (hk : k.Settled) (hx : (x, n) ∈ k.sites true) :
    ∃ xs fs t gs ys, Basin k.row xs fs t gs ys ∧ x = prologueSize + span (xs ++ fs) ∧
      t.used = true ∧ t.size = n := by
  obtain ⟨t, ht, hu, rfl⟩ := mem_sites_iff.mp hx
  obtain ⟨us, vs, hrow, hx⟩ := mem_located_iff.mp ht
  obtain ⟨xs, fs, rfl, hleft, hbefore⟩ : ∃ xs fs, us = xs ++ fs ∧
      (fs = [] ∨ ∃ f, fs = [f] ∧ f.used = false) ∧ lastUsed true xs = true := by
    cases hl : lastUsed true us with
    | true => exact ⟨us, [], (List.append_nil _).symm, .inl rfl, hl⟩
    | false =>
      obtain ⟨xs, f, rfl, hf, -, hb⟩ := (hk.hole hrow).prev_of_false hl
      exact ⟨xs, [f], rfl, .inr ⟨f, rfl, hf⟩, hb⟩
  obtain ⟨gs, ys, rfl, hright, hafter⟩ : ∃ gs ys, vs = gs ++ ys ∧
      (gs = [] ∨ ∃ g, gs = [g] ∧ g.used = false) ∧ ∀ u ∈ ys.head?, u.used = true := by
    have hh := hk.hole_used hrow hu
    cases vs with
    | nil => exact ⟨[], [], rfl, .inl rfl, by simp⟩
    | cons g vs =>
      cases hg : g.used with
      | true => exact ⟨[], g :: vs, rfl, .inl rfl, by simp [hg]⟩
      | false =>
        have hg' := hh.takeFree hg
        refine ⟨[g], vs, rfl, .inr ⟨g, rfl, hg⟩, ?_⟩
        cases vs with
        | nil => simp
        | cons u vs => simp [hg'.rightMerged.head_used hg'.right]
  exact ⟨xs, fs, t, gs, ys, ⟨hrow, hleft, hright, hbefore, hafter⟩, hx, hu, rfl⟩

theorem Tidy.basin_end_iff (hk : k.Tidy) (hb : Basin k.row xs fs t gs ys) :
    prologueSize + span xs + span (fs ++ t :: gs) = k.top ↔ ys = [] := by
  have hz := hk.sized
  rw [hb.row] at hz
  simp only [sized_append, sized_cons] at hz
  rw [top, hb.row, ← hz.2.2.2.span_eq_zero_iff]
  simp only [span_append, span_cons]
  omega

theorem Settled.mergePrev_eq (hk : k.Settled) (hb : Basin k.row xs fs t gs ys)
    (hx : x = prologueSize + span (xs ++ fs)) :
    k.mergePrev x t = (k.absorb (offsets (prologueSize + span xs) fs),
      ⟨prologueSize + span xs, span (fs ++ [t]), true⟩) := by
  have hp := hk.prevUsed_eq hb.row
  rcases hb.left with rfl | ⟨f, rfl, hf⟩
  · rw [mergePrev_used (by rw [hp, List.append_nil, hb.before]), hx]
    simp [offsets, located]
  · have hprev : f.prevUsed = true := by
      have hrow : k.row = xs ++ f :: t :: (gs ++ ys) := by rw [hb.row, List.append_assoc]; rfl
      rw [hk.prevUsed_eq hrow, hb.before]
    rw [lastUsed_append, hb.before] at hp
    rw [hk.tidy.mergePrev_free hb.row hx (hp.trans hf), ← hk.tidy.absorb_singleton, hprev]
    simp [offsets, located, Nat.add_comm]

theorem Tidy.mergeNext_eq (hk : k.Tidy) (hrow : k.row = us ++ (gs ++ ys))
    (hend : run.start + run.size = prologueSize + span us)
    (hright : gs = [] ∨ ∃ g, gs = [g] ∧ g.used = false) (hafter : ∀ u ∈ ys.head?, u.used = true)
    (htold : gs ≠ [] → Row.settle false ys = ys) :
    k.mergeNext run = ({ k.absorb (offsets (prologueSize + span us) gs) with
        row := us ++ (gs ++ Row.settle false ys) },
      { run with size := run.size + span gs }) := by
  rcases hright with rfl | ⟨g, rfl, hg⟩
  · cases ys with
    | nil =>
      rw [List.append_nil, List.append_nil] at hrow
      rw [hk.mergeNext_nil hrow hend]
      simp [offsets, located, Row.settle, ← hrow]
    | cons u ys =>
      rw [hk.mergeNext_used hrow hend (hafter u (by simp))]
      simp [offsets, located, Row.settle]
  · rw [hk.mergeNext_free hrow hend hg, hend, ← hk.absorb_singleton, htold (by simp), ← hrow]
    rfl

def fill (k : Sketch H) (xs us ys : Row) : Sketch H :=
  if ys = [] then
    (({ k with row := xs, topUsed := true }).count .heapShrinks).recordHeapSize
  else
    { k with row := xs ++ (⟨span us, false, true⟩ : Tag) :: Row.settle false ys }.enlist
      (prologueSize + span xs) (span us)

theorem settleRun_eq_fill (hzx : Sized xs) (hzu : Sized us) (hzy : Sized ys)
    (hrow : k.row = xs ++ (us ++ Row.settle false ys)) :
    k.settleRun ⟨prologueSize + span xs, span us, true⟩ = k.fill xs us ys := by
  have htop : prologueSize + span xs + span us = k.top ↔ ys = [] := by
    rw [top, hrow, ← hzy.span_eq_zero_iff]
    simp only [span_append, span_settle]
    omega
  have hstart : k.cut (prologueSize + span xs) = (xs, us ++ Row.settle false ys) := by
    rw [cut, hrow, hzx.cut_append]
  have hend : k.cut (prologueSize + span xs + span us) = (xs ++ us, Row.settle false ys) := by
    rw [cut, hrow, ← List.append_assoc, Nat.add_assoc, ← span_append,
      (sized_append.mpr ⟨hzx, hzu⟩).cut_append]
  unfold settleRun fill
  split
  · next h =>
    rw [if_pos (htop.mp h), release, hstart]
  · next h =>
    rw [if_neg fun hys => h (htop.mpr hys), list, hstart, hend]

theorem Settled.merge_basin (hk : k.Settled) (hb : Basin k.row xs fs t gs ys)
    (hx : x = prologueSize + span (xs ++ fs)) :
    ((k.discharge t.size).mergePrev x t).1.mergeNext ((k.discharge t.size).mergePrev x t).2 =
      ({ (k.discharge t.size).absorb (offsets (prologueSize + span xs) fs ++
          offsets (prologueSize + span (xs ++ fs ++ [t])) gs) with
        row := (xs ++ fs ++ [t]) ++ (gs ++ Row.settle false ys) },
      ⟨prologueSize + span xs, span (fs ++ t :: gs), true⟩) := by
  have hd : (k.discharge t.size).Settled := hk.congr rfl rfl rfl
  have hrow : (k.discharge t.size).row = (xs ++ fs ++ [t]) ++ (gs ++ ys) := by
    rw [row_discharge, hb.row, List.append_assoc (xs ++ fs)]
    rfl
  have htold : gs ≠ [] → Row.settle false ys = ys := by
    intro hgs
    obtain ⟨g, rfl, hg⟩ := hb.right.resolve_left hgs
    have hf := hk.flagged
    rw [hb.row, flagged_append] at hf
    have hys : Flagged g.used ys := hf.2.2.2
    rw [hg] at hys
    exact hys.settle_eq
  let run : Heap.Run := ⟨prologueSize + span xs, span (fs ++ [t]), true⟩
  have hend : run.start + run.size = prologueSize + span (xs ++ fs ++ [t]) := by
    simp [run, Nat.add_assoc]
  have hspan : run.size + span gs = span (fs ++ t :: gs) := by
    simp [run, Nat.add_assoc]
  rw [hd.mergePrev_eq hb hx, (hd.tidy.absorb _).mergeNext_eq hrow hend hb.right hb.after htold,
    absorb_absorb, hspan]

theorem Settled.freeBlock_basin (hk : k.Settled) (hb : Basin k.row xs fs t gs ys)
    (hx : x = prologueSize + span (xs ++ fs)) :
    k.freeBlock x = ((k.discharge t.size).absorb (offsets (prologueSize + span xs) fs ++
      offsets (prologueSize + span (xs ++ fs ++ [t])) gs)).fill xs (fs ++ t :: gs) ys := by
  have hz := hk.tidy.sized
  rw [hb.row] at hz
  simp only [sized_append, sized_cons] at hz
  rw [hk.tidy.freeBlock_eq hb.row hx, hk.merge_basin hb hx]
  refine settleRun_eq_fill hz.1.1 ?_ hz.2.2.2 ?_
  · simp only [sized_append, sized_cons]
    exact ⟨hz.1.2, hz.2.1, hz.2.2.1⟩
  · simp only [List.append_assoc, List.cons_append, List.nil_append]

theorem layout_fill (k : Sketch H) (xs us ys : Row) :
    (k.fill xs us ys).layout =
      if ys = [] then ⟨prologueSize + span xs, located prologueSize xs, k.lists, true⟩
      else ⟨prologueSize + span (xs ++ (us ++ ys)),
        located prologueSize xs ++ (prologueSize + span xs, ⟨span us, false, true⟩) ::
          Layout.settle false (located (prologueSize + span xs + span us) ys),
        Layout.enlist k.lists (prologueSize + span xs) (span us), k.topUsed⟩ := by
  unfold fill
  split
  · rfl
  · simp only [layout, top, blocks, row_enlist, located_append, located, Layout.located_settle,
      span_append, span_cons, span_settle]
    rfl

theorem Settled.maximal (hk : k.Settled) (hb : Basin k.row xs fs t gs ys)
    (hx : x = prologueSize + span (xs ++ fs)) :
    (Layout.Parts.mk (located prologueSize xs)
      (located (prologueSize + span xs) (fs ++ { t with used := false } :: gs))
      (located (prologueSize + span xs + span (fs ++ t :: gs)) ys)).Maximal x
        (Layout.vacate x k.blocks) := by
  have hz := hk.tidy.sized
  rw [hb.row] at hz
  constructor
  case blocks_eq =>
    rw [hx, blocks, hb.row, Layout.vacate_located hz]
    simp only [located_append, located, span_append, span_cons, List.append_assoc, List.cons_append,
      Nat.add_assoc]
  case mem =>
    refine ⟨{ t with used := false }, mem_located_iff.mpr ⟨fs, gs, rfl, ?_⟩⟩
    rw [hx, span_append, Nat.add_assoc]
  case free =>
    intro q hq
    have hleft : ∀ f ∈ fs, f.used = false := by
      rcases hb.left with rfl | ⟨f, rfl, hf⟩ <;> simp [*]
    have hright : ∀ g ∈ gs, g.used = false := by
      rcases hb.right with rfl | ⟨g, rfl, hg⟩ <;> simp [*]
    rcases List.mem_append.mp (mem_of_located hq) with hm | hm
    · exact hleft _ hm
    · rcases List.mem_cons.mp hm with he | hm
      · rw [he]
      · exact hright _ hm
  case left => exact getLast?_located_used hb.before
  case right =>
    intro q hq
    rw [head?_located] at hq
    obtain ⟨u, hu, rfl⟩ := Option.mem_map.mp hq
    exact hb.after u hu

theorem Settled.parts_eq (hk : k.Settled) (hb : Basin k.row xs fs t gs ys)
    (hx : x = prologueSize + span (xs ++ fs)) :
    Layout.parts x (Layout.vacate x k.blocks) = ⟨located prologueSize xs,
      located (prologueSize + span xs) (fs ++ { t with used := false } :: gs),
      located (prologueSize + span xs + span (fs ++ t :: gs)) ys⟩ :=
  ((hk.maximal hb hx).eq (Layout.pairwise_vacate (hk.tidy.sized.pairwise_located _) x)).symm

theorem Settled.discard_eq (hk : k.Settled) (hx : (x, n) ∈ k.sites true) (offs offs' : List Nat) :
    Layout.discard k.lists (offs ++ x :: offs') = Layout.discard k.lists (offs ++ offs') := by
  obtain ⟨t, ht, hu, -⟩ := mem_sites_iff.mp hx
  funext b
  refine List.filter_congr fun y hy => ?_
  have hne : y ≠ x := fun he => hk.tidy.unlisted ht hu b (he ▸ hy)
  simp [hne]

theorem Settled.first_prevUsed (hk : k.Settled) (hb : Basin k.row xs fs t gs ys) :
    ∃ u us, fs ++ { t with used := false } :: gs = u :: us ∧ u.prevUsed = true := by
  rcases hb.left with rfl | ⟨f, rfl, -⟩
  · refine ⟨_, _, rfl, ?_⟩
    have hrow : k.row = xs ++ t :: (gs ++ ys) := by rw [hb.row, List.append_nil]
    have hp : t.prevUsed = lastUsed true xs := hk.prevUsed_eq hrow
    exact hp.trans hb.before
  · refine ⟨_, _, rfl, ?_⟩
    have hrow : k.row = xs ++ f :: t :: (gs ++ ys) := by rw [hb.row, List.append_assoc]; rfl
    exact (hk.prevUsed_eq hrow).trans hb.before

/-- A free and a look at the whole heap come to the same layout. -/
theorem Settled.layout_freeBlock (hk : k.Settled) (hx : (x, n) ∈ k.sites true) :
    (k.freeBlock x).layout = k.layout.coalesce x := by
  obtain ⟨xs, fs, t, gs, ys, hb, hx', ht, rfl⟩ := hk.basin hx
  obtain ⟨u, us, hus, hu⟩ := hk.first_prevUsed hb
  have hparts := hk.parts_eq hb hx'
  set p := Layout.parts x (Layout.vacate x k.blocks) with hp
  have hrun : p.run = (prologueSize + span xs, u) :: located (prologueSize + span xs + u.size) us := by
    rw [hparts]
    change located _ _ = _
    rw [hus]
    rfl
  have hsize : p.size = span (fs ++ t :: gs) := by
    rw [Layout.Parts.size, hparts]
    simp [sum_sizes_located]
  have hoffs : p.offsets = Row.offsets (prologueSize + span xs) fs ++
      x :: Row.offsets (prologueSize + span (xs ++ fs ++ [t])) gs := by
    rw [Layout.Parts.offsets, hparts]
    change Row.offsets _ _ = _
    rw [offsets_append, offsets_cons, hx']
    simp [Nat.add_assoc]
  have hend : prologueSize + span xs + p.size = k.layout.top ↔ ys = [] :=
    hsize ▸ hk.tidy.basin_end_iff hb
  rw [hk.freeBlock_basin hb hx', layout_fill, Layout.coalesce]
  change _ = k.layout.replace p
  rw [Layout.replace_of_run hrun, if_congr hend rfl rfl, hoffs, hu]
  change (if _ then Layout.mk _ _ (Layout.discard k.lists _) _ else Layout.mk _ _ _ _) = _
  have htop : prologueSize + span (xs ++ (fs ++ t :: gs ++ ys)) = k.top := by
    rw [top, hb.row]
    simp only [List.append_assoc, List.cons_append]
  rw [layout, hk.discard_eq hx, hsize, hparts, htop]
  rfl

theorem coalesces_fill (k : Sketch H) (xs us ys : Row) :
    (k.fill xs us ys).stats.coalesces = k.stats.coalesces := by
  unfold fill
  split <;> simp [Stats.bump, Stats.recordHeapSize]

theorem Settled.coalesces_freeBlock (hk : k.Settled) (hx : (x, n) ∈ k.sites true) :
    (k.freeBlock x).stats.coalesces + 1 =
      k.stats.coalesces + (Layout.parts x (Layout.vacate x k.blocks)).run.length := by
  obtain ⟨xs, fs, t, gs, ys, hb, hx', -, -⟩ := hk.basin hx
  rw [hk.freeBlock_basin hb hx', coalesces_fill, hk.parts_eq hb hx']
  change k.stats.coalesces + List.length _ + 1 = k.stats.coalesces + List.length _
  simp only [List.length_append, length_offsets, length_located, List.length_cons]
  omega

end Sketch

namespace Session

variable {H : Type} [Host H] {s : Session H} {ptr : Nat}

open Layout

/-- A free comes to the same as a look at the whole heap: the block is marked free, and the longest run
of free blocks that it is in becomes one, or is dropped at the top. The other blocks of the run are
merged, and the bytes of the block are in use no more. -/
theorem step_free_coalesces [LawfulHost H] (hs : s.Reachable) (hp : ptr ∈ s.live.pointers) :
    ∃ x n, ptr = x + headerSize ∧ s.heap.blockSize ptr = .ok n ∧
      (parts x (vacate x s.heap.blocks)).Maximal x (vacate x s.heap.blocks) ∧
      s.Ends (.free ptr)
        (Pi.single .coalesces ((parts x (vacate x s.heap.blocks)).run.length - 1) +
          Pi.single .heapShrinks 1 + Pi.single .frees 1)
        fun a s' => a = .ok none ∧ s'.heap.layout = s.heap.layout.coalesce x ∧
          s'.heap.stats.coalesces + 1 =
            s.heap.stats.coalesces + (parts x (vacate x s.heap.blocks)).run.length ∧
          s'.heap.stats.bytesInUse + n = s.heap.stats.bytesInUse := by
  obtain ⟨cs, hr⟩ := hs
  obtain ⟨k, hf⟩ := hr.follows
  obtain ⟨x, n, hx, rfl⟩ := hf.site hp
  have hk := hf.valid.settled
  have hfree : (k.perform (.free (x + headerSize))).2 = (k.freeBlock x).count .frees := by
    change k.free (x + headerSize) = _
    rw [Sketch.free, Nat.add_sub_cancel]
  have hmerged := hk.coalesces_freeBlock hx
  refine ⟨x, n, rfl, hf.shows.blockSize_payload hx, ?_, hf.ends hp ?_ ?_⟩
  · obtain ⟨xs, fs, t, gs, ys, hb, hx', -, -⟩ := hk.basin hx
    rw [hf.shows.blocks_eq, hk.parts_eq hb hx']
    exact hk.maximal hb hx'
  · intro d
    have hrise := (Sketch.freeBlock_rise k x d).2
    rw [hfree, Sketch.stats_count, Stats.get_bump, hf.shows.blocks_eq]
    cases d <;> simp [Sketch.freeRise, Stats.get] at hrise ⊢ <;> omega
  · intro s' _ hf'
    have hs' := hf'.shows
    rw [hfree] at hs'
    refine ⟨rfl, ?_, ?_, ?_⟩
    · rw [hs'.layout_eq, hf.shows.layout_eq]
      exact hk.layout_freeBlock hx
    · rw [hs'.stats, hf.shows.stats, hf.shows.blocks_eq]
      exact hmerged
    · have hin := hf.valid.charged.size_le hx
      obtain ⟨t, ht, -, rfl⟩ := mem_sites_iff.mp hx
      rw [hs'.stats, hf.shows.stats, Sketch.stats_count, Stats.bump_bytesInUse,
        Sketch.bytesInUse_freeBlock hk.tidy ht, Nat.sub_add_cancel hin]

theorem step_free_coalesces_allocate :
    ∃ s s' : Session Reserve, Run [.allocate 24] s ∧ s.step (.free 448) = .ok (.ok none, s') ∧
      s'.heap.layout = s.heap.layout.coalesce 440 ∧ s'.heap.layout.top = 440 ∧
      s'.heap.stats.coalesces = s.heap.stats.coalesces + 1 := by
  obtain ⟨s, hr, hf⟩ := exists_run_allocate
  have hadm : ((Sketch.empty (Reserve.full 4096) .checked).perform (.allocate 24)).2.Admits
      (.free 448) := ⟨440, 32, by decide, rfl⟩
  obtain ⟨s', hstep, -, -⟩ := hf.advance hr hadm (by decide) (by decide)
  obtain ⟨x, n, hx, -, -, hfree⟩ := step_free_coalesces ⟨_, hr⟩ (hf.allows hadm)
  obtain rfl : x = 440 := (Nat.add_right_cancel (m := headerSize) hx).symm
  obtain ⟨-, hlayout, hmerged, -⟩ := hfree.of_ok hstep
  refine ⟨s, s', hr, hstep, hlayout, ?_, ?_⟩
  · rw [hlayout, hf.shows.layout_eq]
    decide
  · rw [hf.shows.blocks_eq] at hmerged
    exact Nat.add_right_cancel hmerged

end Session

end SegregatedFit
