import Mathlib
import SegregatedFit.Proofs.Fitting
import SegregatedFit.Proofs.Reordering

/-!
Merged space is reused first. Used blocks side by side, with used blocks or the start of the heap around
them, are walled off from the rest: whatever order they are freed in, no list changes but for entries
between the walls. In the end one free block is there, first in its list, and the next request for
as many bytes takes it as it is.
-/
namespace SegregatedFit

open Row

namespace Row

variable {off x n : Nat} {t : Tag} {ts : Row}

theorem lastUsed_of_getLast? (h : ∀ q ∈ (located off ts).getLast?, q.2.used = true) :
    lastUsed true ts = true := by
  rcases List.eq_nil_or_concat' ts with rfl | ⟨us, t, rfl⟩
  · rfl
  · rw [lastUsed_append]
    exact h (off + span us, t) (by simp [located_append, located])

theorem Sized.offsets_bounds (hz : Sized ts) (h : x ∈ offsets off ts) :
    off ≤ x ∧ x < off + span ts := by
  obtain ⟨⟨y, t⟩, ht, rfl⟩ := List.mem_map.mp h
  have hb := located_bounds ht
  have hmin := (hz.of_located ht).1
  simp only [minBlock, wordSize] at hmin
  dsimp only
  omega

theorem sites_eq_nil (h : ∀ t ∈ ts, t.used = true) (off : Nat) : sites false off ts = [] := by
  refine List.eq_nil_iff_forall_not_mem.mpr fun ⟨x, n⟩ hq => ?_
  obtain ⟨t, ht, hu, -⟩ := mem_sites_iff.mp hq
  rw [h t (mem_of_located ht)] at hu
  cases hu

theorem lastUsed_of_used (h : ∀ t ∈ ts, t.used = true) : lastUsed true ts = true := by
  rcases List.eq_nil_or_concat' ts with rfl | ⟨us, t, rfl⟩
  · rfl
  · rw [lastUsed_append]
    exact h t (by simp)

/-- A row around used blocks that lie side by side, with used blocks next to them. -/
structure Stretch (ts xs ms : Row) (u : Tag) (ys : Row) : Prop where
  row : ts = xs ++ (ms ++ u :: ys)
  used : ∀ t ∈ ms, t.used = true
  before : lastUsed true xs = true
  next : u.used = true

end Row

namespace Layout

variable {buckets : Fin bucketCount → List Nat} {offs : List Nat} {lo hi n x : Nat}

/-- The entries that are not between two offsets. -/
def outside (lo hi : Nat) (buckets : Fin bucketCount → List Nat) : Fin bucketCount → List Nat :=
  fun b => (buckets b).filter fun y => y < lo ∨ hi ≤ y

theorem outside_eq_self (h : ∀ b, ∀ y ∈ buckets b, y < lo ∨ hi ≤ y) :
    outside lo hi buckets = buckets :=
  funext fun b => List.filter_eq_self.mpr fun y hy => decide_eq_true (h b y hy)

theorem outside_discard (h : ∀ y ∈ offs, lo ≤ y ∧ y < hi) :
    outside lo hi (discard buckets offs) = outside lo hi buckets := by
  funext b
  rw [outside, discard, List.filter_filter, outside]
  refine List.filter_congr fun y _ => ?_
  by_cases hy : y < lo ∨ hi ≤ y
  · have hout : y ∉ offs := fun hm => by
      have := h y hm
      omega
    simp [hy, hout]
  · simp [hy]

theorem outside_enlist (h1 : lo ≤ x) (h2 : x < hi) (n : Nat) :
    outside lo hi (enlist buckets x n) = outside lo hi buckets := by
  funext b
  rw [outside, outside, enlist, Function.update_apply]
  split
  · next hb =>
    rw [List.filter_cons_of_neg, hb]
    simp only [decide_eq_true_eq]
    omega
  · rfl

theorem discard_enlist (h : ∀ b, x ∉ buckets b) (n : Nat) : discard (enlist buckets x n) [x] = buckets := by
  funext b
  have hself : (buckets b).filter (fun y => y ∉ [x]) = buckets b :=
    List.filter_eq_self.mpr fun y hy => by
      have hne : y ≠ x := fun he => h b (he ▸ hy)
      simp [hne]
  rw [discard, enlist, Function.update_apply]
  split
  · next hb =>
    rw [List.filter_cons_of_neg (by simp), ← hb]
    exact hself
  · exact hself

end Layout

namespace Sketch

variable {H : Type} {k k' k₀ : Sketch H} {lo hi n size x y : Nat} {ptrs rest : List Nat}
  {t u : Tag} {xs ms fs gs ys : Row}

/-- Between `lo` and `hi` there are whole blocks: a used block ends at `lo`, unless the heap starts there,
and one starts at `hi`. -/
structure Walled (k : Sketch H) (lo hi : Nat) : Prop where
  left : lo = prologueSize ∨ ∃ y m, (y, m) ∈ k.sites true ∧ y + m = lo
  right : ∃ m, (hi, m) ∈ k.sites true

theorem Walled.free_within (hw : k.Walled lo hi) (hk : k.Tidy) (hy : (y, n) ∈ k.sites false)
    (h1 : lo ≤ y + n) (h2 : y ≤ hi) : lo ≤ y ∧ y + n ≤ hi := by
  constructor
  · rcases hw.left with rfl | ⟨z, m, hz, rfl⟩
    · exact (hk.of_site hy).1
    · have hm := (hk.of_site hz).2.2.1
      simp only [minBlock, wordSize] at hm
      rcases sites_apart hz hy with ⟨-, -, hu⟩ | hle | hle
      · cases hu
      · exact hle
      · omega
  · obtain ⟨m, hm⟩ := hw.right
    have hpos := (hk.of_site hm).2.2.1
    simp only [minBlock, wordSize] at hpos
    rcases sites_apart hy hm with ⟨-, -, hu⟩ | hle | hle
    · cases hu
    · exact hle
    · omega

theorem Walled.freeBlock (hw : k.Walled lo hi) (hk : k.Charged) (hx : (x, n) ∈ k.sites true) (h1 : lo ≤ x)
    (h2 : x < hi) : (k.freeBlock x).Walled lo hi := by
  have hkeep : ∀ y m, (y, m) ∈ k.sites true → y ≠ x → (y, m) ∈ (k.freeBlock x).sites true := by
    intro y m hy hne
    rw [hk.sites_freeBlock hx]
    exact List.mem_filter.mpr ⟨hy, by simpa using hne⟩
  constructor
  · refine hw.left.imp_right fun ⟨y, m, hy, he⟩ => ⟨y, m, hkeep y m hy ?_, he⟩
    have hm := (hk.settled.tidy.of_site hy).2.2.1
    simp only [minBlock, wordSize] at hm
    omega
  · obtain ⟨m, hm⟩ := hw.right
    exact ⟨m, hkeep hi m hm (Nat.ne_of_gt h2)⟩

theorem Walled.basin (hw : k.Walled lo hi) (hk : k.Tidy) (hb : Basin k.row xs fs t gs ys)
    (ht : t.used = true) (hx : x = prologueSize + span (xs ++ fs)) (h1 : lo ≤ x) (h2 : x < hi) :
    lo ≤ prologueSize + span xs ∧ prologueSize + span xs + span (fs ++ t :: gs) ≤ hi ∧ ys ≠ [] := by
  have hsites (v : Bool) : k.sites v = Row.sites v prologueSize xs ++
      Row.sites v (prologueSize + span xs) fs ++ Row.sites v x (t :: gs) ++
        Row.sites v (x + t.size + span gs) ys := by
    rw [sites, hb.row, hx]
    simp only [sites_append, ← List.cons_append, span_append, span_cons, Nat.add_assoc, List.append_assoc]
  have hself : (x, t.size) ∈ k.sites true := by simp [hsites, sites_cons, ht]
  obtain ⟨m, hm⟩ := hw.right
  have hpos := (hk.of_site hm).2.2.1
  simp only [minBlock, wordSize] at hpos
  have hmid : x + t.size ≤ hi := by
    rcases sites_apart hself hm with he | hle | hle <;> omega
  simp only [span_append, span_cons] at hx ⊢
  have hleft : lo ≤ prologueSize + span xs := by
    rcases hb.left with rfl | ⟨f, rfl, hf⟩
    · rwa [hx, span_nil] at h1
    · have hprev : (prologueSize + span xs, f.size) ∈ k.sites false := by simp [hsites, sites_cons, hf]
      rw [span_cons, span_nil] at hx
      exact (hw.free_within hk hprev (by omega) (by omega)).1
  have hright : x + t.size + span gs ≤ hi := by
    rcases hb.right with rfl | ⟨g, rfl, hg⟩
    · exact hmid
    · have hnext : (x + t.size, g.size) ∈ k.sites false := by simp [hsites, sites_cons, ht, hg]
      exact (hw.free_within hk hnext (by omega) hmid).2
  refine ⟨hleft, by omega, ?_⟩
  -- the block at `hi` is after the basin
  rintro rfl
  have hlast := (hk.of_site hm).2.1
  have htop : k.top = x + t.size + span gs := by
    rw [top, hb.row, hx]
    simp only [span_append, span_cons, span_nil]
    omega
  omega

/-- The newest entry of some list is a free block between `lo` and `hi`. -/
def Topped (k : Sketch H) (lo hi : Nat) : Prop :=
  ∃ x n rest, lo ≤ x ∧ x + n ≤ hi ∧ (x, n) ∈ k.sites false ∧ k.lists (bucketFor n) = x :: rest

/-- What has changed since `k₀` is between the walls. -/
structure Spares (k₀ k : Sketch H) (lo hi : Nat) : Prop where
  charged : k.Charged
  walled : k.Walled lo hi
  lists : Layout.outside lo hi k.lists = Layout.outside lo hi k₀.lists
  top : k.top = k₀.top
  topUsed : k.topUsed = k₀.topUsed

theorem Charged.freeBlock_within (hk : k.Charged) (hw : k.Walled lo hi) (hx : (x, n) ∈ k.sites true)
    (h1 : lo ≤ x) (h2 : x < hi) : k.Spares (k.freeBlock x) lo hi ∧ (k.freeBlock x).Topped lo hi := by
  have htidy := hk.settled.tidy
  obtain ⟨xs, fs, t, gs, ys, hb, hx', ht, rfl⟩ := hk.settled.basin hx
  -- at its ends the stretch meets no free block: merging comes up to there, and no farther
  obtain ⟨hleft, hright, hys⟩ := hw.basin htidy hb ht hx' h1 h2
  have hsome := hk.settled.freeBlock_basin hb hx'
  rw [fill, if_neg hys] at hsome
  have hz := htidy.sized
  rw [hb.row] at hz
  have hzb : Sized fs ∧ Sized gs ∧ 0 < t.size := by
    simp only [sized_append, sized_cons, minBlock, wordSize] at hz
    exact ⟨hz.1.2, hz.2.2.1, by omega⟩
  have hspan : span (fs ++ t :: gs) = span fs + (t.size + span gs) := by
    simp only [span_append, span_cons]
  have hin : ∀ y ∈ offsets (prologueSize + span xs) fs ++
      offsets (prologueSize + span (xs ++ fs ++ [t])) gs, lo ≤ y ∧ y < hi := by
    intro y hy
    rcases List.mem_append.mp hy with hy | hy
    · have := hzb.1.offsets_bounds hy
      omega
    · have := hzb.2.1.offsets_bounds hy
      simp only [span_append, span_cons, span_nil] at this
      omega
  refine ⟨⟨(hk.freeBlock hx).1, hw.freeBlock hk hx h1 h2, ?_, ?_, ?_⟩, ?_⟩
  · rw [hsome]
    change Layout.outside lo hi (Layout.enlist (Layout.discard k.lists _) _ _) = _
    rw [Layout.outside_enlist hleft (by omega), Layout.outside_discard hin]
  · rw [hsome, top, top, row_enlist, hb.row]
    simp only [span_append, span_cons, span_settle]
    omega
  · rw [hsome]
    rfl
  · rw [hsome]
    refine ⟨prologueSize + span xs, span (fs ++ t :: gs), Layout.discard k.lists _ _, hleft, hright, ?_,
      Function.update_self ..⟩
    simp [sites, sites_append, sites_cons]

theorem Charged.frees_within (hk : k.Charged) (hw : k.Walled lo hi) (hnd : ptrs.Nodup)
    (hp : ∀ ptr ∈ ptrs, ∃ x n, ptr = x + headerSize ∧ (x, n) ∈ k.sites true ∧ lo ≤ x ∧ x < hi) :
    k.Spares (ptrs.foldl free k) lo hi ∧ (ptrs ≠ [] → (ptrs.foldl free k).Topped lo hi) := by
  induction ptrs generalizing k with
  | nil => exact ⟨⟨hk, hw, rfl, rfl, rfl⟩, fun h => absurd rfl h⟩
  | cons ptr ptrs ih =>
    obtain ⟨hfresh, hrest⟩ := List.nodup_cons.mp hnd
    obtain ⟨x, n, rfl, hx, h1, h2⟩ := hp ptr List.mem_cons_self
    obtain ⟨hs, ht⟩ := hk.freeBlock_within hw hx h1 h2
    have hfree : k.free (x + headerSize) = (k.freeBlock x).count .frees := by
      rw [free, Nat.add_sub_cancel]
    have hs' : k.Spares (k.free (x + headerSize)) lo hi := by
      rw [hfree]
      exact ⟨hs.charged.count .frees, ⟨hs.walled.left, hs.walled.right⟩, hs.lists, hs.top, hs.topUsed⟩
    have ht' : (k.free (x + headerSize)).Topped lo hi := by
      rw [hfree]
      exact ht
    obtain ⟨hs'', ht''⟩ := ih hs'.charged hs'.walled hrest fun ptr hptr => by
      obtain ⟨y, m, rfl, hy, h1, h2⟩ := hp ptr (List.mem_cons_of_mem _ hptr)
      refine ⟨y, m, rfl, ?_, h1, h2⟩
      have hne : y ≠ x := fun he => hfresh (he ▸ hptr)
      rw [hfree]
      change _ ∈ (k.freeBlock x).sites true
      rw [hk.sites_freeBlock hx]
      exact List.mem_filter.mpr ⟨hy, decide_eq_true hne⟩
    rw [List.foldl_cons]
    refine ⟨⟨hs''.charged, hs''.walled, hs''.lists.trans hs'.lists, hs''.top.trans hs'.top,
      hs''.topUsed.trans hs'.topUsed⟩, fun _ => ?_⟩
    cases ptrs with
    | nil => exact ht'
    | cons => exact ht'' (by simp)

theorem walled_of_stretch (hs : Stretch k.row xs ms u ys) :
    k.Walled (prologueSize + span xs) (prologueSize + span xs + span ms) where
  left := by
    have hbefore := hs.before
    rcases List.eq_nil_or_concat' xs with rfl | ⟨us, t, rfl⟩
    · exact .inl rfl
    · rw [lastUsed_append] at hbefore
      have ht : t.used = true := hbefore
      refine .inr ⟨prologueSize + span us, t.size, ?_, by simp [Nat.add_assoc]⟩
      simp [sites, hs.row, sites_append, sites_cons, ht]
  right := ⟨u.size, by simp [sites, hs.row, sites_append, sites_cons, hs.next]⟩

theorem Tidy.sites_stretch (hk : k.Tidy) (hs : Stretch k.row xs ms u ys)
    (hp : ptrs.Perm ((offsets (prologueSize + span xs) ms).map (· + headerSize))) :
    ((k.sites true).filter fun q => q.1 + headerSize ∉ ptrs) =
      Row.sites true prologueSize xs ++
        Row.sites true (prologueSize + span xs + span ms) (u :: ys) := by
  have hz := hk.sized
  rw [hs.row] at hz
  simp only [sized_append] at hz
  obtain ⟨hzx, hzm, hzy⟩ := hz
  have hmem (q : Nat × Nat) : q.1 + headerSize ∈ ptrs ↔ q.1 ∈ offsets (prologueSize + span xs) ms := by
    rw [hp.mem_iff]
    simp
  have hdec : (fun q : Nat × Nat => decide (q.1 + headerSize ∉ ptrs)) =
      fun q => decide (q.1 ∉ offsets (prologueSize + span xs) ms) :=
    funext fun q => decide_eq_decide.mpr (not_congr (hmem q))
  rw [hdec, sites, hs.row, sites_append, sites_append, List.filter_append, List.filter_append]
  have hx : (Row.sites true prologueSize xs).filter (fun q => q.1 ∉ offsets (prologueSize + span xs) ms) =
      Row.sites true prologueSize xs := by
    refine List.filter_eq_self.mpr fun q hq => decide_eq_true fun hin => ?_
    have h1 := (hzm.offsets_bounds hin).1
    have h2 := (sites_bounds hq).2
    have h3 := (hzx.of_site hq).1
    simp only [minBlock, wordSize] at h3
    omega
  have hm : (Row.sites true (prologueSize + span xs) ms).filter
      (fun q => q.1 ∉ offsets (prologueSize + span xs) ms) = [] := by
    refine List.filter_eq_nil_iff.mpr fun q hq => ?_
    obtain ⟨t, ht, -, -⟩ := mem_sites_iff.mp hq
    exact fun h => of_decide_eq_true h (List.mem_map_of_mem ht)
  have hy : (Row.sites true (prologueSize + span xs + span ms) (u :: ys)).filter
      (fun q => q.1 ∉ offsets (prologueSize + span xs) ms) =
        Row.sites true (prologueSize + span xs + span ms) (u :: ys) := by
    refine List.filter_eq_self.mpr fun q hq => decide_eq_true fun hin => ?_
    have h1 := (hzm.offsets_bounds hin).2
    have h2 := (sites_bounds hq).1
    omega
  rw [hx, hm, hy, List.nil_append]

theorem Spares.lists_eq (h : k₀.Spares k lo (lo + n)) (ht : k.Topped lo (lo + n))
    (hout : ∀ b, ∀ y ∈ k₀.lists b, y < lo ∨ lo + n ≤ y)
    (hin : ∀ y m, (y, m) ∈ k.sites false → lo ≤ y → y < lo + n → y = lo ∧ m = n) :
    k.lists = Layout.enlist k₀.lists lo n := by
  have htidy := h.charged.settled.tidy
  obtain ⟨x, m, rest, h1, h2, hx, hfirst⟩ := ht
  have hm := (htidy.of_site hx).2.2.1
  simp only [minBlock, wordSize] at hm
  obtain ⟨rfl, rfl⟩ := hin x m hx h1 (by omega)
  have hold : Layout.outside x (x + m) k.lists = k₀.lists :=
    h.lists.trans (Layout.outside_eq_self hout)
  -- no other entry is between the walls
  have hentry : ∀ b, ∀ y ∈ k.lists b, y ≠ x → y < x ∨ x + m ≤ y := by
    intro b y hy hne
    obtain ⟨l, hl, -⟩ := htidy.listed hy
    by_contra hno
    exact hne (hin y l hl (by omega) (by omega)).1
  have hnd := htidy.nodup (bucketFor m)
  rw [hfirst, List.nodup_cons] at hnd
  have hrest : rest = k₀.lists (bucketFor m) := by
    rw [← hold, Layout.outside, hfirst, List.filter_cons_of_neg (by simp; omega)]
    refine (List.filter_eq_self.mpr fun y hy => decide_eq_true ?_).symm
    exact hentry _ y (hfirst ▸ List.mem_cons_of_mem _ hy) fun he => hnd.1 (he ▸ hy)
  funext b
  rw [Layout.enlist, Function.update_apply]
  split
  · next hb => rw [hb, hfirst, hrest]
  · next hb =>
    rw [← hold, Layout.outside]
    refine (List.filter_eq_self.mpr fun y hy => decide_eq_true (hentry b y hy fun he => hb ?_)).symm
    obtain ⟨l, hl, rfl⟩ := htidy.listed hy
    rw [(hin y l hl (by omega) (by omega)).2]

theorem Tidy.stretch_payloads (hk : k.Tidy) (hs : Stretch k.row xs ms u ys)
    (hp : ptrs.Perm ((offsets (prologueSize + span xs) ms).map (· + headerSize))) :
    ptrs.Nodup ∧ ∀ ptr ∈ ptrs, ∃ x n, ptr = x + headerSize ∧ (x, n) ∈ k.sites true ∧
      prologueSize + span xs ≤ x ∧ x < prologueSize + span xs + span ms := by
  have hz := hk.sized
  rw [hs.row] at hz
  simp only [sized_append] at hz
  constructor
  · have hnd : (offsets (prologueSize + span xs) ms).Nodup :=
      List.pairwise_map.mpr ((hz.2.1.pairwise_located _).imp Nat.ne_of_lt)
    exact hp.nodup_iff.mpr (hnd.map fun _ _ => Nat.add_right_cancel)
  · intro ptr hptr
    obtain ⟨x, hx, rfl⟩ := List.mem_map.mp (hp.subset hptr)
    obtain ⟨⟨y, t⟩, ht, rfl⟩ := List.mem_map.mp hx
    refine ⟨y, t.size, rfl, ?_, hz.2.1.offsets_bounds hx⟩
    rw [sites, hs.row, sites_append, sites_append]
    refine List.mem_append_right _ (List.mem_append_left _ ?_)
    exact mem_sites_iff.mpr ⟨t, ht, hs.used t (mem_of_located ht), rfl⟩

theorem Settled.row_of_stretch (hk : k.Settled) (hs : Stretch k.row xs ms u ys) (hms : ms ≠ [])
    (hk' : k'.Settled) (hsites : k'.sites true = Row.sites true prologueSize xs ++
      Row.sites true (prologueSize + span xs + span ms) (u :: ys)) (htop : k'.top = k.top) :
    k'.row = xs ++ ⟨span ms, false, true⟩ :: { u with prevUsed := false } :: ys := by
  have hz := hk.tidy.sized
  have hf := hk.flagged
  have hm := hk.merged
  rw [hs.row] at hz hf hm
  simp only [sized_append, sized_cons] at hz
  obtain ⟨hzx, hzm, hzu, hzy⟩ := hz
  rw [flagged_append, flagged_append] at hf
  rw [merged_append, merged_append, merged_cons] at hm
  have hmin : minBlock ≤ span ms := by
    have hpos := List.length_pos_iff.mpr hms
    have hlen := hzm.length_le
    simp only [minBlock, wordSize] at hlen ⊢
    omega
  refine eq_of_sites hk'.tidy.sized ?_ hk'.flagged ?_ hk'.merged ?_ (hsites.trans ?_) ?_
  · simpa only [sized_append, sized_cons] using ⟨hzx, ⟨hmin, hzm.span_mod⟩, hzu, hzy⟩
  · refine flagged_append.mpr ⟨hf.1, ?_⟩
    rw [hs.before]
    exact ⟨rfl, rfl, hf.2.2.2⟩
  · rw [merged_append, merged_cons, merged_cons]
    exact ⟨hm.1, .inr rfl, .inl hs.next, hm.2.2.2⟩
  · simp [sites_append, sites_cons, hs.next]
  · refine (Nat.add_left_cancel htop).trans ?_
    rw [hs.row]
    simp only [span_append, span_cons]

/-- When the blocks of a stretch are freed in whatever order, one free block is in their place, which is
the first one in its list. -/
theorem Charged.clears_stretch (hk : k.Charged) (hs : Stretch k.row xs ms u ys) (hms : ms ≠ [])
    (hp : ptrs.Perm ((offsets (prologueSize + span xs) ms).map (· + headerSize)))
    (hc : k.Clears ptrs (ptrs.foldl free k)) :
    (ptrs.foldl free k).row = xs ++ ⟨span ms, false, true⟩ :: { u with prevUsed := false } :: ys ∧
      (ptrs.foldl free k).lists = Layout.enlist k.lists (prologueSize + span xs) (span ms) ∧
      (ptrs.foldl free k).topUsed = k.topUsed := by
  have htidy := hk.settled.tidy
  obtain ⟨hnd, hpay⟩ := htidy.stretch_payloads hs hp
  obtain ⟨hspares, htopped⟩ := hk.frees_within (walled_of_stretch hs) hnd hpay
  have hne : ptrs ≠ [] := by
    rintro rfl
    have hlen := hp.length_eq
    simp only [List.length_nil, List.length_map, length_offsets] at hlen
    exact hms (List.length_eq_zero_iff.mp hlen.symm)
  have hrow := hk.settled.row_of_stretch hs hms hc.charged.settled
    (hc.sites.trans (htidy.sites_stretch hs hp)) hspares.top
  refine ⟨hrow, hspares.lists_eq (htopped hne) ?_ ?_, hspares.topUsed⟩
  · intro b y hy
    obtain ⟨n, hn, -⟩ := htidy.listed hy
    have hpos := (htidy.of_site hn).2.2.1
    simp only [minBlock, wordSize] at hpos
    rw [sites, hs.row, sites_append, sites_append, sites_eq_nil hs.used, List.nil_append,
      List.mem_append] at hn
    rcases hn with hn | hn
    · have := (sites_bounds hn).2
      omega
    · exact .inr (sites_bounds hn).1
  · intro y m hy h1 h2
    have hpos := (hc.charged.settled.tidy.of_site hy).2.2.1
    simp only [minBlock, wordSize] at hpos
    rw [sites, hrow, sites_append, sites_cons, if_pos rfl, List.mem_append, List.mem_cons] at hy
    rcases hy with hy | he | hy
    · have := (sites_bounds hy).2
      omega
    · exact ⟨congrArg Prod.fst he, congrArg Prod.snd he⟩
    · have := (sites_bounds hy).1
      dsimp only at this
      omega

theorem firstFit_of_first (hfirst : k.lists (bucketFor size) = x :: rest) (hfit : size ≤ k.sizeAt x) :
    k.firstFit size = some x := by
  obtain ⟨smaller, larger, hsplit⟩ := List.append_of_mem (List.mem_finRange (bucketFor size))
  have hlt : ∀ b ∈ smaller, b < bucketFor size := by
    have hsorted := List.pairwise_lt_finRange bucketCount
    rw [hsplit] at hsorted
    exact fun b hb => (List.pairwise_append.mp hsorted).2.2 b hb _ List.mem_cons_self
  refine List.findSome?_eq_some_iff.mpr ⟨smaller, _, larger, hsplit, ?_, fun b hb => if_pos (hlt b hb)⟩
  rw [if_neg (lt_irrefl _), hfirst, List.find?_cons_of_pos (by simpa using hfit)]

theorem Charged.reuses_stretch (hk : k.Charged) (hs : Stretch k.row xs ms u ys) (hms : ms ≠ [])
    (hp : ptrs.Perm ((offsets (prologueSize + span xs) ms).map (· + headerSize)))
    (hc : k.Clears ptrs (ptrs.foldl free k)) :
    (ptrs.foldl free k).firstFit (span ms) = some (prologueSize + span xs) ∧
      ((ptrs.foldl free k).place (prologueSize + span xs) (span ms)).layout =
        ⟨k.top, located prologueSize xs ++ (prologueSize + span xs, ⟨span ms, true, true⟩) ::
          located (prologueSize + span xs + span ms) (u :: ys), k.lists, k.topUsed⟩ ∧
      ((ptrs.foldl free k).place (prologueSize + span xs) (span ms)).stats =
        (ptrs.foldl free k).stats := by
  obtain ⟨hrow, hlists, htopUsed⟩ := hk.clears_stretch hs hms hp hc
  have htidy := hc.charged.settled.tidy
  have hsize : (ptrs.foldl free k).sizeAt (prologueSize + span xs) = span ms :=
    htidy.sizeAt_eq (t := ⟨span ms, false, true⟩) (mem_located_iff.mpr ⟨xs, _, hrow, rfl⟩)
  have hfirst : (ptrs.foldl free k).lists (bucketFor (span ms)) =
      (prologueSize + span xs) :: k.lists (bucketFor (span ms)) := by
    rw [hlists]
    exact Function.update_self ..
  have hrest : (⟨span ms, false, true⟩ : Tag).size - span ms < minSplit := by
    rw [Nat.sub_self]
    decide
  refine ⟨firstFit_of_first hfirst hsize.ge, ?_, ?_⟩
  · have htop : (ptrs.foldl free k).top = k.top := by
      rw [top, top, hrow, hs.row]
      simp only [span_append, span_cons]
    have hfresh : ∀ b, prologueSize + span xs ∉ k.lists b := by
      obtain ⟨t, ms, rfl⟩ := List.exists_cons_of_ne_nil hms
      exact hk.settled.tidy.unlisted (mem_located_iff.mpr ⟨xs, _, hs.row, rfl⟩)
        (hs.used t List.mem_cons_self)
    have hu : u.prevUsed = true := by
      have hnext : k.row = (xs ++ ms) ++ u :: ys := by rw [hs.row, List.append_assoc]
      rw [hk.settled.prevUsed_eq hnext, lastUsed_append, hs.before, lastUsed_of_used hs.used]
    rw [htidy.layout_place_whole hrow rfl hrest, layout, Layout.take, htop, hlists, htopUsed,
      Layout.discard_enlist hfresh]
    simp [located, Layout.settle, ← hu]
  · rw [htidy.place_whole hrow rfl hrest]
    rfl

end Sketch

namespace Session

variable {H : Type} [Host H] {s s' : Session H} {cs : List Call} {k : Sketch H} {a : Answer}
  {request size x y : Nat} {t u : Tag} {before run after : List (Nat × Tag)} {ptrs : List Nat}
  {xs ms ys : Row}

theorem Follows.stretch (hf : s.Follows cs k)
    (hblocks : s.heap.blocks = before ++ run ++ (y, u) :: after)
    (hlive : ∀ q ∈ run, q.1 + headerSize ∈ s.live.pointers)
    (hleft : ∀ q ∈ before.getLast?, q.2.used = true) (hu : u.used = true) :
    ∃ xs ms ys, Stretch k.row xs ms u ys ∧ before = located prologueSize xs ∧
      run = located (prologueSize + span xs) ms ∧
      (y, u) :: after = located (prologueSize + span xs + span ms) (u :: ys) := by
  rw [hf.shows.blocks_eq] at hblocks
  obtain ⟨us, vs, hrow, hfront, hback⟩ := located_eq_append hblocks
  obtain ⟨xs, ms, rfl, rfl, rfl⟩ := located_eq_append hfront.symm
  obtain ⟨v, ys, rfl, he, rfl⟩ := located_eq_cons hback.symm
  obtain ⟨rfl, rfl⟩ := Prod.mk.inj he
  rw [List.append_assoc] at hrow
  refine ⟨xs, ms, ys, ⟨hrow, ?_, lastUsed_of_getLast? hleft, hu⟩, rfl, rfl, ?_⟩
  · intro t ht
    obtain ⟨q, hq, rfl⟩ : ∃ q ∈ located (prologueSize + span xs) ms, q.2 = t := by
      obtain ⟨ls, rs, rfl⟩ := List.append_of_mem ht
      exact ⟨_, mem_located_iff.mpr ⟨ls, rs, rfl, rfl⟩, rfl⟩
    refine (hf.live_used ?_ (hlive q hq)).2
    rw [hf.shows.blocks_eq, hblocks]
    exact List.mem_append_left _ (List.mem_append_right _ hq)
  · rw [hback, span_append, Nat.add_assoc]

variable [LawfulHost H]

theorem Follows.heapGrows_of_found (hf : s.Follows cs k) (hr : blockSize? request = some size)
    (hx : k.firstFit size = some x) (hplace : (k.place x size).stats = k.stats)
    (h : s.step (.allocate request) = .ok (a, s')) :
    s'.heap.stats.heapGrows = s.heap.stats.heapGrows := by
  have hs' := (hf.of_step (c := .allocate request) trivial h).2.shows
  rw [Sketch.perform, Sketch.allocate_of_found hr hx] at hs'
  rw [hs'.stats, hf.shows.stats, ← hplace]
  rfl

theorem Follows.reuses_stretch (hf : s.Follows cs (ptrs.foldl Sketch.free k)) (hk : k.Charged)
    (hst : Stretch k.row xs ms u ys) (hms : ms ≠ [])
    (hp : ptrs.Perm ((offsets (prologueSize + span xs) ms).map (· + headerSize)))
    (hc : k.Clears ptrs (ptrs.foldl Sketch.free k)) :
    s.Reuses (span ms - headerSize) (Pi.single .allocations 1) (prologueSize + span xs) (span ms)
      ⟨k.top, located prologueSize xs ++ (prologueSize + span xs, ⟨span ms, true, true⟩) ::
          located (prologueSize + span xs + span ms) (u :: ys), k.lists, k.topUsed⟩ ∧
      ∀ a s', s.step (.allocate (span ms - headerSize)) = .ok (a, s') →
        s'.heap.stats.heapGrows = s.heap.stats.heapGrows := by
  obtain ⟨hrow, -⟩ := hk.clears_stretch hst hms hp hc
  obtain ⟨hfound, hlayout, hstats⟩ := hk.reuses_stretch hst hms hp hc
  have hblock : (prologueSize + span xs, (⟨span ms, false, true⟩ : Tag)) ∈
      (ptrs.foldl Sketch.free k).blocks := mem_located_iff.mpr ⟨xs, _, hrow, rfl⟩
  have htidy := hc.charged.settled.tidy
  have hb := htidy.of_block hblock
  have hr := blockSize?_sub_header hb.2.2.1 hb.2.2.2.1 (htidy.size_lt hblock)
  refine ⟨?_, fun a s' => hf.heapGrows_of_found hr hfound hstats⟩
  have hreuses := hf.reuses hr hfound (f := 0) (hstats ▸ .refl _ _) hlayout (t := ⟨span ms, true, true⟩)
    (by simp) rfl
  rwa [zero_add] at hreuses

/-- Merged space is reused first. When live blocks that lie side by side are freed in whatever order,
with used blocks or the start of the heap around them, the next request for as many bytes is served
where the first of them was. In their place is one used block, and nothing else has changed of the
layout or the host. -/
theorem reachable_merged_reused (hs : s.Reachable)
    (hblocks : s.heap.blocks = before ++ (x, t) :: run ++ (y, u) :: after)
    (hleft : ∀ q ∈ before.getLast?, q.2.used = true) (hu : u.used = true)
    (hp : ptrs.Perm (((x, t) :: run).map fun q => q.1 + headerSize))
    (hlive : ptrs ⊆ s.live.pointers) (hsize : (((x, t) :: run).map (·.2.size)).sum = size) :
    match (s.freeAll ptrs).bind fun s => s.step (.allocate (size - headerSize)) with
    | .ok (a, s') => Hands a s' x size ∧
        s'.heap.layout = ⟨s.heap.arena.top, before ++ (x, ⟨size, true, true⟩) :: (y, u) :: after,
          s.heap.bucket, s.heap.topUsed⟩ ∧
        s'.heap.host = s.heap.host ∧ s'.heap.stats.heapGrows = s.heap.stats.heapGrows
    | .error e => e = .addOverflow ∧
        (wordLimit ≤ s.heap.stats.coalesces + 2 * ptrs.length ∨
          wordLimit ≤ s.heap.stats.heapShrinks + ptrs.length ∨
          wordLimit ≤ s.heap.stats.frees + ptrs.length ∨
          wordLimit ≤ s.heap.stats.allocations + 1) := by
  obtain ⟨cs, hr⟩ := hs
  obtain ⟨chart, hchart⟩ := hr.charted
  obtain ⟨cs, k, hf, hm, -⟩ := hchart.follows
  have hptrs : ∀ q ∈ (x, t) :: run, q.1 + headerSize ∈ s.live.pointers := fun q hq =>
    hlive (hp.symm.subset (List.mem_map_of_mem hq))
  obtain ⟨xs, ms, ys, hst, rfl, hrun, hafter⟩ := hf.stretch hblocks hptrs hleft hu
  have hms : ms ≠ [] := by
    rintro rfl
    cases hrun
  obtain rfl : x = prologueSize + span xs := by
    obtain ⟨v, vs, rfl, he, -⟩ := located_eq_cons hrun.symm
    exact congrArg Prod.fst he
  obtain rfl : size = span ms := by rw [← hsize, hrun, sum_sizes_located]
  have hp' : ptrs.Perm ((offsets (prologueSize + span xs) ms).map (· + headerSize)) := by
    rw [offsets, List.map_map, ← hrun]
    exact hp
  obtain ⟨hnd, -⟩ := hf.valid.settled.tidy.stretch_payloads hst hp'
  have hfrees := hf.freeAll_foldl hm.level hnd hlive
  cases hfreed : s.freeAll ptrs with
  | error e =>
    rw [hfreed] at hfrees
    obtain ⟨rfl, hfull⟩ := hfrees
    refine ⟨rfl, ?_⟩
    rw [hf.shows.stats]
    rcases Sketch.full_of_callRise hf.shows.fits hfull with h | h | h <;> simp [h]
  | ok s₁ =>
    rw [hfreed] at hfrees
    obtain ⟨⟨cs', hf'⟩, hc, -⟩ := hfrees
    obtain ⟨hserved, hgrows⟩ := hf'.reuses_stretch hf.valid.charged hst hms hp' hc
    have hkeep {c : Counter} (h : Sketch.callRise c = 0) : s₁.heap.stats.get c = s.heap.stats.get c := by
      rw [hf'.shows.stats, hf.shows.stats, hc.rise.get_eq (by simp [h])]
    change match s₁.step (.allocate (span ms - headerSize)) with
      | .ok (a, s') => _
      | .error e => _
    cases hstep : s₁.step (.allocate (span ms - headerSize)) with
    | error e =>
      obtain ⟨rfl, hfull⟩ := hserved.full_of_single hstep
      rw [hkeep rfl] at hfull
      exact ⟨rfl, .inr (.inr (.inr hfull))⟩
    | ok r =>
      obtain ⟨a, s'⟩ := r
      obtain ⟨hhands, hlayout, hhost, -⟩ := hserved.of_ok hstep
      have hbuckets : s.heap.bucket = k.lists := funext hf.shows.bucket_eq
      refine ⟨hhands, ?_, ?_, (hgrows a s' hstep).trans (hkeep (c := .heapGrows) rfl)⟩
      · rw [hlayout, hf.shows.top, hafter, hbuckets, hf.shows.topUsed]
      · rw [hhost, hf'.shows.host, hc.host, hf.shows.host]

theorem reachable_merged_reused_three :
    ∃ s s' : Session Reserve, Run [.allocate 24, .allocate 24, .allocate 24] s ∧
      ((s.freeAll [480, 448]).bind fun s => s.step (.allocate 56)) = .ok (.ok (some 448), s') ∧
      s'.heap.layout = ⟨632, [(440, ⟨64, true, true⟩), (504, ⟨32, true, true⟩),
        (536, ⟨96, false, true⟩)], s.heap.bucket, false⟩ := by
  obtain ⟨s₁, hr₁, hf₁⟩ := exists_run_allocate
  obtain ⟨s₂, -, hr₂, hf₂⟩ := hf₁.advance (c := .allocate 24) hr₁ trivial (by decide) (by decide)
  obtain ⟨s, -, hr, hf⟩ := hf₂.advance (c := .allocate 24) hr₂ trivial (by decide) (by decide)
  have h₁ : 448 ∈ s.live.pointers := hf.tracks.owned (x := 440) (m := 32) (by decide)
  have h₂ : 480 ∈ s.live.pointers := hf.tracks.owned (x := 472) (m := 32) (by decide)
  have hblocks : s.heap.blocks = [] ++ (440, ⟨32, true, true⟩) :: [(472, ⟨32, true, true⟩)] ++
      (504, ⟨32, true, true⟩) :: [(536, ⟨96, false, true⟩)] := by
    rw [hf.shows.blocks_eq]
    decide
  have htop : s.heap.arena.top = 632 := by rw [hf.shows.top]; decide
  have htopUsed : s.heap.topUsed = false := by rw [hf.shows.topUsed]; decide
  have hlive : [480, 448] ⊆ s.live.pointers := by simp [h₁, h₂]
  have hsize : ([(440, ⟨32, true, true⟩), (472, ⟨32, true, true⟩)].map
      fun q : Nat × Tag => q.2.size).sum = 64 := rfl
  have hreused := reachable_merged_reused ⟨_, hr⟩ hblocks (by simp) rfl (by decide) hlive hsize
  have hrequest : 64 - headerSize = 56 := rfl
  rw [hrequest] at hreused
  cases hend : (s.freeAll [480, 448]).bind fun s => s.step (.allocate 56) with
  | error e =>
    rw [hend] at hreused
    exfalso
    have hfull := hreused.2
    rw [hf.shows.stats] at hfull
    revert hfull
    decide
  | ok r =>
    obtain ⟨a, s'⟩ := r
    rw [hend] at hreused
    obtain ⟨⟨rfl, -⟩, hlayout, -⟩ := hreused
    rw [htop, htopUsed] at hlayout
    exact ⟨s, s', hr, hend, hlayout⟩

end Session

end SegregatedFit
