import Mathlib
import SegregatedFit.Proofs.FreeShows
import SegregatedFit.Proofs.Resizing

/-!
A heap reallocates as its sketch does. No payload changes but that of the block itself, and the bytes
that the old payload and the request have in common are carried over.
-/
namespace SegregatedFit

open Row Memory

variable {H : Type}

/-- The bytes in no payload of a used block other than the one at `x`. -/
def Sketch.OwnsBut (k : Sketch H) (x i : Nat) : Prop :=
  ∀ y n, (y, n) ∈ k.sites true → y = x ∨ i < y + headerSize ∨ y + n ≤ i

theorem Sketch.Owns.ownsBut {k : Sketch H} {i : Nat} (h : k.Owns i) (x : Nat) : k.OwnsBut x i :=
  fun y n hy => .inr (h y n hy)

namespace Heap

open HeapM

variable {h h' : Heap H} {k : Sketch H} {a : Arena} {l m n off request size x y : Nat} {t : Tag}
  {xs ys : Row} {limit : Stats} {r : Except Refusal Nat} {out : Except Refusal Nat × Sketch H}

theorem Shows.scribble (hs : h.Shows k) (hx : (x, t) ∈ k.blocks) (ht : t.used = true)
    (hlow : a.low = h.arena.low) (htop : a.top = h.arena.top)
    (hm : SameOff (fun j => x + headerSize ≤ j ∧ j < x + t.size) h.arena.mem a.mem) :
    Shows { h with arena := a } k := by
  obtain ⟨xs, ys, hrow, hxs⟩ := mem_located_iff.mp hx
  have hz := hs.tidy.sized.of_located hx
  have hend := hs.top
  have hroom := hs.tidy.room
  rw [Sketch.top, hrow] at hend
  simp only [span_append, span_cons] at hend
  have hs1 := hs.rewrite (a := a) (u := [t]) (v := [t]) hrow hxs hlow ?_ ?_ (.inr rfl) ?_ (hm.mono ?_) ?_
    fun b y hy => ?_
  · simpa [← hrow] using hs1
  · rw [htop, hend, hxs]
    simp only [span_append, span_cons, span_nil]
    omega
  · rw [htop, hs.top]
    exact hroom
  · exact sized_cons.mpr ⟨hz, sized_nil⟩
  · rintro j ⟨h1, h2⟩
    exact ⟨(Nat.le_add_right _ _).trans h1, .inr (by simpa using h2)⟩
  · refine ⟨?_, fun hf => ?_, trivial⟩
    · rw [hm.word_eq, hs.spells.head hx]
      simp only [headerSize, wordSize]
      omega
    · rw [ht] at hf
      cases hf
  · have := hs.tidy.entry_outside hx (hs.tidy.unlisted hx ht) hy
    simpa using this

theorem growTop_meets [Host H] (hs : h.Shows k) (hk : k.Charged)
    (hrow : k.row = xs ++ t :: ys) (hx : off = prologueSize + span xs) (ht : t.used = true)
    (hlt : t.size < size) (hsize : size % alignment = 0)
    (hl : (k.growTop off t size).2.stats.Below limit) :
    (growTop off t size).Meets h limit fun b h' =>
      b = (k.growTop off t size).1 ∧ h'.Shows (k.growTop off t size).2 ∧
        SameOff (fun i => off ≤ i ∧ i < off + headerSize) h.arena.mem h'.arena.mem ∧
        (b = false → h' = { h with host := (k.growTop off t size).2.host }) := by
  have hh := hk.settled.hole_used hrow ht
  have hin : (off, t) ∈ k.blocks := mem_located_iff.mpr ⟨xs, ys, hrow, hx⟩
  have hb := hk.settled.tidy.of_block hin
  have hroom := hk.settled.tidy.room
  have htop := hh.top_eq
  simp only [span_cons, span_nil, Nat.add_zero, ← hx] at htop
  apply meets_lift (plus_eq_ok (by omega))
  apply meets_get
  unfold Sketch.growTop at hl ⊢
  rw [hs.top]
  -- only the block that ends at the top grows in place, and only as far as the host allows
  by_cases hend : off + t.size = k.top
  · rw [if_neg (not_not.mpr hend)] at hl ⊢
    rw [if_neg (not_not.mpr hend)]
    match hsec : Host.secure k.host k.top (size - t.size) with
    | (.error reason, host) =>
      have hsec' : Host.secure h.host h.arena.top (size - t.size) = (.error reason, host) := by
        rw [hs.host, hs.top]
        exact hsec
      refine (grow_meets_error hsec').bind ?_
      rintro _ _ ⟨rfl, rfl⟩
      exact meets_note (meets_pure ⟨rfl, hs.rehost host, SameOff.refl _, fun _ => rfl⟩)
    | (.ok (), host) =>
      have hsec' : Host.secure h.host h.arena.top (size - t.size) = (.ok (), host) := by
        rw [hs.host, hs.top]
        exact hsec
      have hnew := Host.room_of_secure hsec
      rw [hsec] at hl
      obtain rfl : ys = [] := hh.end_iff.mp (by rw [← hend, hx]; simp)
      have htop' : (h.arena.raise (size - t.size)).top = k.top + (size - t.size) := by
        rw [← hs.top]
        rfl
      have hroom' : (h.arena.raise (size - t.size)).top < wordLimit := htop' ▸ hnew
      have hw : (h.arena.raise (size - t.size)).HasWord off := by
        have hw := hs.hasWord_head hin
        exact ⟨hw.aligned, hw.le_top.trans (Nat.le_add_right _ _), hroom'⟩
      refine (grow_meets_ok hsec').bind ?_
      rintro _ _ ⟨rfl, rfl⟩
      have hs1 := (hs.rehost host).refillUsed (a := h.arena.raise (size - t.size))
        (t := { t with size }) (hh.congr rfl rfl) hx rfl rfl
        (by rw [htop', ← hend, span_nil]; dsimp only; omega) hroom' (.inl rfl) ht
        ⟨hb.2.2.1.trans (Nat.le_of_lt hlt), hsize⟩
      apply meets_edit (Arena.setTag_eq_ok hw hsize)
      have hcharge : k.stats.bytesInUse + (size - t.size) < wordLimit := by
        have huse := usedBytes_le_span k.row
        rw [hk.inUse]
        rw [Sketch.top] at hnew
        omega
      rw [hk.settled.tidy.cut_eq hrow hx] at hl ⊢
      have hl2 := (Stats.below_recordHeapSize _ _).trans hl
      refine meets_charge_shown hs1 hcharge ?_
      intro h2 hs2 ha2
      refine meets_count_shown hs2 ((Stats.below_bump _ _).trans hl2) ?_
      intro h3 hs3 ha3
      refine meets_count_shown hs3 hl2 ?_
      intro h4 hs4 ha4
      refine meets_recordHeapSize_shown hs4 ?_
      intro h5 hs5 ha5
      refine meets_note (meets_pure ⟨rfl, hs5, ?_, fun hf => by cases hf⟩)
      rw [ha5, ha4, ha3, ha2]
      exact SameOff.setWord fun j h1 h2 => ⟨h1, h2⟩
  · rw [if_pos hend] at hl ⊢
    rw [if_pos hend]
    exact meets_pure ⟨rfl, hs, SameOff.refl _, fun _ => by rw [← hs.host]⟩

theorem copy_eq_ok {source target : Nat} (hs : source + n ≤ a.top) (ht : target + n ≤ a.top)
    (hroom : a.top < wordLimit) (hd : source + n ≤ target ∨ target + n ≤ source) :
    a.copy source target n = .ok (a.mapMem (·.copy source target n)) := by
  have hover : ¬ ((decide (target < source + n) && decide (source < target + n)) = true) := by
    simp only [Bool.and_eq_true, decide_eq_true_eq]
    omega
  rw [Arena.copy, plus_eq_ok (by omega), plus_eq_ok (by omega)]
  simp only [bind, Except.bind, Nat.not_lt.mpr hs, Nat.not_lt.mpr ht, if_false, hover]
  rfl

def carry (h : Heap H) (x y n : Nat) : Heap H :=
  h.mapMem (·.copy (x + headerSize) (y + headerSize) n)

theorem Shows.carry (hs : h.Shows k) (hx : (x, l) ∈ k.sites true) (hy : (y, m) ∈ k.sites true)
    (hne : x ≠ y) (hl : n + headerSize ≤ l) (hm : n + headerSize ≤ m) :
    h.arena.copy (x + headerSize) (y + headerSize) n = .ok (h.carry x y n).arena ∧
      (h.carry x y n).Shows k ∧
      ∀ j, (h.carry x y n).arena.mem.byte j =
        if y + headerSize ≤ j ∧ j < y + headerSize + n then
          h.arena.mem.byte (x + headerSize + (j - (y + headerSize)))
        else h.arena.mem.byte j := by
  have hbx := hs.tidy.of_site hx
  have hby := hs.tidy.of_site hy
  have hroom := hs.tidy.room
  have htop := hs.top
  have hapart := (sites_apart hx hy).resolve_left fun he => hne he.1
  have hdis : x + headerSize + n ≤ y + headerSize ∨ y + headerSize + n ≤ x + headerSize := by omega
  have hbyte := Memory.byte_copy h.arena.mem hdis
  obtain ⟨s, hsy, hsu, rfl⟩ := mem_sites_iff.mp hy
  refine ⟨copy_eq_ok (by omega) (by omega) (by omega) hdis, ?_, hbyte⟩
  refine hs.scribble (a := (h.carry x y n).arena) hsy hsu rfl rfl fun j hj => ?_
  exact (hbyte j).trans (if_neg (by omega))

theorem Shows.carry_yielded {k' : Sketch H} (hs : h.Shows k') (hx : (x, l) ∈ k.sites true)
    (hy : k.Yields k' y (request + headerSize)) :
    h.arena.copy (x + headerSize) (y + headerSize) (min request (l - headerSize)) =
        .ok (h.carry x y (min request (l - headerSize))).arena ∧
      (h.carry x y (min request (l - headerSize))).Shows k' ∧
      ∀ j, (h.carry x y (min request (l - headerSize))).arena.mem.byte j =
        if y + headerSize ≤ j ∧ j < y + headerSize + min request (l - headerSize) then
          h.arena.mem.byte (x + headerSize + (j - (y + headerSize)))
        else h.arena.mem.byte j := by
  have hmin := (hs.tidy.of_site (hy.kept hx)).2.2.1
  have hroom := hy.1
  have h8 : headerSize = 8 := rfl
  have h32 : minBlock = 32 := rfl
  exact hs.carry (hy.kept hx) hy.site (hy.ne hs.tidy hx) (by omega) (by omega)

theorem moveInto_meets_of_freeBlock {k' : Sketch H} {Q : Unit → Heap H → Prop} (hs : h.Shows k')
    (hx : (x, t.size) ∈ k.sites true) (hy : k.Yields k' y (request + headerSize))
    (hfree : (do
        freeBlock x
        count .reallocsMoved
        note (.moved x y (min request (t.size - headerSize))) : HeapM H Unit).Meets
      (h.carry x y (min request (t.size - headerSize))) limit Q) :
    (moveInto x y t request).Meets h limit Q := by
  have hbx := hs.tidy.of_site (hy.kept hx)
  have hby := hs.tidy.of_site hy.site
  have hroom := hs.tidy.room
  have h8 : headerSize = 8 := rfl
  have h32 : minBlock = 32 := rfl
  apply meets_lift (minus_eq_ok (by omega))
  apply meets_lift (plus_eq_ok (by omega))
  apply meets_lift (plus_eq_ok (by omega))
  exact meets_edit (hs.carry_yielded hx hy).1 hfree

theorem moveInto_meets {k' : Sketch H} (hs : h.Shows k') (hk : k'.Charged)
    (hx : (x, t.size) ∈ k.sites true) (hy : k.Yields k' y (request + headerSize))
    (hl : ((k'.freeBlock x).count .reallocsMoved).stats.Below limit) :
    (moveInto x y t request).Meets h limit fun _ h' =>
      h'.Shows ((k'.freeBlock x).count .reallocsMoved) ∧
      SameOff (k.OwnsBut x) h.arena.mem h'.arena.mem ∧
      ∀ i < min request (t.size - headerSize),
        h'.arena.mem.byte (y + headerSize + i) = h.arena.mem.byte (x + headerSize + i) := by
  have hx' := hy.kept hx
  have hy' := hy.site
  have hm := hy.1
  have hne := hy.ne hk.settled.tidy hx
  have hfreed := (hk.freeBlock hx').2.1
  obtain ⟨-, hs1, hbyte⟩ := hs.carry_yielded hx hy
  refine moveInto_meets_of_freeBlock hs hx hy ?_
  refine (freeBlock_meets hs1 hk hx' ((Stats.below_bump _ _).trans hl)).bind ?_
  rintro _ h2 ⟨hs2, hm2⟩
  refine meets_count_shown hs2 hl ?_
  intro h3 hs3 ha3
  apply Meets.last
  refine meets_note (meets_pure ⟨hs3, ?_, ?_⟩)
  · rw [ha3]
    refine SameOff.trans (fun i hi => ?_) (hm2.mono ?_)
    -- the new block lies apart from every payload there was
    · refine (hbyte i).trans (if_neg fun hin => hi fun z l hz => ?_)
      have hzy := hy.ne hk.settled.tidy hz
      have := (sites_apart (hy.kept hz) hy').resolve_left fun he => hzy he.1
      omega
    · intro i ho z l hz
      by_cases hzx : z = x
      · exact .inl hzx
      · exact .inr (ho z l (site_of_ne hfreed (hy.kept hz) hzx))
  · intro i hi
    rw [ha3, hm2 _ fun ho => ?_]
    · exact (hbyte _).trans (by rw [if_pos (by omega), Nat.add_sub_cancel_left])
    · have := ho y _ (site_of_ne hfreed hy' hne.symm)
      omega

/-- The heap `h`, which showed `k`, has come to show the outcome of a reallocation of the block at `x`
to `request` bytes. -/
structure Resizes (h : Heap H) (k : Sketch H) (x n request : Nat)
    (out : Except Refusal Nat × Sketch H) (r : Except Refusal Nat) (h' : Heap H) : Prop where
  answer : r = out.1
  shows : h'.Shows out.2
  same : SameOff (k.OwnsBut x) h.arena.mem h'.arena.mem
  carried : ∀ ptr, r = .ok ptr → ∀ i < min request (n - headerSize),
    h'.arena.mem.byte (ptr + i) = h.arena.mem.byte (x + headerSize + i)
  refused : ∀ reason, r = .error reason → h' = { h with host := out.2.host }

theorem Resizes.of_stays (ha : r = out.1) (hs : h'.Shows out.2) (hx : (x, n) ∈ k.sites true)
    (hm : SameOff k.Owns h.arena.mem h'.arena.mem) (hok : r = .ok (x + headerSize)) :
    Resizes h k x n request out r h' where
  answer := ha
  shows := hs
  same := hm.mono fun _ hi => hi.ownsBut x
  carried ptr hp i hi := by
    obtain rfl : x + headerSize = ptr := by rw [hok] at hp; exact Except.ok.inj hp
    apply hm
    intro ho
    have := ho x n hx
    omega
  refused reason hr := by rw [hok] at hr; cases hr

theorem enlarge_meets [Host H] (hs : h.Shows k) (hk : k.Charged)
    (hx : (x, t) ∈ k.blocks) (ht : t.used = true) (hr : blockSize? request = some size)
    (hlt : t.size < size) (hl : (k.enlarge (x + headerSize) x t request size).2.stats.Below limit) :
    (enlarge (x + headerSize) x t request size).Meets h limit
      (Resizes h k x t.size request (k.enlarge (x + headerSize) x t request size)) := by
  obtain ⟨xs, ys, hrow, hxs⟩ := mem_located_iff.mp hx
  have hsite : (x, t.size) ∈ k.sites true := mem_sites_iff.mpr ⟨t, hx, ht, rfl⟩
  obtain ⟨hreq, hsize⟩ := Sketch.blockSize?_some hr
  have hhead : ∀ i, x ≤ i ∧ i < x + headerSize → k.Owns i := fun i hi =>
    hk.settled.tidy.owns_of_head hx hi.1 hi.2
  unfold Sketch.enlarge at hl ⊢
  match hg : k.growTop x t size with
  | (true, k1) =>
    rw [hg] at hl
    have hv := (hk.growTop_true hrow hxs ht hlt hsize.2 hg).1
    refine (growTop_meets hs hk hrow hxs ht hlt hsize.2 (by rw [hg]; exact hl)).bind ?_
    rintro b h1 ⟨rfl, hs1, hm1, -⟩
    rw [hg] at hs1 ⊢
    apply meets_verify hs1 hv.settled
    exact meets_pure (.of_stays rfl hs1 hsite (hm1.mono hhead) rfl)
  | (false, k1) =>
    rw [hg] at hl
    dsimp only at hl ⊢
    -- the block is not larger now, and nothing but the host has changed before it moves
    have hv1 := hk.growTop_false hg
    have hk1 := Sketch.growTop_false hg
    have hown : k1.Owns = k.Owns := by rw [hk1]; rfl
    have hsites : k1.sites true = k.sites true := by rw [hk1]; rfl
    have hla : (k1.allocateBlock request).2.stats.Below limit := by
      match ha : k1.allocateBlock request with
      | (.error reason, k2) => rw [ha] at hl; exact hl
      | (.ok y, k2) =>
        rw [ha] at hl
        exact (Sketch.freeBlock_rise k2 x).below.trans ((Stats.below_bump _ _).trans hl)
    have hlg : (k.growTop x t size).2.stats.Below limit := by
      rw [hg]
      exact (Sketch.allocateBlock_rise k1 request).below.trans hla
    refine (growTop_meets hs hk hrow hxs ht hlt hsize.2 hlg).bind ?_
    rintro b h1 ⟨rfl, hs1, hm1, hh1⟩
    rw [hg] at hs1 hh1 ⊢
    have hh1 := hh1 rfl
    refine (allocateBlock_meets hs1 hv1 hla).bind ?_
    intro r h2 hr2
    match ha : k1.allocateBlock request with
    | (.error reason, k2) =>
      rw [ha] at hr2
      obtain rfl := hr2.answer
      refine meets_pure ⟨rfl, hr2.shows, ?_, fun ptr hp => (by cases hp), fun reason hf => ?_⟩
      · rw [hr2.refused _ rfl, hh1]
        exact SameOff.refl _
      · rw [hr2.refused _ rfl, hh1]
    | (.ok y, k2) =>
      rw [ha] at hr2 hl
      obtain rfl := hr2.answer
      obtain ⟨hv2, hy, -⟩ := hv1.allocateBlock_ok ha
      have hy := hy.congr hsites
      refine (moveInto_meets hr2.shows hv2 hsite hy hl).bind ?_
      rintro _ h3 ⟨hs3, hm3, hc3⟩
      obtain ⟨hv3, hp3, -⟩ := hv2.freeBlock (hy.kept hsite)
      apply meets_verify hs3 (hv3.settled.count _)
      obtain ⟨s, hsy, -, -⟩ := mem_sites_iff.mp
        (site_of_ne hp3 hy.site (hy.ne hv2.settled.tidy hsite).symm)
      refine (payload_meets hs3 hsy).bind ?_
      rintro _ _ ⟨rfl, rfl⟩
      have hm12 : SameOff k.Owns h.arena.mem h2.arena.mem := (hm1.mono hhead).trans (hown ▸ hr2.same)
      refine meets_pure ⟨rfl, hs3, (hm12.mono fun i hi => hi.ownsBut x).trans hm3, ?_,
        fun _ hf => by cases hf⟩
      intro ptr hp i hi
      cases hp
      rw [hc3 i hi]
      apply hm12
      intro ho
      have := ho x t.size hsite
      omega

theorem reallocate_meets_of_le [Host H] (hs : h.Shows k) (hx : (x, t) ∈ k.blocks)
    (ht : t.used = true) (hr : blockSize? request = some size) (hle : size ≤ t.size)
    (hl : (k.stats.bump .reallocsUnchanged).Below limit) :
    (reallocate (x + headerSize) request).Meets h limit fun r h' =>
      r = .ok (x + headerSize) ∧ h' = { h with stats := h.stats.bump .reallocsUnchanged } ∧
        h'.Shows (k.count .reallocsUnchanged) := by
  refine (blockAt_meets hs hx).bind ?_
  rintro _ _ ⟨rfl, rfl⟩
  rw [hr]
  apply meets_view (hs.tag_eq hx)
  rw [if_neg (by simp [ht]), if_pos hle]
  refine meets_count (hs.stats ▸ hs.fits) (hs.stats ▸ hl) fun hfit => meets_pure ⟨rfl, rfl, ?_⟩
  rw [hs.stats] at hfit ⊢
  exact hs.recount hfit

theorem reallocate_meets_of_enlarge [Host H] {Q : Except Refusal Nat → Heap H → Prop} (hs : h.Shows k)
    (hx : (x, t) ∈ k.blocks) (ht : t.used = true) (hr : blockSize? request = some size)
    (hlt : t.size < size) (he : (enlarge (x + headerSize) x t request size).Meets h limit Q) :
    (reallocate (x + headerSize) request).Meets h limit Q := by
  refine (blockAt_meets hs hx).bind ?_
  rintro _ _ ⟨rfl, rfl⟩
  rw [hr]
  apply meets_view (hs.tag_eq hx)
  rwa [if_neg (by simp [ht]), if_neg (Nat.not_le.mpr hlt)]

theorem reallocate_meets [Host H] (hs : h.Shows k) (hk : k.Charged)
    (hx : (x, n) ∈ k.sites true)
    (hl : (k.reallocate (x + headerSize) request).2.stats.Below limit) :
    (reallocate (x + headerSize) request).Meets h limit
      (Resizes h k x n request (k.reallocate (x + headerSize) request)) := by
  obtain ⟨t, ht, hu, rfl⟩ := mem_sites_iff.mp hx
  obtain ⟨xs, ys, hrow, hxs⟩ := mem_located_iff.mp ht
  unfold Sketch.reallocate at hl ⊢
  rw [Nat.add_sub_cancel, hk.settled.tidy.cut_eq hrow hxs] at hl ⊢
  match hr : blockSize? request with
  | none =>
    refine (blockAt_meets hs ht).bind ?_
    rintro _ _ ⟨rfl, rfl⟩
    rw [hr]
    exact meets_pure ⟨rfl, hs, SameOff.refl _, fun ptr hp => (by cases hp),
      fun _ _ => by rw [← hs.host]⟩
  | some size =>
    rw [hr] at hl
    dsimp only at hl ⊢
    by_cases hle : size ≤ t.size
    · rw [if_pos hle] at hl ⊢
      refine (reallocate_meets_of_le hs ht hu hr hle hl).mono ?_
      rintro r h1 ⟨rfl, rfl, hs1⟩
      exact .of_stays rfl hs1 hx (SameOff.refl _) rfl
    · rw [if_neg hle] at hl ⊢
      have hlt := Nat.not_le.mp hle
      exact reallocate_meets_of_enlarge hs ht hu hr hlt (enlarge_meets hs hk ht hu hr hlt hl)

end Heap

end SegregatedFit
