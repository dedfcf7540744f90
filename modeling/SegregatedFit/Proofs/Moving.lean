import Mathlib
import SegregatedFit.Proofs.Fitting
import SegregatedFit.Proofs.Recounting

/-!
What a reallocation comes to. A block that is large enough stays as it is. The block at the top grows
where it is, if the host lets it. Any other one moves, which comes to an allocation, a copy and a free,
and is counted as one call.
-/
namespace SegregatedFit

open Row Memory

variable {H : Type}

namespace Heap

open HeapM

variable {h h₂ h₃ k : Heap H} {j : Journal} {k₀ k₁ k₂ : Sketch H} {ptr request size x y : Nat} {t : Tag}

section

variable {α : Type} {a : α}

theorem of_lift {z : Except Fault α} (hr : ((liftM z : HeapM H α).exec h j).1 = .ok (a, k)) :
    z = .ok a ∧ k = h := by
  rw [exec_lift] at hr
  cases z with
  | error e => cases hr
  | ok b =>
    cases hr
    exact ⟨rfl, rfl⟩

theorem of_view {f : Arena → Except Fault α} (hr : ((view f).exec h j).1 = .ok (a, k)) :
    f h.arena = .ok a ∧ k = h := by
  rw [exec_view] at hr
  cases hf : f h.arena with
  | error e => rw [hf] at hr; cases hr
  | ok b =>
    rw [hf] at hr
    cases hr
    exact ⟨rfl, rfl⟩

theorem of_count {c : Counter} (hr : ((count c).exec h j).1 = .ok ((), k)) : k = h.tally c := by
  rw [count, exec_account] at hr
  cases hs : h.stats.count c with
  | error e => rw [hs] at hr; cases hr
  | ok s =>
    rw [hs] at hr
    cases hr
    rw [(Stats.of_count hs).2]
    rfl

theorem of_verify {op : Operation} (hr : ((verify op).exec h j).1 = .ok ((), k)) : k = h := by
  obtain ⟨h₁, h₂, j₁, hget, hcheck⟩ := of_exec_bind hr
  cases hget
  split at hcheck
  · obtain ⟨h₁, h₂, j₁, hget, hcheck⟩ := of_exec_bind hcheck
    cases hget
    obtain ⟨r, h₁, j₁, hfound, hend⟩ := of_exec_bind hcheck
    obtain ⟨-, rfl⟩ := of_lift (congrArg Prod.fst hfound)
    cases r with
    | ok _ =>
      cases hend
      rfl
    | error found => cases hend
  · cases hcheck
    rfl

theorem of_blockAt (hr : ((blockAt ptr).exec h j).1 = .ok (x, k)) : ptr = x + headerSize ∧ k = h := by
  obtain ⟨off, h₁, j₁, hview, hminus⟩ := of_exec_bind hr
  obtain ⟨hoff, rfl⟩ := of_view (congrArg Prod.fst hview)
  obtain ⟨hx, rfl⟩ := of_lift hminus
  rw [Arena.offset] at hoff
  split at hoff
  · cases hoff
    rw [minus] at hx
    split at hx
    · cases hx
      exact ⟨by omega, rfl⟩
    · cases hx
  · split at hoff <;> cases hoff

theorem of_payload (hr : ((payload x).exec h j).1 = .ok (ptr, k)) : ptr = x + headerSize ∧ k = h := by
  obtain ⟨off, h₁, j₁, hplus, hview⟩ := of_exec_bind hr
  obtain ⟨hoff, rfl⟩ := of_lift (congrArg Prod.fst hplus)
  obtain ⟨hptr, rfl⟩ := of_view hview
  rw [Arena.pointer] at hptr
  rw [plus] at hoff
  split at hoff
  · cases hoff
    split at hptr
    · cases hptr
      exact ⟨rfl, rfl⟩
    · cases hptr
  · cases hoff

end

theorem of_free (hr : ((free (x + headerSize)).exec h j).1 = .ok ((), k)) :
    ∃ h₁ j₁, ((freeBlock x).exec h j₁).1 = .ok ((), h₁) ∧ k = h₁.tally .frees := by
  obtain ⟨y, h₁, j₁, hblock, hrest⟩ := of_exec_bind hr
  obtain ⟨_, h₂, j₂, hfree, hrest⟩ := of_exec_bind hrest
  obtain ⟨_, h₃, j₃, hcount, hverify⟩ := of_exec_bind hrest
  obtain ⟨he, rfl⟩ := of_blockAt (congrArg Prod.fst hblock)
  obtain rfl : x = y := Nat.add_right_cancel he
  obtain rfl := of_count (congrArg Prod.fst hcount)
  obtain rfl := of_verify hverify
  exact ⟨h₂, j₁, congrArg Prod.fst hfree, rfl⟩

variable [Host H]

theorem of_allocate (hr : ((allocate request).exec h j).1 = .ok (.ok ptr, k)) :
    ∃ y h₁, ((allocateBlock request).exec h j).1 = .ok (.ok y, h₁) ∧ ptr = y + headerSize ∧
      k = h₁.tally .allocations := by
  obtain ⟨r, h₁, j₁, hblock, hrest⟩ := of_exec_bind hr
  cases r with
  | error reason => cases hrest
  | ok y =>
    obtain ⟨_, h₂, j₂, hcount, hrest⟩ := of_exec_bind hrest
    obtain ⟨_, h₃, j₃, hverify, hrest⟩ := of_exec_bind hrest
    obtain ⟨p, h₄, j₄, hpayload, hend⟩ := of_exec_bind hrest
    cases hend
    obtain rfl := of_count (congrArg Prod.fst hcount)
    obtain rfl := of_verify (congrArg Prod.fst hverify)
    obtain ⟨rfl, rfl⟩ := of_payload (congrArg Prod.fst hpayload)
    exact ⟨y, h₁, congrArg Prod.fst hblock, rfl, rfl⟩

theorem reallocate_meets_of_grown (hs : h.Shows k₀) (hk : k₀.Charged) (hx : (x, t) ∈ k₀.blocks)
    (ht : t.used = true) (hr : blockSize? request = some size) (hlt : t.size < size)
    (hg : k₀.growTop x t size = (true, k₁)) :
    (reallocate (x + headerSize) request).Meets h k₁.stats fun _ h' =>
      SameOff (fun i => x ≤ i ∧ i < x + headerSize) h.arena.mem h'.arena.mem := by
  obtain ⟨xs, ys, hrow, hxs⟩ := mem_located_iff.mp hx
  have hsize := (Sketch.blockSize?_some hr).2.2
  refine reallocate_meets_of_enlarge hs hx ht hr hlt ?_
  refine (growTop_meets hs hk hrow hxs ht hlt hsize (hg ▸ Stats.Below.refl _)).bind ?_
  rintro b h₁ ⟨rfl, hs₁, hm, -⟩
  rw [hg] at hs₁ ⊢
  exact meets_verify hs₁ (hk.growTop_true hrow hxs ht hlt hsize hg).1.settled _ (meets_pure hm)

theorem reallocate_meets_of_moved (hs : h.Shows k₀) (hk : k₀.Charged) (hx : (x, t) ∈ k₀.blocks)
    (ht : t.used = true) (hr : blockSize? request = some size) (hlt : t.size < size)
    (hg : k₀.growTop x t size = (false, k₁)) (hout : k₁.allocateBlock request = (.ok y, k₂))
    (hblock : ∀ j, ((allocateBlock request).exec { h with host := k₁.host } j).1 = .ok (.ok y, h₂))
    (hfree : ∀ j, ((freeBlock x).exec (h₂.carry x y (min request (t.size - headerSize))) j).1 =
      .ok ((), h₃)) :
    h₃.Shows (k₂.freeBlock x) ∧
      (reallocate (x + headerSize) request).Meets h (h₃.stats.bump .reallocsMoved) fun r h' =>
        r = .ok (y + headerSize) ∧ h' = h₃.tally .reallocsMoved := by
  obtain ⟨xs, ys, hrow, hxs⟩ := mem_located_iff.mp hx
  have hsize := (Sketch.blockSize?_some hr).2.2
  have hk₁ := Sketch.growTop_false hg
  have hv₁ := hk.growTop_false hg
  have hs₁ : Shows { h with host := k₁.host } k₁ := by
    rw [hk₁]
    exact hs.rehost _
  have hx₁ : (x, t.size) ∈ k₁.sites true := by
    rw [hk₁]
    exact mem_sites_iff.mpr ⟨t, hx, ht, rfl⟩
  obtain ⟨hv₂, hy, -⟩ := hv₁.allocateBlock_ok hout
  have hs₂ := ((allocateBlock_meets hs₁ hv₁ (Stats.Below.refl _)).of_ok (hblock #[])).shows
  rw [hout] at hs₂
  have hfreed := freeBlock_meets (hs₂.carry_yielded hx₁ hy).2.1 hv₂ (hy.kept hx₁) (Stats.Below.refl _)
  have hs₃ := (hfreed.of_ok (hfree #[])).1
  obtain ⟨hv₃, hp, -⟩ := hv₂.freeBlock (hy.kept hx₁)
  -- counters only go up: where the last of them has room, so had all the steps before
  have hbelow : k₁.stats.Below (h₃.stats.bump .reallocsMoved) := by
    have hrise := Sketch.allocateBlock_rise k₁ request
    rw [hout] at hrise
    rw [hs₃.stats]
    exact (hrise.trans (Sketch.freeBlock_rise k₂ x)).below.trans (Stats.below_bump _ _)
  refine ⟨hs₃, reallocate_meets_of_enlarge hs hx ht hr hlt ?_⟩
  refine (growTop_meets hs hk hrow hxs ht hlt hsize (hg ▸ hbelow)).bind ?_
  rintro b h₁ ⟨rfl, -, -, hh₁⟩
  rw [hg] at hh₁ ⊢
  obtain rfl := hh₁ rfl
  refine meets_bind_step hblock ?_
  refine (moveInto_meets_of_freeBlock (Q := fun _ h' => h' = h₃.tally .reallocsMoved ∧
    h'.Shows ((k₂.freeBlock x).count .reallocsMoved)) hs₂ hx₁ hy ?_).bind ?_
  · refine meets_bind_step hfree ?_
    refine meets_count (hs₃.stats ▸ hs₃.fits) (Stats.Below.refl _) fun hfit => ?_
    refine (meets_note (meets_pure ⟨rfl, ?_⟩)).last
    rw [hs₃.stats] at hfit ⊢
    exact hs₃.recount hfit
  · rintro _ h₄ ⟨rfl, hs₄⟩
    apply meets_verify hs₄ (hv₃.settled.count _)
    obtain ⟨s, hsy, -, -⟩ :=
      mem_sites_iff.mp (site_of_ne hp hy.site (hy.ne hv₂.settled.tidy hx₁).symm)
    refine (payload_meets hs₄ hsy).bind ?_
    rintro _ _ ⟨rfl, rfl⟩
    exact meets_pure ⟨rfl, rfl⟩

end Heap

namespace Sketch

variable {k : Sketch H} {xs : Row} {t : Tag} {request size x : Nat} {host : H}

def widen (k : Sketch H) (xs : Row) (t : Tag) (size : Nat) (host : H) : Sketch H :=
  ((({ k with host, row := xs ++ [{ t with size }] }.charge (size - t.size)).count
    .heapGrows).count .reallocsInPlace).recordHeapSize

variable [Host H]

theorem Tidy.growTop_of_grants (hk : k.Tidy) (hrow : k.row = xs ++ [t]) (hx : x = prologueSize + span xs)
    (hsec : Host.secure k.host k.top (size - t.size) = (.ok (), host)) :
    k.growTop x t size = (true, k.widen xs t size host) := by
  have htop : x + t.size = k.top := by
    rw [hx, top, hrow]
    simp only [span_append, span_cons, span_nil]
    omega
  rw [growTop, if_neg (not_not.mpr htop), hsec, hk.cut_eq hrow hx]
  rfl

theorem Tidy.reallocate_of_lt (hk : k.Tidy) (hx : (x, t) ∈ k.blocks) (hr : blockSize? request = some size)
    (hlt : t.size < size) :
    k.reallocate (x + headerSize) request = k.enlarge (x + headerSize) x t request size := by
  rw [hk.reallocate_eq hx, hr]
  exact if_neg (Nat.not_le.mpr hlt)

end Sketch

namespace Layout

def widen (l : Layout) (before : List (Nat × Tag)) (x : Nat) (t : Tag) (size : Nat) : Layout :=
  ⟨l.top + (size - t.size), before ++ [(x, { t with size })], l.buckets, l.topUsed⟩

end Layout

namespace Session

variable {s s' : Session H} {cs : List Call} {k : Sketch H} {host : H} {a : Answer}
  {ptr request size x : Nat} {t : Tag} {before after : List (Nat × Tag)} {xs : Row}

def mapMem (s : Session H) (f : Memory → Memory) : Session H := ⟨s.heap.mapMem f, s.live⟩

variable [Host H]

def StaysPut (s : Session H) (ptr request : Nat) : Prop :=
  s.Ends (.reallocate ptr request) (Pi.single .reallocsUnchanged 1) fun a s' =>
    a = .ok (some ptr) ∧ s'.heap = s.heap.tally .reallocsUnchanged

/-- The last block gets `size` bytes where it is, by which time the host has become `host`. No byte is
written but in the head of the block. -/
def GrowsInPlace (s : Session H) (before : List (Nat × Tag)) (x : Nat) (t : Tag) (request size : Nat)
    (host : H) : Prop :=
  s.Ends (.reallocate (x + headerSize) request)
    (Pi.single .heapGrows 1 + Pi.single .reallocsInPlace 1) fun a s' =>
      Hands a s' x size ∧ s'.heap.layout = s.heap.layout.widen before x t size ∧
        s'.heap.bins = s.heap.bins ∧ s'.heap.host = host ∧
        SameOff (fun i => x ≤ i ∧ i < x + headerSize) s.heap.arena.mem s'.heap.arena.mem

/-- The block at `x` does not grow in place, and the host has become `host`: it refuses what is missing,
or is not asked at all where the block is not the last one. -/
def Declines (s : Session H) (x : Nat) (t : Tag) (size : Nat) (host : H) : Prop :=
  if x + t.size = s.heap.arena.top then
    ∃ reason, Host.secure s.heap.host s.heap.arena.top (size - t.size) = (.error reason, host)
  else host = s.heap.host

/-- If an allocation from `s₁` is granted and `n` bytes are copied and the old payload is freed, then a
reallocation from `s` comes to the same, and counts as one move and not as an allocation and a free. -/
def MovesLike (s s₁ : Session H) (ptr request n : Nat) : Prop :=
  ∀ q s₂, s₁.step (.allocate request) = .ok (.ok (some q), s₂) →
    (s₂.mapMem (·.copy ptr q n)).Ends (.free ptr) (Sketch.freeRise + Pi.single .frees 1) fun _ s₃ =>
      s.Ends (.reallocate ptr request) (Pi.single .reallocsMoved 1) fun a s' =>
        a = .ok (some q) ∧ s'.heap = { s₃.heap with stats := s'.heap.stats } ∧
          (s'.heap.stats.bump .allocations).bump .frees = s₃.heap.stats.bump .reallocsMoved

theorem perform_meets_of_reallocate {limit : Stats} {heap : Heap H} {Q : Except Refusal Nat → Heap H → Prop}
    (hm : (Heap.reallocate ptr request).Meets heap limit Q) :
    (Call.reallocate ptr request).perform.Meets heap limit fun a h' => ∃ r, a = r.map some ∧ Q r h' :=
  hm.bind fun r _ hq => HeapM.meets_pure ⟨r, rfl, hq⟩

theorem Follows.staysPut (hf : s.Follows cs k) (hx : (x, t) ∈ k.blocks) (ht : t.used = true)
    (hr : blockSize? request = some size) (hle : size ≤ t.size) : s.StaysPut (x + headerSize) request := by
  have hm := Heap.reallocate_meets_of_le hf.shows hx ht hr hle (Stats.Below.refl _)
  refine ends_of_meets ((perform_meets_of_reallocate hm).mono ?_) ?_
  · rintro a h' ⟨r, rfl, rfl, rfl, -⟩
    exact ⟨rfl, rfl⟩
  · intro hfull
    refine ⟨.reallocsUnchanged, by simp, ?_⟩
    rw [hf.shows.stats, Pi.single_eq_same]
    exact Stats.full_of_bump hf.shows.fits hfull

theorem Follows.growTop_of_declines (hf : s.Follows cs k) (hd : s.Declines x t size host) :
    k.growTop x t size = (false, { k with host }) := by
  unfold Declines at hd
  rw [hf.shows.top, hf.shows.host] at hd
  unfold Sketch.growTop
  split at hd
  · next htop =>
    obtain ⟨reason, hsec⟩ := hd
    rw [if_neg (not_not.mpr htop), hsec]
  · next htop =>
    rw [if_pos htop, hd]

theorem of_freed (h : s.step (.free (x + headerSize)) = .ok (a, s')) :
    ∃ h₁ j, ((Heap.freeBlock x).exec s.heap j).1 = .ok ((), h₁) ∧ s'.heap = h₁.tally .frees := by
  obtain ⟨_, h₁, j₁, hfreed, hend⟩ := HeapM.of_exec_bind (exec_of_step h).1
  cases hend
  exact Heap.of_free (congrArg Prod.fst hfreed)

variable [LawfulHost H]

theorem Follows.growsInPlace (hf : s.Follows cs k) (hp : x + headerSize ∈ s.live.pointers)
    (hrow : k.row = xs ++ [t]) (hx : x = prologueSize + span xs) (ht : t.used = true)
    (hr : blockSize? request = some size) (hlt : t.size < size)
    (hsec : Host.secure k.host k.top (size - t.size) = (.ok (), host)) :
    s.GrowsInPlace (located prologueSize xs) x t request size host := by
  have hblock : (x, t) ∈ k.blocks := mem_located_iff.mpr ⟨xs, [], hrow, hx⟩
  have htidy := hf.valid.settled.tidy
  have hg := htidy.growTop_of_grants hrow hx hsec
  have hperf : k.perform (.reallocate (x + headerSize) request) =
      (.ok (some (x + headerSize)), k.widen xs t size host) := by
    rw [Sketch.perform, htidy.reallocate_of_lt hblock hr hlt, Sketch.enlarge, hg]
    rfl
  have hrise := Sketch.growTop_rise k x t size
  rw [hg] at hrise
  refine hf.ends hp (fun d => by rw [hperf]; exact (hrise d).2) ?_
  intro s' hstep hf'
  rw [hperf] at hf' ⊢
  have hlayout : s'.heap.layout = s.heap.layout.widen (located prologueSize xs) x t size := by
    rw [hf'.shows.layout_eq, hf.shows.layout_eq]
    have hspan : size + 0 = t.size + 0 + (size - t.size) := by omega
    simp only [Sketch.layout, Layout.widen, Sketch.top, Sketch.blocks, Sketch.widen, hrow, hx,
      Sketch.row_recordHeapSize, Sketch.row_count, Sketch.row_charge, span_append, span_cons, span_nil,
      located_append, located, hspan, Nat.add_assoc]
    rfl
  refine ⟨⟨rfl, ?_⟩, hlayout, ?_, hf'.shows.host, ?_⟩
  · refine hf'.shows.blockSize_of_used (t := { t with size }) ?_ ht
    rw [hlayout]
    simp [Layout.widen]
  · refine Bins.ext_length fun b => ?_
    rw [hf'.shows.lengths, hf.shows.lengths]
    rfl
  · obtain ⟨r, -, hm⟩ := (perform_meets_of_reallocate (Heap.reallocate_meets_of_grown hf.shows
      hf.valid.charged hblock ht hr hlt hg)).of_ok (exec_of_step hstep).1
    exact hm

theorem Follows.of_allocated {q : Nat} (hf : s.Follows cs k)
    (h : s.step (.allocate request) = .ok (.ok (some q), s')) :
    ∃ y k₂ heap, k.allocateBlock request = (.ok y, k₂) ∧ q = y + headerSize ∧
      s'.Follows (cs ++ [.allocate request]) (k₂.count .allocations) ∧
      (∀ j, ((Heap.allocateBlock request).exec s.heap j).1 = .ok (.ok y, heap)) ∧
      s'.heap = heap.tally .allocations := by
  obtain ⟨hperf, hf'⟩ := hf.of_step (c := .allocate request) trivial h
  have hanswer := hperf.answer
  obtain ⟨r, h₁, j₁, hr, hend⟩ := HeapM.of_exec_bind (exec_of_step h).1
  cases r with
  | error reason => cases hend
  | ok ptr =>
    cases hend
    obtain ⟨y, h₂, hblock, rfl, hheap⟩ := Heap.of_allocate (congrArg Prod.fst hr)
    change _ = (k.allocate request).1.map some at hanswer
    change s'.Follows _ (k.allocate request).2 at hf'
    rw [Sketch.allocate] at hanswer hf'
    rcases hout : k.allocateBlock request with ⟨out, k₂⟩
    rw [hout] at hanswer hf'
    cases out with
    | error reason => cases hanswer
    | ok z =>
      obtain rfl : y = z := Nat.add_right_cancel (Option.some.inj (Except.ok.inj hanswer))
      exact ⟨y, k₂, h₂, rfl, rfl, hf', fun j =>
        HeapM.exec_journal (fun _ => Heap.mirrors_allocateBlock request) j hblock, hheap⟩

theorem Follows.movesLike (hf : s.Follows cs k) (hx : (x, t) ∈ k.blocks) (ht : t.used = true)
    (hr : blockSize? request = some size) (hlt : t.size < size) (hd : s.Declines x t size host) :
    s.MovesLike (s.rehost host) (x + headerSize) request (min request (t.size - headerSize)) := by
  intro q s₂ hstep₂
  have hg := hf.growTop_of_declines hd
  have hback := (hf.valid.growTop_false hg).backed
  obtain ⟨y, k₂, h₂, hout, rfl, hf₂, hblock, hheap₂⟩ := (hf.rehost host hback).of_allocated hstep₂
  have hsite : (x, t.size) ∈ Sketch.sites { k with host } true := mem_sites_iff.mpr ⟨t, hx, ht, rfl⟩
  obtain ⟨hv₂, hy, -⟩ := (hf.valid.charged.growTop_false hg).allocateBlock_ok hout
  -- the copy is nothing to the heap, and the old payload is still live
  have hcopied := (hf₂.shows.carry_yielded hsite hy).2.1
  have hf₂' : (s₂.mapMem (·.copy (x + headerSize) (y + headerSize)
      (min request (t.size - headerSize)))).Follows (cs ++ [.allocate request])
        (k₂.count .allocations) := { hf₂ with shows := hcopied }
  refine hf₂'.ends (hf₂'.allows ⟨x, t.size, hy.kept hsite, rfl⟩) ?_ ?_
  · intro d
    change ((k₂.count .allocations).free (x + headerSize)).stats.get d ≤ _
    rw [Sketch.free, Nat.add_sub_cancel]
    exact (((Sketch.freeBlock_rise _ x).trans (Stats.rise_bump _ .frees)) d).2
  intro s₃ hstep₃ _
  obtain ⟨h₅, j₅, hfree, hheap₃⟩ := of_freed hstep₃
  have hheap : (s₂.mapMem (·.copy (x + headerSize) (y + headerSize)
      (min request (t.size - headerSize)))).heap =
        (h₂.carry x y (min request (t.size - headerSize))).tally .allocations := by
    rw [mapMem, hheap₂]
    rfl
  rw [hheap] at hfree
  obtain ⟨h₃, rfl, hfree₃⟩ := (Heap.disregards_freeBlock x).spec hfree
  obtain ⟨hs₃, hm⟩ := Heap.reallocate_meets_of_moved hf.shows hf.valid.charged hx ht hr hlt hg hout
    hblock hfree₃
  refine ends_of_meets ((perform_meets_of_reallocate hm).mono ?_) ?_
  · rintro a h' ⟨r, rfl, rfl, rfl⟩
    refine ⟨rfl, ?_, ?_⟩
    · rw [hheap₃]
      rfl
    · rw [hheap₃]
      change ((h₃.stats.bump .reallocsMoved).bump .allocations).bump .frees =
        ((h₃.stats.bump .allocations).bump .frees).bump .reallocsMoved
      rw [Stats.bump_comm _ .reallocsMoved, Stats.bump_comm _ .reallocsMoved]
  · intro hfull
    refine ⟨.reallocsMoved, by simp, ?_⟩
    have hmoved := Stats.full_of_bump (hs₃.stats ▸ hs₃.fits) hfull
    have hrise := Sketch.allocateBlock_rise { k with host } request
    rw [hout] at hrise
    have hkeep : (k₂.freeBlock x).stats.get .reallocsMoved = k.stats.get .reallocsMoved :=
      (hrise.trans (Sketch.freeBlock_rise k₂ x)).get_eq rfl
    rwa [hs₃.stats, hkeep, ← hf.shows.stats] at hmoved

theorem Follows.blockSize_reallocate {q : Nat} (hf : s.Follows cs k)
    (hp : ptr ∈ s.live.pointers) (hr : blockSize? request = some size)
    (h : s.step (.reallocate ptr request) = .ok (.ok (some q), s')) :
    ∃ n, s'.heap.blockSize q = .ok n ∧ size ≤ n := by
  obtain ⟨x, l, hx, rfl⟩ := hf.site hp
  obtain ⟨hperf, hf'⟩ := hf.of_step (c := .reallocate (x + headerSize) request) hp h
  obtain ⟨-, -, hout⟩ := hf.valid.reallocate hx request
  have hanswer := hperf.answer
  change _ = (k.reallocate (x + headerSize) request).1.map some at hanswer
  change s'.Follows _ (k.reallocate (x + headerSize) request).2 at hf'
  rcases ho : k.reallocate (x + headerSize) request with ⟨out, k'⟩
  rw [ho] at hanswer hf' hout
  cases out with
  | error reason => cases hanswer
  | ok new =>
    cases hanswer
    obtain ⟨y, rfl, n, m, rest, -, hy, hle⟩ := hout
    have hsite : (y, m) ∈ k'.sites true := hy.symm.subset List.mem_cons_self
    refine ⟨m, hf'.shows.blockSize_payload hsite, ?_⟩
    exact blockSize?_le hr hle (hf'.shows.tidy.of_site hsite).2.2.2.1

/-- What a reallocation comes to. A block that is large enough stays as it is. A smaller one grows where
it is, if it is the last one and the host grants what is missing. Otherwise it moves as by an allocation,
a copy and a free. Whenever a pointer is the answer, its block is large enough. -/
theorem step_reallocate_resizes (hs : s.Reachable) (hp : x + headerSize ∈ s.live.pointers)
    (hblocks : s.heap.blocks = before ++ (x, t) :: after) (hr : blockSize? request = some size) :
    (size ≤ t.size → s.StaysPut (x + headerSize) request) ∧
    (t.size < size →
      (∀ host, x + t.size = s.heap.arena.top →
        Host.secure s.heap.host s.heap.arena.top (size - t.size) = (.ok (), host) →
          s.GrowsInPlace before x t request size host) ∧
      ∀ host, s.Declines x t size host →
        s.MovesLike (s.rehost host) (x + headerSize) request (min request (t.size - headerSize))) ∧
    ∀ q s', s.step (.reallocate (x + headerSize) request) = .ok (.ok (some q), s') →
      ∃ n, s'.heap.blockSize q = .ok n ∧ size ≤ n := by
  obtain ⟨cs, hrun⟩ := hs
  obtain ⟨k, hf⟩ := hrun.follows
  obtain ⟨hx, ht⟩ := hf.live_used (t := t) (by rw [hblocks]; simp) hp
  refine ⟨hf.staysPut hx ht hr, fun hlt => ⟨fun host htop hsec => ?_, fun host hd => ?_⟩, ?_⟩
  · rw [hf.shows.top] at htop
    rw [hf.shows.host, hf.shows.top] at hsec
    rw [hf.shows.blocks_eq] at hblocks
    obtain ⟨xs, us, hrow, rfl, hlast⟩ := located_eq_append hblocks
    obtain ⟨u, ys, rfl, he, -⟩ := located_eq_cons hlast.symm
    obtain ⟨rfl, rfl⟩ := Prod.mk.inj he
    obtain rfl : ys = [] :=
      (hf.valid.settled.hole_used hrow ht).end_iff.mp (by simpa using htop)
    exact hf.growsInPlace hp hrow rfl ht hr hlt hsec
  · exact hf.movesLike hx ht hr hlt hd
  · intro q s' h
    exact hf.blockSize_reallocate hp hr h

theorem step_reallocate_resizes_chunk :
    ∃ s s' s₁ : Session Reserve, Run [.allocate 24] s ∧ s.StaysPut 448 24 ∧ s.MovesLike s 448 56 24 ∧
      s.step (.reallocate 448 56) = .ok (.ok (some 480), s') ∧
      (∃ n, s'.heap.blockSize 480 = .ok n ∧ 64 ≤ n) ∧ Run [.allocate 24, .allocate 152] s₁ ∧
      s₁.GrowsInPlace [(440, ⟨32, true, true⟩)] 472 ⟨160, true, true⟩ 184 192 (.full 4096) := by
  obtain ⟨s, hr, hf⟩ := exists_run_allocate
  have hp : 440 + headerSize ∈ s.live.pointers := hf.tracks.owned (x := 440) (m := 32) (by decide)
  have hblocks : s.heap.blocks = [] ++ (440, ⟨32, true, true⟩) :: [(472, ⟨160, false, true⟩)] := by
    rw [hf.shows.blocks_eq]
    decide
  have hplace : ¬ 440 + 32 = s.heap.arena.top := by
    rw [hf.shows.top]
    decide
  obtain ⟨s', hstep, -, -⟩ := hf.advance (c := .reallocate 448 56) hr ⟨440, 32, by decide, rfl⟩
    (by decide) (by decide)
  obtain ⟨s₁, -, hr₁, hf₁⟩ := hf.advance (c := .allocate 152) hr trivial (by decide) (by decide)
  have hp₁ : 472 + headerSize ∈ s₁.live.pointers := hf₁.tracks.owned (x := 472) (m := 160) (by decide)
  have hblocks₁ : s₁.heap.blocks = [(440, ⟨32, true, true⟩)] ++ (472, ⟨160, true, true⟩) :: [] := by
    rw [hf₁.shows.blocks_eq]
    decide
  have htop₁ : s₁.heap.arena.top = 632 := by rw [hf₁.shows.top]; decide
  have hhost₁ : s₁.heap.host = .full 4096 := by rw [hf₁.shows.host]; rfl
  have hsame : blockSize? 24 = some 32 := rfl
  have hmore : blockSize? 56 = some 64 := rfl
  have hwide : blockSize? 184 = some 192 := rfl
  have hgrow := ((step_reallocate_resizes ⟨_, hr₁⟩ hp₁ hblocks₁ hwide).2.1 (by decide)).1 (.full 4096)
  rw [htop₁, hhost₁] at hgrow
  have hmove := step_reallocate_resizes ⟨_, hr⟩ hp hblocks hmore
  refine ⟨s, s', s₁, hr, (step_reallocate_resizes ⟨_, hr⟩ hp hblocks hsame).1 (by decide), ?_, hstep,
    hmove.2.2 480 s' hstep, hr₁, hgrow rfl rfl⟩
  exact (hmove.2.1 (by decide)).2 s.heap.host (by rw [Declines, if_neg hplace])

end Session

end SegregatedFit
