import Mathlib
import SegregatedFit.Proofs.Ledger
import SegregatedFit.Proofs.Performing
import SegregatedFit.Proofs.Mirrored

/-!
What the operations of a heap report of the free blocks. Most steps report nothing of them; a placed
block, a carved chunk and a freed block are reported once each, and by what is reported the lists of
free blocks are the stacks that the journal tells of. A host may report whatever it likes, so the
operations are run over a host that keeps silent.
-/
namespace SegregatedFit

variable {H α β : Type}

/-- A host that reports nothing, and the host that stands behind it. -/
structure Quiet (H : Type) where
  host : H

namespace Quiet

variable [Host H]

instance : Host (Quiet H) where
  base q := Host.base q.host
  committed q := Host.committed q.host
  extend q n := ⟨⟨(Host.extend q.host n).host⟩, (Host.extend q.host n).granted, #[]⟩

instance [LawfulHost H] : LawfulHost (Quiet H) where
  base_extend q n := LawfulHost.base_extend q.host n
  of_granted {q _ _} hn hg := LawfulHost.of_granted (h := q.host) hn hg
  of_refused {q n _} hr := LawfulHost.of_refused (h := q.host) (n := n) hr

def coupling (host : H) : Host.Coupling H (Quiet H) :=
  .ofExtend ⟨⟨host⟩⟩ (fun host q => q.host = host) (fun _ => True)
    (by rintro _ q rfl; rfl) (fun _ _ _ => trivial) (by rintro _ q n rfl - -; exact ⟨rfl, rfl⟩)

end Quiet

namespace HeapM

structure Silent (x : HeapM H α) : Prop where
  spec (h : Heap H) (j : Journal) : (x.exec h j).2.listed = j.listed

/-- Where the journal tells of the listed blocks, the computation ends as the condition says, unless it
faults. The condition is also about the blocks that the journal tells of in the end. -/
structure Enters (x : HeapM H α) (h : Heap H) (listed : List (Nat × Nat))
    (Q : α → Heap H → List (Nat × Nat) → Prop) : Prop where
  spec {j j' : Journal} {a : α} {h' : Heap H} : j.listed = listed → x.exec h j = (.ok (a, h'), j') →
    Q a h' j'.listed

variable {x : HeapM H α} {f : α → HeapM H β} {h h' : Heap H} {listed : List (Nat × Nat)} {limit : Stats}
  {a : α} {P : α → Heap H → Prop} {Q Q' : α → Heap H → List (Nat × Nat) → Prop}
  {R : β → Heap H → List (Nat × Nat) → Prop}

theorem silent_pure (a : α) : Silent (pure a : HeapM H α) := ⟨fun _ _ => rfl⟩

theorem silent_lift (y : Except Fault α) : Silent (liftM y : HeapM H α) :=
  ⟨fun h j => by rw [exec_lift]⟩

theorem Silent.bind (hx : x.Silent) (hf : ∀ a, (f a).Silent) : (x >>= f).Silent := by
  refine ⟨fun h j => ?_⟩
  have hj := hx.spec h j
  rw [exec_bind]
  match hr : x.exec h j with
  | (.ok (a, h'), j') =>
    rw [hr] at hj
    exact ((hf a).spec h' j').trans hj
  | (.error e, j') =>
    rw [hr] at hj
    exact hj

theorem silent_get {f : Heap H → HeapM H β} (hf : ∀ h, (f h).Silent) :
    ((get : HeapM H (Heap H)) >>= f).Silent :=
  Silent.bind ⟨fun _ _ => rfl⟩ hf

theorem silent_ite {p : Prop} [Decidable p] {y : HeapM H α} (hx : x.Silent) (hy : y.Silent) :
    (if p then x else y).Silent := by
  split
  · exact hx
  · exact hy

theorem enters_pure (hq : Q a h listed) : (pure a : HeapM H α).Enters h listed Q :=
  ⟨fun hj hr => by cases hr; exact hj ▸ hq⟩

theorem Enters.mono (hx : x.Enters h listed Q) (hq : ∀ a h' l, Q a h' l → Q' a h' l) :
    x.Enters h listed Q' :=
  ⟨fun hj hr => hq _ _ _ (hx.spec hj hr)⟩

theorem Enters.bind (hx : x.Enters h listed Q) (hf : ∀ a h' l, Q a h' l → (f a).Enters h' l R) :
    (x >>= f).Enters h listed R := by
  refine ⟨fun {j j'} b k hj hr => ?_⟩
  rw [exec_bind] at hr
  match hx' : x.exec h j with
  | (.ok (a, h'), j₁) =>
    rw [hx'] at hr
    exact (hf a h' _ (hx.spec hj hx')).spec rfl hr
  | (.error e, j₁) =>
    rw [hx'] at hr
    cases hr

theorem Enters.meets (hx : x.Enters h listed Q) (hm : x.Meets h limit P) :
    x.Enters h listed fun a h' l => Q a h' l ∧ P a h' :=
  ⟨fun hj hr => ⟨hx.spec hj hr, hm.of_ok (congrArg Prod.fst hr)⟩⟩

theorem Silent.enters (hx : x.Silent) (h : Heap H) (listed : List (Nat × Nat)) :
    x.Enters h listed fun _ _ l => l = listed := by
  refine ⟨fun {j j'} a h' hj hr => ?_⟩
  rw [← hj, ← hx.spec h j, hr]

theorem Silent.then (hx : x.Silent) (hf : ∀ a h', (f a).Enters h' listed R) :
    (x >>= f).Enters h listed R :=
  (hx.enters h listed).bind fun a h' _ hl => hl ▸ hf a h'

theorem Silent.then_meets (hx : x.Silent) (limit : Stats) (hm : x.Meets h limit P)
    (hf : ∀ a h', P a h' → (f a).Enters h' listed R) : (x >>= f).Enters h listed R :=
  ((hx.enters h listed).meets hm).bind fun a h' _ hl => hl.1 ▸ hf a h' hl.2

theorem Silent.then_step (hx : x.Silent) (hr : ∀ j, (x.exec h j).1 = .ok (a, h'))
    (hf : (f a).Enters h' listed R) : (x >>= f).Enters h listed R :=
  hx.then_meets {} (P := fun b k => b = a ∧ k = h') (meets_step hr ⟨rfl, rfl⟩)
    fun _ _ hb => by rw [hb.1, hb.2]; exact hf

end HeapM

namespace Heap

open HeapM Row

theorem silent_note {e : Event} (he : ∀ l, Event.enter l e = l) : (note e : HeapM H Unit).Silent :=
  ⟨fun _ j => (Journal.listed_push j e).trans (he _)⟩

theorem silent_fail (e : Fault) : (fail e : HeapM H α).Silent := ⟨fun _ _ => rfl⟩

theorem silent_view (f : Arena → Except Fault α) : (view f : HeapM H α).Silent :=
  ⟨fun h j => by rw [exec_view]⟩

theorem silent_edit (f : Arena → Except Fault Arena) : (edit f : HeapM H Unit).Silent :=
  ⟨fun h j => by rw [exec_edit]⟩

theorem silent_relink (f : Bins → Arena → Except Fault (Bins × Arena)) :
    (relink f : HeapM H Unit).Silent :=
  ⟨fun h j => by rw [exec_relink]⟩

theorem silent_account (f : Stats → Except Fault Stats) : (account f : HeapM H Unit).Silent :=
  ⟨fun h j => by rw [exec_account]⟩

theorem silent_count (c : Counter) : (count c : HeapM H Unit).Silent := silent_account _

theorem silent_setTopUsed (b : Bool) : (setTopUsed b : HeapM H Unit).Silent := ⟨fun _ _ => rfl⟩

theorem silent_recordHeapSize : (recordHeapSize : HeapM H Unit).Silent := ⟨fun _ _ => rfl⟩

theorem silent_blockAt (ptr : Nat) : (blockAt ptr : HeapM H Nat).Silent :=
  (silent_view _).bind fun off => silent_lift (minus off headerSize)

theorem silent_payload (block : Nat) : (payload block : HeapM H Nat).Silent :=
  (silent_lift _).bind fun off => silent_view (·.pointer off)

theorem silent_verify (op : Operation) : (verify op : HeapM H Unit).Silent := by
  refine silent_get fun h => silent_ite ?_ (silent_pure _)
  refine silent_get fun h => (silent_lift _).bind fun r => ?_
  cases r with
  | ok _ => exact silent_pure _
  | error found => exact (silent_note fun _ => rfl).bind fun _ => silent_get fun _ => silent_fail _

theorem silent_markPrevUsed (next : Nat) : (markPrevUsed next : HeapM H Unit).Silent :=
  silent_get fun _ =>
    silent_ite ((silent_view _).bind fun _ => silent_edit _) (silent_setTopUsed true)

theorem silent_mergePrev (block : Nat) (tag : Tag) : (mergePrev block tag : HeapM H Run).Silent := by
  unfold mergePrev
  split
  · exact silent_pure _
  · exact (silent_view _).bind fun prev => (silent_view _).bind fun prevTag =>
      (silent_relink _).bind fun _ => (silent_lift _).bind fun size =>
        (silent_count _).bind fun _ => silent_pure _

theorem silent_mergeNext (run : Run) : (mergeNext run : HeapM H Run).Silent := by
  unfold mergeNext
  refine (silent_lift _).bind fun next => silent_get fun h =>
    silent_ite (silent_pure _) ((silent_view _).bind fun nextTag => silent_ite ?_ ?_)
  · exact (silent_edit _).bind fun _ => silent_pure _
  · exact (silent_relink _).bind fun _ => (silent_lift _).bind fun size =>
      (silent_count _).bind fun _ => silent_pure _

theorem silent_firstFit (size : Nat) : (firstFit size : HeapM H (Option Nat)).Silent :=
  silent_get fun h => silent_view (h.bins.firstFit · size)

section

variable [Host H]

theorem silent_commit (delta : Nat) : (commit delta : HeapM (Quiet H) _).Silent :=
  ⟨fun h j => by rw [exec_commit]; exact congrArg Journal.listed (Array.append_empty)⟩

theorem silent_cover (top : Nat) : (cover top : HeapM (Quiet H) _).Silent :=
  silent_get fun _ => silent_ite ((silent_commit _).bind fun _ => silent_pure _) (silent_pure _)

theorem silent_grow (delta : Nat) : (grow delta : HeapM (Quiet H) _).Silent := by
  refine silent_get fun h => silent_ite (silent_pure _) ((silent_cover _).bind fun r => ?_)
  cases r with
  | ok _ => exact (silent_edit _).bind fun _ => silent_pure _
  | error reason => exact silent_pure _

theorem silent_growOrWarn (delta : Nat) : (growOrWarn delta : HeapM (Quiet H) _).Silent := by
  refine (silent_grow delta).bind fun r => ?_
  cases r with
  | ok top => exact silent_pure _
  | error reason => exact (silent_note fun _ => rfl).bind fun _ => silent_pure _

theorem silent_growChunk (size : Nat) : (growChunk size : HeapM (Quiet H) _).Silent := by
  have hlast (delta : Nat) :
      (do return (← growOrWarn delta).map (·, delta) : HeapM (Quiet H) _).Silent :=
    (silent_growOrWarn delta).bind fun _ => silent_pure _
  refine silent_ite ((silent_grow _).bind fun r => ?_) (hlast _)
  cases r with
  | ok block => exact silent_pure _
  | error reason => exact hlast size

theorem silent_growTop (block : Nat) (tag : Tag) (size : Nat) :
    (growTop block tag size : HeapM (Quiet H) Bool).Silent := by
  unfold growTop
  refine (silent_lift _).bind fun off => silent_get fun h =>
    silent_ite (silent_pure _) ((silent_grow _).bind fun r => ?_)
  cases r with
  | ok top =>
    exact (silent_edit _).bind fun _ => (silent_account _).bind fun _ => (silent_count _).bind fun _ =>
      (silent_count _).bind fun _ => silent_recordHeapSize.bind fun _ =>
        (silent_note fun _ => rfl).bind fun _ => silent_pure _
  | error reason => exact (silent_note fun _ => rfl).bind fun _ => silent_pure _

end

variable {h : Heap H} {k : Sketch H} {listed : List (Nat × Nat)} {n request size x y : Nat} {t : Tag}
  {fs gs xs ys : Row}

theorem enters_lift {y : Except Fault α} {a : α} {f : α → HeapM H β}
    {R : β → Heap H → List (Nat × Nat) → Prop} (hy : y = .ok a) (hf : (f a).Enters h listed R) :
    ((liftM y : HeapM H α) >>= f).Enters h listed R :=
  (silent_lift y).then_step (fun j => by rw [exec_lift, hy]; rfl) hf

theorem enters_view {g : Arena → Except Fault α} {a : α} {f : α → HeapM H β}
    {R : β → Heap H → List (Nat × Nat) → Prop} (hg : g h.arena = .ok a)
    (hf : (f a).Enters h listed R) : (view g >>= f).Enters h listed R :=
  (silent_view g).then_step (fun j => by rw [exec_view, hg]; rfl) hf

theorem enters_edit {g : Arena → Except Fault Arena} {a : Arena} {f : Unit → HeapM H β}
    {R : β → Heap H → List (Nat × Nat) → Prop} (hg : g h.arena = .ok a)
    (hf : (f ()).Enters { h with arena := a } listed R) : (edit g >>= f).Enters h listed R :=
  (silent_edit g).then_step (fun j => by rw [exec_edit, hg]; rfl) hf

theorem enters_note (e : Event) :
    (note e).Enters h listed fun _ h' l => h' = h ∧ l = Event.enter listed e :=
  ⟨fun hj hr => by cases hr; exact ⟨rfl, hj ▸ Journal.listed_push _ e⟩⟩

theorem enters_note_heap (e : Heap H → Event) :
    HeapM.Enters (do note (e (← get)) : HeapM H Unit) h listed
      fun _ h' l => l = Event.enter listed (e h') :=
  ⟨fun hj hr => by cases hr; exact hj ▸ Journal.listed_push _ _⟩

theorem place_enters (hs : h.Shows k) (hx : (x, t) ∈ k.blocks) (hle : size ≤ t.size) :
    (place x size).Enters h listed fun _ _ l => l = Event.enter listed
      (if t.size - size < minSplit then .reused x t.size else .split x size (t.size - size)) := by
  apply enters_view (hs.tag_eq hx)
  apply enters_lift (minus_eq_ok hle)
  refine (silent_relink _).then fun _ h₁ => ?_
  by_cases hrest : t.size - size < minSplit
  · rw [if_pos hrest, if_pos hrest]
    exact (silent_edit _).then fun _ _ => (silent_view _).then fun next _ =>
      (silent_markPrevUsed next).then fun _ _ => (enters_note _).mono fun _ _ _ hl => hl.2
  · rw [if_neg hrest, if_neg hrest]
    exact (silent_lift _).then fun _ _ => (silent_edit _).then fun _ _ => (silent_edit _).then
      fun _ _ => (silent_relink _).then fun _ _ => (silent_count _).then fun _ _ =>
        (enters_note _).mono fun _ _ _ hl => hl.2

theorem carve_enters (h : Heap H) (block size chunk : Nat) :
    (carve block size chunk).Enters h listed fun _ h' l =>
      l = Event.enter listed (.grew chunk size h'.size) := by
  have hend (h : Heap H) : HeapM.Enters (do
      count .heapGrows
      recordHeapSize
      note (.grew chunk size (← get).size) : HeapM H Unit) h listed fun _ h' l =>
        l = Event.enter listed (.grew chunk size h'.size) :=
    (silent_count _).then fun _ _ => silent_recordHeapSize.then fun _ _ =>
      enters_note_heap fun h => .grew chunk size h.size
  refine Silent.then ⟨fun _ _ => rfl⟩ fun _ _ => (silent_edit _).then fun _ _ => ?_
  split
  · exact (silent_lift _).then fun _ _ => (silent_edit _).then fun _ _ => (silent_relink _).then
      fun _ _ => (silent_setTopUsed false).then fun _ h => hend h
  · exact (silent_setTopUsed true).then fun _ h => hend h

theorem release_enters (h : Heap H) (run : Run) :
    (release run).Enters h listed fun _ h' l => l = Event.enter listed (.released run.size h'.size) :=
  (silent_edit _).then fun _ _ => (silent_setTopUsed true).then fun _ _ => (silent_count _).then
    fun _ _ => silent_recordHeapSize.then fun _ _ => enters_note_heap fun h => .released run.size h.size

theorem list_enters (h : Heap H) (run : Run) :
    (list run).Enters h listed fun _ _ l => l = Event.enter listed (.freed run.start run.size) :=
  (silent_edit _).then fun _ _ => (silent_relink _).then fun _ _ =>
    (enters_note _).mono fun _ _ _ hl => hl.2

theorem settleRun_enters {run : Run} {us : Row} {d : Nat} (hs : h.Shows k)
    (hk : k.Digs run xs us ys false x n d) :
    HeapM.Enters (do
      if (← plus run.start run.size) = (← get).arena.top then release run else list run : HeapM H Unit)
      h listed fun _ _ l => l = Event.enter listed
        (if run.start + run.size = k.top then .released run.size (run.start - prologueSize)
          else .freed run.start run.size) := by
  have hroom := hk.hole.tidy.room
  have htop := hk.hole.top_eq
  have hend : run.start + run.size < wordLimit := by
    rw [hk.start, hk.size]
    omega
  apply enters_lift (plus_eq_ok hend)
  refine Silent.then_step ⟨fun _ _ => rfl⟩ (fun j => by rw [exec_get]) ?_
  rw [hs.top]
  by_cases hlast : run.start + run.size = k.top
  · obtain rfl := hk.end_iff.mp hlast
    rw [if_pos hlast, if_pos hlast]
    refine ((release_enters h run).meets (release_meets hs hk (Stats.Below.refl _))).mono ?_
    rintro _ h' _ ⟨rfl, hs', -⟩
    have hsize : h'.size = run.start - prologueSize := by
      rw [size, Arena.size, hs'.low, hs'.top, hk.top_release, hk.start]
    rw [hsize]
  · rw [if_neg hlast, if_neg hlast]
    exact list_enters h run

theorem freeBlock_enters (hs : h.Shows k) (hk : k.Charged) (hx : (x, n) ∈ k.sites true)
    (hb : k.Books listed) :
    (freeBlock x).Enters h listed fun _ _ l => (k.freeBlock x).Books l := by
  obtain ⟨xs, fs, t, gs, ys, hbasin, hxs, hu, rfl⟩ := hk.settled.basin hx
  have hrow : k.row = (xs ++ fs) ++ t :: (gs ++ ys) := hbasin.row
  have hin : (x, t) ∈ k.blocks := mem_located_iff.mpr ⟨xs ++ fs, gs ++ ys, hrow, hxs⟩
  have hh : (k.discharge t.size).Hole (xs ++ fs) [t] (gs ++ ys) true :=
    (hk.settled.hole_used hrow hu).congr rfl rfl
  obtain ⟨xs₁, us₁, hd₁⟩ := hk.settled.mergePrev_digs hrow hxs hu
  obtain ⟨us₂, ys₂, hd₂, -, htop⟩ := hd₁.mergeNext
  have hdis : (account (·.discharge t.size) : HeapM H Unit).Meets h (k.discharge t.size).stats
      fun _ h' => h'.Shows (k.discharge t.size) :=
    Meets.last (meets_discharge_shown hs (hk.size_le hx) fun h' hs' _ => meets_pure hs')
  apply enters_view (hs.tag_eq hin)
  rw [if_neg (by simp [hu])]
  refine (silent_account _).then_meets _ hdis fun _ h₀ hs₀ => ?_
  refine (silent_mergePrev _ _).then_meets _
    (mergePrev_meets hs₀ hh (hk.settled.prevUsed_eq hrow) hxs (Stats.Below.refl _)) ?_
  rintro _ h₁ ⟨rfl, hs₁, -⟩
  refine (silent_mergeNext _).then_meets _ (mergeNext_meets hs₁ hd₁ (Stats.Below.refl _)) ?_
  rintro _ h₂ ⟨rfl, hs₂, -⟩
  refine (settleRun_enters hs₂ hd₂).mono fun _ _ l hl => ?_
  have hbooks := hb.freeBlock hk.settled hbasin hxs hu
  have hlast := hk.settled.tidy.basin_end_iff hbasin
  have htop' : ((k.discharge t.size).mergePrev x t).1.top = k.top := by
    rw [Sketch.top, Sketch.row_mergePrev]
    rfl
  rw [htop, htop', hk.settled.merge_basin hbasin hxs] at hl
  simp only [hlast, Nat.add_sub_cancel_left] at hl
  rw [hl]
  exact hbooks

theorem free_enters (hs : h.Shows k) (hk : k.Charged) (hx : (x, n) ∈ k.sites true)
    (hb : k.Books listed) :
    (free (x + headerSize)).Enters h listed fun _ _ l => (k.free (x + headerSize)).Books l := by
  obtain ⟨t, ht, -, -⟩ := mem_sites_iff.mp hx
  rw [Sketch.free, Nat.add_sub_cancel]
  refine (silent_blockAt _).then_meets {} (blockAt_meets hs ht) ?_
  rintro _ _ ⟨rfl, rfl⟩
  refine (freeBlock_enters hs hk hx hb).bind fun _ _ l hb' => (silent_count _).then fun _ h' => ?_
  exact ((silent_verify _).enters h' l).mono fun _ _ _ hl => hl ▸ hb'.congr rfl rfl

section

variable [Host H] {h : Heap (Quiet H)} {k k' : Sketch (Quiet H)}

theorem extend_enters (hs : h.Shows k) (hk : k.Settled)
    (hsize : minBlock ≤ size ∧ size % alignment = 0) (hb : k.Books listed) :
    (extend size).Enters h listed fun _ _ l => (k.extend size).2.Books l := by
  refine (silent_growChunk size).then_meets {} (growChunk_meets h size) ?_
  intro r h₁ hr
  unfold Sketch.extend
  rw [hs.host, hs.top] at hr
  match hc : Host.secureChunk k.host k.top size with
  | (.error reason, host) =>
    rw [hc] at hr
    obtain ⟨rfl, rfl⟩ := hr
    exact enters_pure (hb.congr rfl rfl)
  | (.ok chunk, host) =>
    rw [hc] at hr
    obtain ⟨rfl, rfl⟩ := hr
    obtain ⟨hroom, hle, hmod, hrest⟩ := Host.chunk_of_secureChunk hsize hc
    have hk' : Sketch.Settled { k with host } := hk.congr rfl rfl rfl
    have hb' : Sketch.Books { k with host } listed := hb.congr rfl rfl
    refine ((carve_enters _ k.top size chunk).meets (carve_meets (hs.rehost host) hk' rfl hsize hle hmod
      hrest hroom (Stats.Below.refl _))).bind ?_
    rintro _ h₂ _ ⟨rfl, hs₂, -⟩
    have hsize₂ : h₂.size = span (Sketch.carve { k with host } size chunk).row := by
      rw [Heap.size, Arena.size, hs₂.low, hs₂.top, Sketch.top, Nat.add_sub_cancel_left]
    rw [hsize₂]
    exact enters_pure (hb'.carve size chunk)

theorem obtain_enters (hs : h.Shows k) (hk : k.Settled)
    (hsize : minBlock ≤ size ∧ size % alignment = 0) (hb : k.Books listed) :
    (obtain size).Enters h listed fun _ _ l => (k.obtain size).2.Books l := by
  refine (silent_firstFit size).then_meets {} (firstFit_meets hs size) ?_
  rintro _ _ ⟨rfl, rfl⟩
  unfold Sketch.obtain
  match hf : k.firstFit size with
  | none => exact extend_enters hs hk hsize hb
  | some x =>
    obtain ⟨b, hx, hfits⟩ := Sketch.firstFit_some hf
    obtain ⟨xs, t, ys, hrow, hxs, hu, hle, -⟩ := hk.of_listed hx hfits
    refine (place_enters hs (mem_located_iff.mpr ⟨xs, ys, hrow, hxs⟩) hle).bind ?_
    rintro _ h₁ _ rfl
    exact enters_pure (hb.place hk hrow hxs hu hle)

theorem allocateBlock_enters (hs : h.Shows k) (hk : k.Settled) (hb : k.Books listed) :
    (allocateBlock request).Enters h listed fun _ _ l => (k.allocateBlock request).2.Books l := by
  unfold allocateBlock Sketch.allocateBlock
  match hr : blockSize? request with
  | none => exact enters_pure hb
  | some size =>
    dsimp only
    obtain ⟨-, hsize⟩ := Sketch.blockSize?_some hr
    refine ((obtain_enters hs hk hsize hb).meets
      (obtain_meets hs hk hsize (Stats.Below.refl _))).bind ?_
    rintro r h₁ l ⟨hb₁, hlands⟩
    match ho : k.obtain size with
    | (.error reason, k₁) =>
      rw [ho] at hb₁ hlands
      obtain rfl := hlands.answer
      exact enters_pure hb₁
    | (.ok x, k₁) =>
      rw [ho] at hb₁ hlands
      obtain rfl := hlands.answer
      exact (silent_view _).then fun _ _ => (silent_account _).then fun _ _ =>
        enters_pure (hb₁.congr rfl rfl)

theorem allocate_enters (hs : h.Shows k) (hk : k.Charged) (hb : k.Books listed) :
    (allocate request).Enters h listed fun _ _ l => (k.allocate request).2.Books l := by
  refine ((allocateBlock_enters hs hk.settled hb).meets
    (allocateBlock_meets hs hk (Stats.Below.refl _))).bind ?_
  rintro r h₁ l ⟨hb₁, hlands⟩
  unfold Sketch.allocate
  match ho : k.allocateBlock request with
  | (.error reason, k₁) =>
    rw [ho] at hb₁ hlands
    obtain rfl := hlands.answer
    exact enters_pure hb₁
  | (.ok x, k₁) =>
    rw [ho] at hb₁ hlands
    obtain rfl := hlands.answer
    exact (silent_count _).then fun _ _ => (silent_verify _).then fun _ _ =>
      (silent_payload x).then fun _ _ => enters_pure (hb₁.congr rfl rfl)

omit [Host H] in
theorem moveInto_enters {k₀ : Sketch (Quiet H)} (hs : h.Shows k) (hk : k.Charged)
    (hx : (x, t.size) ∈ k₀.sites true) (hy : k₀.Yields k y (request + headerSize))
    (hb : k.Books listed) :
    (moveInto x y t request).Enters h listed fun _ _ l => (k.freeBlock x).Books l := by
  have hbx := hs.tidy.of_site (hy.kept hx)
  have hby := hs.tidy.of_site hy.site
  have hroom := hs.tidy.room
  have h8 : headerSize = 8 := rfl
  have h32 : minBlock = 32 := rfl
  obtain ⟨hcopy, hs₁, -⟩ := hs.carry_yielded hx hy
  apply enters_lift (minus_eq_ok (by omega))
  apply enters_lift (plus_eq_ok (by omega))
  apply enters_lift (plus_eq_ok (by omega))
  apply enters_edit hcopy
  refine (freeBlock_enters hs₁ hk (hy.kept hx) hb).bind fun _ _ l hb' => ?_
  exact (silent_count _).then fun _ _ => (enters_note _).mono fun _ _ _ hl => hl.2 ▸ hb'

theorem enlarge_enters (hs : h.Shows k) (hk : k.Charged) (hx : (x, t) ∈ k.blocks)
    (ht : t.used = true) (hr : blockSize? request = some size) (hlt : t.size < size)
    (hb : k.Books listed) :
    (enlarge (x + headerSize) x t request size).Enters h listed fun _ _ l =>
      (k.enlarge (x + headerSize) x t request size).2.Books l := by
  obtain ⟨xs, ys, hrow, hxs⟩ := mem_located_iff.mp hx
  have hsite : (x, t.size) ∈ k.sites true := mem_sites_iff.mpr ⟨t, hx, ht, rfl⟩
  obtain ⟨hreq, hsize⟩ := Sketch.blockSize?_some hr
  refine (silent_growTop x t size).then_meets _
    (growTop_meets hs hk hrow hxs ht hlt hsize.2 (Stats.Below.refl _)) ?_
  rintro _ h₁ ⟨rfl, hs₁, -⟩
  unfold Sketch.enlarge
  match hg : k.growTop x t size with
  | (true, k₁) =>
    exact (silent_verify _).then fun _ _ => enters_pure (hb.growTop hk.settled hrow hxs ht hg)
  | (false, k₁) =>
    have hk₁ := hk.growTop_false hg
    have hsites : k₁.sites true = k.sites true := by rw [Sketch.growTop_false hg]; rfl
    have hb₁ : k₁.Books listed := by
      rw [Sketch.growTop_false hg]
      exact hb.congr rfl rfl
    rw [hg] at hs₁
    refine ((allocateBlock_enters hs₁ hk₁.settled hb₁).meets
      (allocateBlock_meets hs₁ hk₁ (Stats.Below.refl _))).bind ?_
    rintro r h₂ l ⟨hb₂, hlands⟩
    dsimp only
    match ha : k₁.allocateBlock request with
    | (.error reason, k₂) =>
      rw [ha] at hb₂ hlands
      obtain rfl := hlands.answer
      exact enters_pure hb₂
    | (.ok y, k₂) =>
      rw [ha] at hb₂ hlands
      obtain rfl := hlands.answer
      obtain ⟨hk₂, hy, -⟩ := hk₁.allocateBlock_ok ha
      refine (moveInto_enters hlands.shows hk₂ hsite (hy.congr hsites) hb₂).bind fun _ _ l hb₃ => ?_
      exact (silent_verify _).then fun _ _ => (silent_payload y).then fun _ _ =>
        enters_pure (hb₃.congr rfl rfl)

theorem reallocate_enters (hs : h.Shows k) (hk : k.Charged) (hx : (x, n) ∈ k.sites true)
    (hb : k.Books listed) :
    (reallocate (x + headerSize) request).Enters h listed fun _ _ l =>
      (k.reallocate (x + headerSize) request).2.Books l := by
  obtain ⟨t, ht, hu, rfl⟩ := mem_sites_iff.mp hx
  obtain ⟨xs, ys, hrow, hxs⟩ := mem_located_iff.mp ht
  refine (silent_blockAt _).then_meets {} (blockAt_meets hs ht) ?_
  rintro _ _ ⟨rfl, rfl⟩
  unfold Sketch.reallocate
  rw [Nat.add_sub_cancel, hk.settled.tidy.cut_eq hrow hxs]
  match hr : blockSize? request with
  | none => exact enters_pure hb
  | some size =>
    dsimp only
    apply enters_view (hs.tag_eq ht)
    rw [if_neg (by simp [hu])]
    by_cases hle : size ≤ t.size
    · rw [if_pos hle, if_pos hle]
      exact (silent_count _).then fun _ _ => enters_pure (hb.congr rfl rfl)
    · rw [if_neg hle, if_neg hle]
      exact enlarge_enters hs hk ht hu hr (Nat.not_le.mp hle) hb

theorem init_enters (h : Heap (Quiet H)) :
    init.Enters h listed fun r _ l => r = .ok () → l = [] := by
  refine (silent_edit _).then fun _ _ => (silent_grow _).then fun r _ => ?_
  cases r with
  | ok _ =>
    exact (silent_edit _).then fun _ _ => (silent_relink _).then fun _ _ =>
      (silent_setTopUsed true).then fun _ _ => (silent_account _).then fun _ _ =>
        (enters_note _).bind fun _ _ _ hl => enters_pure fun _ => hl.2
  | error reason => exact enters_pure fun hr => by cases hr

/-- Whatever a call puts into the lists and takes out of them, the journal tells. -/
theorem perform_enters {c : Call} (hs : h.Shows k) (hk : k.Valid) (hc : k.Admits c)
    (hb : k.Books listed) : c.perform.Enters h listed fun _ _ l => (k.perform c).2.Books l := by
  cases c with
  | allocate request =>
    exact (allocate_enters hs hk.charged hb).bind fun _ _ _ hb' => enters_pure hb'
  | free ptr =>
    obtain ⟨x, n, hx, rfl⟩ := hc
    exact (free_enters hs hk.charged hx hb).bind fun _ _ _ hb' => enters_pure hb'
  | reallocate ptr request =>
    obtain ⟨x, n, hx, rfl⟩ := hc
    exact (reallocate_enters hs hk.charged hx hb).bind fun _ _ _ hb' => enters_pure hb'
  | init =>
    have hinit : (Call.init.perform : HeapM (Quiet H) Answer).Enters h listed
        fun a _ l => a = .ok none → l = [] :=
      (init_enters h).bind fun r _ l hl => enters_pure fun ha => hl (by cases r <;> trivial)
    refine (hinit.meets (perform_init_meets hs hk {})).mono ?_
    rintro a _ l ⟨hl, hperf⟩
    rw [hl hperf.answer]
    exact Sketch.books_empty k.host k.config
  | write ptr i b =>
    exact (silent_edit _).then fun _ _ => enters_pure hb

end

end Heap

end SegregatedFit
