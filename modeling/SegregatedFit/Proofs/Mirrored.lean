import Mathlib
import SegregatedFit.Proofs.Mirrors

/-!
Every operation mirrors itself on another host, part by part.
-/
namespace SegregatedFit

variable {H H' : Type} [Host H] [Host H'] {C : Host.Coupling H H'}

namespace Heap

open HeapM

theorem mirrors_enlist (block : Nat) : Mirrors C Eq (enlist block) (enlist block) :=
  mirrors_relink _

theorem mirrors_unlist (block : Nat) : Mirrors C Eq (unlist block) (unlist block) :=
  mirrors_relink _

theorem mirrors_blockAt (ptr : Nat) : Mirrors C Eq (blockAt ptr) (blockAt ptr) :=
  (mirrors_view _).then fun off => mirrors_lift (minus off headerSize)

theorem mirrors_payload (block : Nat) : Mirrors C Eq (payload block) (payload block) :=
  (mirrors_lift _).then fun off => mirrors_view (·.pointer off)

theorem mirrors_verify (op : Operation) : Mirrors C Eq (verify op) (verify op) := by
  refine mirrors_get fun h host => mirrors_ite ?_ (mirrors_pure rfl)
  refine mirrors_get fun h host => (mirrors_lift h.check).then fun r => ?_
  cases r with
  | ok _ => exact mirrors_pure rfl
  | error found =>
    exact (mirrors_note _ _).then fun _ => mirrors_get fun h host =>
      mirrors_fail (.corrupted h.config.onCorruption op found)

theorem mirrors_markPrevUsed (next : Nat) :
    Mirrors C Eq (markPrevUsed next) (markPrevUsed next) :=
  mirrors_get fun _ _ =>
    mirrors_ite ((mirrors_view _).then fun _ => mirrors_edit _) (mirrors_setTopUsed true)

theorem mirrors_place (block size : Nat) : Mirrors C Eq (place block size) (place block size) := by
  unfold place
  refine (mirrors_view _).then fun tag => (mirrors_lift _).then fun rest =>
    (mirrors_unlist block).then fun _ => ?_
  split
  · exact (mirrors_edit _).then fun _ => (mirrors_view _).then fun next =>
      (mirrors_markPrevUsed next).then fun _ => mirrors_note _ _
  · exact (mirrors_lift _).then fun cut => (mirrors_edit _).then fun _ => (mirrors_edit _).then
      fun _ => (mirrors_enlist cut).then fun _ => (mirrors_count _).then fun _ => mirrors_note _ _

theorem mirrors_mergePrev (block : Nat) (tag : Tag) :
    Mirrors C Eq (mergePrev block tag) (mergePrev block tag) := by
  unfold mergePrev
  split
  · exact mirrors_pure rfl
  · exact (mirrors_view _).then fun prev => (mirrors_view _).then fun prevTag =>
      (mirrors_unlist prev).then fun _ => (mirrors_lift _).then fun size =>
        (mirrors_count _).then fun _ => mirrors_pure rfl

theorem mirrors_mergeNext (run : Run) : Mirrors C Eq (mergeNext run) (mergeNext run) := by
  unfold mergeNext
  refine (mirrors_lift _).then fun next => mirrors_get fun h host =>
    mirrors_ite (mirrors_pure rfl) ((mirrors_view _).then fun nextTag => mirrors_ite ?_ ?_)
  · exact (mirrors_edit _).then fun _ => mirrors_pure rfl
  · exact (mirrors_unlist next).then fun _ => (mirrors_lift _).then fun size =>
      (mirrors_count _).then fun _ => mirrors_pure rfl

theorem mirrors_release (run : Run) : Mirrors C Eq (release run) (release run) :=
  (mirrors_edit _).then fun _ => (mirrors_setTopUsed true).then fun _ => (mirrors_count _).then
    fun _ => mirrors_recordHeapSize.then fun _ => mirrors_get fun h _ =>
      mirrors_note (.released run.size h.size) _

theorem mirrors_list (run : Run) : Mirrors C Eq (list run) (list run) :=
  (mirrors_edit _).then fun _ => (mirrors_enlist _).then fun _ => mirrors_note _ _

theorem mirrors_freeBlock (block : Nat) : Mirrors C Eq (freeBlock block) (freeBlock block) := by
  unfold freeBlock
  refine (mirrors_view _).then fun tag => mirrors_ite ((mirrors_fail _).then fun _ => ?_) ?_
  all_goals
    exact (mirrors_account _).then fun _ => (mirrors_mergePrev block tag).then fun run =>
      (mirrors_mergeNext run).then fun run => (mirrors_lift _).then fun off =>
        mirrors_get fun h host => mirrors_ite (mirrors_release run) (mirrors_list run)

theorem mirrors_free (ptr : Nat) : Mirrors C Eq (free ptr) (free ptr) :=
  (mirrors_blockAt ptr).then fun block => (mirrors_freeBlock block).then fun _ =>
    (mirrors_count _).then fun _ => mirrors_verify _

theorem mirrors_init : Mirrors C (Refusal.Agree C.reasons) init init := by
  refine (mirrors_edit _).then fun _ => (mirrors_grow prologueSize).reply ?_ ?_
  · intro _
    exact (mirrors_edit _).then fun _ => (mirrors_relink _).then fun _ =>
      (mirrors_setTopUsed true).then fun _ => (mirrors_account _).then fun _ =>
        (mirrors_note _ _).then fun _ => mirrors_pure (.ok ())
  · intro r r' hr
    exact mirrors_pure (.error hr)

theorem mirrors_growOrWarn (delta : Nat) :
    Mirrors C (Refusal.Agree C.reasons) (growOrWarn delta) (growOrWarn delta) := by
  refine (mirrors_grow delta).reply ?_ ?_
  · intro top
    exact mirrors_pure (.ok top)
  · intro r r' hr
    exact (mirrors_note _ _).then fun _ => mirrors_pure (.error hr)

theorem mirrors_growChunk (size : Nat) :
    Mirrors C (Refusal.Agree C.reasons) (growChunk size) (growChunk size) := by
  have hlast (delta : Nat) : Mirrors C (Refusal.Agree C.reasons)
      (do return (← growOrWarn delta).map (·, delta)) (do return (← growOrWarn delta).map (·, delta)) :=
    (mirrors_growOrWarn delta).reply (fun top => mirrors_pure (.ok (top, delta)))
      fun _ _ hr => mirrors_pure (.error hr)
  unfold growChunk
  dsimp only
  split
  · exact (mirrors_grow _).reply (fun block => mirrors_pure (.ok _)) fun _ _ _ => hlast size
  · exact hlast _

theorem mirrors_carve (block size chunk : Nat) :
    Mirrors C Eq (carve block size chunk) (carve block size chunk) := by
  refine mirrors_get fun h host => (mirrors_edit _).then fun _ => mirrors_ite
    ((mirrors_lift _).then fun rest => (mirrors_edit _).then fun _ =>
      (mirrors_enlist rest).then fun _ => (mirrors_setTopUsed false).then fun _ => ?_)
    ((mirrors_setTopUsed true).then fun _ => ?_)
  all_goals
    exact (mirrors_count _).then fun _ => mirrors_recordHeapSize.then fun _ =>
      mirrors_get fun _ _ => mirrors_note _ _

theorem mirrors_extend (size : Nat) :
    Mirrors C (Refusal.Agree C.reasons) (extend size) (extend size) := by
  refine (mirrors_growChunk size).reply ?_ ?_
  · rintro ⟨block, chunk⟩
    exact (mirrors_carve block size chunk).then fun _ => mirrors_pure (.ok block)
  · intro r r' hr
    exact mirrors_pure (.error hr)

theorem mirrors_firstFit (size : Nat) : Mirrors C Eq (firstFit size) (firstFit size) :=
  mirrors_get fun h _ => mirrors_view (h.bins.firstFit · size)

theorem mirrors_obtain (size : Nat) :
    Mirrors C (Refusal.Agree C.reasons) (obtain size) (obtain size) := by
  refine (mirrors_firstFit size).then fun r => ?_
  cases r with
  | none => exact mirrors_extend size
  | some block => exact (mirrors_place block size).then fun _ => mirrors_pure (.ok block)

theorem mirrors_allocateBlock (request : Nat) :
    Mirrors C (Refusal.Agree C.reasons) (allocateBlock request) (allocateBlock request) := by
  unfold allocateBlock
  split
  · exact mirrors_pure (.error (C.refl _))
  · refine (mirrors_obtain _).reply ?_ ?_
    · intro block
      exact (mirrors_view _).then fun taken => (mirrors_account _).then fun _ =>
        mirrors_pure (.ok block)
    · intro r r' hr
      exact mirrors_pure (.error hr)

theorem mirrors_allocate (request : Nat) :
    Mirrors C (Refusal.Agree C.reasons) (allocate request) (allocate request) := by
  refine (mirrors_allocateBlock request).reply ?_ ?_
  · intro block
    exact (mirrors_count _).then fun _ => (mirrors_verify _).then fun _ =>
      (mirrors_payload block).then fun ptr => mirrors_pure (.ok ptr)
  · intro r r' hr
    exact mirrors_pure (.error hr)

theorem mirrors_growTop (block : Nat) (tag : Tag) (size : Nat) :
    Mirrors C Eq (growTop block tag size) (growTop block tag size) := by
  unfold growTop
  refine (mirrors_lift _).then fun off => mirrors_get fun h host =>
    mirrors_ite (mirrors_pure rfl) ((mirrors_grow _).reply ?_ ?_)
  · intro _
    exact (mirrors_edit _).then fun _ => (mirrors_account _).then fun _ =>
      (mirrors_count _).then fun _ => (mirrors_count _).then fun _ =>
        mirrors_recordHeapSize.then fun _ => (mirrors_note _ _).then fun _ => mirrors_pure rfl
  · intro r r' _
    exact (mirrors_note _ _).then fun _ => mirrors_pure rfl

theorem mirrors_moveInto (block target : Nat) (tag : Tag) (request : Nat) :
    Mirrors C Eq (moveInto block target tag request) (moveInto block target tag request) :=
  (mirrors_lift _).then fun _ => (mirrors_lift _).then fun _ => (mirrors_lift _).then fun _ =>
    (mirrors_edit _).then fun _ => (mirrors_freeBlock block).then fun _ =>
      (mirrors_count _).then fun _ => mirrors_note _ _

theorem mirrors_enlarge (ptr block : Nat) (tag : Tag) (request size : Nat) :
    Mirrors C (Refusal.Agree C.reasons) (enlarge ptr block tag request size)
      (enlarge ptr block tag request size) := by
  refine (mirrors_growTop block tag size).then fun grown => mirrors_ite
    ((mirrors_verify _).then fun _ => mirrors_pure (.ok ptr))
    ((mirrors_allocateBlock request).reply ?_ ?_)
  · intro target
    exact (mirrors_moveInto block target tag request).then fun _ => (mirrors_verify _).then fun _ =>
      (mirrors_payload target).then fun new => mirrors_pure (.ok new)
  · intro r r' hr
    exact mirrors_pure (.error hr)

theorem mirrors_reallocate (ptr request : Nat) :
    Mirrors C (Refusal.Agree C.reasons) (reallocate ptr request) (reallocate ptr request) := by
  unfold reallocate
  refine (mirrors_blockAt ptr).then fun block => ?_
  split
  · exact mirrors_pure (.error (C.refl _))
  next size _ =>
  refine (mirrors_view _).then fun tag => mirrors_ite ((mirrors_fail _).then fun _ => ?_) ?_
  all_goals
    exact mirrors_ite ((mirrors_count _).then fun _ => mirrors_pure (.ok ptr))
      (mirrors_enlarge ptr block tag request size)

end Heap

open HeapM in
theorem Call.mirrors (c : Call) :
    (c.perform : HeapM H Answer).Mirrors C (Refusal.Agree C.reasons) c.perform := by
  cases c with
  | allocate request =>
    exact (Heap.mirrors_allocate request).reply (fun ptr => mirrors_pure (.ok (some ptr)))
      fun _ _ hr => mirrors_pure (.error hr)
  | free ptr => exact (Heap.mirrors_free ptr).then fun _ => mirrors_pure (.ok none)
  | reallocate ptr request =>
    exact (Heap.mirrors_reallocate ptr request).reply (fun ptr => mirrors_pure (.ok (some ptr)))
      fun _ _ hr => mirrors_pure (.error hr)
  | init =>
    exact Heap.mirrors_init.reply (fun _ => mirrors_pure (.ok none))
      fun _ _ hr => mirrors_pure (.error hr)
  | write ptr i b => exact (Heap.mirrors_edit _).then fun _ => mirrors_pure (.ok none)

theorem Call.record_agree {R : Refusal → Refusal → Prop} {a b : Answer} (h : Refusal.Agree R a b)
    (live : Live) (c : Call) : c.record live a = c.record live b := by
  cases h with
  | ok a => rfl
  | error hr => cases c <;> rfl

namespace Session

def rehost (s : Session H) (host : H') : Session H' := ⟨s.heap.rehost host, s.live⟩

omit [Host H] [Host H'] in
theorem Allows.rehost {s : Session H} {c : Call} (hc : s.Allows c) (host : H') :
    (s.rehost host).Allows c := by
  cases c <;> exact hc

variable {s s' : Session H} {c : Call} {a : Answer} {host : H'}

theorem exec_of_step (h : s.step c = .ok (a, s')) :
    (c.perform.exec s.heap #[]).1 = .ok (a, s'.heap) ∧ s'.live = c.record s.live a := by
  rw [step] at h
  match hr : (c.perform.exec s.heap #[]).1 with
  | .ok (b, heap) =>
    rw [hr] at h
    cases h
    exact ⟨rfl, rfl⟩
  | .error e =>
    rw [hr] at h
    cases h

theorem step_of_exec {heap : Heap H} (h : (c.perform.exec s.heap #[]).1 = .ok (a, heap)) :
    s.step c = .ok (a, ⟨heap, c.record s.live a⟩) := by
  rw [step, h]

theorem step_back (C : Host.Coupling H H') (h : s.step c = .ok (a, s'))
    (hg : C.guard s'.heap.host) : C.guard s.heap.host :=
  (c.mirrors (C := C)).back (exec_of_step h).1 hg

theorem step_mirrors (C : Host.Coupling H H') (h : s.step c = .ok (a, s'))
    (hc : C.rel s.heap.host host) (hg : C.guard s'.heap.host) :
    ∃ b host', (s.rehost host).step c = .ok (b, s'.rehost host') ∧ Refusal.Agree C.reasons a b ∧
      C.rel s'.heap.host host' := by
  obtain ⟨hexec, hlive⟩ := exec_of_step h
  obtain ⟨b, host', hr, hab, hc'⟩ := (c.mirrors (C := C)).ahead #[] hexec hc hg
  have hlive' : s'.live = c.record s.live b := by rw [hlive, Call.record_agree hab]
  refine ⟨b, host', (step_of_exec hr).trans ?_, hab, hc'⟩
  change Except.ok (b, (⟨s'.heap.rehost host', c.record s.live b⟩ : Session H')) = _
  rw [← hlive']
  rfl

end Session

theorem Refusal.Agree.eq {α : Type} {x y : Except Refusal α} (h : Refusal.Agree Eq x y) : x = y := by
  cases h with
  | ok a => rfl
  | error hr => rw [hr]

theorem Refusal.agree_self {α : Type} (x : Except Refusal α) : Refusal.Agree Eq x x := by
  cases x with
  | ok a => exact .ok a
  | error reason => exact .error rfl

/-- The hosts are asked for the same, as long as they have committed as much. -/
def Host.Coupling.ofExtend (nonempty : Nonempty H') (rel : H → H' → Prop) (guard : H → Prop)
    (committed : ∀ host host', rel host host' → Host.committed host' = Host.committed host)
    (back : ∀ host n, guard (Host.extend host n).host → guard host)
    (extend : ∀ host host' n, rel host host' → n < wordLimit → guard (Host.extend host n).host →
      (Host.extend host' n).granted = (Host.extend host n).granted ∧
        rel (Host.extend host n).host (Host.extend host' n).host) : Host.Coupling H H' where
  nonempty := nonempty
  rel := rel
  guard := guard
  reasons := Eq
  refl _ := rfl
  back {host top delta} hg := by
    unfold Host.secure at hg
    split at hg
    · exact hg
    · split at hg
      · exact back host _ hg
      · exact hg
  secure {host host' top delta} h hg := by
    unfold Host.secure at hg ⊢
    by_cases hlim : wordLimit ≤ top + delta
    · rw [if_pos hlim, if_pos hlim]
      exact ⟨Refusal.agree_self _, h⟩
    rw [if_neg hlim] at hg
    rw [if_neg hlim, if_neg hlim, committed host host' h]
    by_cases hc : Host.committed host < top + delta
    · rw [if_pos hc] at hg
      rw [if_pos hc, if_pos hc]
      obtain ⟨hr, h'⟩ := extend host host' _ h (by omega) hg
      dsimp only
      rw [hr]
      exact ⟨Refusal.agree_self _, h'⟩
    · rw [if_neg hc, if_neg hc]
      exact ⟨Refusal.agree_self _, h⟩

def Host.Coupling.self (host : H) (P : H → Prop)
    (hp : ∀ host n, P host → P (Host.extend host n).host) : Host.Coupling H H :=
  .ofExtend ⟨host⟩ (fun host host' => host = host' ∧ P host) (fun _ => True)
    (fun _ _ h => by rw [h.1]) (fun _ _ _ => trivial)
    (by rintro host _ n ⟨rfl, h⟩ - -; exact ⟨rfl, rfl, hp host n h⟩)

theorem HeapM.exec_journal {α : Type} {x : HeapM H (Except Refusal α)}
    (hx : ∀ C : Host.Coupling H H, x.Mirrors C (Refusal.Agree C.reasons) x) {h k : Heap H} {j : Journal}
    {r : Except Refusal α} (j' : Journal) (hr : (x.exec h j).1 = .ok (r, k)) :
    (x.exec h j').1 = .ok (r, k) := by
  let C := Host.Coupling.self h.host (fun _ => True) fun _ _ _ => trivial
  obtain ⟨b, host, hr', hab, rfl, -⟩ :=
    (hx C).ahead j' hr (⟨rfl, trivial⟩ : C.rel h.host h.host) trivial
  cases hab.eq
  exact hr'

theorem Call.exec_journal {c : Call} {h k : Heap H} {j : Journal} {a : Answer} (j' : Journal)
    (hr : (c.perform.exec h j).1 = .ok (a, k)) : (c.perform.exec h j').1 = .ok (a, k) :=
  HeapM.exec_journal (fun _ => c.mirrors) j' hr

theorem Session.step_keeps_host {s s' : Session H} {c : Call} {a : Answer} {P : H → Prop}
    (hp : ∀ host n, P host → P (Host.extend host n).host) (h : s.step c = .ok (a, s'))
    (hs : P s.heap.host) : P s'.heap.host := by
  let C := Host.Coupling.self s.heap.host P hp
  obtain ⟨b, host, -, -, -, hs'⟩ :=
    step_mirrors C h (⟨rfl, hs⟩ : C.rel s.heap.host s.heap.host) trivial
  exact hs'

theorem Session.step_base [LawfulHost H] {s s' : Session H} {c : Call} {a : Answer}
    (h : s.step c = .ok (a, s')) : Host.base s'.heap.host = Host.base s.heap.host :=
  step_keeps_host (P := fun host => Host.base host = Host.base s.heap.host)
    (fun host n hb => (LawfulHost.base_extend host n).trans hb) h rfl

end SegregatedFit
