import Mathlib
import SegregatedFit.Proofs.Tending

/-!
One request of a replay. It makes the call that the client makes, and what it checks before and after
holds for any client that is served.
-/
namespace SegregatedFit

open Row Memory HeapM

variable {H : Type}

structure Playback.Lists (p : Playback) (tab : Table) : Prop where
  live {id : Nat} {v : Nat × Nat} : p.live[id]? = some v ↔ (id, v) ∈ tab
  payload : p.payload = (tab.map fun e => e.2.2).sum

namespace Playback.Lists

variable {p : Playback} {tab : Table} {id n ptr size : Nat}

theorem start (heapSize : Nat) : (Playback.start heapSize).Lists [] where
  live := by simp [Playback.start]
  payload := rfl

theorem contains_iff (hp : p.Lists tab) : p.live.contains id = true ↔ id ∈ tab.map Prod.fst := by
  rw [Std.HashMap.contains_eq_isSome_getElem?, Option.isSome_iff_exists, List.mem_map]
  constructor
  · rintro ⟨v, hv⟩
    exact ⟨_, hp.live.mp hv, rfl⟩
  · rintro ⟨⟨_, v⟩, he, rfl⟩
    exact ⟨v, hp.live.mpr he⟩

theorem get_eq_none (hp : p.Lists tab) (hid : id ∉ tab.map Prod.fst) : p.live[id]? = none := by
  refine Option.eq_none_iff_forall_ne_some.mpr fun v hv => hid ?_
  exact List.mem_map_of_mem (f := Prod.fst) (hp.live.mp hv)

theorem observe (hp : p.Lists tab) (heapSize : Nat) : (p.observe heapSize).Lists tab :=
  ⟨hp.live, hp.payload⟩

theorem le_payload (hp : p.Lists tab) (he : (id, ptr, n) ∈ tab) : n ≤ p.payload := by
  rw [hp.payload]
  exact List.le_sum_of_mem (List.mem_map_of_mem (f := fun e : Nat × Nat × Nat => e.2.2) he)

theorem payload_others (hp : p.Lists tab) (hids : (tab.map Prod.fst).Nodup)
    (he : (id, ptr, n) ∈ tab) : ((others tab id).map fun e => e.2.2).sum = p.payload - n := by
  have hperm := (perm_others hids he).map fun e => e.2.2
  rw [hp.payload, hperm.sum_eq, List.map_cons, List.sum_cons, Nat.add_sub_cancel_left]

theorem insert (hp : p.Lists tab) {rest : Table} {payload : Nat} (hrest : others tab id = rest)
    (hpayload : payload = (rest.map fun e => e.2.2).sum + size) :
    Playback.Lists { p with live := p.live.insert id (ptr, size), payload }
      ((id, ptr, size) :: rest) where
  live {id' v} := by
    rw [Std.HashMap.getElem?_insert, List.mem_cons, ← hrest, mem_others, ← hp.live]
    by_cases heq : id = id'
    · subst heq
      simp [eq_comm]
    · simp [heq, Ne.symm heq]
  payload := by rw [hpayload, List.map_cons, List.sum_cons, Nat.add_comm]

theorem erase (hp : p.Lists tab) {payload : Nat}
    (hpayload : payload = ((others tab id).map fun e => e.2.2).sum) :
    Playback.Lists { p with live := p.live.erase id, payload } (others tab id) where
  live {id' v} := by
    rw [Std.HashMap.getElem?_erase, mem_others, ← hp.live]
    by_cases heq : id = id'
    · simp [heq]
    · simp [heq, Ne.symm heq]
  payload := hpayload

theorem step_misused [Host H] {request : Request} {flaw : ReplayFlaw} (hp : p.Lists tab)
    (hf : request.flaw? tab.sizes = some flaw) :
    (p.step request : HeapM H (Except ReplayFlaw Playback)) = pure (.error flaw) := by
  cases request with
  | allocate id size =>
    rw [Request.flaw?, Table.map_fst_sizes] at hf
    split at hf
    · next hid =>
      rw [step, allocate, if_pos (hp.contains_iff.mpr hid), Option.some.inj hf]
    · cases hf
  | reallocate id size =>
    rw [Request.flaw?, Table.map_fst_sizes] at hf
    split at hf
    · cases hf
    · next hid => rw [step, reallocate, hp.get_eq_none hid, Option.some.inj hf]
  | free id =>
    rw [Request.flaw?, Table.map_fst_sizes] at hf
    split at hf
    · cases hf
    · next hid => rw [step, free, hp.get_eq_none hid, Option.some.inj hf]

end Playback.Lists

namespace Session

variable [Host H] {s s₀ s₁ : Session H} {cs : List Call} {k : Sketch H} {c : Call}
  {tab : Table} {request : Request} {p : Playback} {id n ptr : Nat}

/-- What a request comes to that makes the call. -/
inductive Takes (s : Session H) (p : Playback) (tab : Table) (request : Request) (c : Call) :
    Except ReplayFlaw Playback → Heap H → Prop
  | granted {a : Option Nat} {s₁ : Session H} {p' : Playback} : s.step c = .ok (.ok a, s₁) →
    p'.Lists (request.record tab a) → p' = { p with live := p'.live, payload := p'.payload } →
      Takes s p tab request c (.ok p') (s₁.fillFor request a).heap
  | refused {s₁ : Session H} {reason : Refusal} : s.step c = .ok (.error reason, s₁) →
    Takes s p tab request c (.error (.refused reason)) s₁.heap

theorem Follows.meets_call (hf : s.Follows cs k) (hc : s.Allows c) :
    c.perform.Meets s.heap (k.perform c).2.stats fun a h =>
      s.step c = .ok (a, ⟨h, c.record s.live a⟩) := by
  have hm := Heap.perform_meets hf.shows hf.valid (hf.admits hc)
  refine ⟨fun j => ?_⟩
  match hr : (c.perform.exec s.heap j).1 with
  | .error e => exact hm.of_error hr
  | .ok (a, h) => exact step_of_exec (Call.exec_journal #[] hr)

variable [LawfulHost H]

namespace Tends

omit [LawfulHost H] in
theorem aligned (ht : s₀.Tends tab s) (hb : Host.base s₀.heap.host % alignment = 0)
    (he : (id, ptr, n) ∈ tab) : (Host.base s.heap.host + ptr) % alignment = 0 := by
  obtain ⟨cs, k, -, hf⟩ := ht.reached
  obtain ⟨x, m, hx, rfl, -⟩ := hf.tracks.placed (ht.mem_live he)
  have hx := (hf.valid.settled.tidy.of_site hx).2.2.2.2
  rw [ht.base]
  simp only [alignment] at *
  omega

omit [LawfulHost H] in
theorem holds (ht : s₀.Tends tab s) (he : (id, ptr, n) ∈ tab) :
    s.heap.arena.mem.holds ptr (Playback.pattern id) n = true :=
  (Memory.holds_iff _ _ _ _).mpr fun _ hi => ht.filled he hi

omit [LawfulHost H] in
theorem sum_le_size (ht : s₀.Tends tab s) (hf₀ : s₀.Follows cs k) :
    (tab.map fun e => e.2.2).sum ≤ s.heap.size := by
  obtain ⟨added, hadded, hperm⟩ := ht.usedBlocks hf₀
  obtain ⟨cs', k', -, hf⟩ := ht.reached
  have hle : (tab.map fun e => e.2.2).sum ≤ (added.map Prod.snd).sum := by
    refine List.Forall₂.sum_le_sum (List.forall₂_map_left_iff.mpr (List.forall₂_map_right_iff.mpr ?_))
    exact hadded.imp fun e q h => by omega
  have hsum := (hperm.map Prod.snd).sum_eq
  rw [List.map_append, List.sum_append, hf.shows.usedBlocks_eq, Sketch.sites, ← usedBytes_eq] at hsum
  have hspan := usedBytes_le_span k'.row
  rw [hf.shows.size_eq]
  omega

omit [LawfulHost H] in
theorem sum_lt (ht : s₀.Tends tab s) (hf₀ : s₀.Follows cs k) :
    (tab.map fun e => e.2.2).sum < wordLimit := by
  obtain ⟨cs', k', -, hf⟩ := ht.reached
  have hle := ht.sum_le_size hf₀
  have hroom := hf.valid.settled.tidy.room
  rw [hf.shows.size_eq] at hle
  rw [Sketch.top] at hroom
  omega

variable {cs' : List Call} {k' : Sketch H} {new size : Nat}

/-- A size that is granted can be added to the payload: its block is there by now, and all blocks come to
no more than a word. -/
theorem payload_add_lt (ht : s₀.Tends tab s) (hf₀ : s₀.Follows cs k) (hp : p.Lists tab)
    (hid : id ∉ tab.map Prod.fst) (h : s.step (.allocate size) = .ok (.ok (some new), s₁)) :
    p.payload + size < wordLimit := by
  have hsum := (ht.step (.allocate hid) h).1.sum_lt hf₀
  rwa [Request.record, List.map_cons, List.sum_cons, ← hp.payload, Nat.add_comm] at hsum

theorem payload_sub_add_lt (ht : s₀.Tends tab s) (hf₀ : s₀.Follows cs k) (hp : p.Lists tab)
    (he : (id, ptr, n) ∈ tab) (h : s.step (.reallocate ptr size) = .ok (.ok (some new), s₁)) :
    p.payload - n + size < wordLimit := by
  have hsum := (ht.step (.reallocate he) h).1.sum_lt hf₀
  rwa [Request.record, List.map_cons, List.sum_cons, hp.payload_others ht.ids he, Nat.add_comm] at hsum

theorem meets_allocate (ht : s₀.Tends tab s) (hf₀ : s₀.Follows cs k) (hf : s.Follows cs' k')
    (hb : Host.base s₀.heap.host % alignment = 0) (hp : p.Lists tab) (hid : id ∉ tab.map Prod.fst) :
    (p.allocate id size).Meets s.heap (k'.perform (.allocate size)).2.stats
      (s.Takes p tab (.allocate id size) (.allocate size)) := by
  have hc : (Request.allocate id size).Calls tab (.allocate size) := .allocate hid
  unfold Playback.allocate
  rw [if_neg fun h => hid (hp.contains_iff.mp h)]
  refine (hf.meets_call (ht.allows hc)).of_map.bind ?_
  intro r h1 hr
  cases r with
  | error reason => exact meets_pure (.refused hr)
  | ok new =>
    obtain ⟨ht', -⟩ := ht.step hc hr
    have halign : (Host.base h1.host + new) % alignment = 0 := ht'.aligned hb List.mem_cons_self
    have hsum := ht.payload_add_lt hf₀ hp hid hr
    refine meets_bind_step (fun _ => rfl) ?_
    rw [if_neg (by simp [halign])]
    refine meets_bind_step (fun _ => rfl) (Heap.meets_lift (plus_eq_ok hsum) ?_)
    exact meets_pure (.granted hr (hp.insert (others_eq_self hid) (by rw [hp.payload])) rfl)

theorem holds_carried (ht : s₀.Tends tab s) (hf : s.Follows cs' k') (he : (id, ptr, n) ∈ tab)
    (h : s.step (.reallocate ptr size) = .ok (.ok (some new), s₁)) :
    s₁.heap.arena.mem.holds new (Playback.pattern id) (min n size) = true := by
  have hc : (Request.reallocate id size).Calls tab (.reallocate ptr size) := .reallocate he
  obtain ⟨hm, -⟩ := hf.of_step (ht.allows hc) h
  obtain ⟨x, m, hx, rfl, hn⟩ := hf.tracks.placed (ht.mem_live he)
  refine (Memory.holds_iff _ _ _ _).mpr fun i hi => ?_
  rw [hm.carried x m size new hx rfl rfl i (by omega)]
  exact ht.filled he (by omega)

theorem meets_reallocate (ht : s₀.Tends tab s) (hf₀ : s₀.Follows cs k) (hf : s.Follows cs' k')
    (hb : Host.base s₀.heap.host % alignment = 0) (hp : p.Lists tab) (he : (id, ptr, n) ∈ tab) :
    (p.reallocate id size).Meets s.heap (k'.perform (.reallocate ptr size)).2.stats
      (s.Takes p tab (.reallocate id size) (.reallocate ptr size)) := by
  have hc : (Request.reallocate id size).Calls tab (.reallocate ptr size) := .reallocate he
  unfold Playback.reallocate
  rw [hp.live.mpr he]
  refine meets_bind_step (fun _ => rfl) ?_
  rw [if_neg (by simp [ht.holds he])]
  refine (hf.meets_call (ht.allows hc)).of_map.bind ?_
  intro r h1 hr
  cases r with
  | error reason => exact meets_pure (.refused hr)
  | ok new =>
    obtain ⟨ht', -⟩ := ht.step hc hr
    have halign : (Host.base h1.host + new) % alignment = 0 := ht'.aligned hb List.mem_cons_self
    have hold : h1.arena.mem.holds new (Playback.pattern id) (min n size) = true :=
      ht.holds_carried hf he hr
    have hsum := ht.payload_sub_add_lt hf₀ hp he hr
    refine meets_bind_step (fun _ => rfl) ?_
    rw [if_neg (by simp [halign])]
    refine meets_bind_step (fun _ => rfl) ?_
    rw [if_neg (by simp [hold])]
    refine meets_bind_step (fun _ => rfl) (Heap.meets_lift (minus_eq_ok (hp.le_payload he)) ?_)
    refine Heap.meets_lift (plus_eq_ok hsum) (meets_pure (.granted hr (hp.insert rfl ?_) rfl))
    rw [hp.payload_others ht.ids he]

omit [LawfulHost H] in
theorem meets_free (ht : s₀.Tends tab s) (hf : s.Follows cs' k') (hp : p.Lists tab)
    (he : (id, ptr, n) ∈ tab) :
    (p.free id).Meets s.heap (k'.perform (.free ptr)).2.stats (s.Takes p tab (.free id) (.free ptr)) := by
  have hc : (Request.free id).Calls tab (.free ptr) := .free he
  unfold Playback.free
  rw [hp.live.mpr he]
  refine meets_bind_step (fun _ => rfl) ?_
  rw [if_neg (by simp [ht.holds he])]
  refine (hf.meets_call (ht.allows hc)).of_map.bind ?_
  intro _ h1 hr
  refine Heap.meets_lift (minus_eq_ok (hp.le_payload he)) (meets_pure (.granted hr (hp.erase ?_) rfl))
  rw [hp.payload_others ht.ids he]

theorem meets_request (ht : s₀.Tends tab s) (hf₀ : s₀.Follows cs k) (hf : s.Follows cs' k')
    (hb : Host.base s₀.heap.host % alignment = 0) (hp : p.Lists tab) (hc : request.Calls tab c) :
    (p.step request).Meets s.heap (k'.perform c).2.stats (s.Takes p tab request c) := by
  cases hc with
  | allocate hid => exact ht.meets_allocate hf₀ hf hb hp hid
  | reallocate he => exact ht.meets_reallocate hf₀ hf hb hp he
  | free he => exact ht.meets_free hf hp he

end Tends

theorem Tends.exec_request (ht : s₀.Tends tab s) (hf₀ : s₀.Follows cs k)
    (hb : Host.base s₀.heap.host % alignment = 0) (hp : p.Lists tab) (hc : request.Calls tab c)
    (j : Journal) :
    match s.step c with
    | .ok (.ok a, s₁) => ∃ p' j', (p.step request).exec s.heap j =
        (.ok (.ok p', (s₁.fillFor request a).heap), j') ∧ p'.Lists (request.record tab a) ∧
          p' = { p with live := p'.live, payload := p'.payload }
    | .ok (.error reason, s₁) => ∃ j', (p.step request).exec s.heap j =
        (.ok (.error (.refused reason), s₁.heap), j')
    | .error e => e = .addOverflow ∧ ∃ j', (p.step request).exec s.heap j = (.error e, j') := by
  obtain ⟨cs', k', -, hf⟩ := ht.reached
  have hm := ht.meets_request hf₀ hf hb hp hc
  match hr : (p.step request).exec s.heap j with
  | (.ok (r, h), j') =>
    cases hm.of_ok (congrArg Prod.fst hr) with
    | granted hstep hp' hkept =>
      rw [hstep]
      exact ⟨_, j', rfl, hp', hkept⟩
    | refused hstep =>
      rw [hstep]
      exact ⟨j', rfl⟩
  | (.error e, j') =>
    obtain ⟨rfl, hfit⟩ := hm.of_error (congrArg Prod.fst hr)
    rw [hf.step_eq_error (ht.allows hc) hfit]
    exact ⟨rfl, j', rfl⟩

end Session

end SegregatedFit
