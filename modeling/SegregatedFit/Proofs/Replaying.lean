import Mathlib
import SegregatedFit.Proofs.Overflow
import SegregatedFit.Proofs.Playing

/-!
Replays do what the client does that keeps to the trace. A replay ends before the end of its trace only
where a call is refused, or where the trace is about an id as it is not.
-/
namespace SegregatedFit

open HeapM

variable {H : Type}

def Counter.pace (d : Counter) : Nat := if d = .coalesces then 2 else 1

theorem Call.rise_le_pace (c : Call) (d : Counter) : c.rise d ≤ d.pace := by
  cases c <;> cases d <;> simp [rise, Counter.pace]

theorem Request.Calls.ne_init {tab : Table} {request : Request} {c : Call}
    (hc : request.Calls tab c) : c ≠ .init := by
  cases hc <;> simp

namespace Session

variable [Host H] [LawfulHost H] {s s₀ s₁ : Session H} {cs : List Call} {k : Sketch H} {c : Call}
  {a : Answer} {tab : Table} {request : Request} {m : Nat} {p : Playback}

omit [Host H] [LawfulHost H] in
theorem fillFor_stats (s : Session H) (request : Request) (a : Option Nat) :
    (s.fillFor request a).heap.stats = s.heap.stats := by
  cases request <;> cases a <;> rfl

theorem Tends.get_step_le (ht : s₀.Tends tab s) (hc : request.Calls tab c)
    (h : s.step c = .ok (a, s₁)) (d : Counter) :
    s₁.heap.stats.get d ≤ s.heap.stats.get d + d.pace := by
  obtain ⟨cs, k, -, hf⟩ := ht.reached
  rw [(hf.of_step (ht.allows hc) h).2.shows.stats, hf.shows.stats]
  exact (k.perform_rise hc.ne_init d).2.trans (Nat.add_le_add_left (c.rise_le_pace d) _)

theorem Plays.get_le {t : Trace} {tab₁ : Table} (hp : s.Plays tab t s₁ tab₁) (ht : s₀.Tends tab s)
    (d : Counter) : s₁.heap.stats.get d ≤ s.heap.stats.get d + t.length * d.pace := by
  induction hp with
  | nil => exact Nat.le_add_right _ _
  | cons hc hstep _ ih =>
    have h1 := ht.get_step_le hc hstep d
    have h2 := ih (ht.step hc hstep).1
    rw [fillFor_stats] at h2
    rw [List.length_cons, Nat.add_mul, Nat.one_mul]
    omega

/-- A request whose call faults comes after so many that a counter is full, and that is the merges but
for a run of more calls than there are words. -/
theorem Tends.full_of_fault (ht : s₀.Tends tab s) (hf₀ : s₀.Follows cs k) (hc : request.Calls tab c)
    (h : s.step c = .error .addOverflow)
    (hle : ∀ d, s.heap.stats.get d ≤ s₀.heap.stats.get d + m * d.pace) :
    wordLimit ≤ calls cs + (m + 1) ∨ (wordLimit ≤ s₀.heap.stats.coalesces + 2 * (m + 1) ∧
      ∃ a s₂, s.uncounted.step c = .ok (a, s₂)) := by
  obtain ⟨cs', k', -, hf⟩ := ht.reached
  have hallow := ht.allows hc
  by_cases hlt : wordLimit ≤ calls cs + (m + 1)
  · exact .inl hlt
  have hrise (d : Counter) (hd : d ≠ .coalesces) : k'.stats.get d + c.rise d < wordLimit := by
    have h1 := hle d
    have h2 := hf₀.counted d hd
    have h3 := c.rise_le_pace d
    rw [← hf₀.shows.stats] at h2
    rw [← hf.shows.stats]
    rw [Counter.pace, if_neg hd] at h1 h3
    omega
  obtain ⟨d, hd⟩ := hf.exists_full hallow hc.ne_init h
  obtain rfl : d = .coalesces := by
    by_contra hne
    exact absurd (hrise d hne) (Nat.not_lt.mpr hd)
  refine .inr ⟨?_, hf.uncounted_step_of_lt hallow fun d hd => ?_⟩
  · have h1 : s.heap.stats.get .coalesces ≤ s₀.heap.stats.coalesces + m * 2 := hle .coalesces
    have h2 := c.rise_coalesces_le
    rw [hf.shows.stats] at h1
    omega
  · refine (Sketch.perform_rise _ hc.ne_init d).2.trans_lt ?_
    rw [Stats.get_uncounted, if_neg hd]
    exact hrise d hd

/-- Where a replay stops whose next request has number `n`: at the end of its trace, or at that
request. -/
inductive Stops (s : Session H) (tab : Table) (n : Nat) :
    Trace → Except Fault (Except ReplayError Playback × Heap H) → Prop
  | done {p : Playback} : p.Lists tab → Stops s tab n [] (.ok (.ok p, s.heap))
  | refused {request : Request} {rest : Trace} {c : Call} {s₁ : Session H} {reason : Refusal} :
    request.Calls tab c → s.step c = .ok (.error reason, s₁) →
      Stops s tab n (request :: rest) (.ok (.error ⟨n, .refused reason⟩, s₁.heap))
  | misused {request : Request} {rest : Trace} {flaw : ReplayFlaw} :
    request.flaw? tab.sizes = some flaw →
      Stops s tab n (request :: rest) (.ok (.error ⟨n, flaw⟩, s.heap))
  | faulted {request : Request} {rest : Trace} {c : Call} : request.Calls tab c →
    s.step c = .error .addOverflow → Stops s tab n (request :: rest) (.error .addOverflow)

theorem Tends.exec_run (ht : s₀.Tends tab s) (hf₀ : s₀.Follows cs k)
    (hb : Host.base s₀.heap.host % alignment = 0) (hp : p.Lists tab) (t : Trace) (n : Nat) (j : Journal) :
    ∃ before after s₁ tab₁, t = before ++ after ∧ s.Plays tab before s₁ tab₁ ∧
      s₁.Stops tab₁ (n + before.length) after ((p.run n t).exec s.heap j).1 := by
  -- the sessions and tables of the client are those of the replay before each request
  induction t generalizing s tab p n j with
  | nil => exact ⟨[], [], s, tab, rfl, .nil, .done hp⟩
  | cons request rest ih =>
    rw [Playback.run, exec_bind]
    cases hflaw : request.flaw? tab.sizes with
    | some flaw =>
      rw [hp.step_misused hflaw]
      exact ⟨[], request :: rest, s, tab, rfl, .nil, .misused hflaw⟩
    | none =>
      obtain ⟨c, hc⟩ := Request.exists_calls hflaw
      have hm := ht.exec_request hf₀ hb hp hc j
      match hstep : s.step c with
      | .error e =>
        rw [hstep] at hm
        obtain ⟨rfl, j', hr⟩ := hm
        rw [hr]
        exact ⟨[], request :: rest, s, tab, rfl, .nil, .faulted hc hstep⟩
      | .ok (.error reason, s₁) =>
        rw [hstep] at hm
        obtain ⟨j', hr⟩ := hm
        rw [hr]
        exact ⟨[], request :: rest, s, tab, rfl, .nil, .refused hc hstep⟩
      | .ok (.ok a, s₁) =>
        rw [hstep] at hm
        obtain ⟨p', j', hr, hp', -⟩ := hm
        obtain ⟨before, after, s₂, tab₂, rfl, hplays, hstops⟩ :=
          ih (ht.step hc hstep).1 (hp'.observe _) (n + 1) j'
        rw [hr]
        refine ⟨request :: before, after, s₂, tab₂, rfl, .cons hc hstep hplays, ?_⟩
        rw [List.length_cons, Nat.add_comm before.length, ← Nat.add_assoc]
        exact hstops

theorem Plays.exec_run_error {before : Trace} {tab₁ : Table} (hplays : s.Plays tab before s₁ tab₁)
    (ht : s₀.Tends tab s) (hf₀ : s₀.Follows cs k) (hb : Host.base s₀.heap.host % alignment = 0)
    (hp : p.Lists tab) (hc : request.Calls tab₁ c) (h : s₁.step c = .error .addOverflow) (rest : Trace)
    (n : Nat) (j : Journal) :
    ((p.run n (before ++ request :: rest)).exec s.heap j).1 = .error .addOverflow := by
  induction hplays generalizing p n j with
  | nil =>
    have hm := ht.exec_request hf₀ hb hp hc j
    rw [h] at hm
    obtain ⟨-, j', hr⟩ := hm
    rw [List.nil_append, Playback.run, exec_bind, hr]
  | cons hc₁ hstep _ ih =>
    have hm := ht.exec_request hf₀ hb hp hc₁ j
    rw [hstep] at hm
    obtain ⟨p', j', hr, hp', -⟩ := hm
    rw [List.cons_append, Playback.run, exec_bind, hr]
    exact ih (ht.step hc₁ hstep).1 (hp'.observe _) hc h (n + 1) j'

omit [LawfulHost H] in
theorem exec_replay (t : Trace) (h : Heap H) (j : Journal) :
    (t.replay.exec h j).1 = match (((Playback.start h.size).run 0 t).exec h j).1 with
      | .ok (.ok p, h') => .ok (.ok ⟨t.length, p.peakPayload, p.maxHeapSize⟩, h')
      | .ok (.error e, h') => .ok (.error e, h')
      | .error e => .error e := by
  rw [Trace.replay, exec_bind, exec_get]
  dsimp only
  rw [exec_bind]
  match ((Playback.start h.size).run 0 t).exec h j with
  | (.error e, j') => rfl
  | (.ok (.error e, h'), j') => rfl
  | (.ok (.ok p, h'), j') => rfl

def Tells (s₁ : Session H) (tab : Table) (t : Trace) (n : Nat) (s₂ : Session H) :
    Except ReplayError Report → Prop
  | .ok report => n = t.length ∧ t.misuse = none ∧ report.ops = n ∧ s₂ = s₁
  | .error ⟨op, .refused reason⟩ => op = n ∧ Trace.misuse (t.take (n + 1)) = none ∧
      ∃ request c, t[n]? = some request ∧ request.Calls tab c ∧ s₁.step c = .ok (.error reason, s₂)
  | .error ⟨_, .misaligned _⟩ | .error ⟨_, .payloadCorrupted _⟩ => False
  | .error ⟨op, flaw⟩ => op = n ∧ t.misuse = some ⟨n, flaw⟩ ∧ s₂ = s₁

/-- What a client with the table leaves behind that found the session `s` and was served to `s₂`: a
filled block for each id beside the blocks from before, whose payloads it did not touch. -/
structure Leaves (s : Session H) (tab : Table) (s₂ : Session H) : Prop where
  reachable : s₂.Reachable
  live : s₂.live = tab.map Prod.snd ++ s.live
  ids : (tab.map Prod.fst).Nodup
  blocks : ∃ added,
    List.Forall₂ (fun e q => q.1 + headerSize = e.2.1 ∧ e.2.2 + headerSize ≤ q.2) tab added ∧
      s₂.heap.usedBlocks.Perm (added ++ s.heap.usedBlocks)
  filled {id ptr size : Nat} : (id, ptr, size) ∈ tab →
    s₂.heap.arena.mem.holds ptr (Playback.pattern id) size = true
  kept {ptr : Nat} : ptr ∈ s.live.pointers → s.Keeps s₂ ptr

omit [LawfulHost H] in
theorem Tends.leaves (ht : s₀.Tends tab s) (hf₀ : s₀.Follows cs k) : s₀.Leaves tab s where
  reachable := by
    obtain ⟨cs', k', hr, -⟩ := ht.reached
    exact ⟨cs', hr⟩
  live := ht.live
  ids := ht.ids
  blocks := ht.usedBlocks hf₀
  filled := ht.holds
  kept := ht.kept

/-- A replay comes to what the client comes to that keeps to the trace. It ends before the trace does
where a call is refused, or else where the trace is about an id as it is not. It faults where the call
that it makes faults, and then the merges are too many to count, in any run of fewer calls than there
are words. -/
theorem replay_exact (hr : Run cs s) (hb : Host.base s.heap.host % alignment = 0) (t : Trace)
    (j : Journal) :
    match (t.replay.exec s.heap j).1 with
    | .ok (told, heap) => ∃ n s₁ s₂ tab, s.Plays [] (t.take n) s₁ tab ∧
        tab.sizes = Trace.sizes (t.take n) ∧ s₁.Tells tab t n s₂ told ∧ s₂.heap = heap ∧ s.Leaves tab s₂
    | .error e => e = .addOverflow ∧ ∃ n s₁ tab request c, s.Plays [] (t.take n) s₁ tab ∧
        t[n]? = some request ∧ request.Calls tab c ∧ s₁.step c = .error .addOverflow ∧
        (wordLimit ≤ calls cs + (n + 1) ∨ (wordLimit ≤ s.heap.stats.coalesces + 2 * (n + 1) ∧
          ∃ a s₂, s₁.uncounted.step c = .ok (a, s₂))) := by
  obtain ⟨k, hf⟩ := hr.follows
  have ht₀ := hf.tends hr
  obtain ⟨before, after, s₁, tab, rfl, hplays, hstops⟩ :=
    ht₀.exec_run hf hb (.start s.heap.size) t 0 j
  obtain ⟨ht, hsizes, hok⟩ := hplays.tends ht₀
  have htake : (before ++ after).take before.length = before := List.take_left
  have hmisuse (rest : Trace) : Trace.misuse (before ++ rest) =
      Trace.misuseFrom before.length tab.sizes rest := by
    have h := Trace.misuseFrom_append rest (hok 0)
    rwa [← hsizes, Nat.zero_add] at h
  rw [exec_replay]
  rw [Nat.zero_add] at hstops
  generalize (((Playback.start s.heap.size).run 0 (before ++ after)).exec s.heap j).1 = r at hstops ⊢
  cases hstops with
  | @done p hp =>
    refine ⟨before.length, s₁, s₁, tab, by rwa [htake], by rwa [htake], ?_, rfl, ht.leaves hf⟩
    rw [List.append_nil]
    exact ⟨rfl, hok 0, rfl, rfl⟩
  | @refused request rest c s₂ reason hc hstep =>
    refine ⟨before.length, s₁, s₂, tab, by rwa [htake], by rwa [htake],
      ⟨rfl, ?_, request, c, by simp, hc, hstep⟩, rfl, (ht.refused hc hstep).leaves hf⟩
    rw [List.take_length_add_append, List.take_succ_cons, List.take_zero, hmisuse, Trace.misuseFrom,
      hc.flaw_eq]
    rfl
  | @misused request rest flaw hflaw =>
    refine ⟨before.length, s₁, s₁, tab, by rwa [htake], by rwa [htake], ?_, rfl, ht.leaves hf⟩
    have hmis : Trace.misuse (before ++ request :: rest) = some ⟨before.length, flaw⟩ := by
      rw [hmisuse, Trace.misuseFrom, hflaw]
    obtain ⟨id, rfl | rfl⟩ := Request.exists_of_flaw hflaw
    · exact ⟨rfl, hmis, rfl⟩
    · exact ⟨rfl, hmis, rfl⟩
  | @faulted request rest c hc hstep =>
    exact ⟨rfl, before.length, s₁, tab, request, c, by rwa [htake], by simp, hc, hstep,
      ht.full_of_fault hf hc hstep (hplays.get_le ht₀)⟩

theorem replay_exact_allocate :
    ∃ s : Session Reserve, Run [.allocate 24] s ∧ ∀ j, ∃ heap s₂ tab,
      ((Trace.replay [.allocate 7 40, .free 9]).exec s.heap j).1 =
        .ok (.error ⟨1, .unknownId 9⟩, heap) ∧
      s₂.heap = heap ∧ Table.sizes tab = [(7, 40)] ∧ s.Leaves tab s₂ := by
  obtain ⟨s, hr, hf⟩ := exists_run_allocate
  obtain ⟨s', hstep, -, -⟩ := hf.advance (c := .allocate 40) hr trivial (by decide) (by decide)
  have ha : (((Sketch.empty (Reserve.full 4096) .checked).perform (.allocate 24)).2.perform
      (.allocate 40)).1 = .ok (some 480) := by cbv
  rw [ha] at hstep
  refine ⟨s, hr, fun j => ?_⟩
  have hm := replay_exact hr rfl [.allocate 7 40, .free 9] j
  have hmisuse : Trace.misuse [.allocate 7 40, .free 9] = some ⟨1, .unknownId 9⟩ := by decide
  cases hexec : ((Trace.replay [.allocate 7 40, .free 9]).exec s.heap j).1 with
  | error e =>
    rw [hexec] at hm
    obtain ⟨-, n, s₁, tab, request, c, -, hget, -, -, hfull⟩ := hm
    obtain ⟨hn, -⟩ := List.getElem?_eq_some_iff.mp hget
    have hn : n < 2 := hn
    -- one call has been made, and no merge
    have hcalls : calls [.allocate 24] = 1 := rfl
    have hstats : s.heap.stats.coalesces = 0 := by rw [hf.shows.stats]; decide
    have hw : wordLimit = 18446744073709551616 := rfl
    omega
  | ok r =>
    obtain ⟨told, heap⟩ := r
    rw [hexec] at hm
    obtain ⟨n, s₁, s₂, tab, hplays, hsizes, htells, hheap, hleaves⟩ := hm
    rcases told with ⟨op, reason | id | id | id | id⟩ | report
    · obtain ⟨-, hmis, request, c, hget, hc, hrefused⟩ := htells
      obtain ⟨hn, -⟩ := List.getElem?_eq_some_iff.mp hget
      have hn : n < 2 := hn
      interval_cases n
      · cases hplays
        cases hget
        cases hc
        rw [hstep] at hrefused
        cases hrefused
      · exact absurd (hmisuse.symm.trans hmis) (by decide)
    · exact htells.elim
    · exact htells.elim
    · obtain ⟨rfl, hmis, -⟩ := htells
      rw [hmisuse] at hmis
      cases hmis
      exact ⟨heap, s₂, tab, rfl, hheap, hsizes, hleaves⟩
    · obtain ⟨-, hmis, -⟩ := htells
      rw [hmisuse] at hmis
      cases hmis
    · obtain ⟨-, hmis, -⟩ := htells
      rw [hmisuse] at hmis
      cases hmis

theorem replay_faults_of_churns :
    calls (churns 3689348814741910323) + 2 < wordLimit ∧
    ∃ s : Session Reserve, Run (churns 3689348814741910323) s ∧
      Host.base s.heap.host % alignment = 0 ∧
      ∀ j, ((Trace.replay [.allocate 0 24, .reallocate 0 184]).exec s.heap j).1 =
        .error .addOverflow := by
  have hw : wordLimit = 18446744073709551616 := rfl
  have hcalls := calls_churns 3689348814741910323
  refine ⟨by omega, ?_⟩
  obtain ⟨s, stats, hr, hf, hm⟩ := exists_run_churns 3689348814741910323 (by omega)
  obtain ⟨s₁, stats₁, hstep, hr₁, hf₁, hm₁⟩ := hf.turn hr turns_allocate (by omega) (by omega)
  have ha : ((bench [] stats).perform (.allocate 24)).1 = .ok (some 448) := by cbv
  rw [ha] at hstep
  obtain ⟨cs, hr₂, hf₂⟩ := hf₁.run_fill hr₁
    (by decide : (440, 32) ∈ Row.sites true prologueSize churnRow₁) (Playback.pattern 0) (i := 0)
    (n := 24) (by decide)
  have hfault : (s₁.fill 0 448 24).step (.reallocate 448 184) = .error .addOverflow := by
    refine hf₂.step_eq_error (hf₂.allows (turns_reallocate.admits stats₁)) fun hfit => ?_
    have hco : ((bench churnRow₁ stats₁).perform (.reallocate 448 184)).2.stats.coalesces <
        wordLimit := hfit .coalesces
    rw [turns_reallocate.merges] at hco
    omega
  have hplays : s.Plays [] [.allocate 0 24] (s₁.fill 0 448 24) [(0, 448, 24)] :=
    .cons (.allocate List.not_mem_nil) hstep .nil
  refine ⟨s, hr, rfl, fun j => ?_⟩
  have hrun := hplays.exec_run_error (hf.tends hr) hf rfl (.start s.heap.size)
    (.reallocate List.mem_cons_self) hfault [] 0 j
  rw [List.cons_append, List.nil_append] at hrun
  rw [exec_replay, hrun]

end Session

end SegregatedFit
