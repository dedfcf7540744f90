import Mathlib
import SegregatedFit.Proofs.Accounting
import SegregatedFit.Proofs.Asking
import SegregatedFit.Proofs.Replaying

/-!
What a replay reports. It looks at the heap after each request only, and sees all there is to see: a call
that takes the top up does not take it down again, so the top is highest where a call ends. The heap has
room for the payload at any time, and so the payload never comes to more than a word.
-/
namespace SegregatedFit

open HeapM

variable {H : Type}

namespace Trace

def payload (t : Trace) : Nat := (t.sizes.map Prod.snd).sum

theorem sizes_concat (t : Trace) (request : Request) :
    sizes (t ++ [request]) = request.apply t.sizes := by
  rw [sizes, List.foldl_append]
  rfl

end Trace

/-- The figures of `t`, in the course of which the top of the heap, which begins at `low`, was at
`tops`. -/
structure Figures (t : Trace) (low : Nat) (tops : List Nat) (peak size : Nat) : Prop where
  peakPayload : IsGreatest (Trace.payload '' {q | q <+: t}) peak
  maxHeapSize : IsGreatest ((· - low) '' {top | top ∈ tops}) size
  le : peak ≤ size

namespace Figures

variable {t : Trace} {request : Request} {low peak size top : Nat} {tops ups : List Nat}

theorem start (low top : Nat) : Figures [] low [top] 0 (top - low) where
  peakPayload := by
    have hset : {q : Trace | q <+: []} = {[]} := by
      ext q
      exact List.prefix_nil
    rw [hset, Set.image_singleton]
    exact isGreatest_singleton
  maxHeapSize := by
    rw [setOf_mem_singleton, Set.image_singleton]
    exact isGreatest_singleton
  le := Nat.zero_le _

theorem observe (h : Figures t low tops peak size) (hups : ups = [] ∨ ups = [top])
    (hle : Trace.payload (t ++ [request]) ≤ top - low) :
    Figures (t ++ [request]) low (tops ++ (ups ++ [top])) (max peak (Trace.payload (t ++ [request])))
      (max size (top - low)) where
  peakPayload := by
    have hset : {q : Trace | q <+: t ++ [request]} = insert (t ++ [request]) {q | q <+: t} := by
      ext q
      exact List.prefix_concat_iff
    rw [hset, Set.image_insert_eq, max_comm]
    exact h.peakPayload.insert _
  maxHeapSize := by
    have hset : {x | x ∈ tops ++ (ups ++ [top])} = insert top {x | x ∈ tops} := by
      rw [← List.append_assoc, setOf_mem_concat]
      rcases hups with rfl | rfl
      · rw [List.append_nil]
      · rw [setOf_mem_concat, Set.insert_idem]
    rw [hset, Set.image_insert_eq, max_comm]
    exact h.maxHeapSize.insert _
  le := max_le_max h.le hle

end Figures

namespace Playback

variable {p : Playback} {tab : Table} {t : Trace}

theorem Lists.payload_eq (hp : p.Lists tab) (hsizes : tab.sizes = t.sizes) : p.payload = t.payload := by
  rw [hp.payload, Trace.payload, ← hsizes, Table.sizes, List.map_map]
  rfl

def InRange [Host H] (p : Playback) (heap : Heap H) : Request → Prop
  | .allocate id size => p.live[id]? = none → ∀ j ptr heap',
    ((Heap.allocate size).exec heap j).1 = .ok (.ok ptr, heap') →
      plus p.payload size = .ok (p.payload + size)
  | .reallocate id size => ∀ ptr old, p.live[id]? = some (ptr, old) →
    minus p.payload old = .ok (p.payload - old) ∧ ∀ j new heap',
      ((Heap.reallocate ptr size).exec heap j).1 = .ok (.ok new, heap') →
        plus (p.payload - old) size = .ok (p.payload - old + size)
  | .free id => ∀ ptr old, p.live[id]? = some (ptr, old) → minus p.payload old = .ok (p.payload - old)

end Playback

namespace Session

variable [Host H]

/-- A client that keeps to the trace, and is granted all that it asks for, is led from one session and
table to the other. The places that the top was at in the meantime, after each growth and after each
call, are `tops`. -/
inductive PlaysPast : Session H → Table → Trace → List Nat → Session H → Table → Prop
  | nil {s : Session H} {tab : Table} : PlaysPast s tab [] [] s tab
  | cons {s s₁ s₂ : Session H} {tab tab₂ : Table} {request : Request} {rest : Trace} {c : Call}
    {a : Option Nat} {tops : List Nat} : request.Calls tab c → s.step c = .ok (.ok a, s₁) →
      PlaysPast (s₁.fillFor request a) (request.record tab a) rest tops s₂ tab₂ →
        PlaysPast s tab (request :: rest) (s.climbs c ++ [s₁.heap.arena.top] ++ tops) s₂ tab₂

variable {s s₀ s₁ : Session H} {cs : List Call} {k : Sketch H} {c : Call} {a : Answer}
  {tab tab₁ : Table} {t before : Trace} {request : Request} {p : Playback} {tops tops₀ : List Nat}

theorem Plays.past (h : s.Plays tab t s₁ tab₁) : ∃ tops, s.PlaysPast tab t tops s₁ tab₁ := by
  induction h with
  | nil => exact ⟨[], .nil⟩
  | cons hc hstep _ ih =>
    obtain ⟨tops, h⟩ := ih
    exact ⟨_, .cons hc hstep h⟩

omit [Host H] in
theorem size_fillFor (s : Session H) (request : Request) (a : Option Nat) :
    (s.fillFor request a).heap.size = s.heap.size := by
  cases request <;> cases a <;> rfl

variable [LawfulHost H]

theorem Tends.inRange (ht : s₀.Tends tab s) (hf₀ : s₀.Follows cs k) (hp : p.Lists tab)
    (request : Request) : p.InRange s.heap request := by
  obtain ⟨cs', k', -, hf⟩ := ht.reached
  cases request with
  | allocate id size =>
    intro hnone j ptr heap' hexec
    have hid : id ∉ tab.map Prod.fst := by
      rw [← hp.contains_iff, Std.HashMap.contains_eq_isSome_getElem?, hnone]
      exact Bool.false_ne_true
    have hc : (Request.allocate id size).Calls tab (.allocate size) := .allocate hid
    have hstep := (hf.meets_call (ht.allows hc)).of_map.of_ok hexec
    exact plus_eq_ok (ht.payload_add_lt hf₀ hp hid hstep)
  | reallocate id size =>
    intro ptr old hlive
    have he := hp.live.mp hlive
    have hc : (Request.reallocate id size).Calls tab (.reallocate ptr size) := .reallocate he
    refine ⟨minus_eq_ok (hp.le_payload he), fun j new heap' hexec => ?_⟩
    have hstep := (hf.meets_call (ht.allows hc)).of_map.of_ok hexec
    exact plus_eq_ok (ht.payload_sub_add_lt hf₀ hp he hstep)
  | free id =>
    intro ptr old hlive
    exact minus_eq_ok (hp.le_payload (hp.live.mp hlive))

theorem PlaysPast.exec_run (h : s.PlaysPast tab t tops s₁ tab₁) (ht : s₀.Tends tab s)
    (hf₀ : s₀.Follows cs k) (hb : Host.base s₀.heap.host % alignment = 0) (hp : p.Lists tab)
    (hsizes : tab.sizes = before.sizes)
    (hfig : Figures before prologueSize tops₀ p.peakPayload p.maxHeapSize) (n : Nat) (j : Journal) :
    ∃ p₁ j₁, (p.run n t).exec s.heap j = (.ok (.ok p₁, s₁.heap), j₁) ∧
      Figures (before ++ t) prologueSize (tops₀ ++ tops) p₁.peakPayload p₁.maxHeapSize := by
  -- what came before grows by a request at a time
  induction h generalizing p before tops₀ n j with
  | nil =>
    rw [List.append_nil, List.append_nil]
    exact ⟨p, j, rfl, hfig⟩
  | @cons s s₁ s₂ tab tab₂ request rest c a tops hc hstep _ ih =>
    have hm := ht.exec_request hf₀ hb hp hc j
    rw [hstep] at hm
    obtain ⟨p', j', hr, hp', hkept⟩ := hm
    obtain ⟨cs', k', -, hf⟩ := ht.reached
    obtain ⟨ht', hsizes'⟩ := ht.step hc hstep
    rw [hsizes, ← Trace.sizes_concat] at hsizes'
    have hsize : (s₁.fillFor request a).heap.size = s₁.heap.arena.top - prologueSize := by
      rw [size_fillFor, Heap.size, Arena.size, (hf.of_step (ht.allows hc) hstep).2.shows.low]
    have hroom := ht'.sum_le_size hf₀
    rw [← hp'.payload, hp'.payload_eq hsizes', hsize] at hroom
    have hclimbs := (hf.climbs_eq (ht.allows hc) hstep).imp And.left And.left
    have hfig' := hfig.observe hclimbs hroom
    rw [← hsize, ← hp'.payload_eq hsizes', ← congrArg Playback.peakPayload hkept,
      ← congrArg Playback.maxHeapSize hkept] at hfig'
    obtain ⟨p₁, j₁, hrun, hfig₁⟩ := ih ht' (hp'.observe _) hsizes' hfig' (n + 1) j'
    rw [List.append_assoc, List.append_assoc] at hfig₁
    rw [Playback.run, exec_bind, hr]
    exact ⟨p₁, j₁, hrun, hfig₁⟩

theorem PlaysPast.exec_run_start (h : s.PlaysPast [] t tops s₁ tab₁) (ht : s.Tends [] s)
    (hf : s.Follows cs k) (hb : Host.base s.heap.host % alignment = 0) (j : Journal) :
    ∃ p₁ j₁, ((Playback.start s.heap.size).run 0 t).exec s.heap j = (.ok (.ok p₁, s₁.heap), j₁) ∧
      Figures t s.heap.arena.low (s.heap.arena.top :: tops) p₁.peakPayload p₁.maxHeapSize := by
  have hlow : s.heap.arena.low = prologueSize := hf.shows.low
  have hfig : Figures [] prologueSize [s.heap.arena.top] 0 s.heap.size := by
    rw [Heap.size, Arena.size, hlow]
    exact .start _ _
  have hsizes : Table.sizes [] = Trace.sizes [] := rfl
  rw [hlow]
  exact h.exec_run ht hf hb (.start _) hsizes hfig 0 j

/-- What a replay reports is exact: the largest payload after any part of the trace, and the largest heap
in the course of it, which has room for that payload. No request of a replay, also of one that stops, leads
to a payload that is too large for a word, or takes from it what is not in it. -/
theorem replay_reports (hs : s.Reachable) (hb : Host.base s.heap.host % alignment = 0) (t : Trace)
    (j : Journal) :
    (∀ report heap, (t.replay.exec s.heap j).1 = .ok (.ok report, heap) →
      report.ops = t.length ∧ (∃ tops s₁ tab, s.PlaysPast [] t tops s₁ tab ∧ s₁.heap = heap) ∧
      ∀ tops s₁ tab, s.PlaysPast [] t tops s₁ tab →
        Figures t s.heap.arena.low (s.heap.arena.top :: tops) report.peakPayload report.maxHeapSize) ∧
    ∀ n request p heap, t[n]? = some request →
      (((Playback.start s.heap.size).run 0 (t.take n)).exec s.heap j).1 = .ok (.ok p, heap) →
        p.payload = Trace.payload (t.take n) ∧ p.InRange heap request := by
  obtain ⟨cs, hr⟩ := hs
  obtain ⟨k, hf⟩ := hr.follows
  have ht := hf.tends hr
  have hlists := Playback.Lists.start s.heap.size
  refine ⟨fun report heap h => ?_, fun n request p heap _ h => ?_⟩
  · obtain ⟨before, after, s₁, tab, rfl, hplays, hstops⟩ := ht.exec_run hf hb hlists t 0 j
    rw [exec_replay] at h
    rw [Nat.zero_add] at hstops
    generalize hrun : (((Playback.start s.heap.size).run 0 (before ++ after)).exec s.heap j).1 = r at h hstops
    cases hstops with
    | @done p hp =>
      cases h
      rw [List.append_nil] at hrun ⊢
      obtain ⟨tops, hpast⟩ := hplays.past
      refine ⟨rfl, ⟨tops, s₁, tab, hpast, rfl⟩, fun tops' s₁' tab' hpast' => ?_⟩
      obtain ⟨p', j', hrun', hfig⟩ := hpast'.exec_run_start ht hf hb j
      rw [hrun'] at hrun
      obtain rfl : p' = p := Except.ok.inj (congrArg Prod.fst (Except.ok.inj hrun))
      exact hfig
    | refused | misused | faulted => cases h
  · obtain ⟨before, after, s₁, tab, heq, hplays, hstops⟩ := ht.exec_run hf hb hlists (t.take n) 0 j
    rw [h] at hstops
    cases hstops with
    | done hp =>
      rw [List.append_nil] at heq
      obtain ⟨ht₁, hsizes, -⟩ := hplays.tends ht
      exact ⟨hp.payload_eq (heq ▸ hsizes), ht₁.inRange hf hp request⟩

theorem replay_reports_reallocate :
    ∃ s : Session Reserve, Run [.allocate 24] s ∧ ∀ j, ∃ size heap p heap₁,
      ((Trace.replay [.allocate 7 40, .reallocate 7 400]).exec s.heap j).1 =
        .ok (.ok ⟨2, 400, size⟩, heap) ∧ 400 ≤ size ∧
      (((Playback.start s.heap.size).run 0 [.allocate 7 40]).exec s.heap j).1 = .ok (.ok p, heap₁) ∧
        p.payload = 40 ∧ p.InRange heap₁ (.reallocate 7 400) := by
  obtain ⟨s, hr, hf⟩ := exists_run_allocate
  let k₀ := ((Sketch.empty (Reserve.full 4096) .checked).perform (.allocate 24)).2
  let k₁ := (k₀.perform (.allocate 40)).2
  obtain ⟨s₁, hstep₁, hr₁, hf₁⟩ := hf.advance (c := .allocate 40) hr trivial (by decide) (by decide)
  have hx : (472, 64) ∈ k₁.sites true := by decide
  obtain ⟨cs₂, hr₂, hf₂⟩ :=
    hf₁.run_fill hr₁ hx (Playback.pattern 7) (i := 0) (n := 40) (by decide)
  obtain ⟨s₃, hstep₃, -⟩ := hf₂.step_of_fits (c := .reallocate 480 400)
    (hf₂.allows ⟨472, 64, hx, rfl⟩) fun d => by cases d <;> decide
  have ha₁ : (k₀.perform (.allocate 40)).1 = .ok (some 480) := by cbv
  have ha₃ : (k₁.perform (.reallocate 480 400)).1 = .ok (some 640) := by cbv
  rw [ha₁] at hstep₁
  rw [ha₃] at hstep₃
  have hplays₁ : s.Plays [] [.allocate 7 40] (s₁.fill 7 480 40) [(7, 480, 40)] :=
    .cons (.allocate List.not_mem_nil) hstep₁ .nil
  have hplays : s.Plays [] [.allocate 7 40, .reallocate 7 400] (s₃.fill 7 640 400) [(7, 640, 400)] :=
    .cons (.allocate List.not_mem_nil) hstep₁ (.cons (.reallocate List.mem_cons_self) hstep₃ .nil)
  obtain ⟨tops₁, hpast₁⟩ := hplays₁.past
  obtain ⟨tops, hpast⟩ := hplays.past
  refine ⟨s, hr, fun j => ?_⟩
  obtain ⟨p, j₁, hrun₁, -⟩ := hpast₁.exec_run_start (hf.tends hr) hf rfl j
  obtain ⟨p', j', hrun, -⟩ := hpast.exec_run_start (hf.tends hr) hf rfl j
  obtain ⟨hreports, hranges⟩ :=
    replay_reports ⟨_, hr⟩ rfl [.allocate 7 40, .reallocate 7 400] j
  have hreplay : ((Trace.replay [.allocate 7 40, .reallocate 7 400]).exec s.heap j).1 =
      .ok (.ok ⟨2, p'.peakPayload, p'.maxHeapSize⟩, (s₃.fill 7 640 400).heap) := by
    rw [exec_replay, hrun]
    rfl
  obtain ⟨-, -, hfigures⟩ := hreports _ _ hreplay
  have hfig := hfigures _ _ _ hpast
  have hpeak : p'.peakPayload = 400 := by
    refine hfig.peakPayload.unique ⟨⟨_, List.prefix_rfl, rfl⟩, ?_⟩
    rintro _ ⟨q, hq, rfl⟩
    obtain rfl | rfl | rfl : q = [] ∨ q = [.allocate 7 40] ∨ q = [.allocate 7 40, .reallocate 7 400] := by
      simpa using (List.mem_inits _ _).mpr hq
    all_goals decide
  obtain ⟨hpayload, hrange⟩ := hranges 1 (.reallocate 7 400) p _ rfl (congrArg Prod.fst hrun₁)
  rw [hpeak] at hreplay
  exact ⟨_, _, p, _, hreplay, hpeak ▸ hfig.le, congrArg Prod.fst hrun₁, hpayload, hrange⟩

end Session

end SegregatedFit
