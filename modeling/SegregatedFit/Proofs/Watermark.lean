import Mathlib
import SegregatedFit.Proofs.Accounting
import SegregatedFit.Proofs.Asking
import SegregatedFit.Proofs.Restarting

/-!
What a heap has its host commit. A host is asked where a growth goes beyond what is committed, and for
what is missing, so over a reserve the committed bytes stand at the highest top that was ever reached.
-/
namespace SegregatedFit

open Row

variable {H : Type}

namespace Reserve

variable {r r' : Reserve} {top delta : Nat} {reason : Refusal}

theorem committed_of_secure_ok (h : Host.secure r top delta = (.ok (), r')) :
    r'.committed = max r.committed (top + delta) := by
  rw [secure_eq] at h
  split at h
  · cases h
  · split at h
    · next hc =>
      by_cases hcap : r.committed + (top + delta - r.committed) ≤ r.capacity
      · rw [extend_of_le r hcap] at h
        cases h
        change r.committed + (top + delta - r.committed) = _
        omega
      · rw [extend_of_lt r (Nat.not_le.mp hcap)] at h
        cases h
    · cases h
      omega

theorem of_secure_error (h : Host.secure r top delta = (.error reason, r')) : r' = r := by
  by_cases hgrant : top + delta < wordLimit ∧ top + delta ≤ r.capacity
  · obtain ⟨r₁, h₁, -⟩ := secure_of_le hgrant.1 hgrant.2
    rw [h₁] at h
    cases h
  · have hno : wordLimit ≤ top + delta ∨ r.capacity < top + delta := by omega
    obtain ⟨n, h₁⟩ := secure_of_lt hno
    rw [h₁] at h
    cases h
    rfl

theorem capacity_secure (r : Reserve) (top delta : Nat) :
    (Host.secure r top delta).2.capacity = r.capacity := by
  rw [secure_eq]
  split
  · rfl
  · split
    · exact capacity_extend r _
    · rfl

/-- A reserve behind one that is watched has committed up to the highest top that was reached. -/
def Marked (m : Nat) (w : Watched Reserve) : Prop := w.host.committed = w.reached.foldl max m

theorem Marked.extend {m : Nat} (w : Watched Reserve) (n : Nat) (h : Marked m w) :
    Marked m (Host.extend w n).host := by
  change Marked m (w.extend n).host
  rw [Watched.extend]
  rcases hs : Host.secure w.host 0 n with ⟨reason | _, r'⟩
  · change r'.committed = w.reached.foldl max m
    rw [of_secure_error hs]
    exact h
  · change r'.committed = (w.reached ++ [n]).foldl max m
    rw [committed_of_secure_ok hs, List.foldl_append, ← show w.host.committed = _ from h, Nat.zero_add]
    rfl

end Reserve

namespace Session

section

variable [Host H]

/-- The session that the calls lead to from a heap made on `host`, and the places that the top was at
ever since: after the start, after each growth, and after each call. -/
inductive Passed (host : H) : List Call → Session H → List Nat → Prop
  | start {config : Config} {mem : Memory} {heap : Heap H} :
    (Heap.init.exec (.blank host config mem) #[]).1 = .ok (.ok (), heap) →
      Passed host [] ⟨heap, []⟩ [heap.arena.top]
  | step {cs : List Call} {s s' : Session H} {tops : List Nat} {c : Call} {a : Answer} :
    Passed host cs s tops → s.Allows c → s.step c = .ok (a, s') →
      Passed host (cs ++ [c]) s' (tops ++ s.climbs c ++ [s'.heap.arena.top])

variable {host : H} {cs : List Call} {s : Session H} {tops : List Nat}

theorem Passed.run (h : Passed host cs s tops) : Run cs s := by
  induction h with
  | start hi => exact .start hi
  | step _ hc hstep ih => exact ih.step hc hstep

theorem Run.passed (h : Run cs s) : ∃ (host : H) (tops : List Nat), Passed host cs s tops := by
  induction h with
  | start hi => exact ⟨_, _, .start hi⟩
  | step _ hc hstep ih =>
    obtain ⟨host, tops, hp⟩ := ih
    exact ⟨host, _, hp.step hc hstep⟩

variable [LawfulHost H]

theorem Run.backed (h : Run cs s) : s.heap.arena.top ≤ Host.committed s.heap.host := by
  obtain ⟨k, hf⟩ := h.follows
  rw [hf.shows.top, hf.shows.host]
  exact hf.valid.backed

/-- The last places of the top are those since the heap was initialized, which are all of them where
it never was again. -/
theorem Passed.charted (h : Passed host cs s tops) :
    ∃ chart, s.Charted chart ∧ (∃ before, tops = before ++ chart.course) ∧
      (.init ∉ cs → tops = chart.course) := by
  induction h with
  | start hi => exact ⟨_, .start hi, ⟨[], rfl⟩, fun _ => rfl⟩
  | @step cs s s' tops c a hp hc hstep ih =>
    obtain ⟨chart, hchart, ⟨before, hbefore⟩, hall⟩ := ih
    by_cases hinit : c = .init
    · subst hinit
      obtain ⟨k, hf⟩ := hp.run.follows
      obtain rfl : a = .ok none := (hf.of_step hc hstep).1.answer
      exact ⟨_, hchart.init hstep, ⟨tops ++ s.climbs .init, rfl⟩, fun h => absurd (by simp) h⟩
    · refine ⟨_, hchart.call hc hinit hstep, ⟨before, ?_⟩, fun h => ?_⟩
      · rw [hbefore, Chart.extend]
        simp only [List.append_assoc]
      · rw [hall fun hm => h (List.mem_append_left _ hm), Chart.extend]

end

variable {r : Reserve} {s s' : Session Reserve} {cs : List Call} {c : Call} {a : Answer}
  {tops : List Nat} {m : Nat}

theorem committed_step (h : s.step c = .ok (a, s')) :
    s'.heap.host.committed = (s.climbs c).foldl max s.heap.host.committed := by
  have hmarked : Reserve.Marked s.heap.host.committed
      (s'.rehost (⟨s'.heap.host, s.climbs c⟩ : Watched Reserve)).heap.host :=
    step_keeps_host (Reserve.Marked.extend (m := s.heap.host.committed)) (step_watched h) rfl
  exact hmarked

theorem capacity_step (h : s.step c = .ok (a, s')) : s'.heap.host.capacity = s.heap.host.capacity :=
  step_keeps_host (P := fun r => r.capacity = s.heap.host.capacity)
    (fun r n hr => (r.capacity_extend n).trans hr) h rfl

theorem isGreatest_append (ups : List Nat) (h : IsGreatest {top | top ∈ tops} m) :
    IsGreatest {top | top ∈ tops ++ ups} (ups.foldl max m) := by
  induction ups generalizing tops m with
  | nil => rwa [List.append_nil]
  | cons u ups ih =>
    rw [List.append_cons, List.foldl_cons]
    apply ih
    rw [setOf_mem_concat, max_comm]
    exact h.insert u

/-- The mark is the highest top so far: growth beyond it raises it, and nothing lowers it. -/
theorem Passed.isGreatest (hr : r.committed = 0) (h : Passed r cs s tops) :
    IsGreatest {top | top ∈ tops} s.heap.host.committed ∧ s.heap.host.capacity = r.capacity := by
  induction h with
  | @start config mem heap hi =>
    have hf := start_follows hi
    have htop : heap.arena.top = prologueSize := hf.shows.top
    have hhost : heap.host = (Host.secure r 0 prologueSize).2 := hf.shows.host
    have hbacked : prologueSize ≤ (Host.secure r 0 prologueSize).2.committed := hf.valid.backed
    have hmark : (Host.secure r 0 prologueSize).2.committed = prologueSize := by
      match hs : Host.secure r 0 prologueSize with
      | (.ok (), r') =>
        have hcommitted := Reserve.committed_of_secure_ok hs
        rwa [hr, Nat.zero_add, Nat.zero_max] at hcommitted
      | (.error reason, r') =>
        rw [hs, Reserve.of_secure_error hs, hr] at hbacked
        exact absurd hbacked (by decide)
    rw [hhost, hmark, setOf_mem_singleton, htop]
    exact ⟨isGreatest_singleton, Reserve.capacity_secure r 0 prologueSize⟩
  | @step cs s s' tops c a hp hc hstep ih =>
    obtain ⟨hgreatest, hcap⟩ := ih
    refine ⟨?_, (capacity_step hstep).trans hcap⟩
    have hbacked : s'.heap.arena.top ≤ s'.heap.host.committed := (hp.run.step hc hstep).backed
    have hcommitted := committed_step hstep
    have hclimbed := isGreatest_append (s.climbs c) hgreatest
    rw [← hcommitted] at hclimbed
    have hlast := isGreatest_append [s'.heap.arena.top] hclimbed
    rwa [List.foldl_cons, List.foldl_nil, max_eq_left hbacked] at hlast

theorem Passed.maxHeapSize_le (h : Passed r cs s tops)
    (hgreatest : IsGreatest {top | top ∈ tops} s.heap.host.committed) :
    prologueSize + s.heap.stats.maxHeapSize ≤ s.heap.host.committed ∧
      (.init ∉ cs → s.heap.host.committed = prologueSize + s.heap.stats.maxHeapSize) := by
  obtain ⟨chart, hchart, ⟨before, hbefore⟩, hall⟩ := h.charted
  obtain ⟨cs, k, hf, hm, -⟩ := hchart.follows
  have hmax : k.gauge.maxHeapSize = s.heap.stats.maxHeapSize := by rw [hf.shows.stats]; rfl
  have hlow : prologueSize ≤ s.heap.host.committed := by
    rw [hf.shows.host]
    exact k.prologueSize_le_top.trans hf.valid.backed
  have hrecord := hm.maxHeapSize
  rw [hmax] at hrecord
  have hle : prologueSize + s.heap.stats.maxHeapSize ≤ s.heap.host.committed := by
    obtain ⟨top, htop, hsize⟩ := hrecord.1
    have htops : top ∈ tops := hbefore ▸ List.mem_append_right _ htop
    have hbelow : top ≤ s.heap.host.committed := hgreatest.2 htops
    dsimp only at hsize
    omega
  refine ⟨hle, fun hinit => Nat.le_antisymm ?_ hle⟩
  have hcourse : s.heap.host.committed ∈ chart.course := hall hinit ▸ hgreatest.1
  have hsize := hrecord.2 (Set.mem_image_of_mem (· - prologueSize) hcourse)
  omega

/-- Over a reserve that starts with nothing committed, the committed bytes are the highest top ever, across
all growths, releases and new starts. On any host the heap lies in what is committed, and the host is asked
by growth alone, where the new top is beyond what is committed, and for the difference: so it is for each
growth of any heap, also before its first start, and with the growths that a call makes for each call. -/
theorem reachable_committed {H : Type} [Host H] :
    (∀ {r : Reserve} {cs : List Call} {s : Session Reserve} {tops : List Nat}, r.committed = 0 →
      Passed r cs s tops →
        IsGreatest {top | top ∈ tops} s.heap.host.committed ∧
        s.heap.arena.top ≤ s.heap.host.committed ∧ s.heap.host.committed ≤ r.capacity ∧
        prologueSize + s.heap.stats.maxHeapSize ≤ s.heap.host.committed ∧
        (.init ∉ cs → s.heap.host.committed = prologueSize + s.heap.stats.maxHeapSize)) ∧
    (∀ {cs : List Call} {s : Session H}, Run cs s →
      ∃ (host : H) (tops : List Nat), Passed host cs s tops) ∧
    (∀ [LawfulHost H] {s : Session H}, s.Reachable →
      s.heap.arena.top ≤ Host.committed s.heap.host) ∧
    -- a growth: what it asks for, and what the two other logs note of it
    (∀ (h : Heap (Logged H)) (delta : Nat) (j : Journal),
      ∃ (r : Except Refusal Nat) (h' : Heap (Logged H)), ((Heap.grow delta).exec h j).1 = .ok (r, h') ∧
        ((r = .ok h.arena.top ∧ h'.arena.top = h.arena.top + delta) ∨
          ((∃ reason, r = .error reason) ∧ h'.arena.top = h.arena.top)) ∧
        h'.host.asked = h.host.asked ++
          if h.arena.top + delta < wordLimit ∧ Host.committed h.host.host < h.arena.top + delta then
            [(Host.committed h.host.host, h.arena.top + delta - Host.committed h.host.host)]
          else []) ∧
    (∀ {h h' : Heap (Tried H)} {delta : Nat} {j : Journal} {r : Except Refusal Nat},
      0 < h.arena.top + delta → h.arena.top + delta < wordLimit →
      ((Heap.grow delta).exec h j).1 = .ok (r, h') →
        h'.host.tried = h.host.tried ++ [(h.arena.top + delta, Host.committed h.host.host)]) ∧
    (∀ {h h' : Heap (Watched H)} {delta : Nat} {j : Journal} {r : Except Refusal Nat},
      0 < h.arena.top + delta → ((Heap.grow delta).exec h j).1 = .ok (r, h') →
        (∃ top, r = .ok top ∧ h'.host.reached = h.host.reached ++ [h'.arena.top]) ∨
          ((∃ reason, r = .error reason) ∧ h'.host.reached = h.host.reached ∧ h'.arena = h.arena)) ∧
    -- a call: it does with each of the logs what it does without, and what it asks for is what is
    -- missing of the tops that its growths go for
    (∀ {s s' : Session H} {c : Call} {a : Answer}, s.step c = .ok (a, s') →
      (s.rehost (Logged.start s.heap.host)).step c =
        .ok (a, s'.rehost (⟨s'.heap.host, s.asks c⟩ : Logged H)) ∧
      (s.rehost (Tried.start s.heap.host)).step c =
        .ok (a, s'.rehost (⟨s'.heap.host, s.attempts c⟩ : Tried H)) ∧
      (s.climbs c).Sublist ((s.attempts c).map Prod.fst) ∧
      s.asks c = (s.attempts c).filterMap missing) ∧
    ∀ [LawfulHost H] {s s' : Session H} {c : Call} {a : Answer}, s.Reachable → s.Allows c →
      s.step c = .ok (a, s') →
        (s.attempts c).Sublist
          ((c.goals s.heap.arena.top).map fun top => (top, Host.committed s.heap.host)) ∧
        ((s.climbs c = [] ∧ s'.heap.arena.top ≤ s.heap.arena.top) ∨
          (s.climbs c = [s'.heap.arena.top] ∧ (c ≠ .init → s.heap.arena.top < s'.heap.arena.top))) := by
  refine ⟨fun hr h => ?_, Run.passed, ?_, Heap.grow_asks, Heap.grow_tries, Heap.grow_notes,
    fun h => ⟨step_logged h, step_tried h, climbs_sublist h, asks_eq h⟩, ?_⟩
  · obtain ⟨hgreatest, hcap⟩ := h.isGreatest hr
    have hmax := h.maxHeapSize_le hgreatest
    exact ⟨hgreatest, h.run.backed, hcap ▸ Reserve.committed_le _, hmax.1, hmax.2⟩
  · intro _ s hs
    obtain ⟨cs, h⟩ := hs
    exact h.backed
  · intro _ s s' c a hs hc h
    obtain ⟨cs, hr⟩ := hs
    obtain ⟨k, hf⟩ := hr.follows
    exact ⟨hf.attempts_sublist hc h, hf.climbs_eq hc h⟩

theorem reachable_committed_free :
    ∃ (r : Reserve) (s₀ s₁ s : Session Reserve) (tops : List Nat), r.committed = 0 ∧
      Passed r [.allocate 24, .free 448] s tops ∧ s.heap.arena.top = 440 ∧
      s.heap.host.committed = 632 ∧ IsGreatest {top | top ∈ tops} 632 ∧
      s.heap.stats.maxHeapSize = 192 ∧ 440 ≤ Host.committed s.heap.host ∧
      s₀.step (.allocate 24) = .ok (.ok (some 448), s₁) ∧
      (s₀.attempts (.allocate 24)).Sublist [(632, 440), (472, 440)] ∧
      s₀.climbs (.allocate 24) = [632] ∧
      s₀.asks (.allocate 24) = (s₀.attempts (.allocate 24)).filterMap missing ∧
      (∃ host tops, Passed host [.allocate 24, .free 448] s tops) ∧
      ∃ (r : Except Refusal Nat) (h' : Heap (Logged Reserve)),
        ((Heap.grow 192).exec (s₀.heap.rehost (Logged.start s₀.heap.host)) #[]).1 = .ok (r, h') ∧
        h'.host.asked = [(440, 192)] := by
  have hroom : Host.secure (⟨4096, 0, by decide⟩ : Reserve) 0 prologueSize =
    (.ok (), ⟨4096, 440, by decide⟩) := rfl
  obtain ⟨heap, hi, hf₀⟩ := init_follows hroom .checked .zero
  obtain ⟨s₁, hstep₁, hr₁, hf₁⟩ :=
    hf₀.advance (c := .allocate 24) (.start hi) trivial (by decide) (by decide)
  have hadm : ((Sketch.empty (⟨4096, 440, by decide⟩ : Reserve) .checked).perform
    (.allocate 24)).2.Admits (.free 448) := ⟨440, 32, by decide, rfl⟩
  obtain ⟨s, hstep, hr, hf⟩ := hf₁.advance hr₁ hadm (by decide) (by decide)
  have hp := ((Passed.start hi).step (c := .allocate 24) trivial hstep₁).step (hf₁.allows hadm) hstep
  have htop₀ : heap.arena.top = 440 := hf₀.shows.top.trans rfl
  have hhost₀ : heap.host = ⟨4096, 440, by decide⟩ := hf₀.shows.host
  have htop₁ : s₁.heap.arena.top = 632 := hf₁.shows.top.trans rfl
  have htop : s.heap.arena.top = 440 := hf.shows.top.trans rfl
  have hcommitted : s.heap.host.committed = 632 := by rw [hf.shows.host]; rfl
  obtain ⟨hmark, hpassed, hback, hgrow, -, -, hcall, hgoals⟩ := reachable_committed (H := Reserve)
  obtain ⟨hgreatest, -, -, -, hmax⟩ := hmark rfl hp
  have hbacked := hback ⟨_, hr⟩
  obtain ⟨-, -, -, hasks⟩ := hcall hstep₁
  obtain ⟨hattempts, hclimbs⟩ := hgoals (c := .allocate 24) ⟨_, .start hi⟩ trivial hstep₁
  obtain ⟨r, h', hexec, -, hasked⟩ := hgrow (heap.rehost (Logged.start heap.host)) 192 #[]
  have hrecord := hmax (by decide)
  rw [hcommitted] at hgreatest hrecord
  rw [htop] at hbacked
  rw [htop₁] at hclimbs
  have hasked₀ : h'.host.asked = [(440, 192)] := by
    rw [hasked]
    change [] ++ (if heap.arena.top + 192 < wordLimit ∧ heap.host.committed < heap.arena.top + 192 then
      [(heap.host.committed, heap.arena.top + 192 - heap.host.committed)] else []) = _
    rw [htop₀, hhost₀]
    rfl
  refine ⟨_, _, s₁, s, _, rfl, hp, htop, hcommitted, hgreatest, (Nat.add_left_cancel hrecord).symm, hbacked,
    hstep₁, ?_, ?_, hasks, hpassed hr, r, h', hexec, hasked₀⟩
  · have hgoals₀ : ((Call.allocate 24).goals heap.arena.top).map
        (fun top => (top, Host.committed heap.host)) = [(632, 440), (472, 440)] := by
      rw [htop₀, hhost₀]
      rfl
    rw [← hgoals₀]
    exact hattempts
  · rcases hclimbs with ⟨-, hle⟩ | ⟨hone, -⟩
    · rw [htop₀] at hle
      exact absurd hle (by decide)
    · exact hone

end Session

end SegregatedFit
