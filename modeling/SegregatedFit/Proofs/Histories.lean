import Mathlib
import SegregatedFit.Proofs.Promises
import SegregatedFit.Proofs.Verdicts

/-!
Histories: runs with all that they were told. A heap shows its client, call after call, what it owes
to the calls and to the verdicts of its host, and nothing of what its memory held before or of what
is written to the payloads.
-/
namespace SegregatedFit

open Row Memory

variable {H H' : Type}

/-- The calls on the heap, each with its answer. -/
def asked (h : List (Call × Answer)) : List (Call × Answer) := h.filter fun q => q.1.asks

namespace Sketch

variable [Host H]

def play (k : Sketch H) : List Call → Sketch H
  | [] => k
  | c :: cs => (k.perform c).2.play cs

def transcript (k : Sketch H) : List Call → List (Call × Answer)
  | [] => []
  | c :: cs => (c, (k.perform c).1) :: (k.perform c).2.transcript cs

theorem play_concat (k : Sketch H) (cs : List Call) (c : Call) :
    k.play (cs ++ [c]) = ((k.play cs).perform c).2 := by
  induction cs generalizing k with
  | nil => rfl
  | cons d cs ih => exact ih _

theorem transcript_concat (k : Sketch H) (cs : List Call) (c : Call) :
    k.transcript (cs ++ [c]) = k.transcript cs ++ [(c, ((k.play cs).perform c).1)] := by
  induction cs generalizing k with
  | nil => rfl
  | cons d cs ih => exact congrArg (_ :: ·) (ih _)

theorem perform_of_not_asks {c : Call} (hc : ¬ c.asks) (k : Sketch H) : k.perform c = (.ok none, k) := by
  cases c with
  | write ptr i b => rfl
  | allocate request | free ptr | reallocate ptr request | init => exact absurd rfl hc

theorem play_filter (k : Sketch H) (cs : List Call) : k.play (cs.filter Call.asks) = k.play cs := by
  induction cs generalizing k with
  | nil => rfl
  | cons c cs ih =>
    by_cases hc : c.asks
    · rw [List.filter_cons_of_pos hc]
      exact ih _
    · rw [List.filter_cons_of_neg hc, ih, play, perform_of_not_asks hc]

theorem asked_transcript (k : Sketch H) (cs : List Call) :
    asked (k.transcript cs) = k.transcript (cs.filter Call.asks) := by
  induction cs generalizing k with
  | nil => rfl
  | cons c cs ih =>
    by_cases hc : c.asks
    · have hq (a : Answer) (l : List (Call × Answer)) : asked ((c, a) :: l) = (c, a) :: asked l :=
        List.filter_cons_of_pos hc
      rw [List.filter_cons_of_pos hc, transcript, hq, ih, transcript]
    · rw [List.filter_cons_of_neg hc, ← ih k, transcript, perform_of_not_asks hc]
      exact List.filter_cons_of_neg hc

end Sketch

namespace Live

def after (h : List (Call × Answer)) : Live := h.foldl (fun live q => q.1.record live q.2) []

theorem after_concat (h : List (Call × Answer)) (c : Call) (a : Answer) :
    after (h ++ [(c, a)]) = c.record (after h) a := by
  simp [after]

theorem after_asked (h : List (Call × Answer)) : after (asked h) = after h := by
  induction h using List.reverseRecOn with
  | nil => rfl
  | append_singleton h q ih =>
    obtain ⟨c, a⟩ := q
    rw [after_concat, ← ih, asked, List.filter_append]
    cases c with
    | write ptr i b => simp [asked, Call.asks, Call.record]
    | allocate request | free ptr | reallocate ptr request | init => exact after_concat _ _ _

end Live

namespace Session

section

variable [Host H] [Host H']

/-- From a heap that was made on this host and this memory, the calls were made and answered. -/
inductive History (host : H) (config : Config) (mem : Memory) :
    List (Call × Answer) → Session H → Prop
  | start {heap : Heap H} : (Heap.init.exec (.blank host config mem) #[]).1 = .ok (.ok (), heap) →
    History host config mem [] ⟨heap, []⟩
  | step {h : List (Call × Answer)} {s s' : Session H} {c : Call} {a : Answer} :
    History host config mem h s → s.Allows c → s.step c = .ok (a, s') →
      History host config mem (h ++ [(c, a)]) s'

variable {host : H} {config : Config} {mem : Memory} {h : List (Call × Answer)} {s : Session H}
  {cs : List Call}

theorem History.run (hh : History host config mem h s) : Run (h.map Prod.fst) s := by
  induction hh with
  | start hi => exact .start hi
  | step _ hc hstep ih =>
    rw [List.map_append]
    exact ih.step hc hstep

theorem Run.history (hr : Run cs s) :
    ∃ host config mem h, History host config mem h s ∧ h.map Prod.fst = cs := by
  induction hr with
  | @start host config mem heap hi => exact ⟨host, config, mem, [], .start hi, rfl⟩
  | step _ hc hstep ih =>
    obtain ⟨host, config, mem, h, hh, rfl⟩ := ih
    exact ⟨host, config, mem, _, hh.step hc hstep, by rw [List.map_append]; rfl⟩

theorem History.live_eq (hh : History host config mem h s) : s.live = .after h := by
  induction hh with
  | start _ => rfl
  | step _ _ hstep ih => rw [(exec_of_step hstep).2, ih, Live.after_concat]

theorem History.rehost (C : Host.Coupling H H') (hr : C.reasons = Eq) {host' : H'}
    (hc : C.rel host host') (hh : History host config mem h s) (hg : C.guard s.heap.host) :
    ∃ host'', History host' config mem h (s.rehost host'') ∧ C.rel s.heap.host host'' := by
  induction hh with
  | @start heap hi =>
    obtain ⟨b, host'', hi', hab, hc'⟩ :=
      (Heap.mirrors_init (C := C)).ahead #[] hi hc hg
    rw [hr] at hab
    cases hab.eq
    exact ⟨host'', .start hi', hc'⟩
  | @step h s s' c a _ hallow hstep ih =>
    -- the guard is known at the end of the history, and goes back along it
    obtain ⟨host₁, hh₁, hc₁⟩ := ih (step_back C hstep hg)
    obtain ⟨b, host₂, hstep', hab, hc₂⟩ := step_mirrors C hstep hc₁ hg
    rw [hr] at hab
    cases hab.eq
    exact ⟨host₂, hh₁.step (hallow.rehost host₁) hstep', hc₂⟩

theorem History.recorded (hh : History host config mem h s) :
    ∃ verdicts, History (Recorded.start host) config mem h (s.rehost ⟨s.heap.host, verdicts⟩) := by
  let C := Recorded.coupling host
  obtain ⟨⟨_, verdicts⟩, hh', rfl⟩ := hh.rehost C rfl (rfl : C.rel host (.start host)) trivial
  exact ⟨verdicts, hh'⟩

/-- A history follows a sketch that only its host, its set-up and its calls determine. -/
theorem History.follows [LawfulHost H] (hh : History host config mem h s) :
    s.Follows (h.map Prod.fst)
      ((Sketch.empty (Host.secure host 0 prologueSize).2 config).play (h.map Prod.fst)) ∧
    h = (Sketch.empty (Host.secure host 0 prologueSize).2 config).transcript (h.map Prod.fst) := by
  induction hh with
  | start hi => exact ⟨start_follows hi, rfl⟩
  | step _ hc hstep ih =>
    obtain ⟨hf, hh⟩ := ih
    obtain ⟨hm, hf'⟩ := hf.of_step hc hstep
    rw [List.map_append, List.map_singleton, Sketch.play_concat, Sketch.transcript_concat]
    exact ⟨hf', by rw [← hh, ← hm.answer]⟩

theorem History.advance [LawfulHost H] {k : Sketch H} {c : Call}
    (hh : History host config mem h s) (hf : s.Follows (h.map Prod.fst) k) (hc : k.Admits c)
    (hlt : calls (h.map Prod.fst ++ [c]) < wordLimit)
    (hco : (k.perform c).2.stats.coalesces < wordLimit) :
    ∃ s', History host config mem (h ++ [(c, (k.perform c).1)]) s' ∧
      s'.Follows ((h ++ [(c, (k.perform c).1)]).map Prod.fst) (k.perform c).2 := by
  obtain ⟨s', hstep, -, hf'⟩ := hf.advance hh.run hc hlt hco
  rw [List.map_append]
  exact ⟨s', hh.step (hf.allows hc) hstep, hf'⟩

theorem History.write [LawfulHost H] {k : Sketch H} {ptr i : Nat} {b : UInt8}
    (hh : History host config mem h s) (hf : s.Follows (h.map Prod.fst) k)
    (hc : k.Admits (.write ptr i b)) (hlt : calls (h.map Prod.fst ++ [.write ptr i b]) < wordLimit) :
    ∃ s', History host config mem (h ++ [(Call.write ptr i b, .ok none)]) s' ∧
      s'.Follows ((h ++ [(Call.write ptr i b, Except.ok none)]).map Prod.fst) k :=
  hh.advance hf hc hlt (hf.shows.fits .coalesces)

end

/-- What two heaps have in common when no client can tell them apart. -/
structure Alike (s : Session H) (t : Session H') : Prop where
  low : s.heap.arena.low = t.heap.arena.low
  top : s.heap.arena.top = t.heap.arena.top
  blocks : s.heap.blocks = t.heap.blocks
  lists (b : Fin bucketCount) : ∃ l, (sentinel b :: l).Nodup ∧
    s.heap.arena.mem.Ring (sentinel b) l ∧ t.heap.arena.mem.Ring (sentinel b) l
  bins : s.heap.bins = t.heap.bins
  topUsed : s.heap.topUsed = t.heap.topUsed
  stats : s.heap.stats = t.heap.stats
  live : s.live = t.live
  sizes {ptr : Nat} : ptr ∈ s.live.pointers → s.heap.blockSize ptr = t.heap.blockSize ptr

variable [Host H] [Host H'] {config : Config} {mem mem' : Memory} {h h' : List (Call × Answer)}

theorem Follows.alike {s t : Session H} {cs cs' : List Call} {k : Sketch H} (hs : s.Follows cs k)
    (ht : t.Follows cs' k) (hl : s.live = t.live) : s.Alike t where
  low := by rw [hs.shows.low, ht.shows.low]
  top := by rw [hs.shows.top, ht.shows.top]
  blocks := by rw [hs.shows.blocks_eq, ht.shows.blocks_eq]
  lists b := ⟨k.lists b, hs.shows.tidy.ring_nodup b, hs.shows.rings b, ht.shows.rings b⟩
  bins := Bins.ext_length fun b => by rw [hs.shows.lengths, ht.shows.lengths]
  topUsed := by rw [hs.shows.topUsed, ht.shows.topUsed]
  stats := by rw [hs.shows.stats, ht.shows.stats]
  live := hl
  sizes hp := by
    obtain ⟨x, m, hx, rfl⟩ := hs.site hp
    rw [hs.shows.blockSize_payload hx, ht.shows.blockSize_payload hx]

theorem History.alike [LawfulHost H] {host : H} {s t : Session H}
    (hs : History host config mem h s) (ht : History host config mem' h' t)
    (hcalls : (h.map Prod.fst).filter Call.asks = (h'.map Prod.fst).filter Call.asks) :
    asked h = asked h' ∧ s.heap.host = t.heap.host ∧ s.Alike t := by
  obtain ⟨hfs, hhs⟩ := hs.follows
  obtain ⟨hft, hht⟩ := ht.follows
  have hasked : asked h = asked h' := by
    rw [hhs, hht, Sketch.asked_transcript, Sketch.asked_transcript, hcalls]
  rw [← Sketch.play_filter] at hfs hft
  rw [← hcalls] at hft
  refine ⟨hasked, by rw [hfs.shows.host, hft.shows.host], hfs.alike hft ?_⟩
  rw [hs.live_eq, ht.live_eq, ← Live.after_asked, hasked, Live.after_asked]

/-- Every client may be one whose host keeps a record of its verdicts. Two clients make the same calls, of
two hosts that come with as many bytes and whose verdicts, as far as either was asked, are those of `w`.
They are told the same, and have the same heap, as `w` may go on, at every moment; but for what the memory
holds that is not the heap's. -/
theorem histories_agree [LawfulHost H] [LawfulHost H'] :
    (∀ {host : H} {config : Config} {mem : Memory} {h : List (Call × Answer)} {s : Session H},
      History host config mem h s → ∃ verdicts,
        History (Recorded.start host) config mem h (s.rehost ⟨s.heap.host, verdicts⟩)) ∧
    ∀ {host : H} {host' : H'} {config : Config} {mem mem' : Memory} {h h' : List (Call × Answer)}
      {s : Session (Recorded H)} {t : Session (Recorded H')} {w : List Verdict},
      History (.start host) config mem h s → History (.start host') config mem' h' t →
      Host.committed host = Host.committed host' →
      (h.map Prod.fst).filter Call.asks = (h'.map Prod.fst).filter Call.asks →
      s.heap.host.verdicts <+: w → t.heap.host.verdicts <+: w →
        asked h = asked h' ∧ s.heap.host.verdicts = t.heap.host.verdicts ∧ s.Alike t := by
  refine ⟨History.recorded, ?_⟩
  intro host host' config mem mem' h h' s t w hs ht hcommitted hcalls hws hwt
  -- with their hosts replaced by one script, the two histories differ in the memory only
  let script : Scripted := ⟨Host.committed host, w⟩
  obtain ⟨host₁, hs₁, hc₁⟩ :=
    hs.rehost (Scripted.coupling w) rfl (⟨rfl, rfl⟩ : Scripted.Recites w (.start host) script) hws
  obtain ⟨host₂, ht₁, hc₂⟩ :=
    ht.rehost (Scripted.coupling w) rfl (⟨rfl, hcommitted⟩ : Scripted.Recites w (.start host') script) hwt
  obtain ⟨hasked, hhost, halike⟩ := hs₁.alike ht₁ hcalls
  obtain rfl : host₁ = host₂ := hhost
  exact ⟨hasked, List.append_cancel_right (hc₁.1.trans hc₂.1.symm), halike.low, halike.top,
    halike.blocks, halike.lists, halike.bins, halike.topUsed, halike.stats, halike.live,
    halike.sizes⟩

theorem histories_agree_write :
    ∃ s t : Session (Recorded Reserve),
      History (.start ⟨4096, 440, by decide⟩) .checked .zero [(.allocate 24, .ok (some 448))] s ∧
      History (.start ⟨1024, 440, by decide⟩) .checked (Memory.zero.setByte 440 7)
        [(.allocate 24, .ok (some 448)), (.write 448 0 1, .ok none)] t ∧
      s.heap.host.verdicts = [.ok 0] ∧ t.heap.host.verdicts = [.ok 0] ∧ s.Alike t := by
  let r₁ : Reserve := ⟨4096, 440, by decide⟩
  let r₂ : Reserve := ⟨1024, 440, by decide⟩
  have h₁ : Host.secure r₁ 0 prologueSize = (.ok (), r₁) := Host.secure_eq_ok (by decide) (by decide)
  have h₂ : Host.secure r₂ 0 prologueSize = (.ok (), r₂) := Host.secure_eq_ok (by decide) (by decide)
  obtain ⟨heap₁, hi₁, hf₁⟩ := init_follows h₁ .checked .zero
  obtain ⟨heap₂, hi₂, hf₂⟩ := init_follows h₂ .checked (Memory.zero.setByte 440 7)
  obtain ⟨s, hs, hfs⟩ := (History.start hi₁).advance (c := .allocate 24) hf₁ trivial (by decide)
    (by decide)
  obtain ⟨t, ht, hft⟩ := (History.start hi₂).advance (c := .allocate 24) hf₂ trivial (by decide)
    (by decide)
  have ha₁ : ((Sketch.empty r₁ .checked).perform (.allocate 24)).1 = .ok (some 448) := by cbv
  have ha₂ : ((Sketch.empty r₂ .checked).perform (.allocate 24)).1 = .ok (some 448) := by cbv
  rw [ha₁] at hs
  rw [ha₂] at ht hft
  obtain ⟨t, ht, -⟩ := ht.write (i := 0) (b := 1) hft ⟨440, 32, by decide, rfl, by decide⟩ (by decide)
  obtain ⟨hrecorded, hagree⟩ := @histories_agree Reserve Reserve _ _ _ _
  obtain ⟨vs, hs⟩ := hrecorded hs
  obtain ⟨vt, ht⟩ := hrecorded ht
  have hvs : vs = [.ok 0] := (congrArg Recorded.verdicts hs.follows.1.shows.host).trans (by decide)
  have hvt : vt = [.ok 0] := (congrArg Recorded.verdicts ht.follows.1.shows.host).trans (by decide)
  subst hvs hvt
  have hsame := hagree (w := [.ok 0]) hs ht rfl rfl (List.prefix_refl _) (List.prefix_refl _)
  exact ⟨_, _, hs, ht, rfl, rfl, hsame.2.2⟩

end Session

end SegregatedFit
