import Mathlib
import SegregatedFit.Proofs.Exhaustion
import SegregatedFit.Proofs.Histories

/-!
Restarts over a reserve. What an initialized heap goes on to do is what a heap does that was just made
on a reserve of the same capacity. The tags, links and payloads that are still in the memory are never
read, and how much of the reserve is committed decides nothing.
-/
namespace SegregatedFit

variable {H H' : Type}

/-- Equal, but for the amount that memory is short of. -/
def Refusal.SameKind : Refusal → Refusal → Prop
  | .outOfMemory _, .outOfMemory _ => True
  | reason, reason' => reason = reason'

namespace Reserve

def coupling : Host.Coupling Reserve Reserve where
  nonempty := ⟨.full 0⟩
  rel r r' := r'.capacity = r.capacity
  guard _ := True
  reasons := Refusal.SameKind
  refl reason := by cases reason <;> trivial
  back _ := trivial
  secure {r r' top delta} hc _ := by
    by_cases hroom : wordLimit ≤ top + delta ∨ r.capacity < top + delta
    · obtain ⟨n, hn⟩ := secure_of_lt hroom
      obtain ⟨n', hn'⟩ := secure_of_lt (hc.symm ▸ hroom : wordLimit ≤ top + delta ∨ r'.capacity < _)
      rw [hn, hn']
      exact ⟨.error trivial, hc⟩
    · rw [not_or, Nat.not_le, Nat.not_lt] at hroom
      obtain ⟨r₁, hr₁, hc₁⟩ := secure_of_le hroom.1 hroom.2
      obtain ⟨r₁', hr₁', hc₁'⟩ := secure_of_le hroom.1 (hc.symm ▸ hroom.2 : top + delta ≤ r'.capacity)
      rw [hr₁, hr₁']
      exact ⟨.ok (), hc₁'.trans (hc.trans hc₁.symm)⟩

theorem capacity_extend (r : Reserve) (n : Nat) : (Host.extend r n).host.capacity = r.capacity := by
  change (r.extend n).host.capacity = r.capacity
  unfold extend
  split <;> rfl

end Reserve

namespace Session

variable [Host H] [Host H']

inductive Leads : Session H → List (Call × Answer) → Session H → Prop
  | stay (s : Session H) : Leads s [] s
  | call {s s₁ s' : Session H} {c : Call} {a : Answer} {h : List (Call × Answer)} :
    s.Allows c → s.step c = .ok (a, s₁) → Leads s₁ h s' → Leads s ((c, a) :: h) s'

/-- The same call, with the same answer but for the amount in a refusal. -/
def Told (p q : Call × Answer) : Prop := p.1 = q.1 ∧ Refusal.Agree Refusal.SameKind p.2 q.2

/-- Whatever a client of the second session goes on to do, a client of the first one may do as well. It
is told the same, has the same heap after every call, and meets the same faults. -/
def Mimics (t : Session H') (s : Session H) : Prop :=
  ∀ h s', s.Leads h s' → ∃ h' t', t.Leads h' t' ∧ List.Forall₂ Told h h' ∧ s'.Alike t' ∧
    ∀ c, s'.Allows c → t'.Allows c ∧ ∀ e, s'.step c = .error e → t'.step c = .error e

/-- The same heap but for its host, a client with the same pointers, and as much memory to come. -/
structure Twins (s t : Session Reserve) : Prop where
  shown : ∃ k cs cs', s.Follows cs k ∧ t.Follows cs' { k with host := t.heap.host }
  capacity : t.heap.host.capacity = s.heap.host.capacity
  live : s.live = t.live

theorem Follows.rehost {s : Session H} {cs : List Call} {k : Sketch H} (hf : s.Follows cs k)
    (host : H) (hback : k.top ≤ Host.committed host) :
    (s.rehost host).Follows cs { k with host } where
  shows := hf.shows.rehost host
  valid := ⟨hf.valid.settled.congr rfl rfl rfl, hf.valid.inUse, hback⟩
  tracks := hf.tracks
  merges := hf.merges
  counted := hf.counted

namespace Twins

variable {s s' t : Session Reserve} {c : Call} {a : Answer} {e : Fault}

theorem symm (h : s.Twins t) : t.Twins s := by
  obtain ⟨k, cs, cs', hs, ht⟩ := h.shown
  refine ⟨⟨_, cs', cs, ht, ?_⟩, h.capacity.symm, h.live.symm⟩
  rw [hs.shows.host]
  exact hs

theorem alike (h : s.Twins t) : s.Alike t := by
  obtain ⟨k, cs, cs', hs, ht⟩ := h.shown
  have hback : k.top ≤ Host.committed t.heap.host := ht.valid.backed
  have ha := (hs.rehost _ hback).alike ht h.live
  exact ⟨ha.low, ha.top, ha.blocks, ha.lists, ha.bins, ha.topUsed, ha.stats, ha.live, ha.sizes⟩

theorem allows (h : s.Twins t) (hc : s.Allows c) : t.Allows c := by
  obtain ⟨k, cs, cs', hs, ht⟩ := h.shown
  have hback : k.top ≤ Host.committed t.heap.host := ht.valid.backed
  exact ht.allows ((hs.rehost _ hback).admits (hc.rehost t.heap.host))

theorem step (h : s.Twins t) (hc : s.Allows c) (hstep : s.step c = .ok (a, s')) :
    ∃ b t', t.step c = .ok (b, t') ∧ Refusal.Agree Refusal.SameKind a b ∧ s'.Twins t' := by
  obtain ⟨k, cs, cs', hs, ht⟩ := h.shown
  have hback : k.top ≤ Host.committed t.heap.host := ht.valid.backed
  have hs₁ := hs.rehost _ hback
  -- on the host of `t`, the first heap does what `t` does
  obtain ⟨b, host, hstep₁, hab, hcap⟩ := step_mirrors Reserve.coupling hstep h.capacity trivial
  obtain ⟨hm, hs₂⟩ := hs₁.of_step (hc.rehost _) hstep₁
  obtain ⟨t', hstep', ht'⟩ := ht.step_of_fits (h.allows hc) hs₂.shows.fits
  have hb : b = _ := hm.answer
  have hhost : host = t'.heap.host := hs₂.shows.host.trans ht'.shows.host.symm
  have hs' := (hs.of_step hc hstep).2
  have hback' := hs'.valid.backed
  rw [← hs'.shows.top, ← hs'.shows.host] at hback'
  have hs₃ := hs₂.rehost s'.heap.host (hs₂.shows.top.symm.trans_le hback')
  refine ⟨_, t', hstep', hb ▸ hab, ⟨⟨_, _, cs' ++ [c], hs₃, ?_⟩, hhost ▸ hcap, ?_⟩⟩
  · rw [ht'.shows.host]
    exact ht'
  · rw [(exec_of_step hstep).2, (exec_of_step hstep').2, ← h.live, Call.record_agree hab, hb]

theorem step_error (h : s.Twins t) (hc : s.Allows c) (hstep : s.step c = .error e) :
    t.step c = .error e := by
  obtain ⟨k, cs, cs', hs, ht⟩ := h.shown
  have hm := hs.step hc
  rw [hstep] at hm
  have hm' := ht.step (h.allows hc)
  cases hstep' : t.step c with
  | error e' =>
    rw [hstep'] at hm'
    rw [hm.1, hm'.1]
  | ok r =>
    obtain ⟨b, s', hs', -, -⟩ := h.symm.step (h.allows hc) hstep'
    rw [hstep] at hs'
    cases hs'

theorem mimics (h : s.Twins t) : t.Mimics s := by
  intro q s' hq
  induction hq generalizing t with
  | stay s =>
    exact ⟨[], t, .stay t, .nil, h.alike, fun c hc => ⟨h.allows hc, fun _ => h.step_error hc⟩⟩
  | call hc hstep _ ih =>
    obtain ⟨b, t₁, hstep', hab, h₁⟩ := h.step hc hstep
    obtain ⟨q', t', hq', htold, hend⟩ := ih h₁
    exact ⟨_, t', .call (h.allows hc) hstep' hq', .cons ⟨rfl, hab⟩ htold, hend⟩

end Twins

/-- To initialize a heap is to start over: it goes well, and then nothing tells the heap from one that was
just made on a reserve of the same capacity. -/
theorem init_restarts {s : Session Reserve} {fresh : Reserve} (hs : s.Reachable)
    (hcap : fresh.capacity = s.heap.host.capacity) (mem : Memory) :
    ∃ s₀ heap, s.step .init = .ok (.ok none, s₀) ∧
      (Heap.init.exec (.blank fresh s.heap.config mem) #[]).1 = .ok (.ok (), heap) ∧
      s₀.Mimics ⟨heap, []⟩ ∧ (⟨heap, []⟩ : Session Reserve).Mimics s₀ := by
  obtain ⟨cs, hr⟩ := hs
  obtain ⟨k, hf⟩ := hr.follows
  obtain ⟨s₀, hstep, hf₀⟩ := hf.step_of_fits (c := .init) trivial Stats.fits_zero
  have hroom : prologueSize ≤ fresh.capacity := by
    have hback := hf.valid.backed
    rw [← hf.shows.host] at hback
    exact hcap ▸ (k.prologueSize_le_top.trans hback).trans s.heap.host.committed_le
  obtain ⟨r, hr, hcap₁⟩ :=
    Reserve.secure_of_le (by decide) ((Nat.zero_add _).trans_le hroom : 0 + prologueSize ≤ _)
  obtain ⟨heap, hi, hfi⟩ := init_follows hr s.heap.config mem
  have hcap₀ : s₀.heap.host.capacity = s.heap.host.capacity :=
    step_keeps_host (P := fun r => r.capacity = s.heap.host.capacity)
      (fun r n hr => (r.capacity_extend n).trans hr) hstep rfl
  have htwins : s₀.Twins ⟨heap, []⟩ := by
    refine ⟨⟨_, _, [], hf₀, ?_⟩, ?_, (exec_of_step hstep).2⟩
    · rw [hfi.shows.host]
      rw [hf.shows.config] at hfi
      exact hfi
    · rw [hfi.shows.host]
      exact hcap₁.trans (hcap.trans hcap₀.symm)
  exact ⟨s₀, heap, hstep, hi, htwins.symm.mimics, htwins.mimics⟩

theorem init_restarts_allocate :
    ∃ s s₀ : Session Reserve, ∃ heap, Run [.allocate 24] s ∧ s.step .init = .ok (.ok none, s₀) ∧
      (Heap.init.exec (.blank ⟨4096, 0, Nat.zero_le _⟩ s.heap.config .zero) #[]).1 =
        .ok (.ok (), heap) ∧
      s₀.Mimics ⟨heap, []⟩ ∧ (⟨heap, []⟩ : Session Reserve).Mimics s₀ := by
  obtain ⟨s, hr, hf⟩ := exists_run_allocate
  have hcap : (⟨4096, 0, Nat.zero_le _⟩ : Reserve).capacity = s.heap.host.capacity := by
    rw [hf.shows.host]
    rfl
  obtain ⟨s₀, heap, h⟩ := init_restarts ⟨_, hr⟩ hcap .zero
  exact ⟨s, s₀, heap, hr, h⟩

end Session

end SegregatedFit
