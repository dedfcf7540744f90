import Mathlib
import SegregatedFit.Proofs.Mirrored

/-!
What has been counted decides nothing. A computation that runs through on a heap with one more on some
counter runs through on the heap without it, to the same end but for that counter.
-/
namespace SegregatedFit

variable {H α β δ : Type}

namespace Stats

variable {s s' : Stats} {c d : Counter} {n : Nat}

theorem bump_comm (s : Stats) (c d : Counter) : (s.bump c).bump d = (s.bump d).bump c := by
  cases c <;> cases d <;> rfl

theorem recordHeapSize_bump (s : Stats) (c : Counter) (n : Nat) :
    (s.bump c).recordHeapSize n = (s.recordHeapSize n).bump c := by
  cases c <;> rfl

theorem of_count (h : s.count c = .ok s') : s.get c + 1 < wordLimit ∧ s' = s.bump c := by
  by_cases hc : s.get c + 1 < wordLimit
  · rw [count_eq_ok hc] at h
    cases h
    exact ⟨hc, rfl⟩
  · rw [count_eq_error hc] at h
    cases h

theorem of_count_bump (h : (s.bump c).count d = .ok s') :
    ∃ s₀, s' = s₀.bump c ∧ s.count d = .ok s₀ := by
  obtain ⟨hd, rfl⟩ := of_count h
  rw [get_bump] at hd
  exact ⟨s.bump d, bump_comm s c d, count_eq_ok (by omega)⟩

theorem full_of_bump (hs : s.Fits) (h : ¬ (s.bump c).Fits) : wordLimit ≤ s.get c + 1 := by
  by_contra hlt
  refine h fun d => ?_
  have hd := hs d
  rw [get_bump]
  split
  · next he =>
    rw [he]
    omega
  · exact hd

theorem of_discharge_bump (h : (s.bump c).discharge n = .ok s') :
    ∃ s₀, s' = s₀.bump c ∧ s.discharge n = .ok s₀ := by
  by_cases hn : n ≤ s.bytesInUse
  · rw [discharge_eq_ok (by rwa [bump_bytesInUse])] at h
    cases h
    exact ⟨{ s with bytesInUse := s.bytesInUse - n }, by cases c <;> rfl, discharge_eq_ok hn⟩
  · rw [discharge, bump_bytesInUse, minus, if_neg hn] at h
    cases h

end Stats

def Heap.tally (h : Heap H) (c : Counter) : Heap H := { h with stats := h.stats.bump c }

namespace HeapM

/-- One less on the counter `c` makes no difference but for that counter, and what the journal holds
makes none. -/
structure Disregards (c : Counter) (x : HeapM H α) : Prop where
  spec {h k : Heap H} {j : Journal} {a : α} : (x.exec (h.tally c) j).1 = .ok (a, k) →
    ∃ k₀, k = k₀.tally c ∧ ∀ j', (x.exec h j').1 = .ok (a, k₀)

variable {c : Counter} {x y : HeapM H α} {f : α → HeapM H β}

theorem disregards_pure (a : α) : (pure a : HeapM H α).Disregards c :=
  ⟨fun h => by cases h; exact ⟨_, rfl, fun _ => rfl⟩⟩

theorem Disregards.bind (hx : x.Disregards c) (hf : ∀ a, (f a).Disregards c) :
    (x >>= f).Disregards c := by
  refine ⟨fun h => ?_⟩
  obtain ⟨a, h₁, j₁, hr, hr'⟩ := of_exec_bind h
  obtain ⟨k₁, rfl, hk₁⟩ := hx.spec (congrArg Prod.fst hr)
  obtain ⟨k₂, rfl, hk₂⟩ := (hf a).spec hr'
  refine ⟨k₂, rfl, fun j' => ?_⟩
  have hj := hk₁ j'
  rw [exec_bind]
  match hy : x.exec _ j' with
  | (r, j₁') =>
    rw [hy] at hj
    cases hj
    exact hk₂ j₁'

theorem disregards_ite {p : Prop} [Decidable p] (hx : x.Disregards c) (hy : y.Disregards c) :
    (if p then x else y).Disregards c := by
  split
  · exact hx
  · exact hy

theorem disregards_get {f : Heap H → HeapM H β} (heq : ∀ h, f (h.tally c) = f h)
    (hf : ∀ h, (f h).Disregards c) : (get >>= f).Disregards c := by
  refine ⟨fun {h k j a} hr => (hf h).spec (?_ : ((f h).exec (h.tally c) j).1 = .ok (a, k))⟩
  rw [← heq h]
  exact hr

theorem disregards_of_map {z : Heap H → Except Fault δ} {g : Heap H → δ → α × Heap H}
    (hx : ∀ h j, (x.exec h j).1 = (z h).map (g h)) (hz : ∀ h, z (h.tally c) = z h)
    (hg : ∀ h d, g (h.tally c) d = ((g h d).1, (g h d).2.tally c)) : x.Disregards c := by
  refine ⟨fun {h k _ a} hr => ?_⟩
  rw [hx, hz] at hr
  cases hd : z h with
  | error e => rw [hd] at hr; cases hr
  | ok d =>
    rw [hd] at hr
    have hk : g (h.tally c) d = (a, k) := Except.ok.inj hr
    rw [hg] at hk
    cases hk
    exact ⟨_, rfl, fun j' => by rw [hx, hd]; rfl⟩

theorem disregards_lift (z : Except Fault α) : (liftM z : HeapM H α).Disregards c :=
  disregards_of_map (fun h j => by rw [exec_lift]) (fun _ => rfl) fun _ _ => rfl

end HeapM

namespace Heap

open HeapM

variable {c : Counter}

theorem disregards_note (e : Event) : (note e : HeapM H Unit).Disregards c :=
  ⟨fun h => by cases h; exact ⟨_, rfl, fun _ => rfl⟩⟩

theorem disregards_fail (e : Fault) : (fail e : HeapM H α).Disregards c :=
  ⟨fun h => by cases h⟩

theorem disregards_view (f : Arena → Except Fault α) : (view f : HeapM H α).Disregards c :=
  disregards_of_map (fun h j => by rw [exec_view]) (fun _ => rfl) fun _ _ => rfl

theorem disregards_edit (f : Arena → Except Fault Arena) : (edit f : HeapM H Unit).Disregards c :=
  disregards_of_map (fun h j => by rw [exec_edit]) (fun _ => rfl) fun _ _ => rfl

theorem disregards_relink (f : Bins → Arena → Except Fault (Bins × Arena)) :
    (relink f : HeapM H Unit).Disregards c :=
  disregards_of_map (fun h j => by rw [exec_relink]) (fun _ => rfl) fun _ _ => rfl

theorem disregards_setTopUsed (b : Bool) : (setTopUsed b : HeapM H Unit).Disregards c :=
  ⟨fun h => by cases h; exact ⟨_, rfl, fun _ => rfl⟩⟩

theorem disregards_recordHeapSize : (recordHeapSize : HeapM H Unit).Disregards c :=
  ⟨fun {h _ _ _} hr => by
    cases hr
    refine ⟨_, ?_, fun _ => rfl⟩
    exact congrArg (fun s => { h with stats := s }) (Stats.recordHeapSize_bump h.stats c h.size)⟩

theorem disregards_account {g : Stats → Except Fault Stats}
    (hg : ∀ s s', g (s.bump c) = .ok s' → ∃ s₀, s' = s₀.bump c ∧ g s = .ok s₀) :
    (account g : HeapM H Unit).Disregards c := by
  refine ⟨fun {h k _ _} hr => ?_⟩
  rw [exec_account] at hr
  cases hs : g (h.tally c).stats with
  | error e => rw [hs] at hr; cases hr
  | ok s' =>
    rw [hs] at hr
    cases hr
    obtain ⟨s₀, rfl, hs₀⟩ := hg _ _ hs
    refine ⟨{ h with stats := s₀ }, rfl, fun j' => ?_⟩
    rw [exec_account, hs₀]
    rfl

theorem disregards_count (d : Counter) : (count d : HeapM H Unit).Disregards c :=
  disregards_account fun _ _ => Stats.of_count_bump

theorem disregards_mergePrev (block : Nat) (tag : Tag) :
    (mergePrev block tag : HeapM H Run).Disregards c := by
  unfold mergePrev
  split
  · exact disregards_pure _
  · exact (disregards_view _).bind fun prev => (disregards_view _).bind fun prevTag =>
      (disregards_relink _).bind fun _ => (disregards_lift _).bind fun size =>
        (disregards_count _).bind fun _ => disregards_pure _

theorem disregards_mergeNext (run : Run) : (mergeNext run : HeapM H Run).Disregards c := by
  unfold mergeNext
  refine (disregards_lift _).bind fun next => disregards_get (fun _ => rfl) fun h => disregards_ite
    (disregards_pure _) ((disregards_view _).bind fun nextTag => disregards_ite ?_ ?_)
  · exact (disregards_edit _).bind fun _ => disregards_pure _
  · exact (disregards_relink _).bind fun _ => (disregards_lift _).bind fun size =>
      (disregards_count _).bind fun _ => disregards_pure _

theorem disregards_release (run : Run) : (release run : HeapM H Unit).Disregards c :=
  (disregards_edit _).bind fun _ => (disregards_setTopUsed true).bind fun _ =>
    (disregards_count _).bind fun _ => disregards_recordHeapSize.bind fun _ =>
      disregards_get (fun _ => rfl) fun h => disregards_note (.released run.size h.size)

theorem disregards_list (run : Run) : (list run : HeapM H Unit).Disregards c :=
  (disregards_edit _).bind fun _ => (disregards_relink _).bind fun _ => disregards_note _

theorem disregards_freeBlock (block : Nat) : (freeBlock block : HeapM H Unit).Disregards c := by
  unfold freeBlock
  refine (disregards_view _).bind fun tag => disregards_ite ((disregards_fail _).bind fun _ => ?_) ?_
  all_goals
    exact (disregards_account fun _ _ => Stats.of_discharge_bump).bind fun _ =>
      (disregards_mergePrev block tag).bind fun run => (disregards_mergeNext run).bind fun run =>
        (disregards_lift _).bind fun off => disregards_get (fun _ => rfl) fun h =>
          disregards_ite (disregards_release run) (disregards_list run)

end Heap

end SegregatedFit
