import Mathlib
import SegregatedFit.Heap.Exec
import SegregatedFit.Proofs.Tally

/-!
What a computation on a heap is sure to do. It ends as the condition says, or it faults because a
counter overflows; then some counter of `limit` is no word either. Whatever the journal holds makes
no difference.
-/
namespace SegregatedFit.HeapM

variable {H α β : Type}

structure Meets (x : HeapM H α) (h : Heap H) (limit : Stats) (Q : α → Heap H → Prop) : Prop where
  spec (j : Journal) : match (x.exec h j).1 with
    | .ok (a, h') => Q a h'
    | .error e => e = .addOverflow ∧ ¬ limit.Fits

variable {x : HeapM H α} {f : α → HeapM H β} {h h' : Heap H} {limit : Stats} {a : α}
  {Q Q' : α → Heap H → Prop} {R : β → Heap H → Prop}

theorem Meets.mono (hx : x.Meets h limit Q) (hq : ∀ a h', Q a h' → Q' a h') :
    x.Meets h limit Q' := by
  refine ⟨fun j => ?_⟩
  have hj := hx.spec j
  cases hr : (x.exec h j).1 with
  | error e => rw [hr] at hj; exact hj
  | ok r => rw [hr] at hj; exact hq _ _ hj

theorem Meets.of_ok {j : Journal} (hx : x.Meets h limit Q) (hr : (x.exec h j).1 = .ok (a, h')) :
    Q a h' := by
  have hj := hx.spec j
  rw [hr] at hj
  exact hj

theorem Meets.of_error {j : Journal} {e : Fault} (hx : x.Meets h limit Q)
    (hr : (x.exec h j).1 = .error e) : e = .addOverflow ∧ ¬ limit.Fits := by
  have hj := hx.spec j
  rw [hr] at hj
  exact hj

theorem Meets.exec_eq (hx : x.Meets h {} fun b k => b = a ∧ k = h') (j : Journal) :
    (x.exec h j).1 = .ok (a, h') := by
  cases hr : (x.exec h j).1 with
  | error e => exact absurd Stats.fits_zero (hx.of_error hr).2
  | ok r =>
    obtain ⟨b, k⟩ := r
    obtain ⟨rfl, rfl⟩ := hx.of_ok hr
    rfl

theorem Meets.bind (hx : x.Meets h limit Q) (hf : ∀ a h', Q a h' → (f a).Meets h' limit R) :
    (x >>= f).Meets h limit R := by
  refine ⟨fun j => ?_⟩
  have hj := hx.spec j
  rw [exec_bind]
  cases hr : x.exec h j with
  | mk r j' =>
    rw [hr] at hj
    cases r with
    | error e => exact hj
    | ok r => exact (hf _ _ hj).spec j'

theorem meets_pure (hq : Q a h) : (pure a : HeapM H α).Meets h limit Q := ⟨fun _ => hq⟩

theorem meets_step (hx : ∀ j, (x.exec h j).1 = .ok (a, h')) (hq : Q a h') :
    x.Meets h limit Q := by
  refine ⟨fun j => ?_⟩
  rw [hx]
  exact hq

theorem meets_bind_step (hx : ∀ j, (x.exec h j).1 = .ok (a, h'))
    (hf : (f a).Meets h' limit R) : (x >>= f).Meets h limit R :=
  (meets_step (Q := fun b h'' => b = a ∧ h'' = h') hx ⟨rfl, rfl⟩).bind
    fun _ _ hb => by rw [hb.1, hb.2]; exact hf

theorem Meets.of_map {g : α → β} {Q : β → Heap H → Prop}
    (hx : (x >>= fun a => pure (g a)).Meets h limit Q) : x.Meets h limit fun a h' => Q (g a) h' := by
  refine ⟨fun j => ?_⟩
  have hj := hx.spec j
  rw [exec_bind] at hj
  cases hr : x.exec h j with
  | mk r j' => rw [hr] at hj; cases r <;> exact hj

theorem Meets.last {x : HeapM H Unit} {Q : Unit → Heap H → Prop}
    (hx : (x >>= fun _ => pure ()).Meets h limit Q) : x.Meets h limit Q :=
  hx.of_map (g := id)

end HeapM

namespace Heap

open HeapM

variable {H α β : Type} {h : Heap H} {limit : Stats} {R : β → Heap H → Prop}

theorem meets_get {f : Heap H → HeapM H β} (hf : (f h).Meets h limit R) :
    ((get : HeapM H (Heap H)) >>= f).Meets h limit R :=
  meets_bind_step (fun _ => rfl) hf

theorem meets_lift {y : Except Fault α} {a : α} {f : α → HeapM H β} (hy : y = .ok a)
    (hf : (f a).Meets h limit R) : ((liftM y : HeapM H α) >>= f).Meets h limit R :=
  meets_bind_step (fun j => by rw [exec_lift, hy]; rfl) hf

theorem meets_view {g : Arena → Except Fault α} {a : α} {f : α → HeapM H β}
    (hg : g h.arena = .ok a) (hf : (f a).Meets h limit R) : (view g >>= f).Meets h limit R :=
  meets_bind_step (fun j => by rw [exec_view, hg]; rfl) hf

theorem meets_edit {g : Arena → Except Fault Arena} {a : Arena} {f : Unit → HeapM H β}
    (hg : g h.arena = .ok a) (hf : (f ()).Meets { h with arena := a } limit R) :
    (edit g >>= f).Meets h limit R :=
  meets_bind_step (fun j => by rw [exec_edit, hg]; rfl) hf

theorem meets_relink {g : Bins → Arena → Except Fault (Bins × Arena)} {bins : Bins} {a : Arena}
    {f : Unit → HeapM H β} (hg : g h.bins h.arena = .ok (bins, a))
    (hf : (f ()).Meets { h with bins, arena := a } limit R) : (relink g >>= f).Meets h limit R :=
  meets_bind_step (fun j => by rw [exec_relink, hg]; rfl) hf

theorem meets_setTopUsed {b : Bool} {f : Unit → HeapM H β}
    (hf : (f ()).Meets { h with topUsed := b } limit R) : (setTopUsed b >>= f).Meets h limit R :=
  meets_bind_step (fun _ => rfl) hf

theorem meets_account {g : Stats → Except Fault Stats} {s : Stats} {f : Unit → HeapM H β}
    (hg : g h.stats = .ok s) (hf : (f ()).Meets { h with stats := s } limit R) :
    (account g >>= f).Meets h limit R :=
  meets_bind_step (fun j => by rw [exec_account, hg]; rfl) hf

theorem meets_note {e : Event} {f : Unit → HeapM H β} (hf : (f ()).Meets h limit R) :
    (note e >>= f).Meets h limit R :=
  meets_bind_step (fun _ => rfl) hf

theorem meets_recordHeapSize {f : Unit → HeapM H β}
    (hf : (f ()).Meets { h with stats := h.stats.recordHeapSize h.size } limit R) :
    (recordHeapSize >>= f).Meets h limit R :=
  meets_bind_step (fun _ => rfl) hf

theorem meets_count {c : Counter} {f : Unit → HeapM H β} (hs : h.stats.Fits)
    (hl : (h.stats.bump c).Below limit)
    (hf : (h.stats.bump c).Fits → (f ()).Meets { h with stats := h.stats.bump c } limit R) :
    (count c >>= f).Meets h limit R := by
  by_cases hc : h.stats.get c + 1 < wordLimit
  · refine meets_account (Stats.count_eq_ok hc) (hf ?_)
    intro d
    rw [Stats.get_bump]
    have := hs d
    split
    · next hd => rw [hd]; exact hc
    · exact this
  · refine ⟨fun j => ?_⟩
    have he : (count c).exec h j = (.error .addOverflow, j) := by
      rw [count, exec_account, Stats.count_eq_error hc]
      rfl
    rw [exec_bind, he]
    refine ⟨rfl, fun hfit => hc ?_⟩
    have h1 := hl c
    have h2 := hfit c
    rw [Stats.get_bump, if_pos rfl] at h1
    omega

end Heap

end SegregatedFit
