import Mathlib
import SegregatedFit.Proofs.Growing
import SegregatedFit.Proofs.Session

/-!
Heaps that differ in their hosts only. A heap meets its host where its top goes up, and nowhere else:
where one host answers there as another does, every call does on the one what it does on the other,
whatever the journals hold.
-/
namespace SegregatedFit

variable {H H' α β γ δ : Type}

/-- Equal results, or refusals that compare. -/
inductive Refusal.Agree (reasons : Refusal → Refusal → Prop) :
    Except Refusal α → Except Refusal α → Prop
  | ok (a : α) : Agree reasons (.ok a) (.ok a)
  | error {r r' : Refusal} : reasons r r' → Agree reasons (.error r) (.error r')

/-- How one host stands in for another, as long as `guard` holds of what the first one becomes. -/
structure Host.Coupling (H H' : Type) [Host H] [Host H'] where
  nonempty : Nonempty H'
  rel : H → H' → Prop
  guard : H → Prop
  reasons : Refusal → Refusal → Prop
  refl (reason : Refusal) : reasons reason reason
  back {host : H} {top delta : Nat} : guard (Host.secure host top delta).2 → guard host
  secure {host : H} {host' : H'} {top delta : Nat} : rel host host' →
    guard (Host.secure host top delta).2 →
    Refusal.Agree reasons (Host.secure host top delta).1 (Host.secure host' top delta).1 ∧
      rel (Host.secure host top delta).2 (Host.secure host' top delta).2

def Heap.rehost (h : Heap H) (host : H') : Heap H' :=
  ⟨host, h.arena, h.bins, h.topUsed, h.config, h.stats⟩

namespace HeapM

variable [Host H] [Host H']

/-- What the first computation comes to on a heap, the second one comes to on the heap with its host
replaced. -/
structure Mirrors (C : Host.Coupling H H') (V : α → β → Prop) (x : HeapM H α) (y : HeapM H' β) :
    Prop where
  back {h k : Heap H} {j : Journal} {a : α} :
    (x.exec h j).1 = .ok (a, k) → C.guard k.host → C.guard h.host
  ahead {h k : Heap H} {j : Journal} {a : α} {host : H'} (j' : Journal) :
    (x.exec h j).1 = .ok (a, k) → C.rel h.host host → C.guard k.host →
      ∃ b host', (y.exec (h.rehost host) j').1 = .ok (b, k.rehost host') ∧ V a b ∧
        C.rel k.host host'

variable {C : Host.Coupling H H'} {V : α → β → Prop} {W : γ → δ → Prop} {x : HeapM H α}
  {y : HeapM H' β} {f : α → HeapM H γ} {g : β → HeapM H' δ} {h k : Heap H} {a : α} {b : β}
  {e : γ}

omit [Host H] in
theorem of_exec_bind {j : Journal} (hr : ((x >>= f).exec h j).1 = .ok (e, k)) :
    ∃ a h1 j1, x.exec h j = (.ok (a, h1), j1) ∧ ((f a).exec h1 j1).1 = .ok (e, k) := by
  rw [exec_bind] at hr
  match hx : x.exec h j with
  | (.ok (a, h1), j1) =>
    rw [hx] at hr
    exact ⟨a, h1, j1, rfl, hr⟩
  | (.error e, j1) =>
    rw [hx] at hr
    cases hr

theorem mirrors_pure (hv : V a b) : Mirrors C V (pure a) (pure b) where
  back hr hg := by cases hr; exact hg
  ahead j' hr hc _ := by cases hr; exact ⟨b, _, rfl, hv, hc⟩

theorem Mirrors.bind (hx : x.Mirrors C V y) (hv : ∀ a, ∃ b, V a b)
    (hf : ∀ a b, V a b → (f a).Mirrors C W (g b)) : (x >>= f).Mirrors C W (y >>= g) where
  back hr hg := by
    obtain ⟨a, h1, j1, h2, h3⟩ := of_exec_bind hr
    obtain ⟨b, hb⟩ := hv a
    exact hx.back (by rw [h2]) ((hf a b hb).back h3 hg)
  ahead j' hr hc hg := by
    obtain ⟨a, h1, j1, h2, h3⟩ := of_exec_bind hr
    obtain ⟨b, hb⟩ := hv a
    obtain ⟨b, host, h4, hab, hc1⟩ :=
      hx.ahead j' (congrArg Prod.fst h2) hc ((hf a b hb).back h3 hg)
    rw [exec_bind]
    match hy : y.exec _ j' with
    | (r, j1') =>
      rw [hy] at h4
      cases h4
      exact (hf a b hab).ahead j1' h3 hc1 hg

theorem Mirrors.then {y : HeapM H' α} {g : α → HeapM H' δ} (hx : x.Mirrors C Eq y)
    (hf : ∀ a, (f a).Mirrors C W (g a)) : (x >>= f).Mirrors C W (y >>= g) :=
  hx.bind (fun a => ⟨a, rfl⟩) fun a _ hab => hab ▸ hf a

theorem Mirrors.reply {x : HeapM H (Except Refusal α)} {y : HeapM H' (Except Refusal α)}
    {f : Except Refusal α → HeapM H γ} {g : Except Refusal α → HeapM H' δ}
    (hx : x.Mirrors C (Refusal.Agree C.reasons) y) (hok : ∀ a, (f (.ok a)).Mirrors C W (g (.ok a)))
    (herr : ∀ r r', C.reasons r r' → (f (.error r)).Mirrors C W (g (.error r'))) :
    (x >>= f).Mirrors C W (y >>= g) := by
  refine hx.bind ?_ ?_
  · intro r
    cases r with
    | ok a => exact ⟨_, .ok a⟩
    | error r => exact ⟨_, .error (C.refl r)⟩
  · rintro _ _ (a | hr)
    · exact hok a
    · exact herr _ _ hr

theorem mirrors_ite {p : Prop} [Decidable p] {x' : HeapM H α} {y' : HeapM H' β}
    (hx : x.Mirrors C V y) (hx' : x'.Mirrors C V y') :
    (if p then x else x').Mirrors C V (if p then y else y') := by
  split
  · exact hx
  · exact hx'

theorem mirrors_get {f : Heap H → HeapM H γ} {g : Heap H' → HeapM H' δ}
    (hf : ∀ h host, (f h).Mirrors C W (g (h.rehost host))) :
    (get >>= f).Mirrors C W (get >>= g) where
  back {h} _ _ _ hr hg := (hf h C.nonempty.some).back hr hg
  ahead {h} _ _ _ host j' hr hc hg := (hf h host).ahead j' hr hc hg

theorem mirrors_of_exec {y : HeapM H' α}
    (hx : ∀ h j a k, (x.exec h j).1 = .ok (a, k) → k.host = h.host ∧
      ∀ host j', (y.exec (h.rehost host) j').1 = .ok (a, k.rehost host)) : x.Mirrors C Eq y where
  back hr hg := (hx _ _ _ _ hr).1 ▸ hg
  ahead j' hr hc _ := by
    obtain ⟨hh, hy⟩ := hx _ _ _ _ hr
    exact ⟨_, _, hy _ j', rfl, hh.symm ▸ hc⟩

theorem mirrors_of_map {y : HeapM H' α} {z : Heap H → Except Fault δ} {f : Heap H → δ → α × Heap H}
    (hx : ∀ h j, (x.exec h j).1 = (z h).map (f h)) (hhost : ∀ h d, (f h d).2.host = h.host)
    (hy : ∀ h host j, (y.exec (h.rehost host) j).1 =
      (z h).map fun d => ((f h d).1, (f h d).2.rehost host)) : x.Mirrors C Eq y := by
  apply mirrors_of_exec
  intro h j a k hr
  rw [hx] at hr
  cases hz : z h with
  | error e => rw [hz] at hr; cases hr
  | ok d =>
    rw [hz] at hr
    have hd : f h d = (a, k) := Except.ok.inj hr
    have hk := hhost h d
    rw [hd] at hk
    exact ⟨hk, fun host j' => by rw [hy, hz, Except.map, hd]⟩

theorem mirrors_lift (z : Except Fault α) : Mirrors C Eq (liftM z) (liftM z) :=
  mirrors_of_map (fun h j => by rw [exec_lift]) (fun _ _ => rfl) fun h host j => by rw [exec_lift]

end HeapM

namespace Heap

open HeapM

variable [Host H] [Host H'] {C : Host.Coupling H H'}

theorem mirrors_note (e e' : Event) : Mirrors C Eq (note e) (note e') :=
  mirrors_of_exec fun _ _ _ _ hr => by cases hr; exact ⟨rfl, fun _ _ => rfl⟩

theorem mirrors_fail (e : Fault) : Mirrors C Eq (fail e : HeapM H α) (fail e) :=
  mirrors_of_exec fun _ _ _ _ hr => by cases hr

theorem mirrors_view (f : Arena → Except Fault α) : Mirrors C Eq (view f) (view f) :=
  mirrors_of_map (fun h j => by rw [exec_view]) (fun _ _ => rfl) fun h host j => by rw [exec_view]; rfl

theorem mirrors_edit (f : Arena → Except Fault Arena) : Mirrors C Eq (edit f) (edit f) :=
  mirrors_of_map (fun h j => by rw [exec_edit]) (fun _ _ => rfl) fun h host j => by rw [exec_edit]; rfl

theorem mirrors_relink (f : Bins → Arena → Except Fault (Bins × Arena)) : Mirrors C Eq (relink f) (relink f) :=
  mirrors_of_map (fun h j => by rw [exec_relink]) (fun _ _ => rfl) fun h host j => by rw [exec_relink]; rfl

theorem mirrors_account (f : Stats → Except Fault Stats) : Mirrors C Eq (account f) (account f) :=
  mirrors_of_map (fun h j => by rw [exec_account]) (fun _ _ => rfl) fun h host j => by rw [exec_account]; rfl

theorem mirrors_setTopUsed (b : Bool) : Mirrors C Eq (setTopUsed b) (setTopUsed b) :=
  mirrors_of_exec fun _ _ _ _ hr => by cases hr; exact ⟨rfl, fun _ _ => rfl⟩

theorem mirrors_recordHeapSize : Mirrors C Eq recordHeapSize recordHeapSize :=
  mirrors_of_exec fun _ _ _ _ hr => by cases hr; exact ⟨rfl, fun _ _ => rfl⟩

theorem mirrors_count (c : Counter) : Mirrors C Eq (count c) (count c) := mirrors_account _

theorem exec_grow_ok {h : Heap H} {delta : Nat} {host : H} (j : Journal)
    (hs : Host.secure h.host h.arena.top delta = (.ok (), host)) :
    ((grow delta).exec h j).1 =
      .ok (.ok h.arena.top, { h with host, arena := h.arena.raise delta }) :=
  (grow_meets_ok hs).exec_eq j

theorem exec_grow_error {h : Heap H} {delta : Nat} {host : H} {reason : Refusal} (j : Journal)
    (hs : Host.secure h.host h.arena.top delta = (.error reason, host)) :
    ((grow delta).exec h j).1 = .ok (.error reason, { h with host }) :=
  (grow_meets_error hs).exec_eq j

theorem mirrors_grow (delta : Nat) :
    Mirrors C (Refusal.Agree C.reasons) (grow delta) (grow delta) where
  back {h k j r} hr hg := by
    refine C.back (?_ : C.guard (Host.secure h.host h.arena.top delta).2)
    match hs : Host.secure h.host h.arena.top delta with
    | (.ok (), host) =>
      rw [exec_grow_ok j hs] at hr
      cases hr
      exact hg
    | (.error reason, host) =>
      rw [exec_grow_error j hs] at hr
      cases hr
      exact hg
  ahead {h k j r host} j' hr hc hg := by
    have hcs : C.guard (Host.secure h.host h.arena.top delta).2 → _ := C.secure hc
    match hs : Host.secure h.host h.arena.top delta, hs' : Host.secure host h.arena.top delta with
    | (.ok (), host1), (r', host1') =>
      rw [exec_grow_ok j hs] at hr
      rw [hs, hs'] at hcs
      cases hr
      obtain ⟨_ | _, hc1⟩ := hcs hg
      exact ⟨_, _, exec_grow_ok j' hs', .ok _, hc1⟩
    | (.error reason, host1), (r', host1') =>
      rw [exec_grow_error j hs] at hr
      rw [hs, hs'] at hcs
      cases hr
      obtain ⟨_ | hreasons, hc1⟩ := hcs hg
      exact ⟨_, _, exec_grow_error j' hs', .error hreasons, hc1⟩

end Heap

end SegregatedFit
