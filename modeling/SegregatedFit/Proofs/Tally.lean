import Mathlib
import SegregatedFit.Stats

/-!
Counters as one family. A counter goes up by one, and faults where it would be no word.
-/
namespace SegregatedFit.Stats

def get (s : Stats) : Counter → Nat
  | .allocations => s.allocations
  | .frees => s.frees
  | .reallocsUnchanged => s.reallocsUnchanged
  | .reallocsInPlace => s.reallocsInPlace
  | .reallocsMoved => s.reallocsMoved
  | .splits => s.splits
  | .coalesces => s.coalesces
  | .heapGrows => s.heapGrows
  | .heapShrinks => s.heapShrinks

def bump (s : Stats) : Counter → Stats
  | .allocations => { s with allocations := s.allocations + 1 }
  | .frees => { s with frees := s.frees + 1 }
  | .reallocsUnchanged => { s with reallocsUnchanged := s.reallocsUnchanged + 1 }
  | .reallocsInPlace => { s with reallocsInPlace := s.reallocsInPlace + 1 }
  | .reallocsMoved => { s with reallocsMoved := s.reallocsMoved + 1 }
  | .splits => { s with splits := s.splits + 1 }
  | .coalesces => { s with coalesces := s.coalesces + 1 }
  | .heapGrows => { s with heapGrows := s.heapGrows + 1 }
  | .heapShrinks => { s with heapShrinks := s.heapShrinks + 1 }

def uncounted (s : Stats) : Stats := { s with coalesces := 0 }

/-- Every counter is a word. -/
def Fits (s : Stats) : Prop := ∀ c, s.get c < wordLimit

theorem fits_zero : ({} : Stats).Fits := by
  intro c
  cases c <;> decide

def Below (s s' : Stats) : Prop := ∀ c, s.get c ≤ s'.get c

variable {s s' s'' : Stats} {c d : Counter} {n : Nat}

theorem get_bump (s : Stats) (c d : Counter) :
    (s.bump c).get d = s.get d + if d = c then 1 else 0 := by
  cases c <;> cases d <;> rfl

theorem get_uncounted (s : Stats) (c : Counter) :
    s.uncounted.get c = if c = .coalesces then 0 else s.get c := by
  cases c <;> rfl

theorem Fits.uncounted (h : s.Fits) : s.uncounted.Fits := by
  intro c
  rw [get_uncounted]
  split
  · decide
  · exact h c

theorem ext_get (h : ∀ c, s.get c = s'.get c) (hu : s.bytesInUse = s'.bytesInUse)
    (hs : s.heapSize = s'.heapSize) (hm : s.maxHeapSize = s'.maxHeapSize) : s = s' := by
  cases s
  cases s'
  simp only [mk.injEq]
  exact ⟨h .allocations, h .frees, h .reallocsUnchanged, h .reallocsInPlace, h .reallocsMoved,
    h .splits, h .coalesces, h .heapGrows, h .heapShrinks, hu, hs, hm⟩

@[simp] theorem bump_bytesInUse (s : Stats) (c : Counter) : (s.bump c).bytesInUse = s.bytesInUse := by
  cases c <;> rfl

@[simp] theorem coalesces_bump (s : Stats) (c : Counter) :
    (s.bump c).coalesces = s.coalesces + if c = .coalesces then 1 else 0 := by
  cases c <;> rfl

@[simp] theorem get_with_bytesInUse (s : Stats) (n : Nat) (c : Counter) :
    ({ s with bytesInUse := n } : Stats).get c = s.get c := by
  cases c <;> rfl

@[simp] theorem get_recordHeapSize (s : Stats) (n : Nat) (c : Counter) :
    (s.recordHeapSize n).get c = s.get c := by
  cases c <;> rfl

@[simp] theorem recordHeapSize_bytesInUse (s : Stats) (n : Nat) :
    (s.recordHeapSize n).bytesInUse = s.bytesInUse := rfl

@[simp] theorem recordHeapSize_coalesces (s : Stats) (n : Nat) :
    (s.recordHeapSize n).coalesces = s.coalesces := rfl

theorem Below.refl (s : Stats) : s.Below s := fun _ => Nat.le_refl _

theorem Below.trans (h : s.Below s') (h' : s'.Below s'') : s.Below s'' :=
  fun c => (h c).trans (h' c)

theorem below_bump (s : Stats) (c : Counter) : s.Below (s.bump c) := by
  intro d
  rw [get_bump]
  exact Nat.le_add_right _ _

theorem below_recordHeapSize (s : Stats) (n : Nat) : s.Below (s.recordHeapSize n) := by
  intro d
  rw [get_recordHeapSize]

/-- The counters go up by as much as `f` says at most. -/
def Rise (f : Counter → Nat) (s s' : Stats) : Prop := ∀ c, s.get c ≤ s'.get c ∧ s'.get c ≤ s.get c + f c

theorem Rise.refl (f : Counter → Nat) (s : Stats) : s.Rise f s :=
  fun _ => ⟨Nat.le_refl _, Nat.le_add_right _ _⟩

theorem Rise.trans {f g : Counter → Nat} (h : Rise f s s') (h' : Rise g s' s'') :
    Rise (f + g) s s'' := by
  intro c
  have h1 := h c
  have h2 := h' c
  simp only [Pi.add_apply]
  omega

theorem Rise.mono {f g : Counter → Nat} (h : Rise f s s') (hf : ∀ c, f c ≤ g c) : Rise g s s' :=
  fun c => ⟨(h c).1, (h c).2.trans (Nat.add_le_add_left (hf c) _)⟩

theorem Rise.below {f : Counter → Nat} (h : Rise f s s') : s.Below s' := fun c => (h c).1

theorem rise_bump (s : Stats) (c : Counter) : Rise (Pi.single c 1) s (s.bump c) := by
  intro d
  rw [get_bump, Pi.single_apply]
  exact ⟨Nat.le_add_right _ _, Nat.le_refl _⟩

theorem rise_recordHeapSize (s : Stats) (n : Nat) : Rise 0 s (s.recordHeapSize n) := by
  intro d
  rw [get_recordHeapSize]
  exact ⟨Nat.le_refl _, Nat.le_refl _⟩

theorem count_eq_ok (h : s.get c + 1 < wordLimit) : s.count c = .ok (s.bump c) := by
  cases c <;> simp only [count, get] at h ⊢ <;> rw [plus_eq_ok h] <;> rfl

theorem count_eq_error (h : ¬ s.get c + 1 < wordLimit) : s.count c = .error .addOverflow := by
  cases c <;> simp only [count, get] at h ⊢ <;> rw [plus, if_neg h] <;> rfl

theorem charge_eq_ok (h : s.bytesInUse + n < wordLimit) :
    s.charge n = .ok { s with bytesInUse := s.bytesInUse + n } := by
  rw [charge, plus_eq_ok h]
  rfl

theorem discharge_eq_ok (h : n ≤ s.bytesInUse) :
    s.discharge n = .ok { s with bytesInUse := s.bytesInUse - n } := by
  rw [discharge, minus_eq_ok h]
  rfl

end SegregatedFit.Stats
