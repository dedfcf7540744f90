import SegregatedFit.Host

/-!
A reserve: a host with a fixed capacity, set aside at the start and handed out from below.
-/
namespace SegregatedFit

structure Reserve where
  capacity : Nat
  committed : Nat
  committed_le : committed ≤ capacity

namespace Reserve

def pageSize : Nat := 4096

/-- No size above this can be aligned to a page and stay in the positive half of the words. -/
def sizeLimit : Nat := wordLimit / 2 - pageSize

/-- A reserve of no bytes is made as one of a single byte. No system sets aside as much as all
of its addresses. -/
def ofCapacity (capacity : Nat) : Except Refusal Reserve :=
  let size := max capacity 1
  if sizeLimit < size then .error (.badRequest capacity)
  else if addressLimit ≤ size then .error (.outOfMemory size)
  else .ok ⟨size, 0, Nat.zero_le _⟩

def extend (r : Reserve) (delta : Nat) : Extension Reserve :=
  if h : r.committed + delta ≤ r.capacity then
    ⟨{ r with committed := r.committed + delta, committed_le := h }, .ok r.committed, #[]⟩
  else
    ⟨r, .error (.outOfMemory delta), #[.hostRefused delta r.committed r.capacity]⟩

instance : Host Reserve where
  base _ := 0
  committed := committed
  extend := extend

theorem extend_of_le (r : Reserve) {delta : Nat} (h : r.committed + delta ≤ r.capacity) :
    r.extend delta =
      ⟨{ r with committed := r.committed + delta, committed_le := h }, .ok r.committed, #[]⟩ :=
  dif_pos h

theorem extend_of_lt (r : Reserve) {delta : Nat} (h : r.capacity < r.committed + delta) :
    r.extend delta =
      ⟨r, .error (.outOfMemory delta), #[.hostRefused delta r.committed r.capacity]⟩ :=
  dif_neg (Nat.not_le.mpr h)

theorem of_granted {r : Reserve} {n start : Nat} (h : (r.extend n).granted = .ok start) :
    start = r.committed ∧ (r.extend n).host.committed = r.committed + n := by
  by_cases hn : r.committed + n ≤ r.capacity
  · rw [extend_of_le r hn] at h ⊢
    cases h
    exact ⟨rfl, rfl⟩
  · rw [extend_of_lt r (Nat.not_le.mp hn)] at h
    cases h

theorem of_refused {r : Reserve} {n : Nat} {reason : Refusal}
    (h : (r.extend n).granted = .error reason) : (r.extend n).host = r := by
  by_cases hn : r.committed + n ≤ r.capacity
  · rw [extend_of_le r hn] at h
    cases h
  · rw [extend_of_lt r (Nat.not_le.mp hn)]

instance : LawfulHost Reserve where
  base_extend _ _ := rfl
  of_granted _ h := ⟨(of_granted h).1, Nat.le_of_eq (of_granted h).2.symm⟩
  of_refused h := congrArg committed (of_refused h)

end Reserve

end SegregatedFit
