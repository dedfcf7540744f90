import SegregatedFit.Host.Reserve

/-!
A paged host: it commits whole pages out of a reserve, starts some way past an aligned
address, and refuses the calls that its schedule names.
-/
namespace SegregatedFit

structure Paged where
  reserve : Reserve
  base : Nat
  page : Nat
  page_pos : 0 < page
  /-- The numbers of the calls to refuse, the first call being number one. -/
  refusals : List Nat
  calls : Nat

namespace Paged

def roundUp (page n : Nat) : Nat := min ((n + (page - 1)) / page * page) (wordLimit - 1)

def extend (p : Paged) (delta : Nat) : Extension Paged :=
  let p := { p with calls := p.calls + 1 }
  if p.calls ∈ p.refusals then ⟨p, .error (.outOfMemory delta), #[]⟩
  else
    let e := p.reserve.extend (roundUp p.page delta)
    ⟨{ p with reserve := e.host }, e.granted, e.events⟩

instance : Host Paged where
  base := base
  committed p := p.reserve.committed
  extend := extend

def create (capacity base precommit page : Nat) (refusals : List Nat) : Except Refusal Paged := do
  let e := (← Reserve.ofCapacity capacity).extend precommit
  let _ ← e.granted
  return ⟨e.host, base, max page 1, Nat.le_max_right .., refusals, 0⟩

theorem le_roundUp {page n : Nat} (hp : 0 < page) (hn : n < wordLimit) : n ≤ roundUp page n := by
  have h := Nat.div_add_mod (n + (page - 1)) page
  have hm := Nat.mod_lt (n + (page - 1)) hp
  rw [Nat.mul_comm] at h
  unfold roundUp
  omega

theorem extend_of_scheduled (p : Paged) (delta : Nat) (h : p.calls + 1 ∈ p.refusals) :
    p.extend delta = ⟨{ p with calls := p.calls + 1 }, .error (.outOfMemory delta), #[]⟩ :=
  if_pos h

theorem extend_of_not_scheduled (p : Paged) (delta : Nat) (h : p.calls + 1 ∉ p.refusals) :
    p.extend delta =
      ⟨{ p with calls := p.calls + 1, reserve := (p.reserve.extend (roundUp p.page delta)).host },
        (p.reserve.extend (roundUp p.page delta)).granted,
        (p.reserve.extend (roundUp p.page delta)).events⟩ :=
  if_neg h

instance : LawfulHost Paged where
  base_extend p n := by
    change (p.extend n).host.base = p.base
    by_cases hs : p.calls + 1 ∈ p.refusals
    · rw [extend_of_scheduled p n hs]
    · rw [extend_of_not_scheduled p n hs]
  of_granted {p n start} hn h := by
    change (p.extend n).granted = .ok start at h
    change start = p.reserve.committed ∧ p.reserve.committed + n ≤ (p.extend n).host.reserve.committed
    by_cases hs : p.calls + 1 ∈ p.refusals
    · rw [extend_of_scheduled p n hs] at h
      cases h
    · rw [extend_of_not_scheduled p n hs] at h ⊢
      have hg := Reserve.of_granted h
      have hr := le_roundUp p.page_pos hn
      exact ⟨hg.1, by rw [hg.2]; omega⟩
  of_refused {p n r} h := by
    change (p.extend n).granted = .error r at h
    change (p.extend n).host.reserve.committed = p.reserve.committed
    by_cases hs : p.calls + 1 ∈ p.refusals
    · rw [extend_of_scheduled p n hs]
    · rw [extend_of_not_scheduled p n hs] at h ⊢
      exact congrArg Reserve.committed (Reserve.of_refused h)

end Paged

end SegregatedFit
