import Mathlib
import SegregatedFit.Proofs.Keeping

/-!
Searching lists that are kept. The search is made once more with the entries that it sees; without
them it is the search. It never fails, it sees the entries of each list in order and none of them
twice, and it finds the first one that is large enough.
-/
namespace SegregatedFit

open Memory

def upTo (p : Nat → Bool) : List Nat → List Nat
  | [] => []
  | x :: xs => if p x then [x] else x :: upTo p xs

theorem upTo_sublist (p : Nat → Bool) (xs : List Nat) : (upTo p xs).Sublist xs := by
  induction xs with
  | nil => exact List.Sublist.refl _
  | cons x xs ih =>
    rw [upTo]
    split
    · exact (List.nil_sublist xs).cons_cons x
    · exact ih.cons_cons x

namespace Bins

def searchSeen (a : Arena) (s size : Nat) : (fuel current : Nat) → Except Fault (Option Nat × List Nat)
  | 0, _ => .error .endlessList
  | fuel + 1, current =>
    if current = s then .ok (none, [])
    else do
      if size ≤ (← a.blockSize current) then return (some current, [current])
      let (found, seen) ← searchSeen a s size fuel (← a.links current).next
      return (found, current :: seen)

def bucketSeen (bins : Bins) (a : Arena) (size : Nat) (b : Fin bucketCount) :
    Except Fault (Option Nat × List Nat) :=
  if b < bucketFor size ∨ bins.length b = 0 then return (none, [])
  else do searchSeen a (sentinel b) size (a.top / wordSize + 1) (← a.links (sentinel b)).next

def bucketsSeen (bins : Bins) (a : Arena) (size : Nat) :
    List (Fin bucketCount) → Except Fault (Option Nat × List Nat)
  | [] => return (none, [])
  | b :: bs => do
    let (found, seen) ← bucketSeen bins a size b
    if found.isSome then return (found, seen)
    let (found, rest) ← bucketsSeen bins a size bs
    return (found, seen ++ rest)

/-- `Bins.firstFit` with the entries that it sees. -/
def firstFitSeen (bins : Bins) (a : Arena) (size : Nat) : Except Fault (Option Nat × List Nat) :=
  bucketsSeen bins a size (List.finRange bucketCount)

variable {a : Arena} {bins : Bins} {lists : Fin bucketCount → List Nat} {b : Fin bucketCount}
  {fuel s size current : Nat} {zs : List Nat}

theorem searchSeen_fst :
    (searchSeen a s size fuel current).map Prod.fst = search a s size fuel current := by
  induction fuel generalizing current with
  | zero => rfl
  | succ fuel ih =>
    rw [searchSeen, search]
    split
    · rfl
    · cases hsize : a.blockSize current with
      | error e => rfl
      | ok n =>
        simp only [bind, Except.bind, pure, Except.pure]
        split
        · rfl
        · cases hlinks : a.links current with
          | error e => rfl
          | ok l =>
            simp only [← ih]
            cases searchSeen a s size fuel l.next <;> rfl

theorem bucketSeen_fst (b : Fin bucketCount) : (bucketSeen bins a size b).map Prod.fst =
    (if b < bucketFor size ∨ bins.length b = 0 then return none
      else do search a (sentinel b) size (a.top / wordSize + 1) (← a.links (sentinel b)).next) := by
  rw [bucketSeen]
  split
  · rfl
  · cases hlinks : a.links (sentinel b) with
    | error e => rfl
    | ok l => exact searchSeen_fst

theorem bucketsSeen_fst (bs : List (Fin bucketCount)) :
    (bucketsSeen bins a size bs).map Prod.fst =
      bs.findSomeM? fun b => (bucketSeen bins a size b).map Prod.fst := by
  induction bs with
  | nil => rfl
  | cons b bs ih =>
    rw [bucketsSeen, List.findSomeM?, ← ih]
    cases bucketSeen bins a size b with
    | error e => rfl
    | ok r =>
      obtain ⟨found, seen⟩ := r
      cases found with
      | some x => rfl
      | none =>
        simp only [bind, Except.bind, pure, Except.pure, Except.map, Option.isSome_none,
          Bool.false_eq_true, if_false]
        cases bucketsSeen bins a size bs <;> rfl

theorem firstFitSeen_fst : (bins.firstFitSeen a size).map Prod.fst = bins.firstFit a size := by
  rw [firstFitSeen, bucketsSeen_fst, funext fun b => bucketSeen_fst b]
  rfl

def firstIn (a : Arena) (lists : Fin bucketCount → List Nat) (size : Nat) (b : Fin bucketCount) :
    Option Nat :=
  if b < bucketFor size then none else (lists b).find? (size ≤ a.mem.tagSize ·)

namespace Keeps

theorem searchSeen_eq (hk : bins.Keeps a lists) (size : Nat) (hz : ∀ z ∈ zs, z ∈ lists b)
    (hl : a.mem.Linked (zs ++ [sentinel b])) (hf : zs.length < fuel) :
    searchSeen a (sentinel b) size fuel ((zs ++ [sentinel b]).headD (sentinel b)) =
      .ok (zs.find? (size ≤ a.mem.tagSize ·), upTo (size ≤ a.mem.tagSize ·) zs) := by
  induction zs generalizing fuel with
  | nil =>
    obtain _ | fuel := fuel
    · cases hf
    · exact if_pos rfl
  | cons z zs ih =>
    obtain _ | fuel := fuel
    · cases hf
    obtain ⟨hz0, hz⟩ := List.forall_mem_cons.mp hz
    have hzm : z ∈ sentinel b :: lists b := List.mem_cons_of_mem _ hz0
    have hne : z ≠ sentinel b := (hk.sentinel_apart_entry hz0 b).symm.ne
    obtain ⟨hnext, hl'⟩ : a.mem.nextLink z = (zs ++ [sentinel b]).headD (sentinel b) ∧
        a.mem.Linked (zs ++ [sentinel b]) := by
      cases zs with
      | nil => exact ⟨hl.1, trivial⟩
      | cons y zs => exact ⟨hl.1, hl.2.2⟩
    simp only [List.cons_append, List.headD_cons, searchSeen, if_neg hne, hk.blockSize_eq hzm,
      hk.links_eq hzm, hnext, ih hz hl' (Nat.lt_of_succ_lt_succ hf), bind, Except.bind, pure, Except.pure,
      List.find?_cons, upTo]
    by_cases hfit : size ≤ a.mem.tagSize z <;> simp [hfit]

theorem bucketSeen_eq (hk : bins.Keeps a lists) (size : Nat) (b : Fin bucketCount) :
    ∃ seen, bucketSeen bins a size b = .ok (firstIn a lists size b, seen) ∧ seen.Sublist (lists b) := by
  rw [bucketSeen, firstIn]
  by_cases hb : b < bucketFor size
  · exact ⟨[], by rw [if_pos (.inl hb), if_pos hb]; rfl, List.nil_sublist _⟩
  by_cases hlen : bins.length b = 0
  · have hnil : lists b = [] := List.length_eq_zero_iff.mp (hk.lengths b ▸ hlen)
    exact ⟨[], by rw [if_pos (.inr hlen), if_neg hb, hnil]; rfl, List.nil_sublist _⟩
  · have hring := hk.rings b
    have hlinked : a.mem.Linked (lists b ++ [sentinel b]) := by
      cases hxs : lists b with
      | nil => trivial
      | cons x xs => rw [hxs] at hring; exact hring.2.2
    have hsearch := hk.searchSeen_eq size (fun z hz => hz) hlinked (Nat.lt_succ_of_le (hk.length_le b))
    rw [← hring.nextLink_head] at hsearch
    refine ⟨_, ?_, upTo_sublist (size ≤ a.mem.tagSize ·) (lists b)⟩
    rw [if_neg (by simp [hb, hlen]), if_neg hb, hk.links_eq List.mem_cons_self]
    exact hsearch

theorem bucketsSeen_eq (hk : bins.Keeps a lists) (size : Nat) (bs : List (Fin bucketCount)) :
    ∃ seen, bucketsSeen bins a size bs = .ok (bs.findSome? (firstIn a lists size), seen) ∧
      seen.Sublist (bs.flatMap lists) := by
  induction bs with
  | nil => exact ⟨[], rfl, List.Sublist.refl _⟩
  | cons b bs ih =>
    obtain ⟨seen, hone, hseen⟩ := hk.bucketSeen_eq size b
    obtain ⟨rest, hrest, hsub⟩ := ih
    rw [bucketsSeen, hone, List.findSome?_cons, List.flatMap_cons]
    cases hfound : firstIn a lists size b with
    | some x => exact ⟨seen, rfl, hseen.trans (List.sublist_append_left _ _)⟩
    | none =>
      refine ⟨seen ++ rest, ?_, hseen.append hsub⟩
      simp only [bind, Except.bind, pure, Except.pure, hrest, Option.isSome_none, Bool.false_eq_true,
        if_false]

/-- The search goes up from the bucket of the size, and takes the first entry that is large enough. -/
theorem firstFit_eq (hk : bins.Keeps a lists) (size : Nat) :
    bins.firstFit a size = .ok ((List.finRange bucketCount).findSome? (firstIn a lists size)) := by
  obtain ⟨seen, hseen, -⟩ := hk.bucketsSeen_eq size (List.finRange bucketCount)
  rw [← firstFitSeen_fst, firstFitSeen, hseen]
  rfl

end Keeps

end Bins

end SegregatedFit
