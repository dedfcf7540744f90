import Mathlib
import SegregatedFit.Proofs.Coalescing
import SegregatedFit.Proofs.Stacks

/-!
What the journal tells of the free blocks. Every event that puts a block into its list names the block,
and what was free there before is gone. So the free blocks can be read off the journal, the one put in
last first, and in that order they are the stacks of the buckets.
-/
namespace SegregatedFit

open Row

instance : DecidableRel Clear := fun _ _ => inferInstanceAs (Decidable (_ ∨ _))

/-- The free blocks with their sizes after an event, the one put in last first. -/
def Event.enter (listed : List (Nat × Nat)) : Event → List (Nat × Nat)
  | .initialized => []
  | .reused block size => listed.filter (Clear (block, size))
  | .split block used rest => (block + used, rest) :: listed.filter (Clear (block, used + rest))
  | .grew chunk size heapSize =>
    if size < chunk then (prologueSize + heapSize - (chunk - size), chunk - size) :: listed else listed
  | .freed block size => (block, size) :: listed.filter (Clear (block, size))
  | .released size heapSize => listed.filter (Clear (prologueSize + heapSize, size))
  | _ => listed

def Journal.listed (j : Journal) : List (Nat × Nat) := j.foldl Event.enter []

theorem Journal.listed_push (j : Journal) (e : Event) :
    Journal.listed (j.push e) = Event.enter j.listed e :=
  Array.foldl_push

namespace Sketch

variable {H : Type} {k k' : Sketch H} {size x : Nat} {t : Tag} {fs gs us xs ys : Row}
  {listed : List (Nat × Nat)}

/-- The lists of the sketch are the stacks of free blocks of its row. -/
structure Books (k : Sketch H) (listed : List (Nat × Nat)) : Prop where
  lists : k.lists = stack listed
  free : ∀ e ∈ listed, e ∈ k.sites false

theorem books_empty (host : H) (config : Config) : (empty host config).Books [] := ⟨rfl, nofun⟩

namespace Books

theorem congr (hb : k.Books listed) (hlists : k'.lists = k.lists)
    (hsites : k'.sites false = k.sites false) : k'.Books listed :=
  ⟨hlists.trans hb.lists, hsites ▸ hb.free⟩

theorem nodup (hb : k.Books listed) (hk : k.Tidy) : listed.Nodup := by
  refine List.nodup_iff_count_le_one.mpr fun e => ?_
  have hstack := List.nodup_iff_count_le_one.mp (hk.nodup (bucketFor e.2)) e.1
  rw [hb.lists] at hstack
  refine le_trans ?_ hstack
  rw [← List.count_filter (p := fun f => bucketFor f.2 = bucketFor e.2) (by simp)]
  exact List.count_le_count_map

theorem perm (hb : k.Books listed) (hk : k.Settled) : listed.Perm (k.sites false) := by
  refine (List.perm_ext_iff_of_nodup (hb.nodup hk.tidy) ?_).mpr fun e => ⟨hb.free e, fun he => ?_⟩
  · exact (hk.tidy.sized.nodup_sites false prologueSize).of_map _
  · have hx := hk.complete he
    rw [hb.lists] at hx
    obtain ⟨n, hn, -⟩ := mem_stack.mp hx
    have hsize := (hk.tidy.sizeAt_site he).symm.trans (hk.tidy.sizeAt_site (hb.free _ hn))
    rwa [show e = (e.1, n) from Prod.ext rfl hsize]

theorem cut (hb : k.Books listed) (hk : k.Tidy) (hrow : k.row = xs ++ (us ++ ys)) :
    Layout.discard k.lists ((Row.sites false (prologueSize + span xs) us).map Prod.fst) =
        stack (listed.filter (Clear (prologueSize + span xs, span us))) ∧
      ∀ e ∈ listed.filter (Clear (prologueSize + span xs, span us)),
        e ∈ Row.sites false prologueSize xs ∨
          e ∈ Row.sites false (prologueSize + span xs + span us) ys := by
  have hz := hk.sized
  rw [hrow, sized_append, sized_append] at hz
  obtain ⟨hzx, hzu, hzy⟩ := hz
  -- no block lies across a cut: an entry is before what goes, in it, or after it
  have hwhere : ∀ e ∈ listed, e ∈ Row.sites false prologueSize xs ∨
      e ∈ Row.sites false (prologueSize + span xs) us ∨
      e ∈ Row.sites false (prologueSize + span xs + span us) ys := by
    intro e he
    have := hb.free e he
    rwa [sites, hrow, sites_append, sites_append, List.mem_append, List.mem_append] at this
  have houter : ∀ e, e ∈ Row.sites false prologueSize xs ∨
      e ∈ Row.sites false (prologueSize + span xs + span us) ys →
      Clear (prologueSize + span xs, span us) e ∧
        e.1 ∉ (Row.sites false (prologueSize + span xs) us).map Prod.fst := by
    intro e he
    have hout : e.1 + e.2 ≤ prologueSize + span xs ∨ prologueSize + span xs + span us ≤ e.1 :=
      he.imp (fun he => (sites_bounds he).2) fun he => (sites_bounds he).1
    have hpos : minBlock ≤ e.2 := he.elim (fun he => (hzx.of_site he).1) fun he => (hzy.of_site he).1
    refine ⟨hout.symm, fun hin => ?_⟩
    obtain ⟨⟨y, m⟩, hy, heq⟩ := List.mem_map.mp hin
    have h1 := sites_bounds hy
    have h2 := (hzu.of_site hy).1
    simp only [minBlock, wordSize] at *
    omega
  have hinner : ∀ e ∈ Row.sites false (prologueSize + span xs) us,
      ¬ Clear (prologueSize + span xs, span us) e := by
    intro e he hc
    have h1 := sites_bounds he
    have h2 := (hzu.of_site he).1
    simp only [Clear, minBlock, wordSize] at *
    omega
  constructor
  · funext b
    rw [Layout.discard, hb.lists, stack, stack, List.filter_map, List.filter_filter, List.filter_filter]
    congr 1
    apply List.filter_congr
    intro e he
    rcases or_left_comm.mp (hwhere e he) with hu | hout
    · have hin := List.mem_map_of_mem (f := Prod.fst) hu
      simp [hinner e hu, hin]
    · obtain ⟨hc, hnot⟩ := houter e hout
      simp [hc, hnot]
  · intro e he
    obtain ⟨he, hc⟩ := List.mem_filter.mp he
    rcases hwhere e he with hx | hu | hy
    · exact .inl hx
    · exact absurd (of_decide_eq_true hc) (hinner e hu)
    · exact .inr hy

theorem place (hb : k.Books listed) (hk : k.Settled) (hrow : k.row = xs ++ t :: ys)
    (hx : x = prologueSize + span xs) (ht : t.used = false) (hle : size ≤ t.size) :
    (k.place x size).Books (Event.enter listed
      (if t.size - size < minSplit then .reused x t.size else .split x size (t.size - size))) := by
  have hrow' : k.row = xs ++ ([t] ++ ys) := hrow
  obtain ⟨hlists, hfree⟩ := hb.cut hk.tidy hrow'
  have hsites : (Row.sites false (prologueSize + span xs) [t]).map Prod.fst = [x] := by
    simp [sites_cons, ht, hx]
  rw [hsites, hk.tidy.discard_singleton] at hlists
  rw [span_cons, span_nil, Nat.add_zero, ← hx] at hlists hfree
  by_cases hrest : t.size - size < minSplit
  · rw [if_pos hrest, hk.tidy.place_whole hrow hx hrest]
    refine ⟨hlists, fun e he => ?_⟩
    rw [sites, sites_append, sites_cons, sites_settle, ← hx]
    simpa using hfree e he
  · have hend : x + size + (t.size - size) = x + t.size := by omega
    rw [if_neg hrest, hk.tidy.place_split hrow hx hrest, Event.enter, Nat.add_sub_cancel' hle]
    refine ⟨?_, List.forall_mem_cons.mpr ⟨?_, fun e he => ?_⟩⟩
    · rw [stack_cons, ← hlists]
      rfl
    · rw [sites, row_count, row_enlist, sites_append, sites_cons, sites_cons, ← hx]
      simp
    · rw [sites, row_count, row_enlist, sites_append, sites_cons, sites_cons, ← hx, hend]
      simpa [or_left_comm] using .inr (hfree e he)

theorem carve (hb : k.Books listed) (size chunk : Nat) :
    (k.carve size chunk).Books
      (Event.enter listed (.grew chunk size (span (k.carve size chunk).row))) := by
  rw [Event.enter, Sketch.carve]
  by_cases hlt : size < chunk
  · have hend : prologueSize + span (k.row ++ [(⟨size, true, k.topUsed⟩ : Tag), ⟨chunk - size, false, true⟩]) -
        (chunk - size) = k.top + size := by
      simp only [span_append, span_cons, span_nil, top]
      omega
    rw [if_pos hlt, if_pos hlt]
    simp only [row_recordHeapSize, row_count, row_enlist, hend]
    refine ⟨?_, List.forall_mem_cons.mpr ⟨?_, fun e he => ?_⟩⟩
    · rw [stack_cons, ← hb.lists]
      rfl
    · simp [sites, sites_append, sites_cons, top, Nat.add_assoc]
    · have := hb.free e he
      simp [sites, sites_append] at this ⊢
      exact .inl this
  · rw [if_neg hlt, if_neg hlt]
    exact hb.congr rfl (by simp [sites, sites_append, sites_cons])

/-- A freed block comes to the front of the list of the free block that it is now in, unless that one is
at the top. -/
theorem freeBlock (hb : k.Books listed) (hk : k.Settled) (hbasin : Basin k.row xs fs t gs ys)
    (hx : x = prologueSize + span (xs ++ fs)) (ht : t.used = true) :
    (k.freeBlock x).Books (Event.enter listed
      (if ys = [] then .released (span (fs ++ t :: gs)) (span xs)
        else .freed (prologueSize + span xs) (span (fs ++ t :: gs)))) := by
  have hrow : k.row = xs ++ ((fs ++ t :: gs) ++ ys) := by
    rw [hbasin.row]
    simp only [List.append_assoc, List.cons_append]
  obtain ⟨hlists, hfree⟩ := hb.cut hk.tidy hrow
  have hsites : (Row.sites false (prologueSize + span xs) (fs ++ t :: gs)).map Prod.fst =
      offsets (prologueSize + span xs) fs ++ offsets (prologueSize + span (xs ++ fs ++ [t])) gs := by
    rcases hbasin.left with rfl | ⟨f, rfl, hf⟩ <;> rcases hbasin.right with rfl | ⟨g, rfl, hg⟩ <;>
      simp [offsets, located, sites_cons, Nat.add_assoc, *]
  rw [hsites] at hlists
  rw [hk.freeBlock_basin hbasin hx, fill]
  by_cases hys : ys = []
  · rw [if_pos hys, if_pos hys]
    refine ⟨hlists, fun e he => ?_⟩
    have := hfree e he
    rwa [hys, sites_nil, List.mem_nil_iff, or_false] at this
  · rw [if_neg hys, if_neg hys, Event.enter]
    refine ⟨?_, List.forall_mem_cons.mpr ⟨?_, fun e he => ?_⟩⟩
    · rw [stack_cons, ← hlists]
      rfl
    · simp [sites, sites_append, sites_cons]
    · rw [sites, row_enlist, sites_append, sites_cons, if_pos rfl, sites_settle]
      rcases hfree e he with hin | hin
      · exact List.mem_append_left _ hin
      · exact List.mem_append_right _ (List.mem_cons_of_mem _ hin)

theorem growTop [Host H] (hb : k.Books listed) (hk : k.Settled) (hrow : k.row = xs ++ t :: ys)
    (hx : x = prologueSize + span xs) (ht : t.used = true) (h : k.growTop x t size = (true, k')) :
    k'.Books listed := by
  unfold Sketch.growTop at h
  split at h
  · cases h
  next htop =>
  split at h
  · cases h
  obtain rfl : ys = [] := (hk.hole_used hrow ht).end_iff.mp (by rw [← not_not.mp htop, hx]; simp)
  rw [hk.tidy.cut_eq hrow hx] at h
  cases h
  refine hb.congr rfl ?_
  simp [sites, hrow, sites_append, sites_cons, ht]

end Books

end Sketch

end SegregatedFit
