import Mathlib
import SegregatedFit.Proofs.ResizeShows
import SegregatedFit.Proofs.Serving
import SegregatedFit.Proofs.Surveyed

/-!
A heap performs a call as its sketch does. Payloads that the call is not about keep their bytes, and a
refused call leaves all but the host as it was.
-/
namespace SegregatedFit.Heap

open Row Memory HeapM

variable {H : Type} {h h' : Heap H} {k : Sketch H} {c : Call} {n request x : Nat}

/-- The heap `h`, which showed `k`, has come to show what the call makes of it. -/
structure Performs [Host H] (h : Heap H) (k : Sketch H) (c : Call) (a : Answer) (h' : Heap H) :
    Prop where
  answer : a = (k.perform c).1
  shows : h'.Shows (k.perform c).2
  refused : ∀ reason, a = .error reason → h' = { h with host := (k.perform c).2.host }
  kept : ∀ x n, (x, n) ∈ k.sites true → ¬ c.Takes (x + headerSize) → ∀ i, x + headerSize ≤ i →
    i < x + n → h'.arena.mem.byte i = h.arena.mem.byte i
  carried : ∀ x n request ptr, (x, n) ∈ k.sites true → c = .reallocate (x + headerSize) request →
    a = .ok (some ptr) → ∀ i < min request (n - headerSize),
      h'.arena.mem.byte (ptr + i) = h.arena.mem.byte (x + headerSize + i)

theorem byte_eq_of_owns {m m' : Memory} (hm : SameOff k.Owns m m') {i : Nat}
    (hx : (x, n) ∈ k.sites true) (h1 : x + headerSize ≤ i) (h2 : i < x + n) :
    m'.byte i = m.byte i := by
  apply hm
  intro ho
  have := ho x n hx
  omega

variable [Host H]

theorem perform_allocate_meets (hs : h.Shows k) (hk : k.Charged) (request : Nat) :
    (Call.allocate request).perform.Meets h (k.perform (.allocate request)).2.stats
      (Performs h k (.allocate request)) := by
  refine (allocate_meets hs hk (Stats.Below.refl _)).bind ?_
  intro r h1 hr
  refine meets_pure ⟨by rw [hr.answer]; rfl, hr.shows, ?_, ?_, fun _ _ _ _ _ hf => by cases hf⟩
  · intro reason hf
    cases r with
    | error e => exact hr.refused e rfl
    | ok ptr => cases hf
  · intro x n hx _ i h1 h2
    exact byte_eq_of_owns hr.same hx h1 h2

theorem perform_free_meets (hs : h.Shows k) (hk : k.Charged) (hx : (x, n) ∈ k.sites true) :
    (Call.free (x + headerSize)).perform.Meets h (k.perform (.free (x + headerSize))).2.stats
      (Performs h k (.free (x + headerSize))) := by
  refine (free_meets hs hk hx (Stats.Below.refl _)).bind ?_
  rintro _ h1 ⟨hs1, hm1⟩
  refine meets_pure ⟨rfl, hs1, fun _ hf => (by cases hf), ?_, fun _ _ _ _ _ hf => by cases hf⟩
  intro y m hy hne i h2 h3
  have hy := site_of_ne (hk.freeBlock hx).2.1 hy fun he => hne (congrArg (· + headerSize) he.symm)
  exact byte_eq_of_owns hm1 hy h2 h3

theorem perform_reallocate_meets (hs : h.Shows k) (hk : k.Charged)
    (hx : (x, n) ∈ k.sites true) (request : Nat) :
    (Call.reallocate (x + headerSize) request).perform.Meets h
      (k.perform (.reallocate (x + headerSize) request)).2.stats
      (Performs h k (.reallocate (x + headerSize) request)) := by
  refine (reallocate_meets hs hk hx (Stats.Below.refl _)).bind ?_
  intro r h1 hr
  refine meets_pure ⟨by rw [hr.answer]; rfl, hr.shows, ?_, ?_, ?_⟩
  · intro reason hf
    cases r with
    | error e => exact hr.refused e rfl
    | ok ptr => cases hf
  · intro y m hy hne i h2 h3
    apply hr.same
    intro ho
    rcases ho y m hy with rfl | ho | ho
    · exact hne rfl
    · omega
    · omega
  · intro y m req ptr hy hc ha i hi
    obtain ⟨he, rfl⟩ := Call.reallocate.inj hc
    obtain rfl : x = y := Nat.add_right_cancel he
    obtain rfl : n = m := by
      rw [← hk.settled.tidy.sizeAt_site hx, hk.settled.tidy.sizeAt_site hy]
    cases r with
    | error e => cases ha
    | ok p =>
      cases ha
      exact hr.carried ptr rfl i hi

theorem perform_init_meets (hs : h.Shows k) (hk : k.Valid) (limit : Stats) :
    Call.init.perform.Meets h limit (Performs h k .init) := by
  have hsec : Host.secure h.host 0 prologueSize = (.ok (), h.host) := by
    have hle := k.prologueSize_le_top.trans hk.backed
    rw [← hs.host] at hle
    exact Host.secure_eq_ok (by decide) (by rwa [Nat.zero_add])
  refine (init_meets h limit).bind ?_
  intro r h1 hr
  rw [hsec] at hr
  obtain ⟨rfl, hs1, -⟩ := hr
  rw [hs.host, hs.config] at hs1
  exact meets_pure ⟨rfl, hs1, fun _ hf => (by cases hf), fun _ _ _ ht => absurd trivial ht,
    fun _ _ _ _ _ hf => by cases hf⟩

theorem perform_write_meets (hs : h.Shows k) (hx : (x, n) ∈ k.sites true) {i : Nat}
    (hi : i < n - headerSize) (b : UInt8) :
    (Call.write (x + headerSize) i b).perform.Meets h k.stats
      (Performs h k (.write (x + headerSize) i b)) := by
  obtain ⟨t, ht, hu, rfl⟩ := mem_sites_iff.mp hx
  have hm : SameOff (fun j => x + headerSize ≤ j ∧ j < x + t.size) h.arena.mem
      (h.arena.mem.setByte (x + headerSize + i) b) := by
    intro j hj
    exact byte_setByte_of_ne _ _ fun he => hj ⟨by omega, by omega⟩
  refine meets_edit (a := h.arena.mapMem (·.setByte (x + headerSize + i) b)) rfl ?_
  refine meets_pure ⟨rfl, hs.scribble ht hu rfl rfl hm, fun _ hf => (by cases hf), ?_,
    fun _ _ _ _ _ hf => by cases hf⟩
  intro y m hy hne j h1 h2
  apply hm
  rintro ⟨h3, h4⟩
  rcases sites_apart hx hy with he | hxy | hyx
  · exact hne (congrArg (· + headerSize) he.1)
  · omega
  · simp only [headerSize, wordSize] at *
    omega

/-- Every call that is about a used block is performed, unless a counter overflows; where the heap does
not start over, over any host at all. -/
theorem perform_meets_of_ne_init (hs : h.Shows k) (hk : k.Charged) (hc : k.Admits c)
    (hinit : c ≠ .init) : c.perform.Meets h (k.perform c).2.stats (Performs h k c) := by
  cases c with
  | allocate request => exact perform_allocate_meets hs hk request
  | free ptr =>
    obtain ⟨x, n, hx, rfl⟩ := hc
    exact perform_free_meets hs hk hx
  | reallocate ptr request =>
    obtain ⟨x, n, hx, rfl⟩ := hc
    exact perform_reallocate_meets hs hk hx request
  | init => exact absurd rfl hinit
  | write ptr i b =>
    obtain ⟨x, n, hx, rfl, hi⟩ := hc
    exact perform_write_meets hs hx hi b

theorem perform_meets (hs : h.Shows k) (hk : k.Valid) (hc : k.Admits c) :
    c.perform.Meets h (k.perform c).2.stats (Performs h k c) := by
  by_cases hinit : c = .init
  · rw [hinit]
    exact perform_init_meets hs hk _
  · exact perform_meets_of_ne_init hs hk.charged hc hinit

end SegregatedFit.Heap
