import Mathlib
import SegregatedFit.Proofs.Access

/-!
Rings of links. A ring runs from a sentinel along next links through its entries and back, and the
previous links run the other way. Putting a node in and taking one out are edits at one place.
-/
namespace SegregatedFit.Memory

def prevLink (m : Memory) (x : Nat) : Nat := (m.word (x + wordSize)).toNat

def nextLink (m : Memory) (x : Nat) : Nat := (m.word (x + 2 * wordSize)).toNat

def setPrev (m : Memory) (x v : Nat) : Memory := m.setWord (x + wordSize) (.ofNat v)

def setNext (m : Memory) (x v : Nat) : Memory := m.setWord (x + 2 * wordSize) (.ofNat v)

def Linked (m : Memory) : List Nat → Prop
  | x :: y :: rest => m.nextLink x = y ∧ m.prevLink y = x ∧ Linked m (y :: rest)
  | _ => True

/-- The ring of the sentinel `s` with its entries in order. -/
def Ring (m : Memory) (s : Nat) (xs : List Nat) : Prop := m.Linked (s :: (xs ++ [s]))

def Apart (x y : Nat) : Prop := x + 3 * wordSize ≤ y ∨ y + 3 * wordSize ≤ x

theorem Apart.symm {x y : Nat} (h : Apart x y) : Apart y x := Or.symm h

theorem Apart.ne {x y : Nat} (h : Apart x y) : x ≠ y := by
  simp only [Apart, wordSize] at h
  omega

variable {m m' : Memory} {s u v x y z : Nat} {l xs ys zs : List Nat}

theorem nextLink_setNext_self (hv : v < wordLimit) : (m.setNext x v).nextLink x = v := by
  rw [nextLink, setNext, word_setWord]
  exact UInt64.toNat_ofNat_of_lt' hv

theorem prevLink_setPrev_self (hv : v < wordLimit) : (m.setPrev x v).prevLink x = v := by
  rw [prevLink, setPrev, word_setWord]
  exact UInt64.toNat_ofNat_of_lt' hv

theorem nextLink_setNext (h : Apart x u) (v : Nat) :
    (m.setNext x v).nextLink u = m.nextLink u := by
  simp only [Apart, wordSize] at h
  rw [nextLink, setNext, word_setWord_of_disjoint _ _ (by simp only [wordSize]; omega), nextLink]

theorem prevLink_setPrev (h : Apart x u) (v : Nat) :
    (m.setPrev x v).prevLink u = m.prevLink u := by
  simp only [Apart, wordSize] at h
  rw [prevLink, setPrev, word_setWord_of_disjoint _ _ (by simp only [wordSize]; omega), prevLink]

theorem nextLink_setPrev (h : x = u ∨ Apart x u) (v : Nat) :
    (m.setPrev x v).nextLink u = m.nextLink u := by
  simp only [Apart, wordSize] at h
  rw [nextLink, setPrev, word_setWord_of_disjoint _ _ (by simp only [wordSize]; omega), nextLink]

theorem prevLink_setNext (h : x = u ∨ Apart x u) (v : Nat) :
    (m.setNext x v).prevLink u = m.prevLink u := by
  simp only [Apart, wordSize] at h
  rw [prevLink, setNext, word_setWord_of_disjoint _ _ (by simp only [wordSize]; omega), prevLink]

theorem linked_append :
    m.Linked (xs ++ x :: ys) ↔ m.Linked (xs ++ [x]) ∧ m.Linked (x :: ys) := by
  induction xs with
  | nil => simp [Linked]
  | cons a xs ih =>
    cases xs with
    | nil => simp [Linked, and_assoc]
    | cons b xs =>
      simp only [List.cons_append, Linked] at ih ⊢
      rw [ih]
      simp only [and_assoc]

/-- Links are kept where the next link of all nodes but the last and the previous link of all nodes
but the first are kept. -/
theorem Linked.congr (h : m.Linked l) (hn : ∀ x ∈ l.dropLast, m'.nextLink x = m.nextLink x)
    (hp : ∀ x ∈ l.tail, m'.prevLink x = m.prevLink x) : m'.Linked l := by
  induction l with
  | nil => trivial
  | cons x l ih =>
    cases l with
    | nil => trivial
    | cons y l =>
      obtain ⟨h1, h2, h3⟩ := h
      refine ⟨(hn x (by simp)).trans h1, (hp y (by simp)).trans h2, ih h3 ?_ ?_⟩
      · intro z hz
        exact hn z (by simp [List.dropLast_cons_of_ne_nil, hz])
      · intro z hz
        exact hp z (by simp at hz ⊢; exact .inr hz)

theorem Ring.congr (h : m.Ring s xs) (hn : ∀ x ∈ s :: xs, m'.nextLink x = m.nextLink x)
    (hp : ∀ x ∈ s :: xs, m'.prevLink x = m.prevLink x) : m'.Ring s xs := by
  apply Linked.congr h
  · intro x hx
    rw [← List.cons_append, List.dropLast_concat] at hx
    exact hn x hx
  · intro x hx
    simp only [List.tail_cons, List.mem_append, List.mem_singleton] at hx
    exact hp x (by simpa [or_comm] using hx)

theorem Linked.insert (h : m.Linked (xs ++ y :: z :: zs)) (h1 : m'.nextLink y = x)
    (h2 : m'.prevLink x = y) (h3 : m'.nextLink x = z) (h4 : m'.prevLink z = x)
    (hn : ∀ u ∈ xs ++ (z :: zs).dropLast, m'.nextLink u = m.nextLink u)
    (hp : ∀ u ∈ (xs ++ [y]).tail ++ zs, m'.prevLink u = m.prevLink u) :
    m'.Linked (xs ++ y :: x :: z :: zs) := by
  rw [linked_append] at h ⊢
  obtain ⟨hl, -, -, hr⟩ := h
  refine ⟨hl.congr ?_ ?_, h1, h2, h3, h4, hr.congr ?_ ?_⟩
  · intro u hu
    rw [List.dropLast_concat] at hu
    exact hn u (List.mem_append_left _ hu)
  · intro u hu
    exact hp u (List.mem_append_left _ hu)
  · intro u hu
    exact hn u (List.mem_append_right _ hu)
  · intro u hu
    exact hp u (List.mem_append_right _ hu)

theorem Linked.erase (h : m.Linked (xs ++ y :: x :: z :: zs)) (h1 : m'.nextLink y = z)
    (h2 : m'.prevLink z = y)
    (hn : ∀ u ∈ xs ++ (z :: zs).dropLast, m'.nextLink u = m.nextLink u)
    (hp : ∀ u ∈ (xs ++ [y]).tail ++ zs, m'.prevLink u = m.prevLink u) :
    m'.Linked (xs ++ y :: z :: zs) := by
  rw [linked_append] at h ⊢
  obtain ⟨hl, -, -, -, -, hr⟩ := h
  refine ⟨hl.congr ?_ ?_, h1, h2, hr.congr ?_ ?_⟩
  · intro u hu
    rw [List.dropLast_concat] at hu
    exact hn u (List.mem_append_left _ hu)
  · intro u hu
    exact hp u (List.mem_append_left _ hu)
  · intro u hu
    exact hn u (List.mem_append_right _ hu)
  · intro u hu
    exact hp u (List.mem_append_right _ hu)

theorem Linked.links_eq (h : m.Linked l) (h' : m'.Linked l) :
    (∀ y ∈ l.dropLast, m'.nextLink y = m.nextLink y) ∧ ∀ y ∈ l.tail, m'.prevLink y = m.prevLink y := by
  induction l with
  | nil => exact ⟨nofun, nofun⟩
  | cons x l ih =>
    cases l with
    | nil => exact ⟨nofun, nofun⟩
    | cons y l =>
      obtain ⟨hn, hp, hl⟩ := h
      obtain ⟨hn', hp', hl'⟩ := h'
      have hrest := ih hl hl'
      rw [List.dropLast_cons_of_ne_nil (List.cons_ne_nil y l), List.tail_cons]
      simp only [List.forall_mem_cons]
      exact ⟨⟨hn'.trans hn.symm, hrest.1⟩, hp'.trans hp.symm, hrest.2⟩

theorem Ring.links_eq (h : m.Ring s xs) (h' : m'.Ring s xs) (hy : y ∈ s :: xs) :
    m'.nextLink y = m.nextLink y ∧ m'.prevLink y = m.prevLink y := by
  obtain ⟨hn, hp⟩ := Linked.links_eq h h'
  rw [← List.cons_append, List.dropLast_concat] at hn
  refine ⟨hn y hy, hp y ?_⟩
  rw [List.tail_cons, List.mem_append, List.mem_singleton, or_comm]
  exact List.mem_cons.mp hy

def Separate (l : List Nat) : Prop := ∀ x ∈ l, ∀ y ∈ l, x = y ∨ Apart x y

theorem Separate.apart (h : Separate l) (hx : x ∈ l) (hy : y ∈ l) (hne : x ≠ y) : Apart x y :=
  (h x hx y hy).resolve_left hne

/-- What putting a node in writes: its links to the sentinel and to the first entry, and theirs
to it. -/
def linkIn (m : Memory) (s x : Nat) : Memory :=
  (((m.setPrev x s).setNext x (m.nextLink s)).setPrev (m.nextLink s) x).setNext s x

def linkOut (m : Memory) (x : Nat) : Memory :=
  (m.setNext (m.prevLink x) (m.nextLink x)).setPrev (m.nextLink x) (m.prevLink x)

theorem Ring.nextLink_head (h : m.Ring s xs) : m.nextLink s = (xs ++ [s]).headD s := by
  cases xs with
  | nil => exact h.1
  | cons x xs => exact h.1

theorem Ring.nextLink_head_mem (h : m.Ring s xs) : m.nextLink s ∈ s :: xs := by
  rw [h.nextLink_head]
  cases xs <;> simp

theorem Ring.prevLink_head (h : m.Ring s xs) : m.prevLink s = xs.getLastD s := by
  rcases List.eq_nil_or_concat' xs with rfl | ⟨ys, y, rfl⟩
  · exact h.2.1
  · have hl : m.Linked ((s :: ys) ++ y :: [s]) := by
      rw [List.cons_append, List.append_cons]
      exact h
    rw [List.getLastD_concat]
    exact (linked_append.mp hl).2.2.1

theorem Ring.around (h : m.Ring s (ys ++ x :: zs)) :
    ∃ us vs, s :: ys = us ++ [m.prevLink x] ∧ zs ++ [s] = m.nextLink x :: vs ∧
      m.Linked (us ++ m.prevLink x :: x :: m.nextLink x :: vs) := by
  obtain ⟨us, p, hp⟩ : ∃ us p, s :: ys = us ++ [p] :=
    ⟨_, _, (List.dropLast_concat_getLast (List.cons_ne_nil s ys)).symm⟩
  obtain ⟨n, vs, hv⟩ : ∃ n vs, zs ++ [s] = n :: vs := List.exists_cons_of_ne_nil (by simp)
  have hl : s :: (ys ++ x :: zs ++ [s]) = us ++ p :: x :: n :: vs := by
    rw [List.append_assoc, List.cons_append, hv, ← List.cons_append, hp, List.append_assoc]
    rfl
  have hr : m.Linked (us ++ p :: x :: n :: vs) := by rw [← hl]; exact h
  obtain ⟨-, -, h1, h2, -⟩ := linked_append.mp hr
  exact ⟨us, vs, by rw [h1, hp], by rw [h2, hv], by rw [h1, h2]; exact hr⟩

theorem Ring.links_mem (h : m.Ring s xs) (hx : x ∈ xs) :
    m.prevLink x ∈ s :: xs ∧ m.nextLink x ∈ s :: xs := by
  obtain ⟨ys, zs, rfl⟩ := List.append_of_mem hx
  obtain ⟨us, vs, hp, hn, -⟩ := h.around
  have hpm : m.prevLink x ∈ s :: ys := by rw [hp]; simp
  have hnm : m.nextLink x ∈ zs ++ [s] := by rw [hn]; simp
  simp only [List.mem_cons, List.mem_append, List.not_mem_nil, or_false] at hpm hnm ⊢
  tauto

theorem Ring.linkIn (h : m.Ring s xs) (hd : (x :: s :: xs).Nodup) (hs : Separate (x :: s :: xs))
    (hw : ∀ y ∈ x :: s :: xs, y < wordLimit) : (m.linkIn s x).Ring s (x :: xs) := by
  obtain ⟨z, zs, hz⟩ : ∃ z zs, xs ++ [s] = z :: zs := List.exists_cons_of_ne_nil (by simp)
  have hf : m.nextLink s = z := by rw [h.nextLink_head, hz]; rfl
  have hr : m.Linked ([] ++ s :: z :: zs) := by rw [List.nil_append, ← hz]; exact h
  have hdz : (z :: zs).Nodup := by
    rw [← hz]
    exact (List.perm_append_singleton s xs).nodup_iff.mpr (List.nodup_cons.mp hd).2
  have hmz : ∀ u ∈ z :: zs, u ∈ x :: s :: xs := by
    intro u hu
    rw [← hz] at hu
    simp only [List.mem_append, List.mem_cons, List.not_mem_nil, or_false] at hu ⊢
    tauto
  have hxs : ∀ u ∈ s :: xs, Apart x u := by
    intro u hu
    exact hs.apart (by simp) (List.mem_cons_of_mem _ hu)
      fun he => (List.nodup_cons.mp hd).1 (he ▸ hu)
  have hxz : ∀ u ∈ z :: zs, Apart x u := by
    intro u hu
    rw [← hz] at hu
    exact hxs u (by simpa [or_comm] using hu)
  have hsx : Apart s x := (hxs s (by simp)).symm
  have hzx : Apart z x := (hxz z (by simp)).symm
  have hwx : x < wordLimit := hw x (by simp)
  have hws : s < wordLimit := hw s (by simp)
  have hwz : z < wordLimit := hw z (hmz z (by simp))
  -- of the four writes, each one is read back through those made after it
  have hgoal : (m.linkIn s x).Linked ([] ++ s :: x :: z :: zs) := by
    rw [Memory.linkIn, hf]
    apply hr.insert
    · exact nextLink_setNext_self hwx
    · rw [prevLink_setNext (.inr hsx), prevLink_setPrev hzx, prevLink_setNext (.inl rfl),
        prevLink_setPrev_self hws]
    · rw [nextLink_setNext hsx, nextLink_setPrev (.inr hzx), nextLink_setNext_self hwz]
    · rw [prevLink_setNext (hs s (by simp) z (hmz z (by simp))), prevLink_setPrev_self hwx]
    · intro u hu
      rw [List.nil_append, ← hz, List.dropLast_concat] at hu
      have hsu : Apart s u := hs.apart (by simp) (by simp [hu])
        fun he => (List.nodup_cons.mp (List.nodup_cons.mp hd).2).1 (he ▸ hu)
      have hxu := hxs u (List.mem_cons_of_mem _ hu)
      rw [nextLink_setNext hsu, nextLink_setPrev (hs z (hmz z (by simp)) u (by simp [hu])),
        nextLink_setNext hxu, nextLink_setPrev (.inr hxu)]
    · intro u hu
      simp only [List.nil_append, List.tail_cons] at hu
      have hum := hmz u (List.mem_cons_of_mem _ hu)
      have hzu : Apart z u := hs.apart (hmz z (by simp)) hum
        fun he => (List.nodup_cons.mp hdz).1 (he ▸ hu)
      have hxu := hxz u (List.mem_cons_of_mem _ hu)
      rw [prevLink_setNext (hs s (by simp) u hum), prevLink_setPrev hzu,
        prevLink_setNext (.inr hxu), prevLink_setPrev hxu]
  rw [List.nil_append, ← hz] at hgoal
  exact hgoal

theorem neighbours_fresh {us vs : List Nat} {p n : Nat} (hp : s :: ys = us ++ [p])
    (hn : zs ++ [s] = n :: vs) (hd : (s :: (ys ++ x :: zs)).Nodup) :
    p ∉ us ++ zs ∧ n ∉ ys ++ vs := by
  have hout : (s :: (ys ++ zs)).Nodup :=
    hd.sublist (((List.sublist_cons_self x zs).append_left ys).cons_cons s)
  constructor
  · have h : (us ++ p :: zs).Nodup := by
      rw [List.append_cons, ← hp]
      exact hout
    exact (List.nodup_cons.mp (List.nodup_middle.mp h)).1
  · have h : (ys ++ n :: vs).Nodup := by
      rw [← hn, ← List.append_assoc]
      exact (List.perm_append_singleton s (ys ++ zs)).nodup_iff.mpr hout
    exact (List.nodup_cons.mp (List.nodup_middle.mp h)).1

theorem Ring.linkOut (h : m.Ring s (ys ++ x :: zs)) (hd : (s :: (ys ++ x :: zs)).Nodup)
    (hs : Separate (s :: (ys ++ x :: zs))) (hw : ∀ y ∈ s :: (ys ++ x :: zs), y < wordLimit) :
    (m.linkOut x).Ring s (ys ++ zs) := by
  obtain ⟨us, vs, hp, hn, hr⟩ := h.around
  obtain ⟨hpf, hnf⟩ := neighbours_fresh hp hn hd
  have hlp : s :: ys ⊆ s :: (ys ++ x :: zs) := by
    intro u hu
    simp only [List.mem_cons, List.mem_append] at hu ⊢
    tauto
  have hln : zs ++ [s] ⊆ s :: (ys ++ x :: zs) := by
    intro u hu
    simp only [List.mem_cons, List.mem_append, List.not_mem_nil, or_false] at hu ⊢
    tauto
  have hpm : m.prevLink x ∈ s :: (ys ++ x :: zs) := hlp (by rw [hp]; simp)
  have hnm : m.nextLink x ∈ s :: (ys ++ x :: zs) := hln (by rw [hn]; simp)
  have hgoal : (m.linkOut x).Linked (us ++ m.prevLink x :: m.nextLink x :: vs) := by
    rw [Memory.linkOut]
    apply hr.erase
    · rw [nextLink_setPrev (hs _ hnm _ hpm), nextLink_setNext_self (hw _ hnm)]
    · exact prevLink_setPrev_self (hw _ hpm)
    · intro u hu
      rw [← hn, List.dropLast_concat] at hu
      have hum : u ∈ s :: (ys ++ x :: zs) := by
        rcases List.mem_append.mp hu with hu | hu
        · exact hlp (by rw [hp]; simp [hu])
        · exact hln (by simp [hu])
      have hpu : m.prevLink x ≠ u := fun he => hpf (he ▸ hu)
      rw [nextLink_setPrev (hs _ hnm u hum), nextLink_setNext (hs.apart hpm hum hpu)]
    · intro u hu
      rw [← hp, List.tail_cons] at hu
      have hum : u ∈ s :: (ys ++ x :: zs) := by
        rcases List.mem_append.mp hu with hu | hu
        · exact hlp (by simp [hu])
        · exact hln (by rw [hn]; simp [hu])
      have hnu : m.nextLink x ≠ u := fun he => hnf (he ▸ hu)
      rw [prevLink_setPrev (hs.apart hnm hum hnu), prevLink_setNext (hs _ hpm u hum)]
  have hl : us ++ m.prevLink x :: m.nextLink x :: vs = s :: (ys ++ zs ++ [s]) := by
    rw [← hn, List.append_cons, ← hp]
    simp
  rw [hl] at hgoal
  exact hgoal

/-- The bytes of the links of some nodes. -/
def LinkBytes (l : List Nat) (j : Nat) : Prop := ∃ y ∈ l, y + wordSize ≤ j ∧ j < y + 3 * wordSize

theorem sameOff_setPrev (hx : x ∈ l) (v : Nat) : SameOff (LinkBytes l) m (m.setPrev x v) := by
  apply SameOff.setWord
  intro j hj hj'
  exact ⟨x, hx, hj, by simp only [wordSize] at *; omega⟩

theorem sameOff_setNext (hx : x ∈ l) (v : Nat) : SameOff (LinkBytes l) m (m.setNext x v) := by
  apply SameOff.setWord
  intro j hj hj'
  exact ⟨x, hx, by simp only [wordSize] at *; omega, by simp only [wordSize] at *; omega⟩

theorem sameOff_linkIn (m : Memory) (s x : Nat) :
    SameOff (LinkBytes [x, s, m.nextLink s]) m (m.linkIn s x) :=
  (sameOff_setPrev (by simp) _).trans <| (sameOff_setNext (by simp) _).trans <|
    (sameOff_setPrev (by simp) _).trans (sameOff_setNext (by simp) _)

theorem sameOff_linkOut (m : Memory) (x : Nat) :
    SameOff (LinkBytes [m.prevLink x, m.nextLink x]) m (m.linkOut x) :=
  (sameOff_setNext (by simp) _).trans (sameOff_setPrev (by simp) _)

theorem Ring.of_sameOff {P : Nat → Prop} (h : m.Ring s xs) (hm : SameOff P m m')
    (hp : ∀ x ∈ s :: xs, ∀ j, x + wordSize ≤ j → j < x + 3 * wordSize → ¬ P j) : m'.Ring s xs := by
  apply h.congr
  · intro x hx
    rw [nextLink, nextLink, hm.word_eq]
    intro j hj hj'
    exact hp x hx j (by simp only [wordSize] at *; omega) (by simp only [wordSize] at *; omega)
  · intro x hx
    rw [prevLink, prevLink, hm.word_eq]
    intro j hj hj'
    exact hp x hx j hj (by simp only [wordSize] at *; omega)

theorem not_linkBytes (h : ∀ y ∈ l, Apart x y) {j : Nat} (hj : x + wordSize ≤ j)
    (hj' : j < x + 3 * wordSize) : ¬ LinkBytes l j := by
  rintro ⟨y, hy, h1, h2⟩
  have := h y hy
  simp only [Apart, wordSize] at *
  omega

end SegregatedFit.Memory
