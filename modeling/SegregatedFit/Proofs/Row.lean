import Mathlib
import SegregatedFit.Tag

/-!
Rows of blocks: the tags of blocks that lie side by side, in order of address. A row starts at some
offset, and every block begins where the one before it ends.
-/
namespace SegregatedFit

abbrev Row := List Tag

namespace Row

def span : Row → Nat
  | [] => 0
  | t :: ts => t.size + span ts

/-- The blocks of a row that starts at `off`, each with its offset. -/
def located (off : Nat) : Row → List (Nat × Tag)
  | [] => []
  | t :: ts => (off, t) :: located (off + t.size) ts

def sites (used : Bool) (off : Nat) : Row → List (Nat × Nat)
  | [] => []
  | t :: ts =>
    if t.used = used then (off, t.size) :: sites used (off + t.size) ts
    else sites used (off + t.size) ts

def cut (off target : Nat) : Row → Row × Row
  | [] => ([], [])
  | t :: ts =>
    if target ≤ off then ([], t :: ts)
    else (t :: (cut (off + t.size) target ts).1, (cut (off + t.size) target ts).2)

/-- Tells the first block of a row what is before it. -/
def settle (prevUsed : Bool) : Row → Row
  | [] => []
  | t :: ts => { t with prevUsed } :: ts

/-- Whether the last block is used, or `prevUsed` if there is none. -/
def lastUsed (prevUsed : Bool) : Row → Bool
  | [] => prevUsed
  | t :: ts => lastUsed t.used ts

/-- Every block records whether the one before it is used. -/
def Flagged (prevUsed : Bool) : Row → Prop
  | [] => True
  | t :: ts => t.prevUsed = prevUsed ∧ Flagged t.used ts

/-- Every size is a multiple of the alignment, and large enough for a free block. -/
def Sized (ts : Row) : Prop := ∀ t ∈ ts, minBlock ≤ t.size ∧ t.size % alignment = 0

def usedBytes : Row → Nat
  | [] => 0
  | t :: ts => (if t.used then t.size else 0) + usedBytes ts

variable {u v p q : Bool} {off x y n m : Nat} {t t' : Tag} {ts xs ys r s : Row}

@[simp] theorem span_nil : span [] = 0 := rfl

@[simp] theorem span_cons : span (t :: ts) = t.size + span ts := rfl

@[simp] theorem span_append (xs ys : Row) : span (xs ++ ys) = span xs + span ys := by
  induction xs with
  | nil => simp
  | cons x xs ih => simp [ih, Nat.add_assoc]

@[simp] theorem usedBytes_nil : usedBytes [] = 0 := rfl

@[simp] theorem usedBytes_cons :
    usedBytes (t :: ts) = (if t.used then t.size else 0) + usedBytes ts := rfl

@[simp] theorem usedBytes_append (xs ys : Row) :
    usedBytes (xs ++ ys) = usedBytes xs + usedBytes ys := by
  induction xs with
  | nil => simp
  | cons x xs ih => simp [ih, Nat.add_assoc]

theorem usedBytes_le_span (ts : Row) : usedBytes ts ≤ span ts := by
  induction ts with
  | nil => simp
  | cons t ts ih => simp only [usedBytes_cons, span_cons]; split <;> omega

@[simp] theorem sized_nil : Sized [] := by simp [Sized]

@[simp] theorem sized_cons :
    Sized (t :: ts) ↔ (minBlock ≤ t.size ∧ t.size % alignment = 0) ∧ Sized ts := by
  simp [Sized]

@[simp] theorem sized_append : Sized (xs ++ ys) ↔ Sized xs ∧ Sized ys := by
  simp only [Sized, List.mem_append]
  constructor
  · intro h
    exact ⟨fun t ht => h t (.inl ht), fun t ht => h t (.inr ht)⟩
  · intro ⟨hx, hy⟩ t ht
    exact ht.elim (hx t) (hy t)

theorem Sized.span_mod (h : Sized ts) : span ts % alignment = 0 := by
  induction ts with
  | nil => rfl
  | cons t ts ih =>
    rw [sized_cons] at h
    have := ih h.2
    simp only [span_cons, alignment] at *
    omega

theorem Sized.span_eq_zero_iff (h : Sized ts) : span ts = 0 ↔ ts = [] := by
  cases ts with
  | nil => simp
  | cons t ts =>
    have ht := (sized_cons.mp h).1.1
    simp only [minBlock, wordSize] at ht
    simp only [span_cons, reduceCtorEq, iff_false]
    omega

theorem Sized.length_le (h : Sized ts) : ts.length * minBlock ≤ span ts := by
  induction ts with
  | nil => simp
  | cons t ts ih =>
    rw [sized_cons] at h
    have := ih h.2
    rw [List.length_cons, Nat.succ_mul, span_cons]
    omega

theorem located_append (off : Nat) (xs ys : Row) :
    located off (xs ++ ys) = located off xs ++ located (off + span xs) ys := by
  induction xs generalizing off with
  | nil => simp [located]
  | cons x xs ih => simp [located, ih, Nat.add_assoc]

theorem mem_located_iff :
    (x, t) ∈ located off ts ↔ ∃ xs ys, ts = xs ++ t :: ys ∧ x = off + span xs := by
  constructor
  · intro h
    induction ts generalizing off with
    | nil => simp [located] at h
    | cons s ts ih =>
      simp only [located, List.mem_cons, Prod.mk.injEq] at h
      rcases h with ⟨rfl, rfl⟩ | h
      · exact ⟨[], ts, rfl, rfl⟩
      · obtain ⟨xs, ys, rfl, rfl⟩ := ih h
        exact ⟨s :: xs, ys, rfl, by simp [Nat.add_assoc]⟩
  · rintro ⟨xs, ys, rfl, rfl⟩
    simp [located_append, located]

theorem located_bounds (h : (x, t) ∈ located off ts) : off ≤ x ∧ x + t.size ≤ off + span ts := by
  obtain ⟨xs, ys, rfl, rfl⟩ := mem_located_iff.mp h
  simp only [span_append, span_cons]
  omega

theorem located_apart (h : (x, t) ∈ located off ts) (h' : (y, t') ∈ located off ts) :
    (x = y ∧ t = t') ∨ x + t.size ≤ y ∨ y + t'.size ≤ x := by
  induction ts generalizing off with
  | nil => simp [located] at h
  | cons s ts ih =>
    simp only [located, List.mem_cons, Prod.mk.injEq] at h h'
    rcases h with ⟨rfl, rfl⟩ | h <;> rcases h' with ⟨rfl, rfl⟩ | h'
    · exact .inl ⟨rfl, rfl⟩
    · exact .inr (.inl (located_bounds h').1)
    · exact .inr (.inr (located_bounds h).1)
    · exact ih h h'

theorem Sized.of_located (hs : Sized ts) (h : (x, t) ∈ located off ts) :
    minBlock ≤ t.size ∧ t.size % alignment = 0 := by
  obtain ⟨xs, ys, rfl, -⟩ := mem_located_iff.mp h
  exact hs t (by simp)

theorem Sized.located_mod (hs : Sized ts) (h : (x, t) ∈ located off ts) :
    x % alignment = off % alignment := by
  obtain ⟨xs, ys, rfl, rfl⟩ := mem_located_iff.mp h
  have := (sized_append.mp hs).1.span_mod
  simp only [alignment] at *
  omega

theorem Sized.located_unique (hs : Sized ts) (h : (x, t) ∈ located off ts)
    (h' : (x, t') ∈ located off ts) : t = t' := by
  have ht := (hs.of_located h).1
  have ht' := (hs.of_located h').1
  simp only [minBlock, wordSize] at ht ht'
  rcases located_apart h h' with h | h | h
  · exact h.2
  · omega
  · omega

@[simp] theorem sites_nil : sites u off [] = [] := rfl

theorem sites_cons : sites u off (t :: ts) =
    if t.used = u then (off, t.size) :: sites u (off + t.size) ts
    else sites u (off + t.size) ts := rfl

theorem sites_append (u : Bool) (off : Nat) (xs ys : Row) :
    sites u off (xs ++ ys) = sites u off xs ++ sites u (off + span xs) ys := by
  induction xs generalizing off with
  | nil => simp
  | cons x xs ih =>
    simp only [List.cons_append, sites_cons, ih, span_cons, Nat.add_assoc]
    split <;> rfl

/-- The used blocks of a row stay in it when a free one is replaced. -/
theorem sites_subset (hu : span r = span s) (hs : sites u (off + span xs) r = []) :
    sites u off (xs ++ (r ++ ys)) ⊆ sites u off (xs ++ (s ++ ys)) := by
  intro p hm
  simp only [sites_append, hs, List.nil_append, hu, List.mem_append] at hm ⊢
  exact hm.imp_right .inr

theorem length_sites_le (u : Bool) (off : Nat) (ts : Row) : (sites u off ts).length ≤ ts.length := by
  induction ts generalizing off with
  | nil => simp
  | cons t ts ih =>
    have := ih (off + t.size)
    rw [sites_cons]
    split <;> simp <;> omega

theorem mem_sites_iff :
    (x, n) ∈ sites u off ts ↔ ∃ t, (x, t) ∈ located off ts ∧ t.used = u ∧ t.size = n := by
  induction ts generalizing off with
  | nil => simp [located]
  | cons s ts ih =>
    simp only [sites_cons, located, List.mem_cons, Prod.mk.injEq]
    constructor
    · intro h
      split at h
      · next hu =>
        simp only [List.mem_cons, Prod.mk.injEq] at h
        rcases h with ⟨rfl, rfl⟩ | h
        · exact ⟨s, .inl ⟨rfl, rfl⟩, hu, rfl⟩
        · obtain ⟨t, ht, hu, hn⟩ := ih.mp h
          exact ⟨t, .inr ht, hu, hn⟩
      · obtain ⟨t, ht, hu, hn⟩ := ih.mp h
        exact ⟨t, .inr ht, hu, hn⟩
    · rintro ⟨t, ⟨rfl, rfl⟩ | ht, hu, hn⟩
      · simp [hu, hn]
      · have := ih.mpr ⟨t, ht, hu, hn⟩
        split
        · exact List.mem_cons_of_mem _ this
        · exact this

theorem site_of_ne {l rest : List (Nat × Nat)} (hp : l.Perm ((x, n) :: rest)) (hy : (y, m) ∈ l)
    (hne : y ≠ x) : (y, m) ∈ rest := by
  rcases List.mem_cons.mp (hp.subset hy) with he | hy
  · exact absurd (congrArg Prod.fst he) hne
  · exact hy

theorem sites_bounds (h : (x, n) ∈ sites u off ts) : off ≤ x ∧ x + n ≤ off + span ts := by
  obtain ⟨t, ht, -, rfl⟩ := mem_sites_iff.mp h
  exact located_bounds ht

theorem sites_apart (h : (x, n) ∈ sites u off ts) (h' : (y, m) ∈ sites v off ts) :
    (x = y ∧ n = m ∧ u = v) ∨ x + n ≤ y ∨ y + m ≤ x := by
  obtain ⟨t, ht, rfl, rfl⟩ := mem_sites_iff.mp h
  obtain ⟨t', ht', rfl, rfl⟩ := mem_sites_iff.mp h'
  rcases located_apart ht ht' with ⟨rfl, rfl⟩ | h
  · exact .inl ⟨rfl, rfl, rfl⟩
  · exact .inr h

theorem Sized.of_site (hs : Sized ts) (h : (x, n) ∈ sites u off ts) :
    minBlock ≤ n ∧ n % alignment = 0 ∧ x % alignment = off % alignment := by
  obtain ⟨t, ht, rfl, rfl⟩ := mem_sites_iff.mp h
  exact ⟨(hs.of_located ht).1, (hs.of_located ht).2, hs.located_mod ht⟩

theorem Sized.pairwise_sites (h : Sized ts) (u : Bool) (off : Nat) :
    (sites u off ts).Pairwise (·.1 < ·.1) := by
  induction ts generalizing off with
  | nil => exact List.Pairwise.nil
  | cons t ts ih =>
    rw [sized_cons] at h
    have ht := h.1.1
    simp only [minBlock, wordSize] at ht
    have hi := ih h.2 (off + t.size)
    rw [sites_cons]
    split
    · refine List.pairwise_cons.mpr ⟨fun q hq => ?_, hi⟩
      have := (sites_bounds hq).1
      omega
    · exact hi

theorem Sized.nodup_sites (h : Sized ts) (u : Bool) (off : Nat) :
    ((sites u off ts).map Prod.fst).Nodup :=
  List.pairwise_map.mpr ((h.pairwise_sites u off).imp Nat.ne_of_lt)

theorem usedBytes_eq (off : Nat) (ts : Row) :
    usedBytes ts = ((sites true off ts).map Prod.snd).sum := by
  induction ts generalizing off with
  | nil => rfl
  | cons t ts ih =>
    rw [usedBytes_cons, sites_cons, ih (off + t.size)]
    split <;> simp

theorem cut_start (off : Nat) (ts : Row) : cut off off ts = ([], ts) := by
  cases ts <;> simp [cut]

theorem Sized.cut_append (h : Sized xs) (off : Nat) (ys : Row) :
    cut off (off + span xs) (xs ++ ys) = (xs, ys) := by
  induction xs generalizing off with
  | nil => simp [cut_start]
  | cons x xs ih =>
    rw [sized_cons] at h
    have hx := h.1.1
    simp only [minBlock, wordSize] at hx
    have hi := ih h.2 (off + x.size)
    rw [List.cons_append, cut, span_cons, if_neg (by omega), ← Nat.add_assoc, hi]

@[simp] theorem span_settle (p : Bool) (ts : Row) : span (settle p ts) = span ts := by
  cases ts <;> rfl

@[simp] theorem sites_settle (u p : Bool) (off : Nat) (ts : Row) :
    sites u off (settle p ts) = sites u off ts := by
  cases ts <;> rfl

@[simp] theorem sized_settle : Sized (settle p ts) ↔ Sized ts := by
  cases ts <;> simp [settle]

@[simp] theorem lastUsed_append (p : Bool) (xs ys : Row) :
    lastUsed p (xs ++ ys) = lastUsed (lastUsed p xs) ys := by
  induction xs generalizing p with
  | nil => rfl
  | cons x xs ih => exact ih x.used

theorem flagged_append :
    Flagged p (xs ++ ys) ↔ Flagged p xs ∧ Flagged (lastUsed p xs) ys := by
  induction xs generalizing p with
  | nil => simp [Flagged, lastUsed]
  | cons x xs ih => simp [Flagged, lastUsed, ih, and_assoc]

theorem Flagged.settle (h : Flagged p ts) (q : Bool) : Flagged q (settle q ts) := by
  cases ts with
  | nil => trivial
  | cons t ts => exact ⟨rfl, h.2⟩

end Row

end SegregatedFit
