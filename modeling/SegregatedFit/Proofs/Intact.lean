import Mathlib
import SegregatedFit.Proofs.Auditing
import SegregatedFit.Proofs.Surveyed

/-!
What the heap check decides, whatever the memory holds. On a region of whole blocks it meets no
fault, and it passes exactly where the memory spells blocks up to the top and rings of plausible free
blocks, as many as were walked. Every function of the check is read as the condition that it
decides, and the conditions are put together as the functions are.
-/
namespace SegregatedFit

open Row Memory

namespace Row

variable {p : Bool} {t : Tag} {ts : Row}

theorem merged_of_isChain (hf : Flagged p ts)
    (hc : ts.IsChain fun t u => t.used = true ∨ u.used = true)
    (hp : p = true ∨ ∀ t ∈ ts.head?, t.used = true) : Merged ts := by
  induction ts generalizing p with
  | nil => exact fun _ h => by cases h
  | cons t ts ih =>
    rw [List.isChain_cons] at hc
    have hhead : t.used = true ∨ t.prevUsed = true := by
      rw [hf.1]
      exact hp.symm.imp_left fun h => h t rfl
    have hnext : t.used = true ∨ ∀ u ∈ ts.head?, u.used = true := by
      by_cases ht : t.used = true
      · exact .inl ht
      · exact .inr fun u hu => (hc.1 u hu).resolve_left ht
    exact merged_cons.mpr ⟨hhead, ih hf.2 hc.2 hnext⟩

end Row

namespace Memory

variable {m : Memory} {s x : Nat} {l : List Nat}

theorem linked_concat : m.Linked (x :: (l ++ [s])) ↔
    m.Linked (x :: l) ∧ m.nextLink (l.getLastD x) = s ∧ m.prevLink s = l.getLastD x := by
  induction l generalizing x with
  | nil => simp [Linked]
  | cons y l ih =>
    rw [List.cons_append, Linked, ih, Linked, List.getLastD_cons]
    simp only [and_assoc]

end Memory

namespace Audit

variable {α β : Type} {x : Audit α} {f : α → Audit β} {R R' : α → Prop} {S : α → β → Prop}
  {e : Corruption} {p : Prop} [Decidable p]

/-- The audit meets no fault, and it answers `v` exactly where `R v` holds. -/
def Decides (x : Audit α) (R : α → Prop) : Prop :=
  ∃ r : Except Corruption α, x.run = .ok r ∧ ∀ v, r = .ok v ↔ R v

theorem decides_pure (v : α) : (pure v : Audit α).Decides (· = v) :=
  ⟨.ok v, rfl, fun w => by rw [Except.ok.injEq, eq_comm]⟩

theorem decides_throw (h : ∀ v, ¬ R v) : (throw e : Audit α).Decides R :=
  ⟨.error e, rfl, fun v => ⟨nofun, fun hv => absurd hv (h v)⟩⟩

theorem Decides.congr (hx : x.Decides R) (h : ∀ v, R v ↔ R' v) : x.Decides R' := by
  obtain ⟨r, hr, hR⟩ := hx
  exact ⟨r, hr, fun v => (hR v).trans (h v)⟩

theorem Decides.bind (hx : x.Decides R) (hf : ∀ v, R v → (f v).Decides (S v)) :
    (x >>= f).Decides fun w => ∃ v, R v ∧ S v w := by
  obtain ⟨r, hr, hR⟩ := hx
  have hrun : (x >>= f).run = ExceptT.bindCont f r := by
    change (x.run >>= ExceptT.bindCont f) = _
    rw [hr]
    rfl
  cases r with
  | error e =>
    refine ⟨.error e, hrun, fun w => ⟨nofun, ?_⟩⟩
    rintro ⟨v, hv, -⟩
    exact nomatch (hR v).mpr hv
  | ok v =>
    have hv : R v := (hR v).mp rfl
    obtain ⟨r', hr', hS⟩ := hf v hv
    refine ⟨r', hrun.trans hr', fun w => ?_⟩
    rw [hS w]
    constructor
    · intro hw
      exact ⟨v, hv, hw⟩
    · rintro ⟨v', hv', hw⟩
      cases (hR v').mpr hv'
      exact hw

theorem decides_test {k : PUnit → Audit α} (hk : ¬ p → (k ⟨⟩).Decides R) :
    (if p then throw e >>= k else k ⟨⟩).Decides fun v => ¬ p ∧ R v := by
  split
  · next h => exact decides_throw fun _ hn => hn.1 h
  · next h => exact (hk h).congr fun _ => ⟨fun hv => ⟨h, hv⟩, And.right⟩

end Audit

namespace Arena

/-- A region that starts with the prologue and holds whole blocks above it. A host's memory starts at a
multiple of 32 that is not 0, so one block more is still in reach of a word. -/
structure Framed (a : Arena) : Prop where
  low : a.low = prologueSize
  whole : (a.top - a.low) % alignment = 0
  room : a.top + minBlock ≤ wordLimit

/-- From `off` on the memory spells the blocks `ts`, and they end at the top. Head and tail of a free
block may differ in `prevUsed`, and in nothing else. -/
structure Tiles (a : Arena) (off : Nat) (ts : Row) : Prop where
  large : ∀ t ∈ ts, minBlock ≤ t.size
  ends : off + span ts = a.top
  heads : ∀ x t, (x, t) ∈ located off ts → Tag.decode (a.mem.word x) = t
  tails : ∀ x t, (x, t) ∈ located off ts → t.used = false →
    (a.mem.word x ^^^ a.mem.word (x + t.size - wordSize)) &&& ~~~Tag.prevUsedBit = 0

/-- What the blocks of a heap promise: every block knows whether the one before it is used, and
no two neighbours are free. -/
structure Walkable (a : Arena) (ts : Row) : Prop where
  tiles : a.Tiles a.low ts
  flagged : Flagged true ts
  apart : ts.IsChain fun t u => t.used = true ∨ u.used = true

/-- Where a block of the smallest size fits, and the memory has the tag of a free block of bucket
`b`. -/
structure Entry (a : Arena) (b : Fin bucketCount) (x : Nat) : Prop where
  aligned : x % wordSize = 0
  low_le : a.low ≤ x
  le_top : x + minBlock ≤ a.top
  free : (Tag.decode (a.mem.word x)).used = false
  bucket : bucketFor (Tag.decode (a.mem.word x)).size = b

/-- What a heap promises that is made of the blocks `ts` and of a free list for each bucket. -/
structure Intact (a : Arena) (bins : Bins) (ts : Row) (lists : Fin bucketCount → List Nat) : Prop
    extends a.Walkable ts where
  rings : ∀ b, a.mem.Ring (sentinel b) (lists b)
  entries : ∀ b, ∀ x ∈ lists b, a.Entry b x
  lengths : ∀ b, (lists b).length = bins.length b
  total : ((List.finRange bucketCount).flatMap lists).length = (sites false a.low ts).length

variable {a : Arena} {b : Fin bucketCount} {off x : Nat} {t : Tag} {ts : Row}

theorem Framed.top_mod (hf : a.Framed) : a.top % alignment = prologueSize % alignment := by
  have hlow := hf.low
  have hwhole := hf.whole
  have hle := a.low_le_top
  rw [prologueSize_eq] at *
  simp only [alignment] at *
  omega

theorem Framed.fits (hf : a.Framed) (hmod : off % alignment = prologueSize % alignment)
    (hlt : off < a.top) : off % wordSize = 0 ∧ off + minBlock ≤ a.top := by
  have htop := hf.top_mod
  rw [prologueSize_eq] at *
  simp only [alignment, minBlock, wordSize] at *
  omega

theorem Framed.top_lt (hf : a.Framed) : a.top < wordLimit := by
  have := hf.room
  simp only [minBlock, wordSize] at this
  omega

theorem Framed.hasWord (hf : a.Framed) (hx : x % wordSize = 0) (hle : x + 3 * wordSize ≤ a.top) {i : Nat}
    (hi : i < 3) : a.HasWord (x + i * wordSize) := by
  refine ⟨?_, ?_, hf.top_lt⟩ <;> simp only [wordSize] at * <;> omega

theorem Framed.tag_eq (hf : a.Framed) (hx : x % wordSize = 0) (hle : x + 3 * wordSize ≤ a.top) :
    a.tag x = .ok (.decode (a.mem.word x)) := by
  have h := hf.hasWord hx hle (i := 0) (by omega)
  rw [Nat.zero_mul, Nat.add_zero] at h
  exact tag_eq_ok h

theorem Framed.ends_eq (hf : a.Framed) (htag : a.tag off = .ok t) (hoff : off % wordSize = 0)
    (hsize : minBlock ≤ t.size ∧ t.size % alignment = 0) (hle : off + t.size ≤ a.top) :
    a.word off = .ok (a.mem.word off) ∧
      a.tailWord off = .ok (a.mem.word (off + t.size - wordSize)) := by
  have hroom := hf.top_lt
  obtain ⟨hhead, htail⟩ := hasWord_ends hoff hsize hle hroom
  have hend : a.blockEnd off = .ok (off + t.size) := by
    rw [blockEnd, blockSize, htag]
    exact plus_eq_ok (by omega)
  refine ⟨word_eq_ok hhead, ?_⟩
  rw [tailWord, hend]
  change (do a.word (← minus (off + t.size) wordSize)) = _
  rw [minus_eq_ok (by simp only [minBlock, wordSize] at *; omega)]
  exact word_eq_ok htail

theorem Framed.links_eq (hf : a.Framed) (hx : x % wordSize = 0) (hle : x + 3 * wordSize ≤ a.top) :
    a.links x = .ok ⟨a.mem.prevLink x, a.mem.nextLink x⟩ := by
  have h := hf.hasWord hx hle (i := 1) (by omega)
  rw [Nat.one_mul] at h
  exact links_eq_ok h (hf.hasWord hx hle (i := 2) (by omega))

theorem Framed.sentinel_links (hf : a.Framed) (b : Fin bucketCount) :
    a.links (sentinel b) = .ok ⟨a.mem.prevLink (sentinel b), a.mem.nextLink (sentinel b)⟩ := by
  apply hf.links_eq
  · simp only [sentinel, sentinelSize, wordSize]
    omega
  · exact (sentinel_le b).trans (hf.low ▸ a.low_le_top)

theorem Framed.sentinel_lt (hf : a.Framed) (b : Fin bucketCount) : sentinel b < a.low := by
  have := sentinel_le b
  rw [hf.low]
  simp only [wordSize] at this
  omega

theorem Framed.sentinel_not_entry (hf : a.Framed) (b : Fin bucketCount) : ¬ a.Entry b (sentinel b) :=
  fun he => absurd he.low_le (Nat.not_le.mpr (hf.sentinel_lt b))

theorem tiles_nil : a.Tiles off [] ↔ off = a.top := by
  constructor
  · exact fun h => h.ends
  · exact fun h => ⟨nofun, h, (fun _ _ h => nomatch h), (fun _ _ h => nomatch h)⟩

theorem tiles_cons : a.Tiles off (t :: ts) ↔
    (minBlock ≤ t.size ∧ t.size % alignment = 0) ∧ Tag.decode (a.mem.word off) = t ∧
    (t.used = false →
      (a.mem.word off ^^^ a.mem.word (off + t.size - wordSize)) &&& ~~~Tag.prevUsedBit = 0) ∧
    a.Tiles (off + t.size) ts := by
  constructor
  · intro h
    obtain ⟨hsize, hlarge⟩ := List.forall_mem_cons.mp h.large
    have hhead : Tag.decode (a.mem.word off) = t := h.heads off t (by simp [located])
    have hmod : t.size % alignment = 0 := hhead ▸ Tag.decode_size_mod _
    refine ⟨⟨hsize, hmod⟩, hhead, h.tails off t (by simp [located]), hlarge, ?_, ?_, ?_⟩
    · rw [← h.ends, span_cons, Nat.add_assoc]
    · exact fun x u hu => h.heads x u (List.mem_cons_of_mem _ hu)
    · exact fun x u hu => h.tails x u (List.mem_cons_of_mem _ hu)
  · rintro ⟨hsize, hhead, htail, h⟩
    refine ⟨List.forall_mem_cons.mpr ⟨hsize.1, h.large⟩, ?_, ?_, ?_⟩
    · rw [← h.ends, span_cons, Nat.add_assoc]
    · intro x u hu
      rcases List.mem_cons.mp hu with hu | hu
      · cases hu
        exact hhead
      · exact h.heads x u hu
    · intro x u hu
      rcases List.mem_cons.mp hu with hu | hu
      · cases hu
        exact htail
      · exact h.tails x u hu

theorem Tiles.sized (h : a.Tiles off ts) : Sized ts := by
  induction ts generalizing off with
  | nil => exact sized_nil
  | cons t ts ih =>
    obtain ⟨hsize, -, -, hrest⟩ := tiles_cons.mp h
    exact sized_cons.mpr ⟨hsize, ih hrest⟩

theorem Tiles.exists_cons (h : a.Tiles off ts) (hlt : off < a.top) :
    ∃ us, ts = Tag.decode (a.mem.word off) :: us := by
  cases ts with
  | nil => exact absurd (tiles_nil.mp h) (Nat.ne_of_lt hlt)
  | cons t ts => exact ⟨ts, by rw [(tiles_cons.mp h).2.1]⟩

end Arena

namespace Audit

open Heap (audit_bind_lift)

variable {a : Arena} {bins : Bins} {b : Fin bucketCount} {bs : List (Fin bucketCount)}
  {off prev free walked room x : Nat} {p : Bool} {v : Nat × Nat}

/-- What a walk from `off` that met `free` free blocks decides: the rest of the row is as it has to
be, and `n` free blocks are met in all. -/
def Walked (a : Arena) (off : Nat) (p : Bool) (free n : Nat) : Prop :=
  ∃ ts, a.Tiles off ts ∧ Flagged p ts ∧ Merged ts ∧ n = free + (sites false off ts).length

theorem walked_top {n : Nat} (h : off = a.top) : Walked a off p free n ↔ n = free := by
  constructor
  · rintro ⟨ts, ht, -, -, rfl⟩
    cases ts with
    | nil => rfl
    | cons t ts =>
      have hz := (Arena.tiles_cons.mp ht).1.1
      have he := ht.ends
      rw [span_cons] at he
      simp only [minBlock, wordSize] at hz
      omega
  · rintro rfl
    exact ⟨[], Arena.tiles_nil.mpr h, trivial, by simp [Merged], rfl⟩

theorem walked_below {t : Tag} (hlt : off < a.top) (ht : Tag.decode (a.mem.word off) = t) (p : Bool)
    (free n : Nat) :
    Walked a off p free n ↔
      (minBlock ≤ t.size ∧ t.size % alignment = 0) ∧ t.size ≤ a.top - off ∧ t.prevUsed = p ∧
      (t.used = false → p = true ∧
        (a.mem.word off ^^^ a.mem.word (off + t.size - wordSize)) &&& ~~~Tag.prevUsedBit = 0) ∧
      Walked a (off + t.size) t.used (if t.used then free else free + 1) n := by
  have hcount (ts : Row) : free + (sites false off (t :: ts)).length =
      (if t.used then free else free + 1) + (sites false (off + t.size) ts).length := by
    rw [sites_cons]
    cases t.used with
    | true => simp
    | false => simp only [Bool.false_eq_true, if_true, if_false, List.length_cons]; omega
  constructor
  · rintro ⟨_, htiles, hflag, hmerged, rfl⟩
    obtain ⟨ts, rfl⟩ := htiles.exists_cons hlt
    rw [ht] at *
    obtain ⟨hsize, -, htail, hrest⟩ := Arena.tiles_cons.mp htiles
    obtain ⟨hm, hms⟩ := merged_cons.mp hmerged
    have hend := hrest.ends
    refine ⟨hsize, by omega, hflag.1, fun hu => ⟨?_, htail hu⟩, ts, hrest, hflag.2, hms, hcount ts⟩
    rw [← hflag.1]
    exact hm.resolve_left (by simp [hu])
  · rintro ⟨hsize, -, hp, htail, ts, hrest, hflag, hms, rfl⟩
    refine ⟨t :: ts, Arena.tiles_cons.mpr ⟨hsize, ht, fun hu => (htail hu).2, hrest⟩, ⟨hp, hflag⟩,
      merged_cons.mpr ⟨?_, hms⟩, (hcount ts).symm⟩
    cases hu : t.used with
    | true => exact .inl rfl
    | false => exact .inr (hp.trans (htail hu).1)

theorem walk_decides (hf : a.Framed) (hle : off ≤ a.top)
    (hmod : off % alignment = prologueSize % alignment) (prev : Nat) (p : Bool) (free : Nat) :
    (walk a off prev p free).Decides (Walked a off p free) := by
  -- The tests come one after the other, and each rules out every row that fails it.
  induction hn : a.top - off using Nat.strong_induction_on generalizing off prev p free with
  | _ n ih =>
    rw [walk]
    by_cases hlt : off < a.top
    swap
    · rw [dif_neg hlt, if_neg (by omega)]
      exact (decides_pure free).congr fun n => (walked_top (by omega)).symm
    obtain ⟨hword, hfit⟩ := hf.fits hmod hlt
    generalize ht : Tag.decode (a.mem.word off) = t
    have hbelow := walked_below hlt ht p free
    have htag : a.tag off = .ok t := by
      rw [hf.tag_eq hword (by simp only [minBlock, wordSize] at *; omega), ht]
    rw [dif_pos hlt, audit_bind_lift _ htag]
    by_cases hs : t.size < minBlock ∨ t.size % alignment ≠ 0
    · rw [dif_pos hs]
      exact decides_throw fun n hn => by have := ((hbelow n).mp hn).1; omega
    rw [dif_neg hs]
    by_cases hlong : a.top - off < t.size
    · rw [if_pos hlong]
      exact decides_throw fun n hn => by have := ((hbelow n).mp hn).2.1; omega
    rw [if_neg hlong]
    by_cases hp : t.prevUsed = p
    swap
    · rw [if_pos hp]
      exact decides_throw fun n hn => hp ((hbelow n).mp hn).2.2.1
    rw [if_neg (not_not.mpr hp)]
    have hsize : minBlock ≤ t.size ∧ t.size % alignment = 0 := by omega
    have hnext (free' : Nat) : (walk a (off + t.size) off t.used free').Decides
        (Walked a (off + t.size) t.used free') := by
      refine ih (a.top - (off + t.size)) ?_ (by omega) ?_ _ _ _ rfl
      · simp only [minBlock, wordSize] at hsize
        omega
      · rw [Nat.add_mod, hsize.2, Nat.add_zero, Nat.mod_mod, hmod]
    cases hu : t.used with
    | true =>
      rw [if_pos rfl]
      rw [hu] at hnext
      refine (hnext free).congr fun n => ?_
      rw [hbelow, hu]
      simp [hsize, hp, Nat.not_lt.mp hlong]
    | false =>
      obtain ⟨hhead, htail⟩ := hf.ends_eq htag hword hsize (by omega)
      rw [if_neg (by simp), audit_bind_lift _ hhead, audit_bind_lift _ htail]
      by_cases hx : (a.mem.word off ^^^ a.mem.word (off + t.size - wordSize)) &&& ~~~Tag.prevUsedBit ≠ 0
      · rw [if_pos hx]
        exact decides_throw fun n hn => hx (((hbelow n).mp hn).2.2.2.1 hu).2
      rw [if_neg hx]
      cases p with
      | false =>
        rw [if_pos (by simp)]
        exact decides_throw fun n hn => Bool.false_ne_true (((hbelow n).mp hn).2.2.2.1 hu).1
      | true =>
        rw [if_neg (by simp)]
        rw [hu] at hnext
        refine (hnext (free + 1)).congr fun n => ?_
        rw [hbelow, hu]
        simp [hsize, hp, Nat.not_lt.mp hlong, not_not.mp hx]

theorem checkPlace_decides (hf : a.Framed) (b : Fin bucketCount) (x : Nat) :
    (checkPlace a b x).Decides fun _ => x % wordSize = 0 ∧ a.low ≤ x ∧ x + minBlock ≤ a.top := by
  rw [checkPlace]
  by_cases hin : (a.contains x && x % wordSize == 0) = true
  · have hx := hin
    simp only [Arena.contains, Bool.and_eq_true, decide_eq_true_eq, beq_iff_eq] at hx
    have hroom := hf.room
    rw [if_pos hin, audit_bind_lift _ (plus_eq_ok (by omega))]
    split
    · next hle => exact (decides_pure _).congr fun _ => ⟨fun _ => ⟨hx.2, hx.1.1, hle⟩, fun _ => rfl⟩
    · next hle => exact decides_throw fun _ h => hle h.2.2
  · rw [if_neg hin]
    refine decides_throw fun _ h => hin ?_
    simp only [Arena.contains, Bool.and_eq_true, decide_eq_true_eq, beq_iff_eq]
    simp only [minBlock, wordSize] at *
    omega

theorem checkEntry_decides (hf : a.Framed) (b : Fin bucketCount) (prev x : Nat) :
    (checkEntry a b prev x).Decides fun next =>
      a.Entry b x ∧ a.mem.prevLink x = prev ∧ next = a.mem.nextLink x := by
  rw [checkEntry]
  refine ((checkPlace_decides hf b x).bind (S := fun _ next => ¬ a.mem.prevLink x ≠ prev ∧
    ¬ (Tag.decode (a.mem.word x)).used = true ∧ ¬ bucketFor (Tag.decode (a.mem.word x)).size ≠ b ∧
    next = a.mem.nextLink x) fun _ h => ?_).congr fun next => ?_
  · have hle : x + 3 * wordSize ≤ a.top := by
      simp only [minBlock, wordSize] at *
      omega
    rw [audit_bind_lift _ (hf.links_eq h.1 hle), audit_bind_lift _ (hf.tag_eq h.1 hle)]
    exact decides_test fun _ => decides_test fun _ => decides_test fun _ => decides_pure _
  · simp only [not_not, Bool.not_eq_true]
    constructor
    · rintro ⟨-, ⟨hx, hlow, htop⟩, hprev, hfree, hbucket, hnext⟩
      exact ⟨⟨hx, hlow, htop, hfree, hbucket⟩, hprev, hnext⟩
    · rintro ⟨he, hprev, hnext⟩
      exact ⟨⟨⟩, ⟨he.aligned, he.low_le, he.le_top⟩, hprev, he.free, he.bucket, hnext⟩

/-- What a walk along the list of bucket `b` from behind `prev` decides: over entries that are linked
both ways it comes back to the sentinel, with the last of them and the room that is left. -/
def Followed (a : Arena) (b : Fin bucketCount) (prev room : Nat) (v : Nat × Nat) : Prop :=
  ∃ l, a.mem.Linked (prev :: l) ∧ a.mem.nextLink (l.getLastD prev) = sentinel b ∧
    (∀ x ∈ l, a.Entry b x) ∧ v.1 = l.getLastD prev ∧ v.2 + l.length = room

theorem followed_end (hf : a.Framed) (h : a.mem.nextLink prev = sentinel b) :
    Followed a b prev room v ↔ v = (prev, room) := by
  constructor
  · rintro ⟨l, hl, -, he, hlast, hroom⟩
    cases l with
    | nil => exact Prod.ext hlast hroom
    | cons x l =>
      have hx : x = sentinel b := hl.1.symm.trans h
      exact absurd (hx ▸ he x (by simp)) (hf.sentinel_not_entry b)
  · rintro rfl
    exact ⟨[], trivial, h, by simp, rfl, rfl⟩

theorem followed_step (h : a.mem.nextLink prev ≠ sentinel b) :
    Followed a b prev room v ↔ ∃ r, room = r + 1 ∧ a.Entry b (a.mem.nextLink prev) ∧
      a.mem.prevLink (a.mem.nextLink prev) = prev ∧ Followed a b (a.mem.nextLink prev) r v := by
  constructor
  · rintro ⟨l, hl, hend, he, hlast, hroom⟩
    cases l with
    | nil => exact absurd hend h
    | cons x l =>
      obtain ⟨rfl, hprev, hrest⟩ := hl
      rw [List.getLastD_cons] at hend hlast
      rw [List.length_cons] at hroom
      refine ⟨v.2 + l.length, by omega, he _ (by simp), hprev, l, hrest, hend, ?_, hlast, rfl⟩
      exact fun y hy => he y (List.mem_cons_of_mem _ hy)
  · rintro ⟨r, rfl, hx, hprev, l, hrest, hend, he, hlast, rfl⟩
    refine ⟨a.mem.nextLink prev :: l, ⟨rfl, hprev, hrest⟩, ?_, List.forall_mem_cons.mpr ⟨hx, he⟩, ?_, rfl⟩
    · rwa [List.getLastD_cons]
    · rwa [List.getLastD_cons]

theorem followList_decides (hf : a.Framed) (b : Fin bucketCount) (walked prev room : Nat) :
    (followList a b walked prev (a.mem.nextLink prev) room).Decides (Followed a b prev room) := by
  -- The room is what the list can still have: it goes down with every entry.
  induction room generalizing prev with
  | zero =>
    rw [followList]
    split
    · next h => exact (decides_pure _).congr fun v => (followed_end hf h).symm
    · next h =>
      refine ((checkPlace_decides hf b _).bind (S := fun _ _ => False) fun _ _ =>
        decides_throw fun _ => id).congr fun v => ?_
      rw [followed_step h]
      simp
  | succ room ih =>
    rw [followList]
    split
    · next h => exact (decides_pure _).congr fun v => (followed_end hf h).symm
    · next h =>
      refine ((checkEntry_decides hf b prev _).bind
        (S := fun _ => Followed a b (a.mem.nextLink prev) room) ?_).congr fun v => ?_
      · rintro _ ⟨-, -, rfl⟩
        exact ih _
      · rw [followed_step h]
        constructor
        · rintro ⟨_, ⟨he, hprev, rfl⟩, hrest⟩
          exact ⟨room, rfl, he, hprev, hrest⟩
        · rintro ⟨_, hroom, he, hprev, hrest⟩
          cases hroom
          exact ⟨_, ⟨he, hprev, rfl⟩, hrest⟩

structure Listed (bins : Bins) (a : Arena) (b : Fin bucketCount) (l : List Nat) : Prop where
  ring : a.mem.Ring (sentinel b) l
  entries : ∀ x ∈ l, a.Entry b x
  length : l.length = bins.length b

theorem checkList_decides (hf : a.Framed) (bins : Bins) (walked room : Nat) (b : Fin bucketCount) :
    (checkList bins a walked room b).Decides fun rest =>
      (∃ l, Listed bins a b l) ∧ rest + bins.length b = room := by
  have hlinks := hf.sentinel_links b
  rw [checkList, audit_bind_lift _ hlinks]
  refine ((followList_decides hf b walked (sentinel b) room).bind (S := fun v rest =>
    ¬ a.mem.prevLink (sentinel b) ≠ v.1 ∧ ¬ room - v.2 ≠ bins.length b ∧ rest = v.2) ?_).congr
      fun rest => ?_
  · rintro ⟨last, rest⟩ -
    dsimp only
    rw [audit_bind_lift _ hlinks]
    exact decides_test fun _ => decides_test fun _ => decides_pure _
  · simp only [not_not]
    constructor
    · rintro ⟨v, ⟨l, hl, hend, he, hlast, hroom⟩, hprev, hlen, rfl⟩
      exact ⟨⟨l, linked_concat.mpr ⟨hl, hend, hprev.trans hlast⟩, he, by omega⟩, by omega⟩
    · rintro ⟨⟨l, hring, he, hlen⟩, hroom⟩
      obtain ⟨hl, hend, hprev⟩ := linked_concat.mp hring
      exact ⟨(l.getLastD (sentinel b), rest), ⟨l, hl, hend, he, rfl, by omega⟩, hprev, by omega, rfl⟩

theorem checkEach_decides (hf : a.Framed) (bins : Bins) (walked room : Nat) (bs : List (Fin bucketCount)) :
    (bs.foldlM (checkList bins a walked) room).Decides fun rest =>
      (∀ b ∈ bs, ∃ l, Listed bins a b l) ∧ rest + (bs.map bins.length).sum = room := by
  induction bs generalizing room with
  | nil => exact (decides_pure _).congr fun rest => by simp
  | cons b bs ih =>
    rw [List.foldlM_cons]
    refine ((checkList_decides hf bins walked room b).bind fun rest _ => ih rest).congr fun rest => ?_
    rw [List.forall_mem_cons, List.map_cons, List.sum_cons]
    constructor
    · rintro ⟨n, ⟨hl, hn⟩, hls, hrest⟩
      exact ⟨⟨hl, hls⟩, by omega⟩
    · rintro ⟨⟨hl, hls⟩, hrest⟩
      exact ⟨rest + (bs.map bins.length).sum, ⟨hl, by omega⟩, hls, rfl⟩

theorem checkLists_decides (hf : a.Framed) (bins : Bins) (walked : Nat) :
    (checkLists bins a walked).Decides fun _ =>
      (∀ b, ∃ l, Listed bins a b l) ∧ ((List.finRange bucketCount).map bins.length).sum = walked := by
  rw [checkLists]
  refine ((checkEach_decides hf bins walked walked _).bind (S := fun rest _ => ¬ rest ≠ 0 ∧ True)
    fun rest _ => decides_test fun _ => (decides_pure _).congr fun _ => by simp).congr fun _ => ?_
  simp only [List.mem_finRange, true_imp_iff, not_not, and_true]
  constructor
  · rintro ⟨_, ⟨hl, hsum⟩, rfl⟩
    exact ⟨hl, by omega⟩
  · rintro ⟨hl, hsum⟩
    exact ⟨0, ⟨hl, by omega⟩, rfl⟩

/-- A check of a region meets no fault, and it passes exactly on a heap that keeps its promises. -/
theorem check_decides (hf : a.Framed) (bins : Bins) :
    (check bins a).Decides fun _ => ∃ ts lists, a.Intact bins ts lists := by
  have hwalk := walk_decides hf a.low_le_top (by rw [hf.low]) a.low true 0
  refine (hwalk.bind fun walked _ => checkLists_decides hf bins walked).congr fun _ => ?_
  constructor
  · rintro ⟨_, ⟨ts, htiles, hflag, hmerged, rfl⟩, hl, hsum⟩
    choose lists hlists using hl
    refine ⟨ts, lists, ⟨htiles, hflag, hmerged.isChain hflag⟩, fun b => (hlists b).ring,
      fun b => (hlists b).entries, fun b => (hlists b).length, ?_⟩
    rw [List.length_flatMap, ← Nat.zero_add (List.length _), ← hsum]
    exact congrArg List.sum (List.map_congr_left fun b _ => (hlists b).length)
  · rintro ⟨ts, lists, h⟩
    refine ⟨_, ⟨ts, h.tiles, h.flagged, merged_of_isChain h.flagged h.apart (.inl rfl), rfl⟩,
      fun b => ⟨lists b, h.rings b, h.entries b, h.lengths b⟩, ?_⟩
    rw [Nat.zero_add, ← h.total, List.length_flatMap]
    exact congrArg List.sum (List.map_congr_left fun b _ => (h.lengths b).symm)

end Audit

end SegregatedFit
