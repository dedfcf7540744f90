import Mathlib
import SegregatedFit.Proofs.Intact

/-!
How far the heap check follows links. The check is run once more with a trail of the nodes that it
reads the next link of; without the trail it is the check. A list is left as soon as it shows more
entries than there are free blocks still to be listed, so links that run in a circle, into
another bucket or into payloads are not followed for long.
-/
namespace SegregatedFit

open Row Memory

/-- An audit with its trail: the nodes whose next link it read, each with the bucket that it
read it for. -/
structure Trailed (α : Type) where
  outcome : Audit α
  trail : List (Fin bucketCount × Nat)

namespace Trailed

variable {α β : Type}

def bind (x : Trailed α) (f : α → Trailed β) : Trailed β :=
  match x.outcome.run with
  | .ok (.ok v) => ⟨(f v).outcome, x.trail ++ (f v).trail⟩
  | .ok (.error e) => ⟨throw e, x.trail⟩
  | .error e => ⟨liftM (Except.error e : Except Fault β), x.trail⟩

instance : Monad Trailed where
  pure v := ⟨pure v, []⟩
  bind := bind

def audit (x : Audit α) : Trailed α := ⟨x, []⟩

def note (b : Fin bucketCount) (x : Nat) : Trailed Unit := ⟨pure (), [(b, x)]⟩

/-- `Audit.followList` with its trail: every entry that is still in the room. -/
def followList (a : Arena) (b : Fin bucketCount) (walked prev current : Nat) :
    (room : Nat) → Trailed (Nat × Nat)
  | 0 =>
    if current = sentinel b then return (prev, 0)
    else do
      audit (Audit.checkPlace a b current)
      audit (throw (.freeCountMismatch (walked + 1) walked))
  | room + 1 =>
    if current = sentinel b then return (prev, room + 1)
    else do
      note b current
      let next ← audit (Audit.checkEntry a b prev current)
      followList a b walked current next room

def checkList (bins : Bins) (a : Arena) (walked room : Nat) (b : Fin bucketCount) : Trailed Nat := do
  let s := sentinel b
  note b s
  let l ← audit (liftM (a.links s))
  let (last, rest) ← followList a b walked s l.next room
  let l ← audit (liftM (a.links s))
  if l.prev ≠ last then audit (throw (.brokenLink b s))
  if room - rest ≠ bins.length b then audit (throw (.lengthMismatch b (bins.length b) (room - rest)))
  return rest

def checkLists (bins : Bins) (a : Arena) (walked : Nat) : Trailed Unit := do
  let room ← (List.finRange bucketCount).foldlM (checkList bins a walked) walked
  if room ≠ 0 then audit (throw (.freeCountMismatch (walked - room) walked))

def check (bins : Bins) (a : Arena) : Trailed Unit := do
  checkLists bins a (← audit (Audit.walk a a.low a.low true 0))

variable {x : Trailed α} {f : α → Trailed β} {v : α} {c : Prop} [Decidable c]

theorem bind_eq (x : Trailed α) (f : α → Trailed β) : x >>= f = x.bind f := rfl

@[simp] theorem outcome_pure (v : α) : (pure v : Trailed α).outcome = pure v := rfl

@[simp] theorem outcome_audit (x : Audit α) : (audit x).outcome = x := rfl

@[simp] theorem outcome_note (b : Fin bucketCount) (x : Nat) : (note b x).outcome = pure () := rfl

@[simp] theorem outcome_ite (x y : Trailed α) :
    (if c then x else y).outcome = if c then x.outcome else y.outcome := apply_ite ..

@[simp] theorem outcome_bind (x : Trailed α) (f : α → Trailed β) :
    (x >>= f).outcome = x.outcome >>= fun v => (f v).outcome := by
  have hrun : (x.outcome >>= fun v => (f v).outcome).run =
      x.outcome.run >>= ExceptT.bindCont fun v => (f v).outcome := rfl
  rw [bind_eq, bind]
  apply ExceptT.ext
  rw [hrun]
  cases x.outcome.run with
  | error e => rfl
  | ok r => cases r <;> rfl

variable {a : Arena} {bins : Bins} {b : Fin bucketCount} {prev current walked room : Nat}

theorem outcome_followList : (followList a b walked prev current room).outcome =
    Audit.followList a b walked prev current room := by
  induction room generalizing prev current with
  | zero => simp [followList, Audit.followList]
  | succ room ih => simp [followList, Audit.followList, ih]

theorem outcome_checkList :
    (checkList bins a walked room b).outcome = Audit.checkList bins a walked room b := by
  simp [checkList, Audit.checkList, outcome_followList]

theorem outcome_checkEach (bs : List (Fin bucketCount)) :
    (bs.foldlM (checkList bins a walked) room).outcome =
      bs.foldlM (Audit.checkList bins a walked) room := by
  induction bs generalizing room with
  | nil => rfl
  | cons b bs ih => simp [List.foldlM_cons, outcome_checkList, ih]

theorem outcome_check : (check bins a).outcome = Audit.check bins a := by
  simp [check, checkLists, Audit.check, Audit.checkLists, outcome_checkEach]

variable {p : Fin bucketCount → Bool} {n : Nat} {left : α → Nat} {left' : β → Nat}

theorem bind_of_ok (h : x.outcome = pure v) :
    x >>= f = ⟨(f v).outcome, x.trail ++ (f v).trail⟩ := by
  have hrun : x.outcome.run = .ok (.ok v) := h
  rw [bind_eq, bind, hrun]

theorem bind_of_not_ok (h : ∀ v, x.outcome ≠ pure v) :
    (x >>= f).trail = x.trail ∧ ∀ w, (x >>= f).outcome ≠ pure w := by
  rw [bind_eq, bind]
  cases hr : x.outcome.run with
  | error e => exact ⟨rfl, fun w => nofun⟩
  | ok r =>
    cases r with
    | error e => exact ⟨rfl, fun w => nofun⟩
    | ok v => exact absurd hr (h v)

/-- The trail in the buckets of `p` is at most `n` long, and where there is an answer `v` it leaves
`left v` of them. -/
def Within (x : Trailed α) (p : Fin bucketCount → Bool) (n : Nat) (left : α → Nat) : Prop :=
  x.trail.countP (p ·.1) ≤ n ∧ ∀ v, x.outcome = pure v → x.trail.countP (p ·.1) + left v ≤ n

theorem within_pure (h : left v ≤ n) : (pure v : Trailed α).Within p n left := by
  refine ⟨Nat.zero_le n, fun w hw => ?_⟩
  have hv : (Except.ok (Except.ok v) : Except Fault (Except Corruption α)) = .ok (.ok w) := hw
  cases hv
  exact (Nat.zero_add _).trans_le h

theorem within_audit (x : Audit α) : (audit x).Within p n fun _ => n :=
  ⟨Nat.zero_le n, fun _ _ => (Nat.zero_add n).le⟩

theorem within_note (b : Fin bucketCount) (x : Nat) :
    (note b x).Within p (n + if p b then 1 else 0) fun _ => n := by
  have hcount : (note b x).trail.countP (p ·.1) = if p b then 1 else 0 := List.countP_singleton
  refine ⟨?_, fun _ _ => ?_⟩
  · rw [hcount]
    exact Nat.le_add_left _ _
  · rw [hcount, Nat.add_comm]

theorem Within.bind (hx : x.Within p n left) (hf : ∀ v, (f v).Within p (left v) left') :
    (x >>= f).Within p n left' := by
  by_cases h : ∃ v, x.outcome = pure v
  · obtain ⟨v, hv⟩ := h
    have hroom := hx.2 v hv
    have hlen := (hf v).1
    rw [bind_of_ok hv]
    refine ⟨?_, fun w hw => ?_⟩
    · rw [List.countP_append]
      omega
    · have := (hf v).2 w hw
      rw [List.countP_append]
      omega
  · have hnot := bind_of_not_ok (f := f) (not_exists.mp h)
    exact ⟨hnot.1 ▸ hx.1, fun w hw => absurd hw (hnot.2 w)⟩

theorem Within.add (hx : x.Within p n left) (k : Nat) : x.Within p (n + k) fun v => left v + k := by
  refine ⟨hx.1.trans (Nat.le_add_right n k), fun v hv => ?_⟩
  rw [← Nat.add_assoc]
  exact Nat.add_le_add_right (hx.2 v hv) k

theorem Within.mono {left₁ left₂ : α → Nat} {m : Nat} (hx : x.Within p n left₁) (hn : n ≤ m)
    (hl : ∀ v, left₂ v ≤ left₁ v) : x.Within p m left₂ := by
  refine ⟨hx.1.trans hn, fun v hv => ?_⟩
  have := hx.2 v hv
  have := hl v
  omega

theorem within_test {x : Audit α} {k : α → Trailed β} {y : Trailed β} (hk : ∀ v, (k v).Within p n left')
    (hy : y.Within p n left') : (if c then audit x >>= k else y).Within p n left' := by
  split
  · exact (within_audit x).bind hk
  · exact hy

theorem within_followList (p : Fin bucketCount → Bool) (a : Arena) (b : Fin bucketCount)
    (walked prev current room : Nat) :
    (followList a b walked prev current room).Within p room Prod.snd := by
  -- Each entry noted takes one from the room, so the room bounds what is noted.
  induction room generalizing prev current with
  | zero =>
    rw [followList]
    split
    · exact within_pure (Nat.le_refl 0)
    · exact (within_audit _).bind fun _ => ⟨Nat.zero_le 0, fun _ h => nomatch h⟩
  | succ room ih =>
    rw [followList]
    split
    · exact within_pure (Nat.le_refl _)
    · have hnote : (note b current).Within p (room + 1) fun _ => room :=
        (within_note b current).mono (by split <;> omega) fun _ => Nat.le_refl room
      exact hnote.bind fun _ => (within_audit _).bind fun next => ih current next

theorem within_checkList (p : Fin bucketCount → Bool) (bins : Bins) (a : Arena) (walked room : Nat)
    (b : Fin bucketCount) :
    (checkList bins a walked room b).Within p (room + if p b then 1 else 0) id := by
  have hend (last rest : Nat) : Within (do
      let l ← audit (liftM (a.links (sentinel b)))
      if l.prev ≠ last then audit (throw (.brokenLink b (sentinel b)))
      if room - rest ≠ bins.length b then
        audit (throw (.lengthMismatch b (bins.length b) (room - rest)))
      return rest) p rest id := by
    refine (within_audit _).bind fun l => ?_
    have hlast : (pure rest : Trailed Nat).Within p rest id := within_pure (Nat.le_refl rest)
    have hlen := within_test (c := room - rest ≠ bins.length b)
      (x := throw (.lengthMismatch b (bins.length b) (room - rest))) (fun _ : PUnit => hlast) hlast
    exact within_test (fun _ => hlen) hlen
  rw [checkList]
  exact (within_note b _).bind fun _ => (within_audit _).bind fun l =>
    (within_followList p a b walked _ l.next room).bind fun v => hend v.1 v.2

theorem within_checkEach (p : Fin bucketCount → Bool) (bins : Bins) (a : Arena) (walked room : Nat)
    (bs : List (Fin bucketCount)) :
    (bs.foldlM (checkList bins a walked) room).Within p (room + bs.countP p) id := by
  induction bs generalizing room with
  | nil => exact within_pure (Nat.le_refl room)
  | cons b bs ih =>
    rw [List.foldlM_cons, List.countP_cons, Nat.add_comm (bs.countP p), ← Nat.add_assoc]
    exact ((within_checkList p bins a walked room b).add _).bind ih

theorem within_checkLists (p : Fin bucketCount → Bool) (bins : Bins) (a : Arena) (walked : Nat) :
    (checkLists bins a walked).Within p (walked + (List.finRange bucketCount).countP p) fun _ => 0 := by
  refine (within_checkEach p bins a walked walked _).bind fun room => ?_
  have hdone : (pure () : Trailed Unit).Within p (id room) fun _ => 0 := within_pure (Nat.zero_le room)
  split
  · exact (within_audit _).mono (Nat.le_refl _) fun _ => Nat.zero_le _
  · exact hdone

end Trailed

namespace Arena

variable {a : Arena} {ts : Row}

theorem Walkable.length_free_le (h : a.Walkable ts) :
    (sites false a.low ts).length * minBlock ≤ a.size := by
  have hspan := h.tiles.sized.length_le
  have hends := h.tiles.ends
  have hfree := Nat.mul_le_mul_right minBlock (length_sites_le false a.low ts)
  rw [size]
  omega

/-- Whatever the memory of a region holds and whatever lengths are recorded, a heap check ends without
a fault, and it passes exactly where the blocks and the lists keep their promises. It reads the next
link of one node more in each bucket, its sentinel, than there are free blocks. -/
theorem Framed.check_exact (hf : a.Framed) (bins : Bins) :
    ∃ r : Except Corruption Unit, (Audit.check bins a).run = .ok r ∧
      (r = .ok () ↔ ∃ ts lists, a.Intact bins ts lists) ∧
      (Trailed.check bins a).outcome = Audit.check bins a ∧
      ((Trailed.check bins a).trail = [] ∨ ∃ ts, a.Walkable ts ∧
        (∀ b, (Trailed.check bins a).trail.countP (·.1 = b) ≤ (sites false a.low ts).length + 1) ∧
        (Trailed.check bins a).trail.length ≤ (sites false a.low ts).length + bucketCount ∧
        (sites false a.low ts).length * minBlock ≤ a.size) := by
  obtain ⟨r, hr, hiff⟩ := Audit.check_decides hf bins
  refine ⟨r, hr, hiff (), Trailed.outcome_check, ?_⟩
  have hwalk := Audit.walk_decides hf a.low_le_top (by rw [hf.low]) a.low true 0
  obtain ⟨w, hw, hwalked⟩ := hwalk
  cases w with
  | error e =>
    left
    rw [Trailed.check, Trailed.bind_eq, Trailed.bind, Trailed.outcome_audit, hw]
    rfl
  | ok walked =>
    right
    obtain ⟨ts, htiles, hflag, hmerged, hcount⟩ := (hwalked walked).mp rfl
    have hts : a.Walkable ts := ⟨htiles, hflag, hmerged.isChain hflag⟩
    have htrail : (Trailed.check bins a).trail = (Trailed.checkLists bins a walked).trail := by
      rw [Trailed.check, Trailed.bind_of_ok (v := walked) hw]
      rfl
    have hlen (p : Fin bucketCount → Bool) := (Trailed.within_checkLists p bins a walked).1
    rw [htrail, hcount, Nat.zero_add] at *
    refine ⟨ts, hts, fun b => ?_, ?_, hts.length_free_le⟩
    · have hone : (List.finRange bucketCount).countP (· = b) = 1 :=
        List.count_eq_one_of_mem (List.nodup_finRange _) (List.mem_finRange b)
      exact hone ▸ hlen (· = b)
    · have hall := hlen fun _ => true
      simpa using hall

def written (m : Memory) (words : List (Nat × Nat)) : Memory :=
  words.foldl (fun m w => m.setWord w.1 (.ofNat w.2)) m

theorem word_written {m : Memory} {words : List (Nat × Nat)} {i v : Nat}
    (hd : words.Pairwise fun u w => w.1 + 8 ≤ u.1 ∨ u.1 + 8 ≤ w.1) (hw : (i, v) ∈ words) :
    (written m words).word i = .ofNat v := by
  have hkeep (m : Memory) (ws : List (Nat × Nat)) (h : ∀ w ∈ ws, w.1 + 8 ≤ i ∨ i + 8 ≤ w.1) :
      (written m ws).word i = m.word i := by
    induction ws generalizing m with
    | nil => rfl
    | cons w ws ih =>
      rw [List.forall_mem_cons] at h
      rw [written, List.foldl_cons]
      exact (ih _ h.2).trans (word_setWord_of_disjoint m _ h.1.symm)
  induction words generalizing m with
  | nil => cases hw
  | cons w ws ih =>
    rw [List.pairwise_cons] at hd
    rw [written, List.foldl_cons]
    cases List.mem_cons.mp hw with
    | inl he =>
      subst he
      exact (hkeep _ ws hd.1).trans (word_setWord m i _)
    | inr hm => exact ih hd.2 hm

def strayedLists (b : Fin bucketCount) : List Nat := if b = bucketFor 160 then [448] else []

/-- The words of a used block at 440 and of a free one of 160 bytes at 472, and the links of the
lists. The free block is in none of them: what its bucket has is in the payload of the used block. -/
def strayedWords : List (Nat × Nat) :=
  ((List.finRange bucketCount).flatMap fun b =>
    [(sentinel b + wordSize, (strayedLists b).headD (sentinel b)),
      (sentinel b + 2 * wordSize, (strayedLists b).headD (sentinel b))]) ++
  [(440, 32 + 3), (448, 160), (448 + wordSize, sentinel (bucketFor 160)),
    (448 + 2 * wordSize, sentinel (bucketFor 160)), (472, 160 + 2), (624, 160 + 2)]

def strayed : Arena := ⟨written .zero strayedWords, 440, 632, by decide⟩

theorem strayed_word {i v : Nat} (h : (i, v) ∈ strayedWords) : strayed.mem.word i = .ofNat v :=
  word_written (by decide +kernel) h

theorem strayed_link {i v : Nat} (h : (i, v) ∈ strayedWords) (hv : v < wordLimit) :
    (strayed.mem.word i).toNat = v := by
  rw [strayed_word h]
  exact UInt64.toNat_ofNat_of_lt' hv

theorem strayed_ring (b : Fin bucketCount) : strayed.mem.Ring (sentinel b) (strayedLists b) := by
  have hlinks : [(sentinel b + wordSize, (strayedLists b).headD (sentinel b)),
      (sentinel b + 2 * wordSize, (strayedLists b).headD (sentinel b))] ⊆ strayedWords := fun w hw =>
    List.mem_append_left _ (List.mem_flatMap.mpr ⟨b, List.mem_finRange b, hw⟩)
  have hlt : (strayedLists b).headD (sentinel b) < wordLimit := by
    revert b
    decide
  have hprev : strayed.mem.prevLink (sentinel b) = (strayedLists b).headD (sentinel b) :=
    strayed_link (hlinks (List.mem_cons_self ..)) hlt
  have hnext : strayed.mem.nextLink (sentinel b) = (strayedLists b).headD (sentinel b) :=
    strayed_link (hlinks (List.mem_cons_of_mem _ (List.mem_cons_self ..))) hlt
  by_cases hb : b = bucketFor 160
  · subst hb
    have hback : strayed.mem.prevLink 448 = sentinel (bucketFor 160) :=
      strayed_link (by decide +kernel) (by decide)
    have hforth : strayed.mem.nextLink 448 = sentinel (bucketFor 160) :=
      strayed_link (by decide +kernel) (by decide)
    exact ⟨hnext, hback, hforth, hprev, trivial⟩
  · rw [strayedLists, if_neg hb] at *
    exact ⟨hnext, hprev, trivial⟩

theorem strayed_intact : strayed.Intact (Bins.empty.setLength (bucketFor 160) 1)
    [⟨32, true, true⟩, ⟨160, false, true⟩] strayedLists := by
  have hused : strayed.mem.word 440 = 35 := strayed_word (by decide +kernel)
  have hhead : strayed.mem.word 472 = 162 := strayed_word (by decide +kernel)
  have htail : strayed.mem.word 624 = 162 := strayed_word (by decide +kernel)
  have hstray : strayed.mem.word 448 = 160 := strayed_word (by decide +kernel)
  refine ⟨⟨?_, ⟨rfl, rfl, trivial⟩, by simp⟩, strayed_ring, ?_, by decide, by decide⟩
  · refine tiles_cons.mpr ⟨by decide, ?_, nofun, tiles_cons.mpr ⟨by decide, ?_, fun _ => ?_, tiles_nil.mpr rfl⟩⟩
    · change Tag.decode (strayed.mem.word 440) = _
      rw [hused]
      decide
    · change Tag.decode (strayed.mem.word 472) = _
      rw [hhead]
      decide
    · change (strayed.mem.word 472 ^^^ strayed.mem.word 624) &&& _ = _
      rw [hhead, htail]
      decide
  · intro b x hx
    by_cases hb : b = bucketFor 160
    · rw [strayedLists, if_pos hb, List.mem_singleton] at hx
      subst hx
      subst hb
      exact ⟨by decide, by decide, by decide, by rw [hstray]; decide, by rw [hstray]; decide⟩
    · rw [strayedLists, if_neg hb] at hx
      cases hx

theorem strayed_framed : strayed.Framed := ⟨rfl, rfl, by decide⟩

/-- The same heap, but the stray block comes after itself in its list. -/
def circled : Arena := strayed.mapMem (·.setNext 448 448)

theorem circled_framed : circled.Framed := ⟨rfl, rfl, by decide⟩

theorem circled_word {i v : Nat} (hi : i + 8 ≤ 464 ∨ 472 ≤ i) (h : (i, v) ∈ strayedWords) :
    circled.mem.word i = .ofNat v :=
  (word_setWord_of_disjoint _ _ (by simp only [wordSize]; omega)).trans (strayed_word h)

theorem circled_sites {ts : Row} (h : circled.Walkable ts) : sites false circled.low ts = [(472, 160)] := by
  have hused : Tag.decode (circled.mem.word 440) = ⟨32, true, true⟩ := by
    rw [circled_word (.inl (by decide)) (by decide +kernel : (440, 35) ∈ strayedWords)]
    decide
  have hfree : Tag.decode (circled.mem.word 472) = ⟨160, false, true⟩ := by
    rw [circled_word (.inr (by decide)) (by decide +kernel : (472, 162) ∈ strayedWords)]
    decide
  obtain ⟨us, rfl⟩ := h.tiles.exists_cons (by decide : 440 < 632)
  have hus := (tiles_cons.mp h.tiles).2.2.2
  rw [show Tag.decode (circled.mem.word circled.low) = _ from hused] at hus ⊢
  obtain ⟨vs, rfl⟩ := hus.exists_cons (by decide : 440 + 32 < 632)
  have hvs := (tiles_cons.mp hus).2.2.2
  rw [show Tag.decode (circled.mem.word (circled.low + 32)) = _ from hfree] at hvs ⊢
  have hspan : 440 + 32 + 160 + span vs = 632 := hvs.ends
  obtain rfl := hvs.sized.span_eq_zero_iff.mp (by omega)
  rfl

theorem circled_not_ring (l : List Nat) : ¬ circled.mem.Ring (sentinel (bucketFor 160)) l := by
  have hself : circled.mem.nextLink 448 = 448 := nextLink_setNext_self (by decide)
  have hcircle (l : List Nat) : ¬ circled.mem.Linked (448 :: (l ++ [sentinel (bucketFor 160)])) := by
    induction l with
    | nil => exact fun h => absurd (hself.symm.trans h.1) (by decide)
    | cons y l ih =>
      intro h
      obtain rfl : 448 = y := hself.symm.trans h.1
      exact ih h.2.2
  have hfirst : circled.mem.nextLink (sentinel (bucketFor 160)) = 448 :=
    (nextLink_setNext (.inr (by decide)) 448).trans (strayed_ring (bucketFor 160)).1
  intro h
  cases l with
  | nil => exact absurd (hfirst.symm.trans h.1) (by decide)
  | cons y l =>
    obtain rfl : 448 = y := hfirst.symm.trans h.1
    exact hcircle l h.2.2

/-- A heap with an entry in one of its lists passes. Where the entry comes after itself it does not, and the
check has read no more than two links of that list by then. -/
theorem check_exact_strayed :
    (Audit.check (Bins.empty.setLength (bucketFor 160) 1) strayed).run = .ok (.ok ()) ∧
    ∃ r : Except Corruption Unit,
      (Audit.check (Bins.empty.setLength (bucketFor 160) 1) circled).run = .ok r ∧ r ≠ .ok () ∧
      (Trailed.check (Bins.empty.setLength (bucketFor 160) 1) circled).trail.countP
        (·.1 = bucketFor 160) ≤ 2 := by
  constructor
  · obtain ⟨r, hr, hiff, -⟩ := strayed_framed.check_exact (Bins.empty.setLength (bucketFor 160) 1)
    obtain rfl := hiff.mpr ⟨_, _, strayed_intact⟩
    exact hr
  · obtain ⟨r, hr, hiff, -, htrail⟩ := circled_framed.check_exact (Bins.empty.setLength (bucketFor 160) 1)
    refine ⟨r, hr, fun h => ?_, ?_⟩
    · obtain ⟨ts, lists, hi⟩ := hiff.mp h
      exact circled_not_ring _ (hi.rings _)
    · rcases htrail with hnone | ⟨ts, hts, hcount, -⟩
      · rw [hnone]
        exact Nat.zero_le 2
      · have hb := hcount (bucketFor 160)
        rwa [circled_sites hts] at hb

end Arena

end SegregatedFit
