import Mathlib
import SegregatedFit.Proofs.Starting

/-!
The free lists as stacks. Whatever is put in and taken out, and whatever happens to the rest of the
memory meanwhile, the links of each bucket spell the blocks that were put in and are still there, the
one put in last first, and backwards they spell the reverse. Every such step succeeds. It writes links
only, and only in its own bucket, and a block that is put in and taken out again leaves no trace but in
its own links.
-/
namespace SegregatedFit

open Memory

/-- The two blocks, each an offset and a size, share no byte. -/
def Clear (e f : Nat × Nat) : Prop := e.1 + e.2 ≤ f.1 ∨ f.1 + f.2 ≤ e.1

def stack (listed : List (Nat × Nat)) (b : Fin bucketCount) : List Nat :=
  (listed.filter fun e => bucketFor e.2 = b).map Prod.fst

namespace Arena

structure FreeAt (a : Arena) (x n : Nat) : Prop where
  aligned : x % wordSize = 0
  low_le : a.low ≤ x
  le_top : x + n ≤ a.top
  sized : minBlock ≤ n
  head : ∃ p, Tag.decode (a.mem.word x) = ⟨n, false, p⟩
  tail : a.mem.word (x + n - wordSize) = a.mem.word x

/-- The links of the listed blocks and of the sentinels are as before, and the tags of the listed blocks
give the same sizes. All else may have changed, and the top may have moved, but not below a listed
block. -/
structure Spares (a : Arena) (listed : List (Nat × Nat)) (a' : Arena) : Prop where
  low : a'.low = a.low
  room : a'.top < wordLimit
  below : ∀ e ∈ listed, e.1 + e.2 ≤ a'.top
  sizes : ∀ e ∈ listed, a'.mem.tagSize e.1 = a.mem.tagSize e.1
  links (b : Fin bucketCount) : ∀ y ∈ sentinel b :: stack listed b,
    a'.mem.nextLink y = a.mem.nextLink y ∧ a'.mem.prevLink y = a.mem.prevLink y

/-- Nothing has changed but links of the bucket `b`: those of the nodes `touched`. In particular no
block has another tag, whether it is listed or lies apart from the listed ones. -/
structure Relinks (a : Arena) (listed : List (Nat × Nat)) (b : Fin bucketCount) (touched : List Nat)
    (a' : Arena) : Prop where
  low : a'.low = a.low
  top : a'.top = a.top
  own : ∀ y ∈ touched, y ∈ sentinel b :: stack listed b
  bytes : SameOff (LinkBytes touched) a.mem a'.mem
  tags {y n : Nat} : a.low ≤ y → minBlock ≤ n →
    ((y, n) ∈ listed ∨ ∀ e ∈ listed, Clear (y, n) e) →
    a'.mem.word y = a.mem.word y ∧ a'.mem.word (y + n - wordSize) = a.mem.word (y + n - wordSize)
  sentinels (c : Fin bucketCount) : a'.mem.word (sentinel c) = a.mem.word (sentinel c)
  others {c : Fin bucketCount} : c ≠ b → ∀ y ∈ sentinel c :: stack listed c, a'.links y = a.links y

/-- The offsets that links lead to from `x` on, `n` of them. -/
def along (a : Arena) (link : Links → Nat) (x : Nat) : (n : Nat) → Except Fault (List Nat)
  | 0 => return []
  | n + 1 => do
    let y := link (← a.links x)
    return y :: (← a.along link y n)

end Arena

namespace Bins

/-- What may become of lists that start out empty: free blocks that are clear of the listed ones are
put in, listed blocks are taken out, and in between the rest of the heap is used. The listed blocks
come with their sizes, the one put in last first. -/
inductive History : List (Nat × Nat) → Bins → Arena → Prop
  | reset {a a' : Arena} : prologueSize ≤ a.low → a.top < wordLimit → Bins.reset a = .ok a' →
    History [] .empty a'
  | push {listed : List (Nat × Nat)} {bins bins' : Bins} {a a' : Arena} {x n : Nat} :
    History listed bins a → a.FreeAt x n → (∀ e ∈ listed, Clear (x, n) e) →
    bins.push a x = .ok (bins', a') → History ((x, n) :: listed) bins' a'
  | remove {listed : List (Nat × Nat)} {bins bins' : Bins} {a a' : Arena} {x n : Nat} :
    History listed bins a → (x, n) ∈ listed → bins.remove a x = .ok (bins', a') →
    History (listed.erase (x, n)) bins' a'
  | meanwhile {listed : List (Nat × Nat)} {bins : Bins} {a a' : Arena} :
    History listed bins a → a.Spares listed a' → History listed bins a'

/-- The links of each bucket spell its stack, both ways, and its length is counted. -/
structure Spell (bins : Bins) (a : Arena) (listed : List (Nat × Nat)) : Prop where
  next (b : Fin bucketCount) : a.along Links.next (sentinel b) ((stack listed b).length + 1) =
    .ok (stack listed b ++ [sentinel b])
  prev (b : Fin bucketCount) : a.along Links.prev (sentinel b) ((stack listed b).length + 1) =
    .ok ((stack listed b).reverse ++ [sentinel b])
  nodup (b : Fin bucketCount) : (sentinel b :: stack listed b).Nodup
  lengths (b : Fin bucketCount) : bins.length b = (stack listed b).length

end Bins

variable {a a' : Arena} {bins bins' : Bins} {listed : List (Nat × Nat)} {b c : Fin bucketCount}
  {e f : Nat × Nat} {l xs : List Nat} {m : Memory} {n s x y : Nat}

instance : Std.Symm Clear := ⟨fun _ _ h => Or.symm h⟩

theorem mem_stack : x ∈ stack listed b ↔ ∃ n, (x, n) ∈ listed ∧ bucketFor n = b := by
  simp [stack]

theorem stack_cons (x n : Nat) (listed : List (Nat × Nat)) :
    stack ((x, n) :: listed) =
      Function.update (stack listed) (bucketFor n) (x :: stack listed (bucketFor n)) := by
  funext b
  by_cases hb : bucketFor n = b
  · subst hb
    simp [stack]
  · rw [Function.update_of_ne (Ne.symm hb)]
    simp [stack, hb]

theorem stack_erase (hd : (listed.map Prod.fst).Nodup) (hx : (x, n) ∈ listed) :
    stack (listed.erase (x, n)) = fun b => (stack listed b).erase x := by
  funext b
  induction listed with
  | nil => cases hx
  | cons e listed ih =>
    obtain ⟨hnew, hd⟩ := List.nodup_cons.mp hd
    rcases List.mem_cons.mp hx with rfl | hx
    · rw [List.erase_cons_head, stack_cons]
      by_cases hb : b = bucketFor n
      · rw [hb, Function.update_self, List.erase_cons_head]
      · rw [Function.update_of_ne hb, List.erase_of_not_mem]
        intro hxb
        obtain ⟨k, hk, -⟩ := mem_stack.mp hxb
        exact hnew (List.mem_map.mpr ⟨(x, k), hk, rfl⟩)
    · have hne : e.1 ≠ x := fun he => hnew (he ▸ List.mem_map_of_mem hx)
      rw [List.erase_cons_tail (by simpa using fun he : e = (x, n) => hne (congrArg Prod.fst he)),
        stack_cons, stack_cons]
      by_cases hb : b = bucketFor e.2
      · rw [hb, Function.update_self, Function.update_self, List.erase_cons_tail (by simpa using hne),
          ← hb, ih hd hx]
      · rw [Function.update_of_ne hb, Function.update_of_ne hb, ih hd hx]

namespace Arena

structure Lays (a : Arena) (listed : List (Nat × Nat)) : Prop where
  low : prologueSize ≤ a.low
  room : a.top < wordLimit
  block : ∀ e ∈ listed, e.1 % wordSize = 0 ∧ a.low ≤ e.1 ∧ e.1 + e.2 ≤ a.top ∧ minBlock ≤ e.2 ∧
    a.mem.tagSize e.1 = e.2
  clear : listed.Pairwise Clear

namespace Lays

theorem nodup (hl : a.Lays listed) : (listed.map Prod.fst).Nodup := by
  refine List.pairwise_map.mpr (hl.clear.imp_of_mem ?_)
  intro e f he hf hef heq
  have h1 := (hl.block e he).2.2.2.1
  have h2 := (hl.block f hf).2.2.2.1
  simp only [Clear, minBlock, wordSize] at *
  omega

theorem apart (hl : a.Lays listed) (hx : (x, n) ∈ listed) {k : Nat} (hy : (y, k) ∈ listed) :
    x = y ∨ Apart x y := by
  by_cases he : (x, n) = (y, k)
  · exact .inl (congrArg Prod.fst he)
  · have hc := hl.clear.forall hx hy he
    have h1 := (hl.block _ hx).2.2.2.1
    have h2 := (hl.block _ hy).2.2.2.1
    right
    simp only [Clear, Apart, minBlock, wordSize] at *
    omega

theorem places (hl : a.Lays listed) : a.Places (stack listed) where
  prologue := hl.low.trans a.low_le_top
  room := hl.room
  entry {b x} hx := by
    obtain ⟨n, hn, -⟩ := mem_stack.mp hx
    have h1 := hl.block _ hn
    have h2 := hl.low
    simp only [minBlock, wordSize] at *
    omega
  bucket {b x} hx := by
    obtain ⟨n, hn, rfl⟩ := mem_stack.mp hx
    rw [(hl.block _ hn).2.2.2.2]
  apart {b c x y} hx hy := by
    obtain ⟨n, hn, -⟩ := mem_stack.mp hx
    obtain ⟨k, hk, -⟩ := mem_stack.mp hy
    exact hl.apart hn hk
  nodup b := hl.nodup.sublist (List.filter_sublist.map Prod.fst)

theorem cons (hl : a.Lays listed) (hx : a.FreeAt x n) (hc : ∀ e ∈ listed, Clear (x, n) e) :
    a.Lays ((x, n) :: listed) where
  low := hl.low
  room := hl.room
  block := by
    obtain ⟨p, hp⟩ := hx.head
    exact List.forall_mem_cons.mpr
      ⟨⟨hx.aligned, hx.low_le, hx.le_top, hx.sized, congrArg Tag.size hp⟩, hl.block⟩
  clear := List.pairwise_cons.mpr ⟨hc, hl.clear⟩

theorem vacant (hl : a.Lays listed) (hx : a.FreeAt x n) (hc : ∀ e ∈ listed, Clear (x, n) e) :
    a.Vacant (stack listed) x where
  aligned := hx.aligned
  above := hl.low.trans hx.low_le
  below := by
    have h1 := hx.sized
    have h2 := hx.le_top
    simp only [minBlock, wordSize] at *
    omega
  apart {b y} hy := by
    obtain ⟨k, hk, -⟩ := mem_stack.mp hy
    have h1 := hc _ hk
    have h2 := hx.sized
    have h3 := (hl.block _ hk).2.2.2.1
    simp only [Clear, Apart, minBlock, wordSize] at *
    omega

theorem erase (hl : a.Lays listed) (e : Nat × Nat) : a.Lays (listed.erase e) where
  low := hl.low
  room := hl.room
  block f hf := hl.block f (List.mem_of_mem_erase hf)
  clear := hl.clear.sublist List.erase_sublist

theorem spared (hl : a.Lays listed) (hs : a.Spares listed a') : a'.Lays listed where
  low := hs.low ▸ hl.low
  room := hs.room
  block e he := by
    obtain ⟨h1, h2, -, h4, h5⟩ := hl.block e he
    rw [hs.low, hs.sizes e he]
    exact ⟨h1, h2, hs.below e he, h4, h5⟩
  clear := hl.clear

theorem relinked (hl : a.Lays listed) (hm : SameOff (LinkBytes l) a.mem m)
    (ht : ∀ y ∈ l, y ∈ sentinel b :: stack listed b) : (a.mapMem fun _ => m).Lays listed where
  low := hl.low
  room := hl.room
  block e he := by
    have hx : e.1 ∈ sentinel (bucketFor e.2) :: stack listed (bucketFor e.2) :=
      List.mem_cons_of_mem _ (mem_stack.mpr ⟨e.2, he, rfl⟩)
    have hb := hl.block e he
    rwa [Memory.tagSize, ← hm.word_eq fun j => hl.places.not_linkBytes_head ht hx] at hb
  clear := hl.clear

theorem not_linkBytes_tags (hl : a.Lays listed) (ht : ∀ y ∈ l, y ∈ sentinel b :: stack listed b)
    (hlow : a.low ≤ y) (hn : minBlock ≤ n) (hy : (y, n) ∈ listed ∨ ∀ e ∈ listed, Clear (y, n) e) {j : Nat}
    (hj : y ≤ j ∧ j < y + wordSize ∨ y + n - wordSize ≤ j ∧ j < y + n) : ¬ LinkBytes l j := by
  rintro ⟨z, hz, h1, h2⟩
  rcases List.mem_cons.mp (ht z hz) with rfl | hz
  · have h3 := (sentinel_le b).trans hl.low
    simp only [minBlock, wordSize] at *
    omega
  · obtain ⟨k, hk, -⟩ := mem_stack.mp hz
    have h3 := (hl.block _ hk).2.2.2.1
    have h4 : y = z ∨ Clear (y, n) (z, k) := by
      rcases hy with hy | hy
      · by_cases he : (y, n) = (z, k)
        · exact .inl (congrArg Prod.fst he)
        · exact .inr (hl.clear.forall hy hk he)
      · exact .inr (hy _ hk)
    simp only [Clear, minBlock, wordSize] at *
    omega

theorem relinks (hl : a.Lays listed) (hm : SameOff (LinkBytes l) a.mem m)
    (ht : ∀ y ∈ l, y ∈ sentinel b :: stack listed b) :
    a.Relinks listed b l (a.mapMem fun _ => m) where
  low := rfl
  top := rfl
  own := ht
  bytes := hm
  tags {y n} hlow hn hy := by
    have hoff := fun j => hl.not_linkBytes_tags (j := j) ht hlow hn hy
    constructor
    · exact hm.word_eq fun j h1 h2 => hoff j (.inl ⟨h1, h2⟩)
    · refine hm.word_eq fun j h1 h2 => hoff j (.inr ⟨h1, ?_⟩)
      simp only [minBlock, wordSize] at *
      omega
  sentinels c := hm.word_eq fun j => hl.places.not_linkBytes_head ht List.mem_cons_self
  others {c} hc y hy := by
    have hoff := fun j => hl.places.not_linkBytes_links (j := j) ht hy hc
    rw [hl.places.links_eq hy, (hl.places.relinked hm ht).links_eq hy, mapMem_mem, Memory.prevLink,
      Memory.nextLink, Memory.prevLink, Memory.nextLink, hm.word_eq, hm.word_eq]
    · intro j h1 h2
      exact hoff j (by simp only [wordSize] at *; omega) (by simp only [wordSize] at *; omega)
    · intro j h1 h2
      exact hoff j h1 (by simp only [wordSize] at *; omega)

theorem writeFree (hl : a.Lays listed) (hx : x % wordSize = 0) (hlow : a.low ≤ x)
    (hn : minBlock ≤ n ∧ n % alignment = 0) (hle : x + n ≤ a.top) (hc : ∀ e ∈ listed, Clear (x, n) e)
    (p : Bool) :
    ∃ a', a.writeFree x n p = .ok a' ∧ a'.FreeAt x n ∧ a.Spares listed a' ∧ a'.top = a.top := by
  obtain ⟨hh, ht⟩ := hasWord_ends hx hn hle hl.room
  have hroom := hl.room
  have hn1 := hn.1
  let m := (a.mem.setWord x (Tag.word ⟨n, false, p⟩)).setWord (x + n - wordSize) (Tag.word ⟨n, false, p⟩)
  have hout : ∀ i, i + 8 ≤ x ∨ x + n ≤ i → m.word i = a.mem.word i := by
    intro i hi
    rw [word_setWord_of_disjoint, word_setWord_of_disjoint] <;>
      simp only [minBlock, wordSize] at * <;> omega
  have hhead : m.word x = Tag.word ⟨n, false, p⟩ := by
    rw [word_setWord_of_disjoint, word_setWord]
    simp only [minBlock, wordSize] at *
    omega
  -- every node is clear of the block
  have hnode : ∀ b, ∀ y ∈ sentinel b :: stack listed b, y + 24 ≤ x ∨ x + n ≤ y := by
    intro b y hy
    rcases List.mem_cons.mp hy with rfl | hy
    · have := (sentinel_le b).trans hl.low
      simp only [wordSize] at this
      omega
    · obtain ⟨k, hk, -⟩ := mem_stack.mp hy
      have h3 := hc _ hk
      have h4 := (hl.block _ hk).2.2.2.1
      simp only [Clear, minBlock, wordSize] at *
      omega
  refine ⟨_, writeFree_eq_ok hh ht (Nat.le_trans (by decide) hn.1) hn.2 p, ?_, ?_, rfl⟩
  · refine ⟨hx, hlow, hle, hn.1, ⟨p, ?_⟩, ?_⟩
    · rw [put_mem, put_mem, hhead]
      exact Tag.decode_word hn.2 (show n < wordLimit by omega)
    · rw [put_mem, put_mem, hhead, word_setWord]
  · refine ⟨rfl, hl.room, fun e he => (hl.block e he).2.2.1, ?_, ?_⟩
    · intro e he
      have := hnode (bucketFor e.2) e.1 (List.mem_cons_of_mem _ (mem_stack.mpr ⟨e.2, he, rfl⟩))
      rw [Memory.tagSize, Memory.tagSize, put_mem, put_mem, hout e.1 (by omega)]
    · intro b y hy
      have := hnode b y hy
      constructor
      · rw [Memory.nextLink, Memory.nextLink, put_mem, put_mem, hout _ (by simp only [wordSize]; omega)]
      · rw [Memory.prevLink, Memory.prevLink, put_mem, put_mem, hout _ (by simp only [wordSize]; omega)]

end Lays

variable {link : Links → Nat}

theorem along_next (h : a.mem.Linked (x :: l))
    (hread : ∀ y ∈ (x :: l).dropLast, a.links y = .ok ⟨a.mem.prevLink y, a.mem.nextLink y⟩) :
    a.along Links.next x l.length = .ok l := by
  induction l generalizing x with
  | nil => rfl
  | cons y l ih =>
    obtain ⟨rfl, -, hl⟩ := h
    rw [List.dropLast_cons_of_ne_nil (List.cons_ne_nil _ _)] at hread
    obtain ⟨hx, hread⟩ := List.forall_mem_cons.mp hread
    simp only [List.length_cons, along, hx, ih hl hread, bind, Except.bind, pure, Except.pure]

theorem along_prev (h : a.mem.Linked (l ++ [x]))
    (hread : ∀ y ∈ (l ++ [x]).tail, a.links y = .ok ⟨a.mem.prevLink y, a.mem.nextLink y⟩) :
    a.along Links.prev x l.length = .ok l.reverse := by
  induction l using List.reverseRecOn generalizing x with
  | nil => rfl
  | append_singleton l y ih =>
    have hx := hread x (by cases l <;> simp)
    rw [List.append_assoc, List.singleton_append] at h
    obtain ⟨hl, -, rfl, -⟩ := linked_append.mp h
    have hrest := ih hl fun z hz => hread z (by
      cases l with
      | nil => cases hz
      | cons u l => simp at hz ⊢; tauto)
    simp only [List.length_append, List.length_singleton, along, hx, hrest, bind, Except.bind, pure,
      Except.pure, List.reverse_append, List.reverse_singleton, List.singleton_append]

end Arena

namespace Bins

structure Stacks (bins : Bins) (a : Arena) (listed : List (Nat × Nat)) : Prop where
  lays : a.Lays listed
  keeps : bins.Keeps a (stack listed)

theorem Keeps.spell (hk : bins.Keeps a (stack listed)) : bins.Spell a listed where
  next b := by
    have h := Arena.along_next (hk.rings b) fun y hy => hk.links_eq (b := b) (by
      rwa [← List.cons_append, List.dropLast_concat] at hy)
    rwa [List.length_append, List.length_singleton] at h
  prev b := by
    have h := Arena.along_prev (l := sentinel b :: stack listed b) (hk.rings b) fun y hy =>
      hk.links_eq (b := b) (by simpa [or_comm] using hy)
    rwa [List.length_cons, List.reverse_cons] at h
  nodup := hk.ring_nodup
  lengths := hk.lengths

theorem stacks_reset (hlow : prologueSize ≤ a.low) (htop : a.top < wordLimit) :
    ∃ m, reset a = .ok (a.mapMem fun _ => m) ∧ empty.Stacks (a.mapMem fun _ => m) [] := by
  obtain ⟨m, hm, hrings, -⟩ := Heap.reset_eq_ok (hlow.trans a.low_le_top) htop []
    (List.finRange bucketCount) (by simp)
  have hlays : (a.mapMem fun _ => m).Lays [] := ⟨hlow, htop, nofun, .nil⟩
  refine ⟨m, hm, hlays, hlays.places, fun b => hrings b (List.mem_append_right _ (List.mem_finRange b)), ?_⟩
  intro b
  simp [empty, length, stack, Vector.get]

namespace Stacks

theorem push (hs : bins.Stacks a listed) (hx : a.FreeAt x n) (hc : ∀ e ∈ listed, Clear (x, n) e) :
    ∃ bins' a', bins.push a x = .ok (bins', a') ∧ bins'.Stacks a' ((x, n) :: listed) ∧
      a.Relinks ((x, n) :: listed) (bucketFor n)
        [x, sentinel (bucketFor n), a.mem.nextLink (sentinel (bucketFor n))] a' := by
  obtain ⟨p, hp⟩ := hx.head
  have hlays := hs.lays.cons hx hc
  obtain ⟨hr, hk⟩ := hs.keeps.push (hs.lays.vacant hx hc) (congrArg (bucketFor ·.size) hp)
  have hsame := sameOff_linkIn a.mem (sentinel (bucketFor n)) x
  have hown : ∀ y ∈ [x, sentinel (bucketFor n), a.mem.nextLink (sentinel (bucketFor n))],
      y ∈ sentinel (bucketFor n) :: stack ((x, n) :: listed) (bucketFor n) := by
    intro y hy
    rw [stack_cons, Function.update_self]
    exact (List.Perm.swap ..).subset (hs.keeps.front_mem x y hy)
  rw [← stack_cons] at hk
  exact ⟨_, _, hr, ⟨hlays.relinked hsame hown, hk⟩, hlays.relinks hsame hown⟩

theorem remove (hs : bins.Stacks a listed) (hx : (x, n) ∈ listed) :
    ∃ bins' a', bins.remove a x = .ok (bins', a') ∧ bins'.Stacks a' (listed.erase (x, n)) ∧
      a.Relinks listed (bucketFor n) [a.mem.prevLink x, a.mem.nextLink x] a' := by
  have hxb : x ∈ stack listed (bucketFor n) := mem_stack.mpr ⟨n, hx, rfl⟩
  obtain ⟨hr, hk⟩ := hs.keeps.remove hxb
  have hsame := sameOff_linkOut a.mem x
  have hown := hs.keeps.neighbours_mem hxb
  rw [← stack_erase hs.lays.nodup hx] at hk
  exact ⟨_, _, hr, ⟨(hs.lays.relinked hsame hown).erase _, hk⟩, hs.lays.relinks hsame hown⟩

theorem spared (hs : bins.Stacks a listed) (hspare : a.Spares listed a') : bins.Stacks a' listed := by
  have hlays := hs.lays.spared hspare
  exact ⟨hlays, hlays.places, fun b => (hs.keeps.rings b).congr (fun y hy => (hspare.links b y hy).1)
    fun y hy => (hspare.links b y hy).2, hs.keeps.lengths⟩

theorem spares (hs : bins.Stacks a listed) (hs' : bins'.Stacks a' listed) (hlow : a'.low = a.low) :
    bins' = bins ∧ a.Spares listed a' := by
  refine ⟨ext_length fun b => (hs'.keeps.lengths b).trans (hs.keeps.lengths b).symm, hlow,
    hs'.lays.room, fun e he => (hs'.lays.block e he).2.2.1, ?_, ?_⟩
  · intro e he
    rw [(hs'.lays.block e he).2.2.2.2, (hs.lays.block e he).2.2.2.2]
  · intro b y hy
    exact (hs.keeps.rings b).links_eq (hs'.keeps.rings b) hy

/-- Rings that are the same again run through the same links, so links that were written meanwhile
differ in a node that was taken out only. -/
theorem eq_of_relinked (hs : bins.Stacks a listed) (hs' : bins'.Stacks a' listed) (hlow : a'.low = a.low)
    (hm : SameOff (LinkBytes (x :: sentinel b :: stack listed b)) a.mem a'.mem) :
    bins' = bins ∧ SameOff (LinkBytes [x]) a.mem a'.mem := by
  obtain ⟨hbins, hspare⟩ := hs.spares hs' hlow
  refine ⟨hbins, fun j hj => ?_⟩
  by_cases hjl : LinkBytes (sentinel b :: stack listed b) j
  · obtain ⟨y, hy, h1, h2⟩ := hjl
    obtain ⟨hn, hp⟩ := hspare.links b y hy
    by_cases hjp : j < y + 2 * wordSize
    · refine byte_eq_of_word_eq (UInt64.toNat_inj.mp hp) h1 ?_
      simp only [wordSize] at *
      omega
    · refine byte_eq_of_word_eq (UInt64.toNat_inj.mp hn) (Nat.not_lt.mp hjp) ?_
      simp only [wordSize] at *
      omega
  · apply hm
    rintro ⟨y, hy, h1, h2⟩
    rcases List.mem_cons.mp hy with rfl | hy
    · exact hj ⟨_, List.mem_singleton_self _, h1, h2⟩
    · exact hjl ⟨y, hy, h1, h2⟩

theorem remove_push (hs : bins.Stacks a listed) (hx : a.FreeAt x n) (hc : ∀ e ∈ listed, Clear (x, n) e)
    (hr : bins.push a x = .ok (bins', a')) :
    ∃ a₂, bins'.remove a' x = .ok (bins, a₂) ∧ a₂.low = a.low ∧ a₂.top = a.top ∧
      SameOff (LinkBytes [x]) a.mem a₂.mem := by
  obtain ⟨bins₁, a₁, he, hs₁, hpush⟩ := hs.push hx hc
  cases hr.symm.trans he
  obtain ⟨bins₂, a₂, he₂, hs₂, hremove⟩ := hs₁.remove List.mem_cons_self
  rw [List.erase_cons_head] at hs₂
  have hring : ∀ l, (∀ y ∈ l, y ∈ sentinel (bucketFor n) :: stack ((x, n) :: listed) (bucketFor n)) →
      ∀ j, LinkBytes l j → LinkBytes (x :: sentinel (bucketFor n) :: stack listed (bucketFor n)) j := by
    rintro l hl j ⟨y, hy, h1, h2⟩
    have hy := hl y hy
    rw [stack_cons, Function.update_self] at hy
    exact ⟨y, (List.Perm.swap ..).subset hy, h1, h2⟩
  obtain ⟨rfl, hsame⟩ := hs.eq_of_relinked hs₂ (hremove.low.trans hpush.low)
    ((hpush.bytes.mono (hring _ hpush.own)).trans (hremove.bytes.mono (hring _ hremove.own)))
  exact ⟨a₂, he₂, hremove.low.trans hpush.low, hremove.top.trans hpush.top, hsame⟩

end Stacks

theorem History.stacks (h : History listed bins a) : bins.Stacks a listed := by
  induction h with
  | reset hlow htop hr =>
    obtain ⟨m, hm, hs⟩ := stacks_reset hlow htop
    cases hr.symm.trans hm
    exact hs
  | push _ hx hc hr ih =>
    obtain ⟨bins', a', he, hs, -⟩ := ih.push hx hc
    cases hr.symm.trans he
    exact hs
  | remove _ hx hr ih =>
    obtain ⟨bins', a', he, hs, -⟩ := ih.remove hx
    cases hr.symm.trans he
    exact hs
  | meanwhile _ hspare ih => exact ih.spared hspare

theorem History.put (h : History listed bins a) (hx : x % wordSize = 0) (hlow : a.low ≤ x)
    (hn : minBlock ≤ n ∧ n % alignment = 0) (hle : x + n ≤ a.top)
    (hc : ∀ e ∈ listed, Clear (x, n) e) :
    ∃ bins' a', History ((x, n) :: listed) bins' a' ∧ a'.low = a.low ∧ a'.top = a.top := by
  obtain ⟨a₁, -, hfree, hspare, htop⟩ := h.stacks.lays.writeFree hx hlow hn hle hc true
  have h₁ := h.meanwhile hspare
  obtain ⟨bins', a', hr, -, hpush⟩ := h₁.stacks.push hfree hc
  exact ⟨bins', a', h₁.push hfree hc hr, hpush.low.trans hspare.low, hpush.top.trans htop⟩

theorem Stacks.history (hs : bins.Stacks a listed) : History listed bins a := by
  induction listed generalizing bins a with
  | nil =>
    obtain ⟨m, hm, hs₀⟩ := stacks_reset hs.lays.low hs.lays.room
    obtain ⟨rfl, hspare⟩ := hs₀.spares hs rfl
    exact .meanwhile (.reset hs.lays.low hs.lays.room hm) hspare
  | cons e listed ih =>
    obtain ⟨x, n⟩ := e
    obtain ⟨hmod, hlow, hle, hn, hsize⟩ := hs.lays.block (x, n) List.mem_cons_self
    obtain ⟨bins₁, a₁, -, hs₁, hremove⟩ := hs.remove List.mem_cons_self
    rw [List.erase_cons_head] at hs₁
    have hn' : n % alignment = 0 := by
      rw [← show a.mem.tagSize x = n from hsize]
      exact Tag.decode_size_mod _
    obtain ⟨bins₂, a₂, h₂, hlow₂, -⟩ := (ih hs₁).put hmod (hremove.low ▸ hlow) ⟨hn, hn'⟩
      (hremove.top ▸ hle) (List.pairwise_cons.mp hs.lays.clear).1
    obtain ⟨rfl, hspare⟩ := h₂.stacks.spares hs (hlow₂.trans hremove.low).symm
    exact .meanwhile h₂ hspare

/-- Lists can always be started, and along every history the links of each bucket spell its stack. Every
free block that is clear of the listed ones can be put in, and every listed block can be taken out:
either writes links of the block, of its neighbours and of the sentinel only. -/
theorem history_spells :
    (∀ a : Arena, prologueSize ≤ a.low → a.top < wordLimit → ∃ a', reset a = .ok a') ∧
    ∀ listed bins a, History listed bins a →
      bins.Spell a listed ∧
      (∀ x n, a.FreeAt x n → (∀ e ∈ listed, Clear (x, n) e) →
        ∃ bins' a' first, bins.push a x = .ok (bins', a') ∧
          (a.links (sentinel (bucketFor n))).map Links.next = .ok first ∧
          a.Relinks ((x, n) :: listed) (bucketFor n) [x, sentinel (bucketFor n), first] a' ∧
          ∃ a₂, bins'.remove a' x = .ok (bins, a₂) ∧ a₂.low = a.low ∧ a₂.top = a.top ∧
            SameOff (LinkBytes [x]) a.mem a₂.mem) ∧
      ∀ x n, (x, n) ∈ listed → ∃ bins' a' l, bins.remove a x = .ok (bins', a') ∧ a.links x = .ok l ∧
        a.Relinks listed (bucketFor n) [l.prev, l.next] a' := by
  constructor
  · intro a hlow htop
    obtain ⟨m, hm, -⟩ := stacks_reset hlow htop
    exact ⟨_, hm⟩
  · intro listed bins a h
    have hs := h.stacks
    refine ⟨hs.keeps.spell, ?_, ?_⟩
    · intro x n hx hc
      obtain ⟨bins', a', hr, -, hpush⟩ := hs.push hx hc
      refine ⟨bins', a', _, hr, ?_, hpush, hs.remove_push hx hc hr⟩
      rw [hs.keeps.links_eq List.mem_cons_self]
      rfl
    · intro x n hx
      obtain ⟨bins', a', hr, -, hremove⟩ := hs.remove hx
      have hxb : x ∈ stack listed (bucketFor n) := mem_stack.mpr ⟨n, hx, rfl⟩
      exact ⟨bins', a', _, hr, hs.keeps.links_eq (List.mem_cons_of_mem _ hxb), hremove⟩

theorem history_spells_two_blocks :
    ∃ bins a, History [(504, 64), (440, 64)] bins a ∧
      a.along Links.next 48 3 = .ok [504, 440, 48] ∧ a.along Links.prev 48 3 = .ok [440, 504, 48] ∧
      ∃ bins' a', bins.remove a 440 = .ok (bins', a') ∧ a'.along Links.next 48 2 = .ok [504, 48] ∧
        bins'.length (bucketFor 64) = 1 := by
  obtain ⟨hreset, hall⟩ := history_spells
  obtain ⟨a₀, h₀⟩ := hreset ⟨.zero, 440, 1000, by decide⟩ (by decide) (by decide)
  obtain ⟨m, hm, -⟩ := stacks_reset (a := ⟨.zero, 440, 1000, by decide⟩) (by decide) (by decide)
  obtain ⟨hlow₀, htop₀⟩ : a₀.low = 440 ∧ a₀.top = 1000 := by
    cases h₀.symm.trans hm
    exact ⟨rfl, rfl⟩
  obtain ⟨bins₁, a₁, h₁, hlow₁, htop₁⟩ := (History.reset (by decide) (by decide) h₀).put (x := 440)
    (n := 64) (by decide) hlow₀.le (by decide) (by rw [htop₀]; decide) nofun
  obtain ⟨bins₂, a₂, h₂, -⟩ := h₁.put (x := 504) (n := 64) (by decide) (by rw [hlow₁, hlow₀]; decide)
    (by decide) (by rw [htop₁, htop₀]; decide) (by simp [Clear])
  obtain ⟨hspell, -, htake⟩ := hall _ _ _ h₂
  obtain ⟨bins', a', -, hr, -, -⟩ := htake 440 64 (by decide)
  have hspell' := (hall _ _ _ (h₂.remove (n := 64) (by decide) hr)).1
  exact ⟨bins₂, a₂, h₂, hspell.next (bucketFor 64), hspell.prev (bucketFor 64), bins', a', hr,
    hspell'.next (bucketFor 64), hspell'.lengths (bucketFor 64)⟩

end Bins

end SegregatedFit
