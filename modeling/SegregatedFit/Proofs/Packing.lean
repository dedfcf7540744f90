import Mathlib
import SegregatedFit.Proofs.TagWord

/-!
The packing of tags. Each storable tag has one word of its own, and the words without reserved bits are
the words of these tags. To change fields of a tag between a read and a write of its word is to change
their bits in the word, and no others but the reserved ones, which are cleared.
-/
namespace SegregatedFit.Tag

def reservedMask : UInt64 := 0b11100

/-- The size is a word, and in whole alignments. -/
def Storable (t : Tag) : Prop := t.size % alignment = 0 ∧ t.size < wordLimit

instance : DecidablePred Storable := fun _ => inferInstanceAs (Decidable (_ ∧ _))

inductive Edit where
  | size (n : Nat)
  | used (b : Bool)
  | prevUsed (b : Bool)
deriving DecidableEq, Repr

namespace Edit

def mask : Edit → UInt64
  | .size _ => sizeMask
  | .used _ => usedBit
  | .prevUsed _ => prevUsedBit

def bits : Edit → UInt64
  | .size n => .ofNat n
  | .used b => if b then usedBit else 0
  | .prevUsed b => if b then prevUsedBit else 0

def Storable : Edit → Prop
  | .size n => n % alignment = 0 ∧ n < wordLimit
  | .used _ => True
  | .prevUsed _ => True

instance : DecidablePred Storable
  | .size _ => inferInstanceAs (Decidable (_ ∧ _))
  | .used _ => isTrue trivial
  | .prevUsed _ => isTrue trivial

end Edit

def edit (t : Tag) : Edit → Tag
  | .size n => { t with size := n }
  | .used b => { t with used := b }
  | .prevUsed b => { t with prevUsed := b }

/-- The edit made to a word: the bits of the field are replaced. -/
def patch (w : UInt64) (e : Edit) : UInt64 := (w &&& ~~~e.mask) ||| e.bits

/-- The last edit of the field that bit `i` of a word belongs to. -/
def lastEdit (es : List Edit) (i : Nat) : Option Edit := es.reverse.find? fun e => bit e.mask i

variable {e : Edit} {es : List Edit} {t : Tag} {w : UInt64} {i : Nat}

theorem bit_usedBit (hi : i < 64) : bit usedBit i = decide (i = 0) := by
  revert i
  decide

theorem bit_prevUsedBit (hi : i < 64) : bit prevUsedBit i = decide (i = 1) := by
  revert i
  decide

theorem bit_reservedMask (hi : i < 64) : bit reservedMask i = decide (2 ≤ i ∧ i < 5) := by
  revert i
  decide

theorem bit_sizeMask (hi : i < 64) : bit sizeMask i = decide (5 ≤ i) := by
  revert i
  decide

theorem bit_word (t : Tag) (hi : i < 64) :
    bit t.word i = if i = 0 then t.used else if i = 1 then t.prevUsed
      else decide (5 ≤ i) && t.size.testBit i := by
  rw [word, bit_or, bit_or, bit_and, bit_flag, bit_flag, bit_ofNat _ hi, bit_sizeMask hi,
    bit_usedBit hi, bit_prevUsedBit hi]
  grind

theorem decode_used (w : UInt64) : (decode w).used = bit w 0 := by
  change (w &&& usedBit != 0) = w.toNat.testBit 0
  rw [and_usedBit, Nat.testBit_zero]

theorem decode_prevUsed (w : UInt64) : (decode w).prevUsed = bit w 1 := by
  change (w &&& prevUsedBit != 0) = w.toNat.testBit 1
  rw [and_prevUsedBit, Nat.testBit_succ, Nat.testBit_zero]

theorem testBit_decode_size (w : UInt64) (i : Nat) :
    (decode w).size.testBit i = (bit w i && bit sizeMask i) :=
  bit_and w sizeMask i

theorem decode_storable (w : UInt64) : (decode w).Storable :=
  ⟨decode_size_mod w, (w &&& sizeMask).toNat_lt⟩

theorem word_and_reservedMask (t : Tag) : t.word &&& reservedMask = 0 := by
  refine bit_ext fun i hi => ?_
  rw [bit_and, bit_word _ hi, bit_reservedMask hi, bit_zero]
  grind

theorem word_decode (w : UInt64) : (decode w).word = w &&& ~~~reservedMask := by
  refine bit_ext fun i hi => ?_
  rw [bit_word _ hi, decode_used, decode_prevUsed, testBit_decode_size, bit_clear, bit_sizeMask hi,
    bit_reservedMask hi]
  grind

theorem clear_reservedMask (h : w &&& reservedMask = 0) : w &&& ~~~reservedMask = w := by
  refine bit_ext fun i _ => ?_
  have hi : (bit w i && bit reservedMask i) = false := by
    rw [← bit_and, h, bit_zero]
  rw [bit_clear]
  grind

theorem Edit.bit_bits (he : e.Storable) (hi : i < 64) (h : bit e.mask i = false) :
    bit e.bits i = false := by
  cases e with
  | size n =>
    obtain ⟨k, rfl⟩ : 2 ^ 5 ∣ n := Nat.dvd_of_mod_eq_zero he.1
    rw [mask, bit_sizeMask hi, decide_eq_false_iff_not] at h
    rw [bits, bit_ofNat _ hi, Nat.testBit_two_pow_mul, decide_eq_false h, Bool.false_and]
  | used b => rw [bits, bit_flag, show bit usedBit i = false from h, Bool.and_false]
  | prevUsed b => rw [bits, bit_flag, show bit prevUsedBit i = false from h, Bool.and_false]

theorem bit_patch (he : e.Storable) (w : UInt64) (hi : i < 64) :
    bit (patch w e) i = if bit e.mask i then bit e.bits i else bit w i := by
  rw [patch, bit_or, bit_clear]
  cases hm : bit e.mask i with
  | true => simp
  | false => simp [e.bit_bits he hi hm]

theorem word_edit (he : e.Storable) (t : Tag) : (t.edit e).word = patch t.word e := by
  refine bit_ext fun i hi => ?_
  rw [bit_patch he _ hi, bit_word _ hi, bit_word _ hi]
  cases e with
  | size n =>
    rw [Edit.mask, Edit.bits, bit_sizeMask hi, bit_ofNat n hi]
    grind [edit]
  | used b =>
    rw [Edit.mask, Edit.bits, bit_flag, bit_usedBit hi]
    grind [edit]
  | prevUsed b =>
    rw [Edit.mask, Edit.bits, bit_flag, bit_prevUsedBit hi]
    grind [edit]

theorem Storable.edit (ht : t.Storable) (he : e.Storable) : (t.edit e).Storable := by
  cases e with
  | size n => exact he
  | used b => exact ht
  | prevUsed b => exact ht

theorem Storable.edits (ht : t.Storable) (hes : ∀ e ∈ es, e.Storable) :
    (es.foldl Tag.edit t).Storable := by
  induction es generalizing t with
  | nil => exact ht
  | cons e es ih =>
    have htail : ∀ e' ∈ es, e'.Storable := fun e' he' => hes e' (List.mem_cons_of_mem _ he')
    exact ih (ht.edit (hes e List.mem_cons_self)) htail

theorem word_edits (hes : ∀ e ∈ es, e.Storable) (t : Tag) :
    (es.foldl Tag.edit t).word = es.foldl patch t.word := by
  induction es generalizing t with
  | nil => rfl
  | cons e es ih =>
    have htail : ∀ e' ∈ es, e'.Storable := fun e' he' => hes e' (List.mem_cons_of_mem _ he')
    rw [List.foldl_cons, List.foldl_cons, ih htail, word_edit (hes e List.mem_cons_self)]

/-- Each bit is as the last edit of its field leaves it, or as it was. -/
theorem bit_patches (hes : ∀ e ∈ es, e.Storable) (w : UInt64) (hi : i < 64) :
    bit (es.foldl patch w) i =
      match lastEdit es i with
      | some e => bit e.bits i
      | none => bit w i := by
  induction es using List.reverseRecOn with
  | nil => rfl
  | append_singleton es e ih =>
    rw [List.foldl_append, List.foldl_cons, List.foldl_nil, bit_patch (hes e (by simp)) _ hi, lastEdit,
      List.reverse_append, List.reverse_singleton, List.singleton_append, List.find?_cons]
    cases bit e.mask i with
    | true => rfl
    | false => exact ih fun e' he' => hes e' (by simp [he'])

/-- Storable tags and the words without reserved bits belong together one by one, and every word reads as
a storable tag whose word it is but for the reserved bits. What is read from a word, edited field by
field and written again is that word with the fields replaced: each bit is as the last edit of its field
leaves it, the reserved bits are cleared, and all other bits are as they were. -/
theorem encode_exact :
    Set.BijOn encode {t | t.Storable} (Except.ok '' {w | w &&& reservedMask = 0}) ∧
    (∀ t : Tag, t.Storable → ∃ w, t.encode = .ok w ∧ decode w = t) ∧
    (∀ w, (decode w).Storable ∧ (decode w).encode = .ok (w &&& ~~~reservedMask)) ∧
    ∀ (w : UInt64) (es : List Edit), (∀ e ∈ es, e.Storable) →
      ∃ v, (es.foldl edit (decode w)).encode = .ok v ∧ decode v = es.foldl edit (decode w) ∧
        ∀ i < 64, bit v i =
          match lastEdit es i with
          | some e => bit e.bits i
          | none => bit w i && !bit reservedMask i := by
  have hback (t : Tag) (ht : t.Storable) : t.encode = .ok t.word ∧ decode t.word = t :=
    ⟨encode_eq_ok ht.1, decode_word ht.1 ht.2⟩
  have hread (w : UInt64) : (decode w).encode = .ok (w &&& ~~~reservedMask) := by
    rw [(hback _ (decode_storable w)).1, word_decode]
  refine ⟨⟨?maps, ?injective, ?surjective⟩, fun t ht => ⟨t.word, hback t ht⟩,
    fun w => ⟨decode_storable w, hread w⟩, ?edited⟩
  case maps =>
    intro t ht
    exact ⟨t.word, word_and_reservedMask t, (hback t ht).1.symm⟩
  case injective =>
    intro t ht t' ht' he
    have hw : t.word = t'.word := by
      rw [(hback t ht).1, (hback t' ht').1] at he
      exact Except.ok.inj he
    rw [← (hback t ht).2, hw, (hback t' ht').2]
  case surjective =>
    rintro _ ⟨w, hw, rfl⟩
    refine ⟨decode w, decode_storable w, ?_⟩
    rw [hread, clear_reservedMask hw]
  case edited =>
    intro w es hes
    have hs := (decode_storable w).edits hes
    refine ⟨_, (hback _ hs).1, (hback _ hs).2, fun i hi => ?_⟩
    rw [word_edits hes, bit_patches hes _ hi, word_decode, bit_clear]

theorem encode_exact_full :
    (∃ w, encode ⟨2 ^ 64 - 32, true, false⟩ = .ok w ∧ decode w = ⟨2 ^ 64 - 32, true, false⟩) ∧
    ∃ v, ([.used false, .size 96, .used true].foldl edit (decode 0xFFFFFFFFFFFFFFFF)).encode = .ok v ∧
      bit v 0 = true ∧ bit v 1 = true ∧ bit v 3 = false ∧ bit v 6 = true ∧ bit v 63 = false := by
  obtain ⟨v, hv, -, hbits⟩ := encode_exact.2.2.2 0xFFFFFFFFFFFFFFFF [.used false, .size 96, .used true]
    (by decide)
  refine ⟨encode_exact.2.1 _ (by decide), v, hv, ?_, ?_, ?_, ?_, ?_⟩
  · rw [hbits 0 (by decide)]
    decide
  · rw [hbits 1 (by decide)]
    decide
  · rw [hbits 3 (by decide)]
    decide
  · rw [hbits 6 (by decide)]
    decide
  · rw [hbits 63 (by decide)]
    decide

end SegregatedFit.Tag
