import Mathlib
import SegregatedFit.Proofs.Shows

/-!
The heap check passes on a heap between operations: the walk meets the row, and each list is the one
that the sketch has.
-/
namespace SegregatedFit

open Row Memory

namespace Sketch

variable {H : Type} {k : Sketch H}

theorem Settled.lists_perm (hk : k.Settled) :
    ((List.finRange bucketCount).flatMap k.lists).Perm ((k.sites false).map Prod.fst) := by
  apply (List.perm_ext_iff_of_nodup _ _).mpr
  · intro x
    simp only [List.mem_flatMap, List.mem_finRange, true_and, hk.listed_iff, List.mem_map, Prod.exists]
    constructor
    · rintro ⟨b, n, hn, -⟩
      exact ⟨x, n, hn, rfl⟩
    · rintro ⟨_, n, hn, rfl⟩
      exact ⟨_, n, hn, rfl⟩
  · refine List.nodup_flatMap.mpr ⟨fun b _ => hk.tidy.nodup b, ?_⟩
    refine (List.nodup_finRange bucketCount).imp ?_
    intro b c hbc x hb hc
    exact hbc (hk.tidy.ring_unique (List.mem_cons_of_mem _ hb) (List.mem_cons_of_mem _ hc))
  · exact hk.tidy.sized.nodup_sites false prologueSize

theorem Settled.sum_lengths (hk : k.Settled) :
    ((List.finRange bucketCount).map fun b => (k.lists b).length).sum = (k.sites false).length := by
  have h := hk.lists_perm.length_eq
  rwa [List.length_flatMap, List.length_map] at h

end Sketch

namespace Heap

variable {H : Type} {h : Heap H} {k : Sketch H} {b : Fin bucketCount} {off prev room x : Nat}
  {p : Bool} {xs ys : Row} {zs : List Nat}

theorem audit_bind_lift {α β : Type} {x : Except Fault α} {a : α} (f : α → Audit β) (hx : x = .ok a) :
    ((liftM x : Audit α) >>= f) = f a := by rw [hx]; rfl

theorem Shows.walk (hs : h.Shows k) (hk : k.Settled) (hrow : k.row = xs ++ ys)
    (hoff : off = prologueSize + span xs) (prev free : Nat) :
    Audit.walk h.arena off prev (lastUsed true xs) free =
      pure (free + (Row.sites false off ys).length) := by
  -- the walk has come past `xs`, and knows of the last block there whether it is used
  induction ys generalizing xs off prev free with
  | nil =>
    have htop : off = h.arena.top := by rw [hoff, hs.top, Sketch.top, hrow, List.append_nil]
    rw [Audit.walk, dif_neg (by omega)]
    simp [htop]
  | cons t ys ih =>
    have hin : (off, t) ∈ k.blocks := mem_located_iff.mpr ⟨xs, ys, hrow, hoff⟩
    have hb := hk.tidy.of_block hin
    have htop := hs.top
    have hf := hk.flagged
    rw [hrow, flagged_append] at hf
    have hp : t.prevUsed = lastUsed true xs := hf.2.1
    have hm := hk.merged t (by simp [hrow])
    have hrow' : k.row = (xs ++ [t]) ++ ys := by rw [hrow, List.append_assoc]; rfl
    have hoff' : off + t.size = prologueSize + span (xs ++ [t]) := by
      rw [hoff, span_append, span_cons, span_nil, Nat.add_zero, Nat.add_assoc]
    have hlast : lastUsed true (xs ++ [t]) = t.used := by simp [lastUsed]
    have hz : ¬ (t.size < minBlock ∨ t.size % alignment ≠ 0) := by omega
    have hfit : ¬ h.arena.top - off < t.size := by omega
    simp only [minBlock, wordSize] at hb
    rw [Audit.walk, dif_pos (by omega), audit_bind_lift _ (hs.tag_eq hin), dif_neg hz, if_neg hfit,
      if_neg (not_not.mpr hp)]
    cases hu : t.used with
    | true =>
      have := ih hrow' hoff' off free
      rw [hlast, hu] at this
      simp [this, sites_cons, hu]
    | false =>
      rw [hu] at hm
      have hpt := hm.resolve_left (by simp)
      obtain ⟨q, hq⟩ := hs.spells.tail hin hu
      have hhead : h.arena.word off = .ok t.word := by
        rw [Arena.word_eq_ok (hs.hasWord_head hin), hs.spells.head hin]
      have htail : h.arena.tailWord off = .ok (Tag.word ⟨t.size, false, q⟩) := by
        have hw : h.arena.HasWord (off + t.size - wordSize) := by
          simp only [alignment, headerSize, wordSize] at *
          exact hs.hasWord (by simp only [wordSize]; omega) (by simp only [wordSize]; omega)
        rw [Arena.tailWord, hs.blockEnd_eq hin]
        change (do h.arena.word (← minus (off + t.size) wordSize)) = _
        rw [minus_eq_ok (by simp only [wordSize]; omega), ← hq]
        exact Arena.word_eq_ok hw
      have := ih hrow' hoff' off (free + 1)
      rw [hlast, hu] at this
      have hword : t.word = Tag.word ⟨t.size, false, t.prevUsed⟩ := by rw [← hu]
      rw [if_neg (by simp), audit_bind_lift _ hhead, audit_bind_lift _ htail, hword,
        Tag.word_xor_word, if_neg (by simp), ← hp, hpt, if_neg (by simp), this, sites_cons, if_pos hu,
        List.length_cons, Nat.add_right_comm, Nat.add_assoc]

theorem Shows.checkEntry (hs : h.Shows k) (hx : x ∈ k.lists b) (hp : h.arena.mem.prevLink x = prev) :
    Audit.checkEntry h.arena b prev x = pure (h.arena.mem.nextLink x) := by
  obtain ⟨n, hn, hb⟩ := hs.tidy.listed hx
  obtain ⟨t, ht, hu, rfl⟩ := mem_sites_iff.mp hn
  have hbounds := hs.tidy.of_block ht
  have hroom := hs.tidy.room
  have htop := hs.top
  have hin : (h.arena.contains x && x % wordSize == 0) = true := by
    simp only [minBlock, wordSize, alignment, headerSize] at *
    simp only [Arena.contains, hs.low, hs.top, Bool.and_eq_true, decide_eq_true_eq, beq_iff_eq]
    omega
  have hend : plus x minBlock = .ok (x + minBlock) := plus_eq_ok (by omega)
  have hplace : Audit.checkPlace h.arena b x = pure () := by
    rw [Audit.checkPlace, if_pos hin, audit_bind_lift _ hend, if_pos (by omega)]
  rw [Audit.checkEntry, hplace, pure_bind,
    audit_bind_lift _ (hs.keeps.links_eq (List.mem_cons_of_mem _ hx)),
    audit_bind_lift _ (hs.tag_eq ht)]
  simp only [hp, hu, hb, ne_eq, not_true_eq_false, if_false, Bool.false_eq_true]

theorem Shows.followList (hs : h.Shows k) (walked : Nat) (hz : ∀ z ∈ zs, z ∈ k.lists b)
    (hl : h.arena.mem.Linked (prev :: (zs ++ [sentinel b]))) (hr : zs.length ≤ room) :
    Audit.followList h.arena b walked prev ((zs ++ [sentinel b]).headD (sentinel b)) room =
      pure (zs.getLastD prev, room - zs.length) := by
  induction zs generalizing prev room with
  | nil => cases room <;> simp [Audit.followList]
  | cons z zs ih =>
    obtain _ | room := room
    · cases hr
    have hz0 := hz z (by simp)
    have hne : z ≠ sentinel b := fun he =>
      (List.nodup_cons.mp (hs.tidy.ring_nodup b)).1 (he ▸ hz0)
    have hnext : h.arena.mem.nextLink z = (zs ++ [sentinel b]).headD (sentinel b) := by
      cases zs with
      | nil => exact hl.2.2.1
      | cons y zs => exact hl.2.2.1
    rw [List.cons_append, List.headD_cons, Audit.followList, if_neg hne, hs.checkEntry hz0 hl.2.1,
      pure_bind, hnext, ih (fun y hy => hz y (List.mem_cons_of_mem _ hy)) hl.2.2
        (Nat.le_of_succ_le_succ hr), List.getLastD_cons, List.length_cons, Nat.succ_sub_succ]

theorem Shows.checkList (hs : h.Shows k) (walked : Nat) (b : Fin bucketCount) (hr : (k.lists b).length ≤ room) :
    Audit.checkList h.bins h.arena walked room b = pure (room - (k.lists b).length) := by
  have hring := hs.rings b
  have hlinks := hs.keeps.links_eq (List.mem_cons_self : sentinel b ∈ sentinel b :: k.lists b)
  have hfollow := hs.followList walked (fun z hz => hz) hring hr
  rw [← hring.nextLink_head] at hfollow
  have hlen : room - (room - (k.lists b).length) = h.bins.length b := by rw [hs.lengths]; omega
  rw [Audit.checkList, audit_bind_lift _ hlinks, hfollow, pure_bind]
  dsimp only
  rw [audit_bind_lift _ hlinks]
  simp only [hring.prevLink_head, hlen, ne_eq, not_true_eq_false, if_false]

theorem Shows.checkLists (hs : h.Shows k) (walked : Nat) (l : List (Fin bucketCount))
    (hr : (l.map fun b => (k.lists b).length).sum ≤ room) :
    l.foldlM (Audit.checkList h.bins h.arena walked) room =
      pure (room - (l.map fun b => (k.lists b).length).sum) := by
  induction l generalizing room with
  | nil => rfl
  | cons b l ih =>
    rw [List.map_cons, List.sum_cons] at hr
    rw [List.foldlM_cons, hs.checkList walked b (by omega), pure_bind, ih (by omega), List.map_cons,
      List.sum_cons, Nat.sub_sub]

theorem Shows.check (hs : h.Shows k) (hk : k.Settled) : h.check = .ok (.ok ()) := by
  have hwalk := hs.walk hk (List.nil_append _).symm hs.low h.arena.low 0
  rw [Nat.zero_add, hs.low] at hwalk
  have hlists := hs.checkLists (k.sites false).length (List.finRange bucketCount)
    (Nat.le_of_eq hk.sum_lengths)
  rw [hk.sum_lengths, Nat.sub_self] at hlists
  have hall : Audit.checkLists h.bins h.arena (k.sites false).length = pure () := by
    rw [Audit.checkLists, hlists, pure_bind]
    rfl
  change (Audit.check h.bins h.arena : Audit Unit) = pure ()
  rw [Audit.check, hs.low]
  refine (congrArg (· >>= _) hwalk).trans ?_
  rw [pure_bind]
  exact hall

open HeapM

theorem meets_verify {β : Type} {limit : Stats} {R : β → Heap H → Prop} {f : Unit → HeapM H β}
    (hs : h.Shows k) (hk : k.Settled) (op : Operation) (hf : (f ()).Meets h limit R) :
    (verify op >>= f).Meets h limit R := by
  have hv : (verify op).Meets h limit fun _ h' => h' = h := by
    apply meets_get
    split
    · apply meets_get
      exact meets_lift (hs.check hk) (meets_pure rfl)
    · exact meets_pure rfl
  refine hv.bind ?_
  rintro _ _ rfl
  exact hf

theorem payload_meets {t : Tag} {limit : Stats} (hs : h.Shows k) (hx : (x, t) ∈ k.blocks) :
    (payload x).Meets h limit fun ptr h' => ptr = x + headerSize ∧ h' = h := by
  have hb := hs.tidy.of_block hx
  have hroom := hs.tidy.room
  simp only [minBlock, wordSize, headerSize] at *
  apply meets_lift (plus_eq_ok (by simp only [headerSize, wordSize]; omega))
  refine meets_step (fun j => ?_) ⟨rfl, rfl⟩
  rw [exec_view, Arena.pointer, if_pos (by rw [hs.top]; simp only [headerSize, wordSize]; omega)]
  rfl

theorem blockAt_meets {t : Tag} {limit : Stats} (hs : h.Shows k) (hx : (x, t) ∈ k.blocks) :
    (blockAt (x + headerSize)).Meets h limit fun y h' => y = x ∧ h' = h := by
  have hb := hs.tidy.of_block hx
  have hroom := hs.tidy.room
  have hc : h.arena.contains (x + headerSize) := by
    simp only [Arena.contains, hs.low, hs.top, minBlock, wordSize, headerSize, Bool.and_eq_true,
      decide_eq_true_eq] at *
    omega
  apply meets_view (Arena.offset_of_contains hc)
  refine meets_step (fun j => ?_) ⟨rfl, rfl⟩
  rw [exec_lift, minus_eq_ok (Nat.le_add_left _ _), Nat.add_sub_cancel]
  rfl

end Heap

end SegregatedFit
