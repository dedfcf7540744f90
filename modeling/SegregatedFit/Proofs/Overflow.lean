import Mathlib
import SegregatedFit.Proofs.Promises

/-!
The one fault that a client can bring about. No assertion ever fails, and no sum or difference leaves
the words, as long as fewer calls are made than there are words, but for the sum that counts merges: a
client can make a heap merge more often than it calls.
-/
namespace SegregatedFit

open Row

namespace Sketch

variable {H : Type} {k : Sketch H} {row row' : Row} {c : Call} {a : Answer}

def entries (row : Row) (b : Fin bucketCount) : List Nat :=
  ((Row.sites false prologueSize row).filter fun q => bucketFor q.2 = b).map Prod.fst

def laidOut (host : H) (config : Config) (row : Row) (stats : Stats) : Sketch H :=
  ⟨host, row, entries row, lastUsed true row, config, stats⟩

theorem Settled.lists_perm_entries (hk : k.Settled) (b : Fin bucketCount) :
    (k.lists b).Perm (entries k.row b) := by
  have hnd : (entries k.row b).Nodup :=
    (List.filter_sublist.map Prod.fst).nodup (hk.tidy.sized.nodup_sites false prologueSize)
  apply (List.perm_ext_iff_of_nodup (hk.tidy.nodup b) hnd).mpr
  intro x
  rw [hk.listed_iff]
  simp [entries, sites]

theorem Settled.eq_laidOut (hk : k.Settled) (hone : ∀ b, (entries k.row b).length ≤ 1) :
    k = laidOut k.host k.config k.row k.stats := by
  have hlists : k.lists = entries k.row := by
    funext b
    have hp := hk.lists_perm_entries b
    match he : entries k.row b with
    | [] =>
      rw [he] at hp
      exact hp.eq_nil
    | [x] =>
      rw [he] at hp
      exact List.perm_singleton.mp hp
    | x :: y :: l =>
      have := hone b
      rw [he] at this
      simp at this
  obtain ⟨host, row, lists, topUsed, config, stats⟩ := k
  obtain rfl : lists = entries row := hlists
  obtain rfl : topUsed = lastUsed true row := hk.topUsed
  rfl

end Sketch

namespace Session

variable {H : Type} [Host H] {s : Session H} {c : Call} {cs : List Call} {k : Sketch H}

/-- The session with no merges counted. -/
def uncounted (s : Session H) : Session H :=
  { s with heap := { s.heap with stats := s.heap.stats.uncounted } }

theorem Follows.uncounted (hf : s.Follows cs k) :
    s.uncounted.Follows cs { k with stats := k.stats.uncounted } where
  shows := by
    have hs := hf.shows.recount hf.shows.fits.uncounted
    rw [← hf.shows.stats] at hs ⊢
    exact hs
  valid := ⟨hf.valid.settled.congr rfl rfl rfl, hf.valid.inUse, hf.valid.backed⟩
  tracks := hf.tracks
  merges := by
    refine Nat.le_trans ?_ hf.merges
    simp [Sketch.merges, Sketch.sites, Stats.uncounted]
  counted d hd := by
    rw [Stats.get_uncounted, if_neg hd]
    exact hf.counted d hd

theorem Follows.uncounted_step_of_lt [LawfulHost H] (hf : s.Follows cs k) (hc : s.Allows c)
    (hlt : ∀ d, d ≠ .coalesces →
      ({ k with stats := k.stats.uncounted }.perform c).2.stats.get d < wordLimit) :
    ∃ a s', s.uncounted.step c = .ok (a, s') := by
  have hm := hf.uncounted.step (c := c) (by cases c <;> exact hc)
  cases hstep : s.uncounted.step c with
  | ok r => exact ⟨r.1, r.2, rfl⟩
  | error e =>
    rw [hstep] at hm
    refine absurd (fun d => ?_) hm.2
    by_cases hd : d = .coalesces
    · subst hd
      by_cases hinit : c = .init
      · rw [hinit]
        exact (by decide : 0 < wordLimit)
      · have hrise := (Sketch.perform_rise { k with stats := k.stats.uncounted } hinit .coalesces).2
        have htwo := c.rise_coalesces_le
        rw [Stats.get_uncounted, if_pos rfl] at hrise
        refine hrise.trans_lt ?_
        simp only [wordLimit]
        omega
    · exact hlt d hd

theorem Follows.uncounted_step [LawfulHost H] (hf : s.Follows cs k) (hc : s.Allows c)
    (hlt : calls (cs ++ [c]) < wordLimit) : ∃ a s', s.uncounted.step c = .ok (a, s') :=
  hf.uncounted_step_of_lt hc fun _ hd => (hf.uncounted.counted_step c hd).trans_lt hlt

/-- A call that faults merges blocks, when almost as many merges are counted as a word can count, and
nothing but that count is in its way. -/
theorem step_ok_or_merges_uncountable [LawfulHost H] (hr : Run cs s) (hc : s.Allows c)
    (hlt : calls (cs ++ [c]) < wordLimit) :
    (∃ a s', s.step c = .ok (a, s')) ∨
    (s.step c = .error .addOverflow ∧
      ((∃ ptr, c = .free ptr) ∨ ∃ ptr request, c = .reallocate ptr request) ∧
      wordLimit ≤ s.heap.stats.coalesces + 2 ∧ wordLimit ≤ tolls (cs ++ [c]) ∧
      ∃ a s', s.uncounted.step c = .ok (a, s')) := by
  obtain ⟨k, hf⟩ := hr.follows
  have hm := hf.step hc
  cases hstep : s.step c with
  | ok r => exact .inl ⟨r.1, r.2, rfl⟩
  | error e =>
    rw [hstep] at hm
    obtain ⟨rfl, hfit⟩ := hm
    have hco : wordLimit ≤ (k.perform c).2.stats.coalesces :=
      Nat.not_lt.mp fun h => hfit (hf.fits hlt h)
    have hinit : c ≠ .init := by
      rintro rfl
      exact absurd (show wordLimit ≤ 0 from hco) (by decide)
    have hrise : (k.perform c).2.stats.coalesces ≤ k.stats.coalesces + c.rise .coalesces :=
      (k.perform_rise hinit .coalesces).2
    have hnow : k.stats.coalesces < wordLimit := hf.shows.fits .coalesces
    have htwo := c.rise_coalesces_le
    refine .inr ⟨rfl, ?_, ?_, ?_, hf.uncounted_step hc hlt⟩
    · cases c with
      | free ptr => exact .inl ⟨ptr, rfl⟩
      | reallocate ptr request => exact .inr ⟨ptr, request, rfl⟩
      | init => exact absurd rfl hinit
      | allocate request | write ptr i b =>
        have hzero : k.stats.coalesces + 0 < wordLimit := hnow
        exact absurd (hco.trans hrise) (Nat.not_le.mpr hzero)
    · rw [hf.shows.stats]
      omega
    · have hmerges := hf.merges_step hc
      rw [Sketch.merges] at hmerges
      omega

theorem step_ok_reallocate :
    ∃ s : Session Reserve, Run [.allocate 24] s ∧ ∃ a s', s.step (.reallocate 448 184) = .ok (a, s') := by
  obtain ⟨s, hr, hf⟩ := exists_run_allocate
  have hc : s.Allows (.reallocate 448 184) := hf.allows ⟨440, 32, by decide, rfl⟩
  refine ⟨s, hr, (step_ok_or_merges_uncountable hr hc (by decide)).resolve_right ?_⟩
  rintro ⟨-, -, -, htolls, -⟩
  exact absurd htolls (by decide)

/-- From an empty heap back to an empty heap, with five merges on the way. -/
def churn : List Call := [.allocate 24, .reallocate 448 184, .reallocate 640 376, .free 1184]

def churns : Nat → List Call
  | 0 => []
  | n + 1 => churns n ++ churn

theorem calls_churns (n : Nat) : calls (churns n) = 4 * n := by
  induction n with
  | zero => rfl
  | succ n ih =>
    have hfour : churn.countP Call.asks = 4 := rfl
    rw [churns, calls, List.countP_append, ← calls, ih, hfour]
    omega

theorem calls_append_le (cs : List Call) (c : Call) : calls (cs ++ [c]) ≤ calls cs + 1 := by
  rw [calls, List.countP_append, ← calls]
  exact Nat.add_le_add_left List.countP_le_length _

def bench (row : Row) (stats : Stats) : Sketch Reserve :=
  .laidOut (.full 4096) .checked row stats

structure Turns (ts : Row) (c : Call) (n : Nat) (ts' : Row) : Prop where
  admits (stats : Stats) : (bench ts stats).Admits c
  host (stats : Stats) : ((bench ts stats).perform c).2.host = .full 4096
  config (stats : Stats) : ((bench ts stats).perform c).2.config = .checked
  row (stats : Stats) : ((bench ts stats).perform c).2.row = ts'
  merges (stats : Stats) : ((bench ts stats).perform c).2.stats.coalesces = stats.coalesces + n
  sparse : ∀ b, (Sketch.entries ts' b).length ≤ 1

def churnRow₁ : Row := [⟨32, true, true⟩, ⟨160, false, true⟩]
def churnRow₂ : Row := [⟨192, false, true⟩, ⟨192, true, false⟩, ⟨352, false, true⟩]
def churnRow₃ : Row := [⟨736, false, true⟩, ⟨384, true, false⟩, ⟨160, false, true⟩]

theorem turns_allocate : Turns [] (.allocate 24) 0 churnRow₁ where
  admits _ := trivial
  host _ := by cbv
  config _ := by cbv
  row _ := by cbv
  merges _ := by cbv
  sparse := by decide

theorem turns_reallocate : Turns churnRow₁ (.reallocate 448 184) 1 churnRow₂ where
  admits _ := ⟨440, 32, (by decide : (440, 32) ∈ Row.sites true prologueSize churnRow₁), rfl⟩
  host _ := by cbv
  config _ := by cbv
  row _ := by cbv
  merges _ := by cbv
  sparse := by decide

set_option maxRecDepth 4000 in
theorem turns_reallocate_again : Turns churnRow₂ (.reallocate 640 376) 2 churnRow₃ where
  admits _ := ⟨632, 192, (by decide : (632, 192) ∈ Row.sites true prologueSize churnRow₂), rfl⟩
  host _ := by cbv
  config _ := by cbv
  row _ := by cbv
  merges _ := by cbv
  sparse := by decide

set_option maxRecDepth 4000 in
theorem turns_free : Turns churnRow₃ (.free 1184) 2 [] where
  admits _ := ⟨1176, 384, (by decide : (1176, 384) ∈ Row.sites true prologueSize churnRow₃), rfl⟩
  host _ := by cbv
  config _ := by cbv
  row _ := by cbv
  merges _ := by cbv
  sparse := by decide

section

variable {s : Session Reserve} {cs : List Call} {c : Call} {n : Nat} {ts ts' : Row} {stats : Stats}

theorem Follows.turn (hf : s.Follows cs (bench ts stats)) (hr : Run cs s) (ht : Turns ts c n ts')
    (hlt : calls cs + 1 < wordLimit) (hco : stats.coalesces + n < wordLimit) :
    ∃ s' stats', s.step c = .ok (((bench ts stats).perform c).1, s') ∧ Run (cs ++ [c]) s' ∧
      s'.Follows (cs ++ [c]) (bench ts' stats') ∧ stats'.coalesces = stats.coalesces + n := by
  have hcalls := (calls_append_le cs c).trans_lt hlt
  obtain ⟨s', hstep, hr', hf'⟩ :=
    hf.advance hr (ht.admits stats) hcalls (by rw [ht.merges]; exact hco)
  have hrow := ht.row stats
  have he := hf'.valid.settled.eq_laidOut (by rw [hrow]; exact ht.sparse)
  rw [ht.host, ht.config, hrow] at he
  rw [he] at hf'
  exact ⟨s', _, hstep, hr', hf', ht.merges stats⟩

theorem Follows.churn (hf : s.Follows cs (bench [] stats)) (hr : Run cs s)
    (hlt : calls cs + 4 < wordLimit) (hco : stats.coalesces + 5 < wordLimit) :
    ∃ s' stats', Run (cs ++ churn) s' ∧ s'.Follows (cs ++ churn) (bench [] stats') ∧
      stats'.coalesces = stats.coalesces + 5 := by
  obtain ⟨s₁, stats₁, -, hr₁, hf₁, hm₁⟩ := hf.turn hr turns_allocate (by omega) (by omega)
  have hc₁ := calls_append_le cs (.allocate 24)
  obtain ⟨s₂, stats₂, -, hr₂, hf₂, hm₂⟩ := hf₁.turn hr₁ turns_reallocate (by omega) (by omega)
  have hc₂ := calls_append_le (cs ++ [.allocate 24]) (.reallocate 448 184)
  obtain ⟨s₃, stats₃, -, hr₃, hf₃, hm₃⟩ := hf₂.turn hr₂ turns_reallocate_again (by omega) (by omega)
  have hc₃ := calls_append_le (cs ++ [.allocate 24] ++ [.reallocate 448 184]) (.reallocate 640 376)
  obtain ⟨s₄, stats₄, -, hr₄, hf₄, hm₄⟩ := hf₃.turn hr₃ turns_free (by omega) (by omega)
  simp only [List.append_assoc, List.cons_append, List.nil_append] at hr₄ hf₄
  exact ⟨s₄, stats₄, hr₄, hf₄, by omega⟩

theorem exists_run_churns (n : Nat) (hn : 5 * n < wordLimit) :
    ∃ s stats, Run (churns n) s ∧ s.Follows (churns n) (bench [] stats) ∧
      stats.coalesces = 5 * n := by
  induction n with
  | zero =>
    have hroom : Host.secure (Reserve.full 4096) 0 prologueSize = (.ok (), .full 4096) := rfl
    obtain ⟨heap, hi, hf⟩ := init_follows hroom .checked .zero
    exact ⟨_, {}, .start hi, hf, rfl⟩
  | succ n ih =>
    obtain ⟨s, stats, hr, hf, hm⟩ := ih (by omega)
    have hcalls := calls_churns n
    obtain ⟨s', stats', hr', hf', hm'⟩ := hf.churn hr (by omega) (by omega)
    exact ⟨s', stats', hr', hf', by omega⟩

theorem exists_fault_of_churns (n : Nat) (hn : 5 * n + 1 = wordLimit) :
    ∃ s : Session Reserve, Run (churns n ++ [.allocate 24]) s ∧ s.Allows (.reallocate 448 184) ∧
      s.heap.host = .full 4096 ∧ s.step (.reallocate 448 184) = .error .addOverflow := by
  have hw : wordLimit = 18446744073709551616 := rfl
  obtain ⟨s, stats, hr, hf, hm⟩ := exists_run_churns n (by omega)
  have hcalls := calls_churns n
  obtain ⟨s', stats', -, hr', hf', hm'⟩ := hf.turn hr turns_allocate (by omega) (by omega)
  have hc := hf'.allows (turns_reallocate.admits stats')
  refine ⟨s', hr', hc, hf'.shows.host, hf'.step_eq_error hc fun hfit => ?_⟩
  have hco : ((bench churnRow₁ stats').perform (.reallocate 448 184)).2.stats.coalesces <
      wordLimit := hfit .coalesces
  rw [turns_reallocate.merges] at hco
  omega

/-- The number of calls alone does not keep the merges countable. -/
theorem merges_overflow_before_calls :
    calls (churns 3689348814741910323 ++ [.allocate 24] ++ [.reallocate 448 184]) < wordLimit ∧
    ∃ s : Session Reserve, Run (churns 3689348814741910323 ++ [.allocate 24]) s ∧
      s.Allows (.reallocate 448 184) ∧ Host.committed s.heap.host < wordLimit / 2 ∧
      s.step (.reallocate 448 184) = .error .addOverflow := by
  have hw : wordLimit = 18446744073709551616 := rfl
  constructor
  · have h1 := calls_append_le (churns 3689348814741910323 ++ [.allocate 24]) (.reallocate 448 184)
    have h2 := calls_append_le (churns 3689348814741910323) (.allocate 24)
    have h3 := calls_churns 3689348814741910323
    omega
  · obtain ⟨s, hr, hc, hhost, hstep⟩ := exists_fault_of_churns 3689348814741910323 (by omega)
    refine ⟨s, hr, hc, ?_, hstep⟩
    rw [hhost]
    decide

end

end Session

end SegregatedFit
