import Mathlib
import SegregatedFit.Proofs.Watched

/-!
What a heap asks its host for. A growth goes for one top, and its host is asked for what is missing of
it. Both what is asked and what growth goes for are seen by hosts that keep a log and answer as they do
without, and the tops that a call goes for are told from the call and from where the top is.
-/
namespace SegregatedFit

open Row HeapM

variable {H : Type}

/-- A host, and what it was asked for: what was committed at the time, and how many bytes more. -/
structure Logged (H : Type) where
  host : H
  asked : List (Nat × Nat)

/-- A host that never admits to have committed anything, so that every growth asks it for the new top,
and the host that stands behind it. -/
structure Tried (H : Type) where
  host : H
  tried : List (Nat × Nat)

/-- What a host is asked for when a growth goes for the top `q.1` while `q.2` is committed. -/
def missing (q : Nat × Nat) : Option (Nat × Nat) :=
  if q.2 < q.1 then some (q.2, q.1 - q.2) else none

section

variable [Host H]

namespace Logged

def start (host : H) : Logged H := ⟨host, []⟩

def extend (w : Logged H) (n : Nat) : Extension (Logged H) :=
  let e := Host.extend w.host n
  ⟨⟨e.host, w.asked ++ [(Host.committed w.host, n)]⟩, e.granted, e.events⟩

instance : Host (Logged H) where
  base w := Host.base w.host
  committed w := Host.committed w.host
  extend := extend

def coupling (host : H) : Host.Coupling H (Logged H) :=
  .ofExtend ⟨start host⟩ (fun host w => w.host = host) (fun _ => True)
    (fun _ _ h => congrArg Host.committed h) (fun _ _ _ => trivial)
    fun _ _ _ h _ _ => by subst h; exact ⟨rfl, rfl⟩

theorem secure_eq (w : Logged H) (top delta : Nat) : Host.secure w top delta =
    ((Host.secure w.host top delta).1, ⟨(Host.secure w.host top delta).2, w.asked ++
      if wordLimit ≤ top + delta then []
      else (missing (top + delta, Host.committed w.host)).toList⟩) := by
  have hcommitted : Host.committed w = Host.committed w.host := rfl
  have hextend (n : Nat) : Host.extend w n = w.extend n := rfl
  unfold Host.secure
  by_cases hlim : wordLimit ≤ top + delta
  · simp only [if_pos hlim, List.append_nil]
  · simp only [if_neg hlim, hcommitted, missing]
    by_cases hc : Host.committed w.host < top + delta
    · simp only [if_pos hc, hextend]
      rfl
    · simp only [if_neg hc, Option.toList_none, List.append_nil]

end Logged

namespace Tried

def start (host : H) : Tried H := ⟨host, []⟩

def extend (w : Tried H) (top : Nat) : Extension (Tried H) :=
  let e := Host.secure w.host 0 top
  ⟨⟨e.2, w.tried ++ [(top, Host.committed w.host)]⟩, e.1.map fun _ => 0, #[]⟩

instance : Host (Tried H) where
  base w := Host.base w.host
  committed _ := 0
  extend := extend

theorem secure_eq (w : Tried H) {top delta : Nat} (hpos : 0 < top + delta) : Host.secure w top delta =
    ((Host.secure w.host top delta).1, ⟨(Host.secure w.host top delta).2, w.tried ++
      if wordLimit ≤ top + delta then [] else [(top + delta, Host.committed w.host)]⟩) := by
  have hcommitted : Host.committed w = 0 := rfl
  have hextend (n : Nat) : Host.extend w n = w.extend n := rfl
  by_cases hlim : wordLimit ≤ top + delta
  · simp only [Host.secure, if_pos hlim, List.append_nil]
  · have hzero : Host.secure w.host 0 (top + delta) = Host.secure w.host top delta := by
      simp only [Host.secure, Nat.zero_add, if_neg hlim]
    have hunit (r : Except Refusal Unit) : (r.map fun _ => 0).map (fun _ : Nat => ()) = r := by
      cases r <;> rfl
    rw [Host.secure, if_neg hlim, if_neg hlim, hcommitted, if_pos hpos, Nat.sub_zero, hextend, extend, hzero]
    simp only [hunit]

theorem secure_zero (w : Tried H) : Host.secure w 0 0 = (.ok (), w) := by
  rw [Host.secure, if_neg (by decide), if_neg (by exact Nat.not_lt_zero _)]

def coupling (host : H) : Host.Coupling H (Tried H) where
  nonempty := ⟨start host⟩
  rel host w := w.host = host
  guard _ := True
  reasons := Eq
  refl _ := rfl
  back _ := trivial
  secure {host w top delta} hw _ := by
    subst hw
    by_cases hpos : 0 < top + delta
    · rw [secure_eq w hpos]
      exact ⟨Refusal.agree_self _, rfl⟩
    · obtain ⟨rfl, rfl⟩ : top = 0 ∧ delta = 0 := by omega
      rw [secure_zero, Host.secure, if_neg (by decide), if_neg (Nat.not_lt_zero _)]
      exact ⟨Refusal.agree_self _, rfl⟩

def explains (host : H) : Host.Coupling (Logged H) (Tried H) where
  nonempty := ⟨start host⟩
  rel l w := w.host = l.host ∧ l.asked = w.tried.filterMap missing
  guard _ := True
  reasons := Eq
  refl _ := rfl
  back _ := trivial
  secure {l w top delta} hw _ := by
    obtain ⟨host, asked⟩ := l
    obtain ⟨rfl, rfl⟩ := hw
    rw [Logged.secure_eq]
    by_cases hpos : 0 < top + delta
    · rw [secure_eq w hpos]
      refine ⟨Refusal.agree_self _, rfl, ?_⟩
      dsimp only
      split
      · rw [List.append_nil, List.append_nil]
      · rw [List.filterMap_append, List.filterMap_cons, List.filterMap_nil]
        cases missing (top + delta, Host.committed host) <;> rfl
    · obtain ⟨rfl, rfl⟩ : top = 0 ∧ delta = 0 := by omega
      rw [secure_zero, Host.secure, if_neg (by decide), if_neg (Nat.not_lt_zero _)]
      refine ⟨Refusal.agree_self _, rfl, ?_⟩
      simp [missing]

theorem secure_reaches {w : Tried H} {v : Watched H} (hhost : v.host = w.host)
    (hsub : v.reached.Sublist (w.tried.map Prod.fst)) (top delta : Nat) :
    Refusal.Agree Eq (Host.secure w top delta).1 (Host.secure v top delta).1 ∧
      (Host.secure v top delta).2.host = (Host.secure w top delta).2.host ∧
      (Host.secure v top delta).2.reached.Sublist ((Host.secure w top delta).2.tried.map Prod.fst) := by
  by_cases hpos : 0 < top + delta
  · rw [secure_eq w hpos, Watched.secure_eq v hpos, hhost]
    rcases ho : Host.secure w.host top delta with ⟨reason | _, host⟩
    · refine ⟨.error rfl, rfl, ?_⟩
      rw [List.map_append]
      exact hsub.trans (List.sublist_append_left _ _)
    · rw [if_neg (Nat.not_le.mpr (Host.room_of_secure ho))]
      refine ⟨.ok (), rfl, ?_⟩
      simpa using hsub
  · obtain ⟨rfl, rfl⟩ : top = 0 ∧ delta = 0 := by omega
    have hnone : Host.secure v 0 0 = (.ok (), v) := by
      rw [Host.secure, if_neg (by decide), if_neg (by exact Nat.not_lt_zero _)]
    rw [secure_zero, hnone]
    exact ⟨.ok (), hhost, hsub⟩

def reaches (host : H) : Host.Coupling (Tried H) (Watched H) where
  nonempty := Watched.nonempty host
  rel w v := v.host = w.host ∧ v.reached.Sublist (w.tried.map Prod.fst)
  guard _ := True
  reasons := Eq
  refl _ := rfl
  back _ := trivial
  secure h _ := secure_reaches h.1 h.2 _ _

end Tried

namespace Heap

variable {j : Journal} {delta : Nat} {r : Except Refusal Nat}

/-- A growth by `delta` raises the top by as much or leaves it where it is, and asks its host for no more
and no less than what the new top takes beyond what is committed. -/
theorem grow_asks (h : Heap (Logged H)) (delta : Nat) (j : Journal) :
    ∃ (r : Except Refusal Nat) (h' : Heap (Logged H)), ((grow delta).exec h j).1 = .ok (r, h') ∧
      ((r = .ok h.arena.top ∧ h'.arena.top = h.arena.top + delta) ∨
        ((∃ reason, r = .error reason) ∧ h'.arena.top = h.arena.top)) ∧
      h'.host.asked = h.host.asked ++
        if h.arena.top + delta < wordLimit ∧ Host.committed h.host.host < h.arena.top + delta then
          [(Host.committed h.host.host, h.arena.top + delta - Host.committed h.host.host)]
        else [] := by
  have hasked : (Host.secure h.host h.arena.top delta).2.asked = h.host.asked ++
      if h.arena.top + delta < wordLimit ∧ Host.committed h.host.host < h.arena.top + delta then
        [(Host.committed h.host.host, h.arena.top + delta - Host.committed h.host.host)]
      else [] := by
    rw [Logged.secure_eq]
    by_cases hlim : wordLimit ≤ h.arena.top + delta
    · rw [if_pos hlim, if_neg fun hc => absurd hc.1 (Nat.not_lt.mpr hlim)]
    · rw [if_neg hlim, missing]
      by_cases hc : Host.committed h.host.host < h.arena.top + delta
      · rw [if_pos hc, if_pos ⟨Nat.not_le.mp hlim, hc⟩]
        rfl
      · rw [if_neg hc, if_neg fun hboth => hc hboth.2]
        rfl
  match hs : Host.secure h.host h.arena.top delta with
  | (.ok (), host) =>
    rw [hs] at hasked
    exact ⟨_, _, exec_grow_ok j hs, .inl ⟨rfl, rfl⟩, hasked⟩
  | (.error reason, host) =>
    rw [hs] at hasked
    exact ⟨_, _, exec_grow_error j hs, .inr ⟨⟨_, rfl⟩, rfl⟩, hasked⟩

theorem grow_tries {h h' : Heap (Tried H)} (hpos : 0 < h.arena.top + delta)
    (hlim : h.arena.top + delta < wordLimit) (hr : ((grow delta).exec h j).1 = .ok (r, h')) :
    h'.host.tried = h.host.tried ++ [(h.arena.top + delta, Host.committed h.host.host)] := by
  have hs := h.host.secure_eq hpos
  rw [if_neg (Nat.not_le.mpr hlim)] at hs
  match ho : (Host.secure h.host.host h.arena.top delta).1 with
  | .ok () =>
    rw [ho] at hs
    rw [exec_grow_ok j hs] at hr
    cases hr
    rfl
  | .error reason =>
    rw [ho] at hs
    rw [exec_grow_error j hs] at hr
    cases hr
    rfl

theorem perform_init_meets_host (h : Heap H) (limit : Stats) :
    Call.init.perform.Meets h limit fun _ h' => h'.host = (Host.secure h.host 0 prologueSize).2 := by
  refine (init_meets h limit).bind ?_
  intro r h' hr
  apply meets_pure
  match hs : Host.secure h.host 0 prologueSize with
  | (.ok (), host) =>
    rw [hs] at hr
    exact hr.2.1.host
  | (.error reason, host) =>
    rw [hs] at hr
    rw [hr.2]

end Heap

namespace Session

variable {H' α : Type} [Host H'] {s s' : Session H} {c : Call} {a : Answer}

def observe (s : Session H) (c : Call) (host : H') (log : H' → List α) : List α :=
  match (s.rehost host).step c with
  | .ok (_, s') => log s'.heap.host
  | .error _ => []

/-- What a call asks its host for, in order: what is committed then, and how many bytes more. -/
def asks (s : Session H) (c : Call) : List (Nat × Nat) :=
  s.observe c (Logged.start s.heap.host) Logged.asked

/-- The tops that growth goes for in the course of a call, in order, each with what is committed then. -/
def attempts (s : Session H) (c : Call) : List (Nat × Nat) :=
  s.observe c (Tried.start s.heap.host) Tried.tried

theorem step_observe (C : Host.Coupling H H') (hreasons : C.reasons = Eq) (hg : C.guard s'.heap.host)
    (h : s.step c = .ok (a, s')) {host : H'} (hrel : C.rel s.heap.host host) (log : H' → List α) :
    ∃ host', (s.rehost host).step c = .ok (a, s'.rehost host') ∧ C.rel s'.heap.host host' ∧
      s.observe c host log = log host' := by
  obtain ⟨b, host', hstep, hab, hrel'⟩ := step_mirrors C h hrel hg
  rw [hreasons] at hab
  obtain rfl : a = b := hab.eq
  refine ⟨host', hstep, hrel', ?_⟩
  rw [observe, hstep]
  rfl

theorem step_logged (h : s.step c = .ok (a, s')) :
    (s.rehost (Logged.start s.heap.host)).step c =
      .ok (a, s'.rehost (⟨s'.heap.host, s.asks c⟩ : Logged H)) := by
  obtain ⟨w, hw, hhost, hlog⟩ := step_observe (Logged.coupling s.heap.host) rfl trivial h
    (rfl : (Logged.start s.heap.host).host = s.heap.host) Logged.asked
  obtain ⟨host, asked⟩ := w
  obtain rfl : host = s'.heap.host := hhost
  rw [hw, asks, hlog]

theorem step_tried (h : s.step c = .ok (a, s')) :
    (s.rehost (Tried.start s.heap.host)).step c =
      .ok (a, s'.rehost (⟨s'.heap.host, s.attempts c⟩ : Tried H)) := by
  obtain ⟨w, hw, hhost, hlog⟩ := step_observe (Tried.coupling s.heap.host) rfl trivial h
    (rfl : (Tried.start s.heap.host).host = s.heap.host) Tried.tried
  obtain ⟨host, tried⟩ := w
  obtain rfl : host = s'.heap.host := hhost
  rw [hw, attempts, hlog]

theorem asks_eq (h : s.step c = .ok (a, s')) : s.asks c = (s.attempts c).filterMap missing := by
  obtain ⟨w, -, ⟨-, hasked⟩, hlog⟩ := step_observe (Tried.explains s.heap.host) rfl trivial (step_logged h)
    (⟨rfl, rfl⟩ : (Tried.explains s.heap.host).rel (.start s.heap.host) (.start s.heap.host)) Tried.tried
  have hattempts : s.attempts c = w.tried := hlog
  rw [hattempts]
  exact hasked

theorem climbs_sublist (h : s.step c = .ok (a, s')) :
    (s.climbs c).Sublist ((s.attempts c).map Prod.fst) := by
  obtain ⟨v, hv, ⟨-, hsub⟩, -⟩ := step_observe (Tried.reaches s.heap.host) rfl trivial (step_tried h)
    (⟨rfl, .slnil⟩ : (Tried.reaches s.heap.host).rel (.start s.heap.host) (.start s.heap.host)) Watched.reached
  have hstep : (s.rehost (Watched.start s.heap.host)).step c = .ok (a, s'.rehost v) := hv
  have hclimbs : s.climbs c = v.reached := by
    rw [climbs, hstep]
    rfl
  rw [hclimbs]
  exact hsub

end Session

/-- The tops that a call goes for, each one where the ones before are refused, when the top of the heap is
at `top`: a chunk and then the block alone, for a new block, and before that the end of the block that is
to be larger. -/
def Call.goals (top : Nat) : Call → List Nat
  | .allocate request => (blockSize? request).elim [] fun size => [top + chunkFor size, top + size]
  | .reallocate ptr request =>
    (blockSize? request).elim [] fun size => [ptr - headerSize + size, top + chunkFor size, top + size]
  | .init => [prologueSize]
  | .free _ | .write .. => []

namespace Tried

variable {w w' : Tried H} {top delta : Nat} {reason : Refusal}

theorem secure_tries (w : Tried H) (hpos : 0 < top + delta) :
    ∃ tops : List Nat, tops.Sublist [top + delta] ∧ (Host.secure w top delta).2.tried =
      w.tried ++ tops.map fun top => (top, Host.committed w.host) := by
  rw [secure_eq w hpos]
  by_cases hlim : wordLimit ≤ top + delta
  · exact ⟨[], List.nil_sublist _, by rw [if_pos hlim]; rfl⟩
  · exact ⟨[top + delta], List.Sublist.refl _, by rw [if_neg hlim]; rfl⟩

variable [LawfulHost H]

theorem committed_of_secure_error (hpos : 0 < top + delta)
    (h : Host.secure w top delta = (.error reason, w')) :
    Host.committed w'.host = Host.committed w.host := by
  rw [secure_eq w hpos] at h
  obtain ⟨hr, rfl⟩ := Prod.mk.inj h
  exact Host.of_secure_error (Prod.ext hr rfl)

theorem secureChunk_tries (w : Tried H) (hpos : 0 < top) (size : Nat) :
    ∃ tops : List Nat, tops.Sublist [top + chunkFor size, top + size] ∧
      (Host.secureChunk w top size).2.tried =
        w.tried ++ tops.map fun top => (top, Host.committed w.host) := by
  have hchunk : 0 < top + chunkFor size := Nat.add_pos_left hpos _
  have hexact : 0 < top + size := Nat.add_pos_left hpos _
  obtain ⟨tops, hsub, htops⟩ := w.secure_tries hchunk
  have hfirst : tops.Sublist [top + chunkFor size, top + size] := hsub.trans (List.sublist_append_left _ _)
  unfold Host.secureChunk
  match hs : Host.secure w top (chunkFor size) with
  | (.ok (), w₁) =>
    rw [hs] at htops
    exact ⟨tops, hfirst, htops⟩
  | (.error reason, w₁) =>
    rw [hs] at htops
    dsimp only at htops ⊢
    by_cases hlt : size < chunkFor size
    · obtain ⟨tops', hsub', htops'⟩ := w₁.secure_tries hexact
      rw [committed_of_secure_error hchunk hs, htops, List.append_assoc, ← List.map_append] at htops'
      rw [if_pos hlt]
      refine ⟨tops ++ tops', hsub.append hsub', ?_⟩
      rw [← htops']
      split <;> next h => rw [h]
    · rw [if_neg hlt]
      exact ⟨tops, hfirst, htops⟩

end Tried

namespace Sketch

variable {k k₁ k₂ : Sketch (Tried H)} {c : Call} {goals goals' : List Nat} {size : Nat} {t : Tag}

/-- Growth went for some of these tops, and each time as much was committed as before. -/
def Tries (k k₁ : Sketch (Tried H)) (goals : List Nat) : Prop :=
  ∃ tops : List Nat, tops.Sublist goals ∧
    k₁.host.tried = k.host.tried ++ tops.map fun top => (top, Host.committed k.host.host)

theorem Tries.of_eq (h : k₁.host = k.host) : k.Tries k₁ goals :=
  ⟨[], List.nil_sublist _, by rw [h]; exact (List.append_nil _).symm⟩

theorem Tries.congr (h : k.Tries k₁ goals) (he : k₂.host = k₁.host) : k.Tries k₂ goals := by
  rw [Tries, he]
  exact h

theorem Tries.append (h : k.Tries k₁ goals) (h' : k₁.Tries k₂ goals')
    (hc : Host.committed k₁.host.host = Host.committed k.host.host) : k.Tries k₂ (goals ++ goals') := by
  obtain ⟨tops, hsub, htops⟩ := h
  obtain ⟨tops', hsub', htops'⟩ := h'
  rw [htops, hc, List.append_assoc, ← List.map_append] at htops'
  exact ⟨tops ++ tops', hsub.append hsub', htops'⟩

theorem Tries.mono (h : k.Tries k₁ goals) (hg : goals.Sublist goals') : k.Tries k₁ goals' := by
  obtain ⟨tops, hsub, htops⟩ := h
  exact ⟨tops, hsub.trans hg, htops⟩

variable [LawfulHost H]

theorem extend_tries (k : Sketch (Tried H)) (size : Nat) :
    k.Tries (k.extend size).2 [k.top + chunkFor size, k.top + size] := by
  obtain ⟨tops, hsub, htops⟩ := k.host.secureChunk_tries k.top_pos size
  refine ⟨tops, hsub, ?_⟩
  unfold extend
  split
  · next reason w hw =>
    rw [hw] at htops
    exact htops
  · next chunk w hw =>
    rw [hw] at htops
    rw [host_carve]
    exact htops

theorem allocateBlock_tries (k : Sketch (Tried H)) (request : Nat) :
    k.Tries (k.allocateBlock request).2 ((Call.allocate request).goals k.top) := by
  rw [allocateBlock, Call.goals]
  rcases blockSize? request with _ | size
  · exact .of_eq rfl
  have hobtain : k.Tries (k.obtain size).2 [k.top + chunkFor size, k.top + size] := by
    unfold obtain
    split
    · exact k.extend_tries size
    · exact .of_eq (host_place ..)
  dsimp only
  split <;> next h => rw [h] at hobtain; exact hobtain.congr rfl

theorem growTop_tries (k : Sketch (Tried H)) (off : Nat) (hlt : t.size < size) :
    k.Tries (k.growTop off t size).2 [off + size] ∧
      ((k.growTop off t size).1 = false →
        Host.committed (k.growTop off t size).2.host.host = Host.committed k.host.host) := by
  unfold growTop
  by_cases hend : off + t.size ≠ k.top
  · rw [if_pos hend]
    exact ⟨.of_eq rfl, fun _ => rfl⟩
  have hpos : 0 < k.top + (size - t.size) := k.top_pos.trans_le (Nat.le_add_right _ _)
  have htop : k.top + (size - t.size) = off + size := by omega
  obtain ⟨tops, hsub, htops⟩ := k.host.secure_tries hpos
  rw [htop] at hsub
  rw [if_neg hend]
  match hs : Host.secure k.host k.top (size - t.size) with
  | (.ok (), w) =>
    rw [hs] at htops
    exact ⟨⟨tops, hsub, htops⟩, nofun⟩
  | (.error reason, w) =>
    rw [hs] at htops
    exact ⟨⟨tops, hsub, htops⟩, fun _ => Tried.committed_of_secure_error hpos hs⟩

theorem reallocate_tries (k : Sketch (Tried H)) (ptr request : Nat) :
    k.Tries (k.reallocate ptr request).2 ((Call.reallocate ptr request).goals k.top) := by
  rw [reallocate, Call.goals]
  rcases hr : blockSize? request with _ | size
  · exact .of_eq rfl
  rcases (k.cut (ptr - headerSize)).2 with _ | ⟨t, ts⟩
  · exact .of_eq rfl
  dsimp only
  by_cases hle : size ≤ t.size
  · rw [if_pos hle]
    exact .of_eq rfl
  obtain ⟨hgrow, hkept⟩ := k.growTop_tries (ptr - headerSize) (Nat.not_le.mp hle)
  rw [if_neg hle, enlarge]
  rcases hg : k.growTop (ptr - headerSize) t size with ⟨grown, k₁⟩
  rw [hg] at hgrow hkept
  cases grown with
  | true => exact hgrow.mono (List.sublist_append_left _ _)
  | false =>
    -- the block moves, and the top is where it was
    have htop : k₁.top = k.top := by rw [growTop_false hg]; rfl
    have hmove := k₁.allocateBlock_tries request
    rw [Call.goals, hr, htop] at hmove
    have hall := hgrow.append hmove (hkept rfl)
    dsimp only
    split
    · next reason k₂ h₂ =>
      rw [h₂] at hall
      exact hall
    · next target k₂ h₂ =>
      rw [h₂] at hall
      exact hall.congr (host_freeBlock ..)

theorem perform_tries (k : Sketch (Tried H)) (hinit : c ≠ .init) :
    k.Tries (k.perform c).2 (c.goals k.top) := by
  cases c with
  | allocate request =>
    have htries := k.allocateBlock_tries request
    change k.Tries (k.allocate request).2 _
    unfold allocate
    split <;> next h => rw [h] at htries; exact htries.congr rfl
  | free ptr => exact .of_eq (host_freeBlock ..)
  | reallocate ptr request => exact k.reallocate_tries ptr request
  | init => exact absurd rfl hinit
  | write ptr i b => exact .of_eq rfl

end Sketch

namespace Session.Follows

variable [LawfulHost H] {s s' : Session H} {cs : List Call} {c : Call} {k : Sketch H} {a : Answer}

/-- A call goes for the tops that its blocks take, and has as much committed as there was before. -/
theorem attempts_sublist (hf : s.Follows cs k) (hc : s.Allows c) (h : s.step c = .ok (a, s')) :
    (s.attempts c).Sublist
      ((c.goals s.heap.arena.top).map fun top => (top, Host.committed s.heap.host)) := by
  let w := Tried.start s.heap.host
  have htries : ∃ tops : List Nat, tops.Sublist (c.goals s.heap.arena.top) ∧
      s.attempts c = w.tried ++ tops.map fun top => (top, Host.committed w.host) := by
    by_cases hinit : c = .init
    · subst hinit
      have hhost : (⟨s'.heap.host, s.attempts .init⟩ : Tried H) = (Host.secure w 0 prologueSize).2 :=
        (Heap.perform_init_meets_host _ {}).of_ok (exec_of_step (step_tried h)).1
      have hlog : s.attempts .init = (Host.secure w 0 prologueSize).2.tried := by rw [← hhost]
      have hpos : 0 < 0 + prologueSize := by decide
      obtain ⟨tops, hsub, htops⟩ := w.secure_tries hpos
      rw [Nat.zero_add] at hsub
      rw [Call.goals]
      exact ⟨tops, hsub, hlog.trans htops⟩
    · have hshows := hf.rehosted hc hinit (step_tried h)
      obtain ⟨tops, hsub, htops⟩ := (k.rehost w).perform_tries hinit
      rw [← hshows.host] at htops
      exact ⟨tops, hf.shows.top ▸ hsub, htops⟩
  obtain ⟨tops, hsub, htops⟩ := htries
  rw [htops]
  exact hsub.map _

theorem climbs_eq (hf : s.Follows cs k) (hc : s.Allows c) (h : s.step c = .ok (a, s')) :
    (s.climbs c = [] ∧ s'.heap.arena.top ≤ s.heap.arena.top) ∨
      (s.climbs c = [s'.heap.arena.top] ∧ (c ≠ .init → s.heap.arena.top < s'.heap.arena.top)) := by
  have hf' := (hf.of_step hc h).2
  by_cases hinit : c = .init
  · subst hinit
    let w := Watched.start s.heap.host
    have hhost : (⟨s'.heap.host, s.climbs .init⟩ : Watched H) = (Host.secure w 0 prologueSize).2 :=
      (Heap.perform_init_meets_host _ {}).of_ok (exec_of_step (step_watched h)).1
    -- what lies below the top of any heap is committed, so a start is not refused
    have hback : prologueSize ≤ Host.committed s.heap.host := by
      rw [hf.shows.host]
      exact k.prologueSize_le_top.trans hf.valid.backed
    have hsec : Host.secure w.host 0 prologueSize = (.ok (), w.host) :=
      Host.secure_eq_ok (by decide) (by rwa [Nat.zero_add])
    have hpos : 0 < 0 + prologueSize := by decide
    have hnew : (Host.secure w 0 prologueSize).2.reached = [prologueSize] := by
      rw [Watched.secure_eq w hpos, hsec, Nat.zero_add]
      rfl
    have hlog : s.climbs .init = (Host.secure w 0 prologueSize).2.reached := by rw [← hhost]
    have htop : s'.heap.arena.top = prologueSize := hf'.shows.top
    exact .inr ⟨by rw [hlog, hnew, htop], fun hne => absurd rfl hne⟩
  · have htop : k.gauge.top = s.heap.arena.top := hf.shows.top.symm
    have htop' : (k.perform c).2.gauge.top = s'.heap.arena.top := hf'.shows.top.symm
    rw [← htop, ← htop']
    rcases hf.shifts hc hinit h with hrises | ⟨hnone, hsinks⟩
    · obtain ⟨hnone, hgauge⟩ | ⟨hone, hlt⟩ := hrises.eq_or_lt
      · exact .inl ⟨hnone, by rw [hgauge]⟩
      · exact .inr ⟨hone, fun _ => hlt⟩
    · exact .inl ⟨hnone, hsinks.top_le⟩

end Session.Follows

end

end SegregatedFit
