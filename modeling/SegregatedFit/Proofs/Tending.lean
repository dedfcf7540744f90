import Mathlib
import SegregatedFit.Proofs.Mirrored
import SegregatedFit.Proofs.Promises
import SegregatedFit.Trace.Replay

/-!
Traces as what they ask for: read alone, and as the calls of a client that keeps to them. The client
fills each payload that it gets, and finds it filled for as long as it has it.
-/
namespace SegregatedFit

open Row Memory

def others {α : Type} (l : List (Nat × α)) (id : Nat) : List (Nat × α) := l.filter fun e => e.1 ≠ id

theorem mem_others {α : Type} {l : List (Nat × α)} {id : Nat} {e : Nat × α} :
    e ∈ others l id ↔ e ∈ l ∧ e.1 ≠ id := by
  simp [others]

theorem others_subset {α : Type} (l : List (Nat × α)) (id : Nat) : others l id ⊆ l :=
  List.filter_sublist.subset

theorem nodup_others {α : Type} {l : List (Nat × α)} (h : (l.map Prod.fst).Nodup) (id : Nat) :
    (id :: (others l id).map Prod.fst).Nodup := by
  refine List.nodup_cons.mpr ⟨fun hm => ?_, (List.filter_sublist.map Prod.fst).nodup h⟩
  obtain ⟨e, he, heq⟩ := List.mem_map.mp hm
  exact (mem_others.mp he).2 heq

theorem others_eq_self {α : Type} {l : List (Nat × α)} {id : Nat} (h : id ∉ l.map Prod.fst) :
    others l id = l := by
  refine List.filter_eq_self.mpr fun e he => ?_
  have hne : e.1 ≠ id := fun heq => h (heq ▸ List.mem_map_of_mem he)
  simpa using hne

theorem perm_others {α : Type} {l : List (Nat × α)} {e : Nat × α} (hl : (l.map Prod.fst).Nodup)
    (he : e ∈ l) : l.Perm (e :: others l e.1) := by
  have hnd := (nodup_others hl e.1).of_cons.of_map
  refine (List.perm_ext_iff_of_nodup hl.of_map (List.nodup_cons.mpr ⟨?_, hnd⟩)).mpr fun q => ?_
  · exact fun hm => (mem_others.mp hm).2 rfl
  · rw [List.mem_cons, mem_others]
    constructor
    · intro hq
      by_cases heq : q.1 = e.1
      · exact .inl (List.inj_on_of_nodup_map hl hq he heq)
      · exact .inr ⟨hq, heq⟩
    · rintro (rfl | ⟨hq, -⟩)
      · exact he
      · exact hq

/-- The live ids, each with the size last asked for, after one more request. -/
def Request.apply (live : List (Nat × Nat)) : Request → List (Nat × Nat)
  | .allocate id size => (id, size) :: live
  | .reallocate id size => (id, size) :: others live id
  | .free id => others live id

/-- What is wrong with a request where these ids are live. -/
def Request.flaw? (live : List (Nat × Nat)) : Request → Option ReplayFlaw
  | .allocate id _ => if id ∈ live.map Prod.fst then some (.duplicateId id) else none
  | .reallocate id _ => if id ∈ live.map Prod.fst then none else some (.unknownId id)
  | .free id => if id ∈ live.map Prod.fst then none else some (.unknownId id)

theorem Request.exists_of_flaw {live : List (Nat × Nat)} {request : Request} {flaw : ReplayFlaw}
    (h : request.flaw? live = some flaw) : ∃ id, flaw = .duplicateId id ∨ flaw = .unknownId id := by
  cases request <;> rw [flaw?] at h <;> split at h <;> cases h
  · exact ⟨_, .inl rfl⟩
  · exact ⟨_, .inr rfl⟩
  · exact ⟨_, .inr rfl⟩

namespace Trace

def sizes (t : Trace) : List (Nat × Nat) := t.foldl Request.apply []

/-- The first request, of those that begin with number `n`, that is about an id as it is not. -/
def misuseFrom (n : Nat) (live : List (Nat × Nat)) : Trace → Option ReplayError
  | [] => none
  | request :: rest =>
    match request.flaw? live with
    | some flaw => some ⟨n, flaw⟩
    | none => misuseFrom (n + 1) (request.apply live) rest

def misuse (t : Trace) : Option ReplayError := misuseFrom 0 [] t

theorem misuseFrom_append {n : Nat} {live : List (Nat × Nat)} {before : Trace} (after : Trace)
    (h : misuseFrom n live before = none) : misuseFrom n live (before ++ after) =
      misuseFrom (n + before.length) (before.foldl Request.apply live) after := by
  induction before generalizing n live with
  | nil => rfl
  | cons request rest ih =>
    rw [misuseFrom] at h
    rw [List.cons_append, misuseFrom, List.foldl_cons, List.length_cons, Nat.add_comm rest.length,
      ← Nat.add_assoc]
    cases hflaw : request.flaw? live with
    | some flaw =>
      rw [hflaw] at h
      cases h
    | none =>
      rw [hflaw] at h
      exact ih h

end Trace

abbrev Table := List (Nat × Nat × Nat)

namespace Table

def sizes (tab : Table) : List (Nat × Nat) := tab.map fun e => (e.1, e.2.2)

theorem map_fst_sizes (tab : Table) : tab.sizes.map Prod.fst = tab.map Prod.fst := by
  rw [sizes, List.map_map]
  rfl

theorem sizes_others (tab : Table) (id : Nat) : sizes (others tab id) = others tab.sizes id := by
  rw [sizes, sizes, others, others, List.filter_map]
  rfl

end Table

namespace Request

variable {tab : Table} {request : Request} {c : Call}

inductive Calls (tab : Table) : Request → Call → Prop
  | allocate {id size : Nat} : id ∉ tab.map Prod.fst → Calls tab (.allocate id size) (.allocate size)
  | reallocate {id size ptr old : Nat} : (id, ptr, old) ∈ tab →
    Calls tab (.reallocate id size) (.reallocate ptr size)
  | free {id ptr old : Nat} : (id, ptr, old) ∈ tab → Calls tab (.free id) (.free ptr)

def record (tab : Table) : Request → Option Nat → Table
  | .allocate id size, some ptr => (id, ptr, size) :: tab
  | .reallocate id size, some ptr => (id, ptr, size) :: others tab id
  | .free id, _ => others tab id
  | _, none => tab

theorem Calls.flaw_eq (hc : request.Calls tab c) : request.flaw? tab.sizes = none := by
  cases hc with
  | allocate hid => rw [flaw?, Table.map_fst_sizes, if_neg hid]
  | reallocate hid | free hid =>
    rw [flaw?, Table.map_fst_sizes, if_pos (List.mem_map_of_mem (f := Prod.fst) hid)]

theorem exists_calls (hf : request.flaw? tab.sizes = none) : ∃ c, request.Calls tab c := by
  cases request with
  | allocate id size =>
    rw [flaw?, Table.map_fst_sizes] at hf
    split at hf
    · cases hf
    · next hid => exact ⟨_, .allocate hid⟩
  | reallocate id size =>
    rw [flaw?, Table.map_fst_sizes] at hf
    split at hf
    · next hid =>
      obtain ⟨⟨_, ptr, old⟩, he, rfl⟩ := List.mem_map.mp hid
      exact ⟨_, .reallocate he⟩
    · cases hf
  | free id =>
    rw [flaw?, Table.map_fst_sizes] at hf
    split at hf
    · next hid =>
      obtain ⟨⟨_, ptr, old⟩, he, rfl⟩ := List.mem_map.mp hid
      exact ⟨_, .free he⟩
    · cases hf

end Request

namespace Session

variable {H : Type}

def fill (s : Session H) (id ptr size : Nat) : Session H :=
  { s with heap := s.heap.mapMem (·.fill ptr (Playback.pattern id) size) }

def fillFor (s : Session H) : Request → Option Nat → Session H
  | .allocate id size, some ptr => s.fill id ptr size
  | .reallocate id size, some ptr => s.fill id ptr size
  | _, _ => s

variable [Host H]

/-- A client that keeps to the trace, and is granted all that it asks for, is led from one session and
table to the other. -/
inductive Plays : Session H → Table → Trace → Session H → Table → Prop
  | nil {s : Session H} {tab : Table} : Plays s tab [] s tab
  | cons {s s₁ s₂ : Session H} {tab tab₂ : Table} {request : Request} {rest : Trace} {c : Call}
    {a : Option Nat} : request.Calls tab c → s.step c = .ok (.ok a, s₁) →
      Plays (s₁.fillFor request a) (request.record tab a) rest s₂ tab₂ →
        Plays s tab (request :: rest) s₂ tab₂

omit [Host H] in
theorem answer_some {a : Option Nat} {r : Except Refusal Nat} (h : (.ok a : Answer) = r.map some) :
    ∃ ptr, a = some ptr := by
  cases r with
  | ok ptr => exact ⟨ptr, Except.ok.inj h⟩
  | error reason => cases h

variable {s s₀ s₁ s₂ : Session H} {cs cs' : List Call} {k : Sketch H} {c : Call} {a : Option Nat}
  {tab tab₁ : Table} {request : Request} {t : Trace} {id m n ptr x : Nat}

theorem step_write (s : Session H) (ptr i : Nat) (b : UInt8) :
    s.step (.write ptr i b) = .ok (.ok none, ⟨s.heap.mapMem (·.setByte (ptr + i) b), s.live⟩) := by
  apply step_of_exec
  rw [Call.perform, HeapM.exec_bind, Heap.exec_edit]
  rfl

theorem Follows.run_fill [LawfulHost H] (hf : s.Follows cs k) (hr : Run cs s)
    (hx : (x, m) ∈ k.sites true) (b : UInt8) {i : Nat} (hn : i + n ≤ m - headerSize) :
    ∃ cs', Run cs' ⟨s.heap.mapMem (·.fill (x + headerSize + i) b n), s.live⟩ ∧
      Follows ⟨s.heap.mapMem (·.fill (x + headerSize + i) b n), s.live⟩ cs' k := by
  -- a byte is a call, so that the run gets longer with each one and the sketch stays as it is
  induction n generalizing s cs i with
  | zero => exact ⟨cs, hr, hf⟩
  | succ n ih =>
    have hc := hf.allows (c := .write (x + headerSize) i b) ⟨x, m, hx, rfl, show i < m - headerSize by omega⟩
    have hstep := s.step_write (x + headerSize) i b
    exact ih (hf.of_step hc hstep).2 (hr.step hc hstep) (show i + 1 + n ≤ m - headerSize by omega)

theorem Follows.room (hf : s.Follows cs k) (hp : (ptr, n) ∈ s.live) :
    ∃ m, s.heap.usableSize ptr = .ok m ∧ n ≤ m := by
  obtain ⟨x, m, hx, rfl, hn⟩ := hf.tracks.placed hp
  exact ⟨m - headerSize, hf.shows.usableSize_eq hx, by omega⟩

omit [Host H] in
theorem Keeps.trans (h : s.Keeps s₁ ptr) (h' : s₁.Keeps s₂ ptr) : s.Keeps s₂ ptr := by
  obtain ⟨n, h1, h2, hb⟩ := h
  obtain ⟨m, h3, h4, hb'⟩ := h'
  obtain rfl : n = m := Except.ok.inj (h2.symm.trans h3)
  exact ⟨n, h1, h4, fun i hi => (hb' i hi).trans (hb i hi)⟩

omit [Host H] in
theorem Keeps.byte_eq {i : Nat} (h : s.Keeps s₁ ptr) (hn : s.heap.usableSize ptr = .ok n) (hi : i < n) :
    s₁.byte (ptr + i) = s.byte (ptr + i) := by
  obtain ⟨m, h1, -, hb⟩ := h
  obtain rfl : n = m := Except.ok.inj (hn.symm.trans h1)
  exact hb i hi

omit [Host H] in
theorem byte_fill_self {i : Nat} (s : Session H) (hi : i < n) :
    (s.fill id ptr n).byte (ptr + i) = Playback.pattern id :=
  (Memory.byte_fill _ _ _ _ _).trans (if_pos ⟨Nat.le_add_right _ _, Nat.add_lt_add_left hi _⟩)

theorem Follows.fill_keeps (hf : s.Follows cs k) (hf' : (s.fill id ptr n).Follows cs' k)
    (hp : (ptr, n) ∈ s.live) {q : Nat} (hq : q ∈ s.live.pointers) (hne : q ≠ ptr) :
    s.Keeps (s.fill id ptr n) q := by
  obtain ⟨x, m, hx, rfl, hn⟩ := hf.tracks.placed hp
  obtain ⟨y, l, hy, rfl⟩ := hf.site hq
  have hz := hf.valid.settled.tidy.of_site hy
  refine ⟨l - headerSize, hf.shows.usableSize_eq hy, hf'.shows.usableSize_eq hy, fun i hi => ?_⟩
  refine (Memory.byte_fill _ _ _ _ _).trans (if_neg ?_)
  simp only [minBlock, headerSize, wordSize] at *
  rcases sites_apart hx hy with he | hxy | hyx
  · exact absurd (congrArg (· + 8) he.1.symm) hne
  · omega
  · omega

/-- The session, which was `s₀` before, serves a client whose table is `tab`. -/
structure Tends (s₀ : Session H) (tab : Table) (s : Session H) : Prop where
  reached : ∃ cs k, Run cs s ∧ s.Follows cs k
  live : s.live = tab.map Prod.snd ++ s₀.live
  ids : (tab.map Prod.fst).Nodup
  filled {id ptr n i : Nat} : (id, ptr, n) ∈ tab → i < n → s.byte (ptr + i) = Playback.pattern id
  kept {ptr : Nat} : ptr ∈ s₀.live.pointers → s₀.Keeps s ptr
  base : Host.base s.heap.host = Host.base s₀.heap.host

namespace Tends

theorem mem_live (ht : s₀.Tends tab s) (he : (id, ptr, n) ∈ tab) : (ptr, n) ∈ s.live := by
  rw [ht.live]
  exact List.mem_append_left _ (List.mem_map_of_mem (f := Prod.snd) he)

theorem mem_pointers (ht : s₀.Tends tab s) (hp : ptr ∈ s₀.live.pointers) : ptr ∈ s.live.pointers := by
  rw [ht.live, Live.pointers, List.map_append]
  exact List.mem_append_right _ hp

theorem nodup (ht : s₀.Tends tab s) : s.live.pointers.Nodup := by
  obtain ⟨cs, k, -, hf⟩ := ht.reached
  exact hf.tracks.nodup

theorem drop_live (ht : s₀.Tends tab s) (he : (id, ptr, n) ∈ tab) :
    s.live.drop ptr = (others tab id).map Prod.snd ++ s₀.live := by
  have hnd := ht.nodup
  rw [ht.live, Live.pointers, List.map_append, List.map_map, List.nodup_append] at hnd
  obtain ⟨hnd, -, hapart⟩ := hnd
  rw [ht.live, Live.drop, List.filter_append, others, List.filter_map]
  congr 1
  · refine congrArg (List.map Prod.snd) (List.filter_congr fun e hm => ?_)
    have hiff : e.2.1 = ptr ↔ e.1 = id := by
      constructor
      · intro heq
        exact congrArg Prod.fst (List.inj_on_of_nodup_map hnd hm he heq)
      · intro heq
        rw [List.inj_on_of_nodup_map ht.ids hm he heq]
    simp [hiff]
  · refine List.filter_eq_self.mpr fun p hp => ?_
    have hne := hapart ptr (List.mem_map_of_mem (f := Prod.fst ∘ Prod.snd) he) p.1
      (List.mem_map_of_mem hp)
    simpa using hne.symm

theorem allows (ht : s₀.Tends tab s) (hc : request.Calls tab c) : s.Allows c := by
  cases hc with
  | allocate _ => trivial
  | reallocate he | free he => exact Live.mem_pointers.mpr ⟨_, ht.mem_live he⟩

theorem filled_of_keeps (ht : s₀.Tends tab s) (he : (id, ptr, n) ∈ tab) (hk : s.Keeps s₁ ptr) {i : Nat}
    (hi : i < n) : s₁.byte (ptr + i) = Playback.pattern id := by
  obtain ⟨cs, k, -, hf⟩ := ht.reached
  obtain ⟨m, hm, hle⟩ := hf.room (ht.mem_live he)
  rw [hk.byte_eq hm (hi.trans_le hle), ht.filled he hi]

theorem filled_and_kept (ht : s₀.Tends tab s) (hsub : tab₁ ⊆ tab)
    (hall : ∀ q ∈ (tab₁.map Prod.snd ++ s₀.live).map Prod.fst, s.Keeps s₁ q) :
    (∀ id ptr n i, (id, ptr, n) ∈ tab₁ → i < n → s₁.byte (ptr + i) = Playback.pattern id) ∧
      ∀ ptr ∈ s₀.live.pointers, s₀.Keeps s₁ ptr := by
  rw [List.map_append, List.map_map] at hall
  constructor
  · intro id ptr n i he hi
    refine ht.filled_of_keeps (hsub he) (hall ptr (List.mem_append_left _ ?_)) hi
    exact List.mem_map_of_mem (f := Prod.fst ∘ Prod.snd) he
  · intro ptr hp
    exact (ht.kept hp).trans (hall ptr (List.mem_append_right _ hp))

theorem keeps_others (ht : s₀.Tends tab s) (he : (id, ptr, n) ∈ tab)
    (hkeeps : ∀ q ∈ s.live.pointers, q ≠ ptr → s.Keeps s₁ q) :
    ∀ q ∈ ((others tab id).map Prod.snd ++ s₀.live).map Prod.fst, s.Keeps s₁ q := by
  rw [← ht.drop_live he]
  intro q hq
  obtain ⟨hq, hne⟩ := Live.mem_pointers_drop.mp hq
  exact hkeeps q hq hne

theorem narrow (ht : s₀.Tends tab s) (hr : Run cs s₁) (hf : s₁.Follows cs k)
    (hbase : Host.base s₁.heap.host = Host.base s₀.heap.host) (hsub : tab₁ ⊆ tab)
    (hids : (tab₁.map Prod.fst).Nodup) (hlive : s₁.live = tab₁.map Prod.snd ++ s₀.live)
    (hkeeps : ∀ q ∈ (tab₁.map Prod.snd ++ s₀.live).map Prod.fst, s.Keeps s₁ q) : s₀.Tends tab₁ s₁ := by
  obtain ⟨hfilled, hkept⟩ := ht.filled_and_kept hsub hkeeps
  exact ⟨⟨cs, k, hr, hf⟩, hlive, hids, fun he hi => hfilled _ _ _ _ he hi, fun hp => hkept _ hp, hbase⟩

variable [LawfulHost H]

theorem refill (ht : s₀.Tends tab s) (hr : Run cs s₁) (hf : s₁.Follows cs k)
    (hbase : Host.base s₁.heap.host = Host.base s₀.heap.host) (hsub : tab₁ ⊆ tab)
    (hids : (id :: tab₁.map Prod.fst).Nodup)
    (hlive : s₁.live = (ptr, n) :: (tab₁.map Prod.snd ++ s₀.live))
    (hkeeps : ∀ q ∈ (tab₁.map Prod.snd ++ s₀.live).map Prod.fst, s.Keeps s₁ q) :
    s₀.Tends ((id, ptr, n) :: tab₁) (s₁.fill id ptr n) := by
  have hp : (ptr, n) ∈ s₁.live := hlive ▸ List.mem_cons_self
  obtain ⟨x, m, hx, rfl, hn⟩ := hf.tracks.placed hp
  obtain ⟨cs', hr', hf'⟩ :=
    hf.run_fill hr hx (Playback.pattern id) (show 0 + n ≤ m - headerSize by omega)
  have hnd := hf.tracks.nodup
  rw [hlive, Live.pointers, List.map_cons, List.nodup_cons] at hnd
  -- the others are kept twice, by the call and by what the client writes
  obtain ⟨hfilled, hkept⟩ := ht.filled_and_kept hsub fun q hq => by
    refine (hkeeps q hq).trans (hf.fill_keeps hf' hp ?_ fun he => hnd.1 (he ▸ hq))
    rw [hlive]
    exact List.mem_cons_of_mem _ hq
  refine ⟨⟨cs', k, hr', hf'⟩, hlive, hids, ?_, fun hq => hkept _ hq, hbase⟩
  intro id' ptr' n' i he hi
  rcases List.mem_cons.mp he with heq | he
  · cases heq
    exact byte_fill_self s₁ hi
  · exact hfilled id' ptr' n' i he hi

theorem step (ht : s₀.Tends tab s) (hc : request.Calls tab c) (h : s.step c = .ok (.ok a, s₁)) :
    s₀.Tends (request.record tab a) (s₁.fillFor request a) ∧
      Table.sizes (request.record tab a) = request.apply tab.sizes := by
  obtain ⟨cs, k, hr, hf⟩ := ht.reached
  have hallow := ht.allows hc
  obtain ⟨hm, hf₁⟩ := hf.of_step hallow h
  have hr₁ := hr.step hallow h
  have hbase := (step_base h).trans ht.base
  have hlive := (exec_of_step h).2
  have hkeeps : ∀ q ∈ s.live.pointers, ¬ c.Takes q → s.Keeps s₁ q :=
    fun q hq ht => hf.keeps hallow h hq (.inr ht)
  cases hc with
  | @allocate id size hid =>
    obtain ⟨ptr, rfl⟩ := answer_some hm.answer
    refine ⟨ht.refill hr₁ hf₁ hbase (List.Subset.refl _) (List.nodup_cons.mpr ⟨hid, ht.ids⟩) ?_ ?_, rfl⟩
    · rw [hlive, ← ht.live]
      rfl
    · rw [← ht.live]
      exact fun q hq => hkeeps q hq fun hf => hf
  | @reallocate id size ptr old he =>
    obtain ⟨new, rfl⟩ := answer_some hm.answer
    have hothers := ht.keeps_others he fun q hq hne => hkeeps q hq fun heq => hne heq.symm
    refine ⟨ht.refill hr₁ hf₁ hbase (others_subset tab id) (nodup_others ht.ids id) ?_ hothers,
      congrArg (_ :: ·) (Table.sizes_others tab id)⟩
    rw [hlive, ← ht.drop_live he]
    rfl
  | @free id ptr old he =>
    have hothers := ht.keeps_others he fun q hq hne => hkeeps q hq fun heq => hne heq.symm
    exact ⟨ht.narrow hr₁ hf₁ hbase (others_subset tab id) (nodup_others ht.ids id).of_cons
      (hlive.trans (ht.drop_live he)) hothers, Table.sizes_others tab id⟩

theorem refused {reason : Refusal} (ht : s₀.Tends tab s) (hc : request.Calls tab c)
    (h : s.step c = .ok (.error reason, s₁)) : s₀.Tends tab s₁ := by
  obtain ⟨cs, k, hr, hf⟩ := ht.reached
  have hallow := ht.allows hc
  have hlive : s₁.live = s.live := by
    rw [(exec_of_step h).2]
    cases hc <;> rfl
  refine ht.narrow (hr.step hallow h) (hf.of_step hallow h).2 ((step_base h).trans ht.base)
    (List.Subset.refl tab) ht.ids (hlive.trans ht.live) ?_
  rw [← ht.live]
  exact fun q hq => hf.keeps hallow h hq (.inl ⟨reason, rfl⟩)

end Tends

theorem Follows.tends (hf : s.Follows cs k) (hr : Run cs s) : s.Tends [] s where
  reached := ⟨cs, k, hr, hf⟩
  live := rfl
  ids := List.nodup_nil
  filled he := by cases he
  kept hp := by
    obtain ⟨x, m, hx, rfl⟩ := hf.site hp
    exact ⟨_, hf.shows.usableSize_eq hx, hf.shows.usableSize_eq hx, fun _ _ => rfl⟩
  base := rfl

/-- Along a trace that is granted all it asks for, the client stays served, and the trace is in
order. -/
theorem Plays.tends [LawfulHost H] (hp : s.Plays tab t s₁ tab₁) (ht : s₀.Tends tab s) :
    s₀.Tends tab₁ s₁ ∧ tab₁.sizes = t.foldl Request.apply tab.sizes ∧
      ∀ n, Trace.misuseFrom n tab.sizes t = none := by
  induction hp with
  | nil => exact ⟨ht, rfl, fun _ => rfl⟩
  | cons hc hstep _ ih =>
    obtain ⟨ht', hsizes⟩ := ht.step hc hstep
    obtain ⟨h1, h2, h3⟩ := ih ht'
    rw [hsizes] at h2 h3
    refine ⟨h1, h2, fun n => ?_⟩
    rw [Trace.misuseFrom, hc.flaw_eq]
    exact h3 _

end Session

namespace Sketch

variable {H : Type} {k : Sketch H} {m x : Nat}

def siteAt (k : Sketch H) (ptr : Nat) : Nat × Nat := (ptr - headerSize, k.sizeAt (ptr - headerSize))

theorem Tidy.siteAt_payload (hk : k.Tidy) (hx : (x, m) ∈ k.sites true) :
    k.siteAt (x + headerSize) = (x, m) := by
  rw [siteAt, Nat.add_sub_cancel, hk.sizeAt_site hx]

end Sketch

namespace Session

variable {H : Type} [Host H] {s s₀ : Session H} {cs cs' : List Call} {k k' : Sketch H} {tab : Table}
  {m x : Nat}

theorem Follows.siteAt_pointers_perm (hf : s.Follows cs k) :
    (s.live.pointers.map k.siteAt).Perm (k.sites true) := by
  have htidy := hf.valid.settled.tidy
  have hperm := hf.tracks.pointers_perm (htidy.sized.nodup_sites true prologueSize)
  have hback : ((k.sites true).map fun q => q.1 + headerSize).map k.siteAt = k.sites true := by
    rw [List.map_map]
    exact (List.map_congr_left fun q hq => htidy.siteAt_payload hq).trans (List.map_id _)
  rw [← hback]
  exact hperm.map k.siteAt

theorem Tends.site_of_kept (ht : s₀.Tends tab s) (hf₀ : s₀.Follows cs k) (hf : s.Follows cs' k')
    (hx : (x, m) ∈ k.sites true) : (x, m) ∈ k'.sites true := by
  have hp := hf₀.tracks.owned hx
  obtain ⟨n, h1, h2, -⟩ := ht.kept hp
  obtain ⟨y, l, hy, he⟩ := hf.site (ht.mem_pointers hp)
  obtain rfl : x = y := Nat.add_right_cancel he
  have hm := (hf₀.valid.settled.tidy.of_site hx).2.2.1
  have hl := (hf.valid.settled.tidy.of_site hy).2.2.1
  rw [hf₀.shows.usableSize_eq hx] at h1
  rw [hf.shows.usableSize_eq hy] at h2
  have h1 := Except.ok.inj h1
  have h2 := Except.ok.inj h2
  have h32 : minBlock = 32 := rfl
  have h8 : headerSize = 8 := rfl
  obtain rfl : m = l := by omega
  exact hy

theorem Tends.usedBlocks (ht : s₀.Tends tab s) (hf₀ : s₀.Follows cs k) :
    ∃ added, List.Forall₂ (fun e q => q.1 + headerSize = e.2.1 ∧ e.2.2 + headerSize ≤ q.2) tab added ∧
      s.heap.usedBlocks.Perm (added ++ s₀.heap.usedBlocks) := by
  obtain ⟨cs', k', -, hf⟩ := ht.reached
  rw [hf.shows.usedBlocks_eq, hf₀.shows.usedBlocks_eq]
  refine ⟨tab.map fun e => k'.siteAt e.2.1, ?_, ?_⟩
  · refine List.forall₂_map_right_iff.mpr (List.forall₂_same.mpr fun e he => ?_)
    obtain ⟨x, m, hx, heq, hm⟩ := hf.tracks.placed (ht.mem_live he)
    rw [heq, hf.valid.settled.tidy.siteAt_payload hx]
    exact ⟨rfl, hm⟩
  · -- the blocks can be told from their pointers, and those are the live ones on either side
    have hsame : s₀.live.pointers.map k'.siteAt = s₀.live.pointers.map k.siteAt := by
      refine List.map_congr_left fun ptr hp => ?_
      obtain ⟨x, m, hx, rfl⟩ := hf₀.site hp
      rw [hf.valid.settled.tidy.siteAt_payload (ht.site_of_kept hf₀ hf hx),
        hf₀.valid.settled.tidy.siteAt_payload hx]
    have hsplit : s.live.pointers.map k'.siteAt =
        (tab.map fun e => k'.siteAt e.2.1) ++ s₀.live.pointers.map k.siteAt := by
      rw [← hsame, ht.live, Live.pointers, List.map_append, List.map_append, List.map_map, List.map_map]
      rfl
    have hperm := hf.siteAt_pointers_perm
    rw [hsplit] at hperm
    exact hperm.symm.trans (hf₀.siteAt_pointers_perm.append_left _)

end Session

end SegregatedFit
