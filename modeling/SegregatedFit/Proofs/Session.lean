import Mathlib
import SegregatedFit.Heap.Reallocate

/-!
Sessions: a heap and the client it serves. The client keeps the pointers it got, calls only for those
it still has, and writes where it likes in its own payloads.
-/
namespace SegregatedFit

inductive Call where
  | allocate (request : Nat)
  | free (ptr : Nat)
  | reallocate (ptr request : Nat)
  | init
  | write (ptr i : Nat) (b : UInt8)
deriving DecidableEq, Repr

abbrev Answer := Except Refusal (Option Nat)

/-- The pointers that were handed out and not given up yet, each with the size last asked for. -/
abbrev Live := List (Nat × Nat)

namespace Live

def pointers (live : Live) : List Nat := live.map Prod.fst

def drop (live : Live) (ptr : Nat) : Live := live.filter fun p => p.1 ≠ ptr

end Live

namespace Call

variable {H : Type}

def perform [Host H] : Call → HeapM H Answer
  | .allocate request => do return (← Heap.allocate request).map some
  | .free ptr => do
    Heap.free ptr
    return .ok none
  | .reallocate ptr request => do return (← Heap.reallocate ptr request).map some
  | .init => do return (← Heap.init).map fun _ => none
  | .write ptr i b => do
    Heap.edit fun a => return a.mapMem (·.setByte (ptr + i) b)
    return .ok none

/-- The live pointers once a call is answered. -/
def record (live : Live) : Call → Answer → Live
  | .allocate request, .ok (some ptr) => (ptr, request) :: live
  | .free ptr, .ok _ => live.drop ptr
  | .reallocate ptr request, .ok (some new) => (new, request) :: live.drop ptr
  | .init, _ => []
  | _, _ => live

def asks : Call → Bool
  | .write .. => false
  | _ => true

/-- Whether an answered call may change what a pointer points to: the client gave it up, or wrote
there. -/
def Takes (ptr : Nat) : Call → Prop
  | .allocate _ => False
  | .free p => p = ptr
  | .reallocate p _ => p = ptr
  | .init => True
  | .write p _ _ => p = ptr

end Call

def calls (cs : List Call) : Nat := cs.countP Call.asks

structure Session (H : Type) where
  heap : Heap H
  live : Live

namespace Session

variable {H : Type}

def byte (s : Session H) (i : Nat) : UInt8 := s.heap.arena.mem.byte i

/-- What a client may do: it frees and resizes live pointers only, and writes only to the bytes that
it may use. -/
def Allows (s : Session H) : Call → Prop
  | .free ptr => ptr ∈ s.live.pointers
  | .reallocate ptr _ => ptr ∈ s.live.pointers
  | .write ptr i _ => ptr ∈ s.live.pointers ∧ ∃ n, s.heap.usableSize ptr = .ok n ∧ i < n
  | _ => True

def step [Host H] (s : Session H) (c : Call) : Except Fault (Answer × Session H) :=
  match (c.perform.exec s.heap #[]).1 with
  | .ok (a, heap) => .ok (a, ⟨heap, c.record s.live a⟩)
  | .error e => .error e

/-- The calls lead to the session, from a heap that was made on whatever memory. -/
inductive Run [Host H] : List Call → Session H → Prop
  | start {host : H} {config : Config} {mem : Memory} {heap : Heap H} :
    (Heap.init.exec (.blank host config mem) #[]).1 = .ok (.ok (), heap) → Run [] ⟨heap, []⟩
  | step {cs : List Call} {s s' : Session H} {c : Call} {a : Answer} :
    Run cs s → s.Allows c → s.step c = .ok (a, s') → Run (cs ++ [c]) s'

def Reachable [Host H] (s : Session H) : Prop := ∃ cs, Run cs s

end Session

/-- Every live pointer has a block that is large enough for it, and every block a live pointer. -/
structure Live.Tracks (live : Live) (sites : List (Nat × Nat)) : Prop where
  nodup : live.pointers.Nodup
  placed {ptr n : Nat} : (ptr, n) ∈ live →
    ∃ x m, (x, m) ∈ sites ∧ ptr = x + headerSize ∧ n + headerSize ≤ m
  owned {x m : Nat} : (x, m) ∈ sites → x + headerSize ∈ live.pointers

namespace Live

variable {live : Live} {sites sites' : List (Nat × Nat)} {m n ptr x : Nat}

theorem mem_drop {p : Nat × Nat} : p ∈ live.drop ptr ↔ p ∈ live ∧ p.1 ≠ ptr := by
  simp [drop]

theorem mem_pointers : ptr ∈ live.pointers ↔ ∃ n, (ptr, n) ∈ live := by
  simp [pointers]

theorem mem_pointers_drop {q : Nat} : q ∈ (live.drop ptr).pointers ↔ q ∈ live.pointers ∧ q ≠ ptr := by
  constructor
  · intro h
    obtain ⟨p, hp, rfl⟩ := List.mem_map.mp h
    obtain ⟨hp, hne⟩ := mem_drop.mp hp
    exact ⟨List.mem_map_of_mem hp, hne⟩
  · rintro ⟨h, hne⟩
    obtain ⟨p, hp, rfl⟩ := List.mem_map.mp h
    exact List.mem_map_of_mem (mem_drop.mpr ⟨hp, hne⟩)

namespace Tracks

theorem nil : Tracks [] [] where
  nodup := List.nodup_nil
  placed h := by cases h
  owned h := by cases h

theorem perm (h : live.Tracks sites) (hp : sites.Perm sites') : live.Tracks sites' where
  nodup := h.nodup
  placed hm := by
    obtain ⟨x, m, hx, he⟩ := h.placed hm
    exact ⟨x, m, hp.subset hx, he⟩
  owned hm := h.owned (hp.symm.subset hm)

theorem cons (h : live.Tracks sites) (hx : x ∉ sites.map Prod.fst) (hn : n + headerSize ≤ m) :
    Tracks ((x + headerSize, n) :: live) ((x, m) :: sites) where
  nodup := by
    refine List.nodup_cons.mpr ⟨fun hm => hx ?_, h.nodup⟩
    obtain ⟨l, hl⟩ := mem_pointers.mp hm
    obtain ⟨y, l, hy, he, -⟩ := h.placed hl
    rw [Nat.add_right_cancel he]
    exact List.mem_map_of_mem hy
  placed hm := by
    rcases List.mem_cons.mp hm with he | hm
    · cases he
      exact ⟨x, m, List.mem_cons_self, rfl, hn⟩
    · obtain ⟨y, l, hy, he⟩ := h.placed hm
      exact ⟨y, l, List.mem_cons_of_mem _ hy, he⟩
  owned hm := by
    rcases List.mem_cons.mp hm with he | hm
    · cases he
      exact List.mem_cons_self
    · exact List.mem_cons_of_mem _ (h.owned hm)

theorem drop (h : live.Tracks ((x, m) :: sites)) (hx : x ∉ sites.map Prod.fst) :
    (live.drop (x + headerSize)).Tracks sites where
  nodup := (List.filter_sublist.map Prod.fst).nodup h.nodup
  placed hm := by
    obtain ⟨hm, hne⟩ := mem_drop.mp hm
    obtain ⟨y, l, hy, he, hn⟩ := h.placed hm
    refine ⟨y, l, ?_, he, hn⟩
    rcases List.mem_cons.mp hy with hyx | hy
    · cases hyx
      exact absurd he hne
    · exact hy
  owned {y l} hm := by
    obtain ⟨n, hn⟩ := mem_pointers.mp (h.owned (List.mem_cons_of_mem _ hm))
    refine mem_pointers.mpr ⟨n, mem_drop.mpr ⟨hn, fun he => hx ?_⟩⟩
    rw [← Nat.add_right_cancel he]
    exact List.mem_map_of_mem hm

theorem pointers_perm (h : live.Tracks sites) (hs : (sites.map Prod.fst).Nodup) :
    live.pointers.Perm (sites.map fun q => q.1 + headerSize) := by
  have hmap : (sites.map fun q => q.1 + headerSize) = (sites.map Prod.fst).map (· + headerSize) := by
    rw [List.map_map]
    rfl
  rw [hmap]
  apply (List.perm_ext_iff_of_nodup h.nodup (hs.map (add_left_injective headerSize))).mpr
  intro ptr
  simp only [List.mem_map, Prod.exists]
  constructor
  · intro hm
    obtain ⟨n, hn⟩ := mem_pointers.mp hm
    obtain ⟨x, m, hx, he, -⟩ := h.placed hn
    exact ⟨x, ⟨x, m, hx, rfl⟩, he.symm⟩
  · rintro ⟨_, ⟨x, m, hx, rfl⟩, rfl⟩
    exact h.owned hx

end Tracks

end Live

end SegregatedFit
