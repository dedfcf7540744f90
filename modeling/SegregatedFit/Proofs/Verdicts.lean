import Mathlib
import SegregatedFit.Proofs.Mirrored

/-!
What hosts answer, written down and read back. Any host may keep a record of its answers, and a heap
cannot tell it from a host that only reads them off a script.
-/
namespace SegregatedFit

/-- What a host makes of a request: it refuses, or it commits this many bytes more than it is asked
for. -/
abbrev Verdict := Except Refusal Nat

structure Recorded (H : Type) where
  host : H
  verdicts : List Verdict

namespace Recorded

variable {H : Type}

def start (host : H) : Recorded H := ⟨host, []⟩

def extend [Host H] (r : Recorded H) (n : Nat) : Extension (Recorded H) :=
  let e := Host.extend r.host n
  let verdict : Verdict := e.granted.map fun _ => Host.committed e.host - (Host.committed r.host + n)
  ⟨⟨e.host, r.verdicts ++ [verdict]⟩, e.granted, e.events⟩

variable [Host H]

instance : Host (Recorded H) where
  base r := Host.base r.host
  committed r := Host.committed r.host
  extend := extend

instance [LawfulHost H] : LawfulHost (Recorded H) where
  base_extend r n := LawfulHost.base_extend r.host n
  of_granted {r _ _} hn hg := LawfulHost.of_granted (h := r.host) hn hg
  of_refused {r n _} hr := LawfulHost.of_refused (h := r.host) (n := n) hr

def coupling (host : H) : Host.Coupling H (Recorded H) :=
  .ofExtend ⟨start host⟩ (fun host r => r.host = host) (fun _ => True)
    (by rintro _ r rfl; rfl) (fun _ _ _ => trivial) (by rintro _ r n rfl - -; exact ⟨rfl, rfl⟩)

end Recorded

structure Scripted where
  committed : Nat
  script : List Verdict

namespace Scripted

def extend (s : Scripted) (n : Nat) : Extension Scripted :=
  match s.script with
  | [] => ⟨s, .error (.outOfMemory n), #[]⟩
  | .error reason :: rest => ⟨{ s with script := rest }, .error reason, #[]⟩
  | .ok spare :: rest => ⟨⟨s.committed + n + spare, rest⟩, .ok s.committed, #[]⟩

instance : Host Scripted where
  base _ := 0
  committed := committed
  extend := extend

instance : LawfulHost Scripted where
  base_extend _ _ := rfl
  of_granted {s n start} _ h := by
    obtain ⟨committed, script⟩ := s
    match script with
    | [] => cases h
    | .error reason :: rest => cases h
    | .ok spare :: rest =>
      cases h
      exact ⟨rfl, Nat.le_add_right _ _⟩
  of_refused {s n r} h := by
    obtain ⟨committed, script⟩ := s
    match script with
    | [] => rfl
    | .error reason :: rest => rfl
    | .ok spare :: rest => cases h

variable {H : Type} [Host H] [LawfulHost H] {r : Recorded H} {s : Scripted}

/-- The script and the record of a host whose verdicts come as they are written in `w`. -/
def Recites (w : List Verdict) (r : Recorded H) (s : Scripted) : Prop :=
  r.verdicts ++ s.script = w ∧ s.committed = Host.committed r.host

theorem Recites.extend {w : List Verdict} {n : Nat} (h : Recites w r s) (hn : n < wordLimit)
    (hw : (r.extend n).host.verdicts <+: w) :
    (s.extend n).granted = (r.extend n).granted ∧ Recites w (r.extend n).host (s.extend n).host := by
  obtain ⟨hw', hcom⟩ := h
  obtain ⟨rest, hrest⟩ := hw
  have hscript : s.script =
      ((Host.extend r.host n).granted.map fun _ =>
        Host.committed (Host.extend r.host n).host - (Host.committed r.host + n)) :: rest := by
    refine List.append_cancel_left (hw'.trans ?_)
    rw [← hrest]
    simp [Recorded.extend]
  cases hg : (Host.extend r.host n).granted with
  | error reason =>
    rw [hg] at hscript
    have hs : s.extend n = ⟨{ s with script := rest }, .error reason, #[]⟩ := by
      rw [Scripted.extend, hscript]
      rfl
    rw [hs]
    exact ⟨hg.symm, hrest, hcom.trans (LawfulHost.of_refused hg).symm⟩
  | ok start =>
    rw [hg] at hscript
    obtain ⟨rfl, hle⟩ := LawfulHost.of_granted hn hg
    have hs : s.extend n = ⟨⟨s.committed + n +
        (Host.committed (Host.extend r.host n).host - (Host.committed r.host + n)), rest⟩,
        .ok s.committed, #[]⟩ := by
      rw [Scripted.extend, hscript]
      rfl
    rw [hs, hcom]
    exact ⟨hg.symm, hrest, Nat.add_sub_cancel' hle⟩

def coupling (w : List Verdict) : Host.Coupling (Recorded H) Scripted :=
  .ofExtend ⟨⟨0, []⟩⟩ (Recites w) (fun r => r.verdicts <+: w) (fun _ _ h => h.2)
    (fun _ _ hw => (List.prefix_append _ _).trans hw) fun _ _ _ h hn hw => h.extend hn hw

end Scripted

end SegregatedFit
