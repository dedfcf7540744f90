import Mathlib
import SegregatedFit.Trace

/-!
Traces written down, and read back. A request may be written in many ways: with more or less white space,
with zeros or a plus sign before a number, with lines of other kinds around it. Whatever way is taken,
what is read is what was written.
-/
namespace SegregatedFit

namespace Text

variable {c : Char} {f line : List Char} {fs : List (List Char)} {n : Nat}

/-- The decimal numerals of a number: its digits, after zeros or not, with or without a plus sign. -/
inductive Numeral (n : Nat) : List Char → Prop
  | plain (zeros : Nat) : Numeral n (List.replicate zeros '0' ++ Nat.toDigits 10 n)
  | plus (zeros : Nat) : Numeral n ('+' :: (List.replicate zeros '0' ++ Nat.toDigits 10 n))

theorem digit?_of_isDigit (h : c.isDigit = true) : digit? c = some (c.toNat - '0'.toNat) := by
  simp only [Char.isDigit, Bool.and_eq_true, decide_eq_true_eq] at h
  exact if_pos h

theorem digits?_of_isDigit (h : ∀ c ∈ f, c.isDigit = true) (acc : Nat) :
    digits? acc f = some (Nat.ofDigitChars 10 f acc) := by
  induction f generalizing acc with
  | nil => rfl
  | cons c f ih =>
    obtain ⟨hc, hf⟩ := List.forall_mem_cons.mp h
    rw [digits?, digit?_of_isDigit hc, Nat.ofDigitChars_cons]
    exact ih hf _

theorem isDigit_of_mem_padded {zeros : Nat} (h : c ∈ List.replicate zeros '0' ++ Nat.toDigits 10 n) :
    c.isDigit = true := by
  rcases List.mem_append.mp h with h | h
  · rw [List.eq_of_mem_replicate h]
    decide
  · exact Nat.isDigit_of_mem_toDigits (by decide) (by decide) h

theorem ofDigitChars_padded (zeros n : Nat) :
    Nat.ofDigitChars 10 (List.replicate zeros '0' ++ Nat.toDigits 10 n) 0 = n := by
  induction zeros with
  | zero => exact Nat.ofDigitChars_ten_toDigits
  | succ zeros ih =>
    rw [List.replicate_succ, List.cons_append, Nat.ofDigitChars_cons]
    exact ih

theorem padded_ne_nil (zeros n : Nat) : List.replicate zeros '0' ++ Nat.toDigits 10 n ≠ [] := by
  simp [Nat.toDigits_ne_nil]

theorem Numeral.numeral?_eq (h : Numeral n f) (hn : n < wordLimit) : numeral? f = some n := by
  have hvalue (zeros : Nat) := digits?_of_isDigit (fun _ => @isDigit_of_mem_padded _ n zeros) 0
  have hne (zeros : Nat) : (List.replicate zeros '0' ++ Nat.toDigits 10 n).isEmpty = false := by
    rw [List.isEmpty_eq_false_iff]
    exact padded_ne_nil zeros n
  simp only [ofDigitChars_padded] at hvalue
  cases h with
  | plain zeros =>
    have hsign : ∀ ds, List.replicate zeros '0' ++ Nat.toDigits 10 n ≠ '+' :: ds := by
      intro ds h
      have hplus := isDigit_of_mem_padded (h ▸ List.mem_cons_self : '+' ∈ _)
      exact absurd hplus (by decide)
    unfold numeral?
    split
    · next ds h => exact absurd h (hsign ds)
    · simp [hne, hvalue, hn]
  | plus zeros => simp [numeral?, hne, hvalue, hn]

def Gap (cs : List Char) : Prop := ∀ c ∈ cs, isBlank c = true ∧ c ≠ '\n'

/-- The lines with these fields: white space between any two of them, and before and after them if any. -/
inductive Spaced : List (List Char) → List Char → Prop
  | nil {gap : List Char} (hgap : Gap gap) : Spaced [] gap
  | cons {gap f rest : List Char} {fs : List (List Char)} (hgap : Gap gap)
      (hend : rest.head?.all isBlank = true) (hrest : Spaced fs rest) :
      Spaced (f :: fs) (gap ++ (f ++ rest))

def Solid (f : List Char) : Prop := f ≠ [] ∧ ∀ c ∈ f, isBlank c = false

theorem isBlank_of_isDigit (h : c.isDigit = true) : isBlank c = false := by
  simp only [Char.isDigit, Bool.and_eq_true, decide_eq_true_eq, UInt32.le_iff_toNat_le] at h
  have h1 : 48 ≤ c.toNat := h.1
  have h2 : c.toNat ≤ 57 := h.2
  simp only [isBlank, inRanges, blankRanges, List.any_cons, List.any_nil, Bool.or_false, Bool.or_eq_false_iff,
    Bool.and_eq_false_iff, decide_eq_false_iff_not]
  omega

theorem solid_padded (zeros n : Nat) : Solid (List.replicate zeros '0' ++ Nat.toDigits 10 n) :=
  ⟨padded_ne_nil zeros n, fun _ hc => isBlank_of_isDigit (isDigit_of_mem_padded hc)⟩

theorem Numeral.solid (h : Numeral n f) : Solid f := by
  cases h with
  | plain zeros => exact solid_padded zeros n
  | plus zeros =>
    refine ⟨List.cons_ne_nil _ _, ?_⟩
    rw [List.forall_mem_cons]
    exact ⟨by decide, (solid_padded zeros n).2⟩

theorem Gap.append_return {gap : List Char} (h : Gap gap) : Gap (gap ++ ['\r']) := by
  rw [Gap, List.forall_mem_append, List.forall_mem_singleton]
  exact ⟨h, by decide, by decide⟩

theorem Spaced.append_return (h : Spaced fs line) : Spaced fs (line ++ ['\r']) := by
  induction h with
  | nil hgap => exact .nil hgap.append_return
  | @cons gap f rest fs hgap hend _ ih =>
    rw [List.append_assoc, List.append_assoc]
    refine .cons hgap ?_ ih
    cases rest with
    | nil => decide
    | cons c rest => exact hend

theorem fields_append_of_blank {gap : List Char} (h : ∀ c ∈ gap, isBlank c = true) (cs : List Char) :
    fields (gap ++ cs) = fields cs := by
  induction gap with
  | nil => rfl
  | cons c gap ih =>
    obtain ⟨hc, hgap⟩ := List.forall_mem_cons.mp h
    rw [← ih hgap]
    simp [fields, pieces, hc]

theorem fields_append_of_gap {gap : List Char} (h : Gap gap) (cs : List Char) : fields (gap ++ cs) = fields cs :=
  fields_append_of_blank (fun c hc => (h c hc).1) cs

theorem pieces_of_forall_not (h : ∀ c ∈ f, isBlank c = false) : pieces isBlank f = [f] := by
  induction f with
  | nil => rfl
  | cons c f ih =>
    obtain ⟨hc, hf⟩ := List.forall_mem_cons.mp h
    simp [pieces, hc, ih hf]

theorem fields_append_of_solid (hf : Solid f) {rest : List Char} (hend : rest.head?.all isBlank = true) :
    fields (f ++ rest) = f :: fields rest := by
  obtain ⟨hne, hsolid⟩ := hf
  cases rest with
  | nil => simp [fields, pieces_of_forall_not hsolid, pieces, hne]
  | cons c rest =>
    have hc : isBlank c = true := hend
    rw [fields, pieces_append_cons hc, pieces_of_forall_not hsolid]
    simp [fields, pieces, hc, hne]

theorem Spaced.fields_eq (h : Spaced fs line) (hfs : ∀ f ∈ fs, Solid f) : fields line = fs := by
  induction h with
  | @nil gap hgap =>
    have := fields_append_of_gap hgap []
    rwa [List.append_nil] at this
  | cons hgap hend _ ih =>
    obtain ⟨hf, hfs⟩ := List.forall_mem_cons.mp hfs
    rw [fields_append_of_gap hgap, fields_append_of_solid hf hend, ih hfs]

theorem Spaced.not_mem (h : Spaced fs line) (hfs : ∀ f ∈ fs, Solid f) : '\n' ∉ line := by
  induction h with
  | nil hgap => exact fun hn => (hgap _ hn).2 rfl
  | cons hgap _ _ ih =>
    obtain ⟨hf, hfs⟩ := List.forall_mem_cons.mp hfs
    intro hn
    rcases List.mem_append.mp hn with hn | hn
    · exact (hgap _ hn).2 rfl
    rcases List.mem_append.mp hn with hn | hn
    · exact absurd (hf.2 _ hn) (by decide)
    · exact ih hfs hn

theorem exists_fields_cons (hc : isBlank c = false) (cs : List Char) :
    ∃ f fs, fields (c :: cs) = (c :: f) :: fs := by
  simp only [fields, pieces, hc, Bool.false_eq_true, if_false]
  cases pieces isBlank cs with
  | nil => exact ⟨[], [], rfl⟩
  | cons p ps => exact ⟨p, ps.filter (!·.isEmpty), rfl⟩

theorem lines_of_not_mem (h : '\n' ∉ line) : lines line = [line] := by
  induction line with
  | nil => rfl
  | cons c line ih =>
    rw [List.mem_cons, not_or] at h
    have hc : (c == '\n') = false := beq_eq_false_iff_ne.mpr (Ne.symm h.1)
    have := ih h.2
    rw [lines] at this
    simp [lines, pieces, hc, this]

theorem lines_append (h : '\n' ∉ line) (cs : List Char) : lines (line ++ '\n' :: cs) = line :: lines cs := by
  have := lines_of_not_mem h
  rw [lines] at this
  rw [lines, pieces_append_cons rfl, this]
  rfl

end Text

namespace Trace

open Text

def Names (n : Nat) (f : List Char) : Prop := Numeral n f ∧ n < wordLimit

inductive Spelled : Request → List (List Char) → Prop
  | allocate {id size : Nat} {i s : List Char} (hi : Names id i) (hs : Names size s) :
      Spelled (.allocate id size) [['a'], i, s]
  | reallocate {id size : Nat} {i s : List Char} (hi : Names id i) (hs : Names size s) :
      Spelled (.reallocate id size) [['r'], i, s]
  | free {id : Nat} {i : List Char} (hi : Names id i) : Spelled (.free id) [['f'], i]

/-- The lines of a trace: a request with white space around its fields, or one of the kinds of lines that
stand for none, which are blank ones, comments and lines of numbers. -/
inductive Written : Option Request → List Char → Prop
  | request {r : Request} {fs : List (List Char)} {line : List Char} (hr : Spelled r fs) (hl : Spaced fs line) :
      Written (some r) line
  | blank {line : List Char} (hl : Gap line) : Written none line
  | comment {gap rest : List Char} (hgap : Gap gap) (hrest : '\n' ∉ rest) : Written none (gap ++ '#' :: rest)
  | numbers {fs : List (List Char)} {line : List Char} (hne : fs ≠ []) (hfs : ∀ f ∈ fs, ∃ n, Names n f)
      (hl : Spaced fs line) : Written none line

/-- The texts of a trace: lines one after another, each but the last with a line feed or a carriage
return and a line feed behind it. The last line may be empty, and so the text may end with a line feed. -/
inductive Renders : Trace → List Char → Prop
  | last {request : Option Request} {line : List Char} (h : Written request line) : Renders request.toList line
  | cons {request : Option Request} {line eol rest : List Char} {t : Trace} (h : Written request line)
      (heol : eol = ['\n'] ∨ eol = ['\r', '\n']) (hrest : Renders t rest) :
      Renders (request.toList ++ t) (line ++ (eol ++ rest))

variable {r : Request} {request : Option Request} {f line : List Char} {fs : List (List Char)} {n : Nat} {t : Trace}

theorem Names.numeral?_eq (h : Names n f) : numeral? f = some n := h.1.numeral?_eq h.2

theorem Spelled.solid (h : Spelled r fs) : ∀ f ∈ fs, Solid f := by
  have hletter (c : Char) (hc : isBlank c = false) : Solid [c] := by simp [Solid, hc]
  cases h with
  | allocate hi hs => simp [hletter 'a' (by decide), hi.1.solid, hs.1.solid]
  | reallocate hi hs => simp [hletter 'r' (by decide), hi.1.solid, hs.1.solid]
  | free hi => simp [hletter 'f' (by decide), hi.1.solid]

theorem Spelled.exists_readRequest (h : Spelled r fs) :
    ∃ op args, fs = op :: args ∧ isSkipped op = false ∧ readRequest op args = .ok r := by
  cases h with
  | allocate hi hs =>
    exact ⟨_, _, rfl, by decide, by simp [readRequest, readSized, hi.numeral?_eq, hs.numeral?_eq]⟩
  | reallocate hi hs =>
    exact ⟨_, _, rfl, by decide, by simp [readRequest, readSized, hi.numeral?_eq, hs.numeral?_eq]⟩
  | free hi => exact ⟨_, _, rfl, by decide, by simp [readRequest, readNamed, hi.numeral?_eq]⟩

theorem Written.readLine_eq (h : Written request line) : readLine line = .ok request := by
  cases h with
  | request hr hl =>
    obtain ⟨op, args, rfl, hop, hread⟩ := hr.exists_readRequest
    simp [readLine, hl.fields_eq hr.solid, hop, hread, Except.map]
  | blank hl =>
    have hfields : fields line = [] := (Spaced.nil hl).fields_eq (by simp)
    simp [readLine, hfields]
  | comment hgap _ =>
    obtain ⟨f, fs, hfields⟩ := exists_fields_cons (c := '#') (by decide) _
    rw [readLine, fields_append_of_gap hgap, hfields]
    simp [isSkipped]
  | @numbers fs _ hne hfs hl =>
    have hsolid : ∀ f ∈ fs, Solid f := fun f hf => (hfs f hf).elim fun _ hn => hn.1.solid
    rw [readLine, hl.fields_eq hsolid]
    cases fs with
    | nil => exact absurd rfl hne
    | cons op args =>
      obtain ⟨n, hn⟩ := hfs op List.mem_cons_self
      simp [isSkipped, hn.numeral?_eq]

theorem Written.not_mem (h : Written request line) : '\n' ∉ line := by
  cases h with
  | request hr hl => exact hl.not_mem hr.solid
  | blank hl => exact fun hn => (hl _ hn).2 rfl
  | comment hgap hrest =>
    intro hn
    rcases List.mem_append.mp hn with hn | hn
    · exact (hgap _ hn).2 rfl
    · exact hrest ((List.mem_cons.mp hn).resolve_left (by decide))
  | numbers _ hfs hl => exact hl.not_mem fun f hf => (hfs f hf).elim fun _ hn => hn.1.solid

theorem Written.append_return (h : Written request line) : Written request (line ++ ['\r']) := by
  cases h with
  | request hr hl => exact .request hr hl.append_return
  | blank hl => exact .blank hl.append_return
  | comment hgap hrest =>
    rw [List.append_assoc, List.cons_append]
    refine .comment hgap fun hn => ?_
    exact (List.mem_append.mp hn).elim hrest (by decide)
  | numbers hne hfs hl => exact .numbers hne hfs hl.append_return

theorem readLines_cons {n : Nat} {rest : List (List Char)} (h : Written request line)
    (hrest : readLines (n + 1) rest = .ok t) : readLines n (line :: rest) = .ok (request.toList ++ t) := by
  simp [readLines, h.readLine_eq, hrest, Except.map]

theorem Renders.readLines_eq {text : List Char} (h : Renders t text) (n : Nat) :
    readLines n (lines text) = .ok t := by
  induction h generalizing n with
  | last h =>
    rw [lines_of_not_mem h.not_mem, ← List.append_nil (Option.toList _)]
    exact readLines_cons h rfl
  | cons h heol _ ih =>
    rcases heol with rfl | rfl
    · rw [List.cons_append, List.nil_append, lines_append h.not_mem]
      exact readLines_cons h (ih _)
    · rw [List.cons_append, List.cons_append, List.nil_append, List.append_cons,
        lines_append h.append_return.not_mem]
      exact readLines_cons h.append_return (ih _)

/-- A trace reads back from every one of its texts. -/
theorem parse_of_renders {text : String} (h : Renders t text.toList) : parse text = .ok t := h.readLines_eq 1

theorem parse_of_renders_four_lines :
    let text := "# 1\r\n+20 7\n a\t007\u00a0 +18446744073709551615 \r\nf 7"
    Renders [.allocate 7 18446744073709551615, .free 7] text.toList ∧
      parse text = .ok [.allocate 7 18446744073709551615, .free 7] := by
  have hnil : Gap [] := List.forall_mem_nil _
  have hspace : Gap [' '] := List.forall_mem_singleton.mpr (by decide)
  have htab : Gap ['\t'] := List.forall_mem_singleton.mpr (by decide)
  have hwide : Gap ['\u00a0', ' '] := List.forall_mem_cons.mpr ⟨by decide, hspace⟩
  have hseven : Names 7 ['7'] := ⟨.plain 0, by decide⟩
  have hgreatest : Names 18446744073709551615 "+18446744073709551615".toList := by
    have hdigits : Nat.toDigits 10 18446744073709551615 = "18446744073709551615".toList := by cbv
    have hplus := Numeral.plus (n := 18446744073709551615) 0
    rw [hdigits] at hplus
    exact ⟨hplus, by decide⟩
  have hcomment := Written.comment hnil (by decide : '\n' ∉ " 1".toList)
  have hnumbers : Written none ([] ++ ("+20".toList ++ ([' '] ++ (['7'] ++ [])))) := by
    refine .numbers (List.cons_ne_nil _ _) ?_ (.cons hnil rfl (.cons hspace rfl (.nil hnil)))
    simp only [List.forall_mem_cons]
    exact ⟨⟨20, .plus 0, by decide⟩, ⟨7, hseven⟩, List.forall_mem_nil _⟩
  have hpadded : Names 7 "007".toList := ⟨.plain 2, by decide⟩
  have hallocate := Written.request (.allocate hpadded hgreatest)
    (.cons hspace rfl (.cons htab rfl (.cons hwide rfl (.nil hspace))))
  have hfree := Written.request (.free hseven) (.cons hnil rfl (.cons hspace rfl (.nil hnil)))
  have h := Renders.cons hcomment (.inr rfl) (.cons hnumbers (.inl rfl) (.cons hallocate (.inr rfl) (.last hfree)))
  have hrenders : Renders [.allocate 7 18446744073709551615, .free 7]
      "# 1\r\n+20 7\n a\t007\u00a0 +18446744073709551615 \r\nf 7".toList := by
    convert h using 1
    · rfl
    · decide
  exact ⟨hrenders, parse_of_renders hrenders⟩

end Trace

end SegregatedFit
