import Mathlib
import SegregatedFit.Proofs.LineByLine

/-!
What becomes of each line of a trace. A line is skipped, or is a request, or ends the reading. The format
skips blank lines, comments and lines of numbers. The first field alone decides here, so that a line is
skipped too where a number comes first and something else after it.
-/
namespace SegregatedFit

namespace Text

variable {c : Char} {f line : List Char} {n : Nat}

theorem isDigit_of_digit? {d : Nat} (h : digit? c = some d) :
    c.isDigit = true ∧ d < 10 ∧ d.digitChar = c := by
  unfold digit? at h
  split at h
  · next hc =>
    cases h
    have hd : c.isDigit = true := by
      simp only [Char.isDigit, Bool.and_eq_true, decide_eq_true_eq]
      exact hc
    have h1 : 48 ≤ c.toNat := hc.1
    have h2 : c.toNat ≤ 57 := hc.2
    have hlt : c.toNat - '0'.toNat < 10 := by
      rw [show '0'.toNat = 48 by rfl]
      omega
    refine ⟨hd, hlt, Char.toNat_inj.mp ?_⟩
    rw [Nat.toNat_digitChar_of_lt_ten hlt, show '0'.toNat = 48 by rfl]
    omega
  · cases h

theorem forall_isDigit_of_digits? {acc : Nat} (h : digits? acc f = some n) : ∀ c ∈ f, c.isDigit = true := by
  induction f generalizing acc with
  | nil => exact List.forall_mem_nil _
  | cons c f ih =>
    rw [digits?] at h
    split at h
    · cases h
    · next d hd => exact List.forall_mem_cons.mpr ⟨(isDigit_of_digit? hd).1, ih h⟩

theorem exists_padded (hf : f ≠ []) (h : ∀ c ∈ f, c.isDigit = true) :
    ∃ zeros, f = List.replicate zeros '0' ++ Nat.toDigits 10 (Nat.ofDigitChars 10 f 0) := by
  -- The value is made from the last digit and the value before it.
  induction f using List.reverseRecOn with
  | nil => exact absurd rfl hf
  | append_singleton f c ih =>
    obtain ⟨h, hc⟩ := List.forall_mem_append.mp h
    obtain ⟨-, hd, hchar⟩ := isDigit_of_digit? (digit?_of_isDigit (hc c List.mem_cons_self))
    set d := c.toNat - '0'.toNat with hd_def
    have hlast : Nat.toDigits 10 d = [c] := by rw [Nat.toDigits_of_lt_base hd, hchar]
    have hvalue : Nat.ofDigitChars 10 (f ++ [c]) 0 = 10 * Nat.ofDigitChars 10 f 0 + d := by
      rw [Nat.ofDigitChars_append, Nat.ofDigitChars_cons, Nat.ofDigitChars_nil]
    rw [hvalue]
    rcases List.eq_nil_or_concat' f with rfl | ⟨g, c', hg⟩
    · refine ⟨0, ?_⟩
      rw [Nat.ofDigitChars_nil, Nat.mul_zero, Nat.zero_add, hlast]
      rfl
    · obtain ⟨zeros, hzeros⟩ := ih (by simp [hg]) h
      rcases Nat.eq_zero_or_pos (Nat.ofDigitChars 10 f 0) with hzero | hpos
      · rw [hzero, Nat.toDigits_zero] at hzeros
        refine ⟨zeros + 1, ?_⟩
        rw [hzero, Nat.mul_zero, Nat.zero_add, hlast, List.replicate_succ', ← hzeros]
      · refine ⟨zeros, ?_⟩
        rw [← Nat.toDigits_append_toDigits (by decide) hpos hd, hlast, ← List.append_assoc, ← hzeros]

theorem numeral_of_numeral? (h : numeral? f = some n) : Numeral n f ∧ n < wordLimit := by
  have hdigits : ∀ ds : List Char, (if ds.isEmpty then none else (digits? 0 ds).filter (· < wordLimit)) = some n →
      (∃ zeros, ds = List.replicate zeros '0' ++ Nat.toDigits 10 n) ∧ n < wordLimit := by
    intro ds h
    split at h
    · cases h
    · next hne =>
      obtain ⟨hds, hlt⟩ := Option.filter_eq_some_iff.mp h
      have hdigit := forall_isDigit_of_digits? hds
      rw [digits?_of_isDigit hdigit] at hds
      cases hds
      exact ⟨exists_padded (fun he => hne (by rw [he]; rfl)) hdigit, of_decide_eq_true hlt⟩
  unfold numeral? at h
  split at h
  · obtain ⟨⟨zeros, rfl⟩, hlt⟩ := hdigits _ h
    exact ⟨.plus zeros, hlt⟩
  · obtain ⟨⟨zeros, rfl⟩, hlt⟩ := hdigits _ h
    exact ⟨.plain zeros, hlt⟩

theorem fields_of_blank (h : ∀ c ∈ line, isBlank c = true) : fields line = [] := by
  have := fields_append_of_blank h []
  rwa [List.append_nil] at this

theorem blank_or_fields_cons (line : List Char) : (∀ c ∈ line, isBlank c = true) ∨
    ∃ gap c rest f fs, line = gap ++ c :: rest ∧ (∀ c ∈ gap, isBlank c = true) ∧
      fields line = (c :: f) :: fs := by
  have hgap : ∀ c ∈ line.takeWhile isBlank, isBlank c = true := fun _ => List.mem_takeWhile_imp
  have hcut := List.takeWhile_append_dropWhile (p := isBlank) (l := line)
  cases hrest : line.dropWhile isBlank with
  | nil =>
    rw [hrest, List.append_nil] at hcut
    exact .inl (hcut ▸ hgap)
  | cons c rest =>
    have hc : isBlank c = false := by
      have := List.head?_dropWhile_not isBlank line
      rw [hrest] at this
      simpa using this
    rw [hrest] at hcut
    obtain ⟨f, fs, hfields⟩ := exists_fields_cons hc rest
    refine .inr ⟨_, c, rest, f, fs, hcut.symm, hgap, ?_⟩
    rw [← hcut, fields_append_of_blank hgap, hfields]

end Text

namespace Trace

open Text

variable {args fs : List (List Char)} {f line op : List Char} {n : Nat} {r r' : Option Request} {request : Request}

def IsNumber (f : List Char) : Prop := ∃ n, Names n f

/-- The lines that the format lets a trace have besides its requests. -/
inductive Skippable : List Char → Prop
  | blank {line : List Char} (h : ∀ c ∈ line, isBlank c = true) : Skippable line
  | comment {gap rest : List Char} (h : ∀ c ∈ gap, isBlank c = true) : Skippable (gap ++ '#' :: rest)
  | numbers {line : List Char} (hne : fields line ≠ []) (h : ∀ f ∈ fields line, IsNumber f) : Skippable line

/-- A line that begins with a number and has a field that is none. -/
def Strays (line : List Char) : Prop :=
  ∃ f fs, fields line = f :: fs ∧ IsNumber f ∧ ∃ g ∈ fs, ¬ IsNumber g

/-- What a line stands for. Whatever comes after the fields of a request is ignored. -/
inductive Stands : List Char → Option Request → Prop
  | skippable {line : List Char} (h : Skippable line) : Stands line none
  | stray {line : List Char} (h : Strays line) : Stands line none
  | request {line : List Char} {request : Request} {fs more : List (List Char)} (hr : Spelled request fs)
      (hl : fields line = fs ++ more) : Stands line (some request)

theorem numeral?_eq_some_iff : numeral? f = some n ↔ Names n f := ⟨numeral_of_numeral?, Names.numeral?_eq⟩

theorem isNumber_iff : IsNumber f ↔ (numeral? f).isSome = true := by
  rw [Option.isSome_iff_exists]
  exact exists_congr fun n => numeral?_eq_some_iff.symm

theorem readLine_of_isNumber (h : fields line = op :: args) (hop : IsNumber op) : readLine line = .ok none := by
  simp [readLine, h, isSkipped, isNumber_iff.mp hop]

theorem readSized_eq_ok_iff {make : Nat → Nat → Request} : readSized make args = .ok request ↔
    ∃ i s more id size, args = i :: s :: more ∧ Names id i ∧ Names size s ∧ request = make id size := by
  constructor
  · intro h
    unfold readSized at h
    split at h
    · next i s more =>
      split at h
      · next id size hid hsize =>
        cases h
        exact ⟨i, s, more, id, size, rfl, numeral?_eq_some_iff.mp hid, numeral?_eq_some_iff.mp hsize, rfl⟩
      · cases h
    · cases h
  · rintro ⟨i, s, more, id, size, rfl, hid, hsize, rfl⟩
    simp [readSized, hid.numeral?_eq, hsize.numeral?_eq]

theorem readNamed_eq_ok_iff {make : Nat → Request} : readNamed make args = .ok request ↔
    ∃ i more id, args = i :: more ∧ Names id i ∧ request = make id := by
  constructor
  · intro h
    unfold readNamed at h
    split at h
    · next i more =>
      split at h
      · next id hid =>
        cases h
        exact ⟨i, more, id, rfl, numeral?_eq_some_iff.mp hid, rfl⟩
      · cases h
    · cases h
  · rintro ⟨i, more, id, rfl, hid, rfl⟩
    simp [readNamed, hid.numeral?_eq]

theorem readRequest_eq_ok_iff : readRequest op args = .ok request ↔
    ∃ fs more, op :: args = fs ++ more ∧ Spelled request fs := by
  constructor
  · intro h
    unfold readRequest at h
    split at h
    · obtain ⟨i, s, more, id, size, rfl, hid, hsize, rfl⟩ := readSized_eq_ok_iff.mp h
      exact ⟨_, more, rfl, .allocate hid hsize⟩
    · obtain ⟨i, s, more, id, size, rfl, hid, hsize, rfl⟩ := readSized_eq_ok_iff.mp h
      exact ⟨_, more, rfl, .reallocate hid hsize⟩
    · obtain ⟨i, more, id, rfl, hid, rfl⟩ := readNamed_eq_ok_iff.mp h
      exact ⟨_, more, rfl, .free hid⟩
    · cases h
  · rintro ⟨fs, more, hfs, hspelled⟩
    cases hspelled with
    | allocate hid hsize =>
      cases hfs
      exact readSized_eq_ok_iff.mpr ⟨_, _, more, _, _, rfl, hid, hsize, rfl⟩
    | reallocate hid hsize =>
      cases hfs
      exact readSized_eq_ok_iff.mpr ⟨_, _, more, _, _, rfl, hid, hsize, rfl⟩
    | free hid =>
      cases hfs
      exact readNamed_eq_ok_iff.mpr ⟨_, more, _, rfl, hid, rfl⟩

theorem Stands.readLine_eq (h : Stands line r) : readLine line = .ok r := by
  cases h with
  | skippable h =>
    cases h with
    | blank h => simp [readLine, fields_of_blank h]
    | @comment gap rest h =>
      obtain ⟨f, fs, hfields⟩ := exists_fields_cons (c := '#') (by decide) rest
      simp [readLine, fields_append_of_blank h, hfields, isSkipped]
    | numbers hne h =>
      obtain ⟨op, args, hfields⟩ := List.exists_cons_of_ne_nil hne
      exact readLine_of_isNumber hfields (h op (by simp [hfields]))
  | stray h =>
    obtain ⟨op, args, hfields, hop, -⟩ := h
    exact readLine_of_isNumber hfields hop
  | @request request fs more hr hl =>
    obtain ⟨op, args, rfl, hop, -⟩ := hr.exists_readRequest
    have hread : readRequest op (args ++ more) = .ok request := readRequest_eq_ok_iff.mpr ⟨_, more, rfl, hr⟩
    simp [readLine, hl, hop, hread, Except.map]

theorem stands_of_readLine (h : readLine line = .ok r) : Stands line r := by
  rcases blank_or_fields_cons line with hblank | ⟨gap, c, rest, f, fs, rfl, hgap, hfields⟩
  · rw [readLine, fields_of_blank hblank] at h
    cases h
    exact .skippable (.blank hblank)
  simp only [readLine, hfields] at h
  split at h
  · next hskip =>
    cases h
    rw [isSkipped, Bool.or_eq_true, ← isNumber_iff] at hskip
    rcases hskip with hhash | hnumber
    · obtain rfl : c = '#' := by simpa using hhash
      exact .skippable (.comment hgap)
    · by_cases hall : ∀ g ∈ fs, IsNumber g
      · refine .skippable (.numbers (by simp [hfields]) ?_)
        rw [hfields]
        exact List.forall_mem_cons.mpr ⟨hnumber, hall⟩
      · push Not at hall
        exact .stray ⟨_, fs, hfields, hnumber, hall⟩
  · cases hread : readRequest (c :: f) fs with
    | error flaw =>
      rw [hread] at h
      cases h
    | ok request =>
      rw [hread] at h
      cases h
      obtain ⟨gs, more, hgs, hspelled⟩ := readRequest_eq_ok_iff.mp hread
      exact .request hspelled (hfields.trans hgs)

theorem stands_of_readLines {ls : List (List Char)} {t : Trace} (h : readLines n ls = .ok t) :
    ∃ rs, List.Forall₂ Stands ls rs ∧ t = rs.reduceOption := by
  induction ls generalizing n t with
  | nil =>
    cases h
    exact ⟨[], .nil, rfl⟩
  | cons line ls ih =>
    obtain ⟨r, rest, hline, hrest, rfl⟩ := readLines_cons_eq_ok h
    obtain ⟨rs, hrs, rfl⟩ := ih hrest
    refine ⟨r :: rs, .cons (stands_of_readLine hline) hrs, ?_⟩
    cases r <;> rfl

theorem Strays.not_skippable (h : Strays line) : ¬ Skippable line := by
  obtain ⟨f, fs, hfields, ⟨n, hn⟩, g, hg, hnot⟩ := h
  intro hskip
  cases hskip with
  | blank hblank =>
    rw [fields_of_blank hblank] at hfields
    cases hfields
  | @comment gap rest hgap =>
    obtain ⟨f', fs', hfields'⟩ := exists_fields_cons (c := '#') (by decide) rest
    rw [fields_append_of_blank hgap, hfields'] at hfields
    cases hfields
    have hdigits : numeral? ('#' :: f') = none := rfl
    rw [hn.numeral?_eq] at hdigits
    cases hdigits
  | numbers _ hall => exact hnot (hall g (by simp [hfields, hg]))

/-- Reading accounts for every line. Where it succeeds, each line was skipped or gave one request, in order;
where it fails, so did each line before the one that is reported, and that one stands for nothing. A line
stands for one thing at most, and for none only if it may be skipped or strays. -/
theorem parse_accounts (text : String) :
    (match parse text with
      | .ok t => ∃ rs, List.Forall₂ Stands (bareLines text.toList) rs ∧ t = rs.reduceOption
      | .error e => ∃ before line after rs, bareLines text.toList = before ++ line :: after ∧
        e.line = before.length + 1 ∧ List.Forall₂ Stands before rs ∧ ∀ r, ¬ Stands line r) ∧
    (∀ line r r', Stands line r → Stands line r' → r = r') ∧
    ∀ line, Stands line none ↔ Skippable line ∨ Strays line := by
  refine ⟨?_, ?_, ?_⟩
  · rw [parse_eq]
    cases h : readLines 1 (bareLines text.toList) with
    | ok t => exact stands_of_readLines h
    | error e =>
      obtain ⟨before, line, after, hls, hnum, hline, hbefore⟩ := readLines_eq_error_iff.mp h
      obtain ⟨t, ht⟩ := exists_readLines_eq_ok 1 hbefore
      obtain ⟨rs, hrs, -⟩ := stands_of_readLines ht
      refine ⟨before, line, after, rs, hls, by omega, hrs, fun r hr => ?_⟩
      rw [hr.readLine_eq] at hline
      cases hline
  · intro line r r' h h'
    have he := h.readLine_eq.symm.trans h'.readLine_eq
    exact Except.ok.inj he
  · intro line
    constructor
    · intro h
      cases h with
      | skippable h => exact .inl h
      | stray h => exact .inr h
    · rintro (h | h)
      · exact .skippable h
      · exact .stray h

theorem parse_accounts_four_lines :
    parse "# 1\n7 8\nf 7 8\nx\n" = .error ⟨4, .unknownOp "x"⟩ ∧
      ∃ before line after rs, bareLines "# 1\n7 8\nf 7 8\nx\n".toList = before ++ line :: after ∧
        before.length = 3 ∧ List.Forall₂ Stands before rs ∧ ∀ r, ¬ Stands line r := by
  have hparse : parse "# 1\n7 8\nf 7 8\nx\n" = .error ⟨4, .unknownOp "x"⟩ := by cbv
  have h := (parse_accounts "# 1\n7 8\nf 7 8\nx\n").1
  rw [hparse] at h
  obtain ⟨before, line, after, rs, hls, hnum, hrs, hnone⟩ := h
  exact ⟨hparse, before, line, after, rs, hls, (Nat.succ.inj hnum).symm, hrs, hnone⟩

/-- The second line was to free the id 0. It begins with a number and is of none of the kinds that may be
skipped, but it is dropped, and reading succeeds without it. -/
theorem parse_drops_stray :
    (bareLines "a 0 10\n7 f 0\n".toList)[1]? = some "7 f 0".toList ∧ Strays "7 f 0".toList ∧
      ¬ Skippable "7 f 0".toList ∧ parse "a 0 10\n7 f 0\n" = .ok [.allocate 0 10] := by
  have hstrays : Strays "7 f 0".toList := by
    refine ⟨['7'], [['f'], ['0']], by decide, ⟨7, .plain 0, by decide⟩, ['f'], by simp, ?_⟩
    rw [isNumber_iff]
    decide
  exact ⟨by cbv, hstrays, hstrays.not_skippable, by cbv⟩

end Trace

end SegregatedFit
