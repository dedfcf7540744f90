import Mathlib
import SegregatedFit.Proofs.Rendering

/-!
Traces read line by line. A line reads the same wherever it stands, so a text reads as its parts do, one
after the other, and what fails to read is the first line that fails to read alone.
-/
namespace SegregatedFit

namespace Text

variable {c : Char} {cut : Char → Bool} {cs line p : List Char} {ls ls' : List (List Char)}

def dropReturn (line : List Char) : List Char :=
  if line.getLast? = some '\r' then line.dropLast else line

def bare : List (List Char) → List (List Char)
  | [] => []
  | [last] => if last = [] then [] else [last]
  | line :: next :: rest => dropReturn line :: bare (next :: rest)

/-- The lines of a text without their ends. An end is a line feed, or a carriage return and a line feed,
and the last line may do without. -/
def bareLines (cs : List Char) : List (List Char) := bare (lines cs)

theorem bareLines_nil : bareLines [] = [] := rfl

theorem bare_append (hne : ls' ≠ []) : bare (ls ++ ls') = ls.map dropReturn ++ bare ls' := by
  obtain ⟨l', ls', rfl⟩ := List.exists_cons_of_ne_nil hne
  induction ls with
  | nil => rfl
  | cons l ls ih =>
    rw [List.map_cons, List.cons_append, List.cons_append, ← ih]
    cases ls <;> rfl

theorem bareLines_append (h : cs = [] ∨ cs.getLast? = some '\n') (ds : List Char) :
    bareLines (cs ++ ds) = bareLines cs ++ bareLines ds := by
  rcases h with rfl | h
  · rfl
  · obtain ⟨xs, rfl⟩ := List.getLast?_eq_some_iff.mp h
    have hlines (ds : List Char) : lines (xs ++ '\n' :: ds) = lines xs ++ lines ds :=
      pieces_append_cons rfl xs ds
    have hwhole (ds : List Char) : bareLines (xs ++ '\n' :: ds) = (lines xs).map dropReturn ++ bareLines ds := by
      have hne : lines ds ≠ [] := pieces_ne_nil _ ds
      rw [bareLines, hlines, bare_append hne, bareLines]
    rw [List.append_assoc, List.cons_append, List.nil_append, hwhole, hwhole, bareLines_nil, List.append_nil]

theorem forall_not_of_mem_pieces (h : p ∈ pieces cut cs) : ∀ c ∈ p, cut c = false := by
  induction cs generalizing p with
  | nil =>
    rw [pieces, List.mem_singleton] at h
    simp [h]
  | cons d cs ih =>
    rw [pieces] at h
    split at h
    · rcases List.mem_cons.mp h with rfl | h
      · exact List.forall_mem_nil _
      · exact ih h
    · next hd =>
      have hd : cut d = false := Bool.eq_false_iff.mpr hd
      split at h
      · rw [List.mem_singleton] at h
        simpa [h] using hd
      · next q qs hq =>
        rw [hq] at ih
        rcases List.mem_cons.mp h with rfl | h
        · exact List.forall_mem_cons.mpr ⟨hd, ih List.mem_cons_self⟩
        · exact ih (List.mem_cons_of_mem _ h)

theorem dropReturn_subset (line : List Char) : dropReturn line ⊆ line := by
  unfold dropReturn
  split
  · exact List.dropLast_subset line
  · exact List.Subset.refl line

theorem exists_of_mem_bare (h : line ∈ bare ls) : ∃ p ∈ ls, line ⊆ p := by
  induction ls with
  | nil => cases h
  | cons l ls ih =>
    cases ls with
    | nil =>
      rw [bare] at h
      split at h
      · cases h
      · exact ⟨line, h, List.Subset.refl _⟩
    | cons l' ls =>
      rcases List.mem_cons.mp h with rfl | h
      · exact ⟨l, List.mem_cons_self, dropReturn_subset l⟩
      · obtain ⟨p, hp, hsub⟩ := ih h
        exact ⟨p, List.mem_cons_of_mem _ hp, hsub⟩

theorem not_mem_of_mem_bareLines (h : line ∈ bareLines cs) : '\n' ∉ line := by
  obtain ⟨p, hp, hsub⟩ := exists_of_mem_bare h
  intro hn
  exact absurd (forall_not_of_mem_pieces hp '\n' (hsub hn)) (by decide)

theorem fields_dropReturn (line : List Char) : fields (dropReturn line) = fields line := by
  unfold dropReturn
  split
  · next h =>
    obtain ⟨xs, rfl⟩ := List.getLast?_eq_some_iff.mp h
    have hr : isBlank '\r' = true := by decide
    rw [List.dropLast_concat, fields, fields, pieces_append_cons hr, List.filter_append]
    simp [pieces]
  · rfl

end Text

namespace Trace

open Text

variable {e : TraceError} {k n : Nat} {line : List Char} {ls ls' : List (List Char)} {t : Trace}

theorem readLine_dropReturn (line : List Char) : readLine (dropReturn line) = readLine line := by
  rw [readLine, fields_dropReturn, readLine]

theorem readLines_cons_eq (n : Nat) (line : List Char) (ls : List (List Char)) :
    readLines n (line :: ls) =
      match readLine line with
      | .error flaw => .error ⟨n, flaw⟩
      | .ok request => (readLines (n + 1) ls).map (request.toList ++ ·) := rfl

theorem readLines_bare (n : Nat) (ls : List (List Char)) : readLines n (bare ls) = readLines n ls := by
  induction ls generalizing n with
  | nil => rfl
  | cons l ls ih =>
    cases ls with
    | nil =>
      rw [bare]
      split
      · next h => rw [h]; rfl
      · rfl
    | cons l' ls => rw [bare, readLines_cons_eq, readLines_cons_eq, readLine_dropReturn, ih]

theorem parse_eq (text : String) : parse text = readLines 1 (bareLines text.toList) :=
  (readLines_bare 1 _).symm

theorem readLines_add (n k : Nat) (ls : List (List Char)) :
    readLines (n + k) ls = (readLines n ls).mapError fun e => ⟨e.line + k, e.flaw⟩ := by
  induction ls generalizing n with
  | nil => rfl
  | cons line ls ih =>
    rw [readLines_cons_eq, readLines_cons_eq]
    cases readLine line with
    | error flaw => rfl
    | ok request =>
      dsimp only
      rw [Nat.add_right_comm, ih]
      cases readLines (n + 1) ls <;> rfl

theorem readLines_append (n : Nat) (ls ls' : List (List Char)) :
    readLines n (ls ++ ls') =
      match readLines n ls with
      | .error e => .error e
      | .ok t => (readLines (n + ls.length) ls').map (t ++ ·) := by
  induction ls generalizing n with
  | nil =>
    rw [List.nil_append, readLines]
    cases readLines n ls' <;> rfl
  | cons line ls ih =>
    rw [List.cons_append, readLines_cons_eq, readLines_cons_eq]
    cases readLine line with
    | error flaw => rfl
    | ok request =>
      dsimp only
      rw [ih, List.length_cons, Nat.add_right_comm, Nat.add_assoc n]
      cases readLines (n + 1) ls with
      | error e => rfl
      | ok t => cases readLines (n + (ls.length + 1)) ls' <;> simp [Except.map]

theorem readLines_cons_eq_ok (h : readLines n (line :: ls) = .ok t) :
    ∃ request rest, readLine line = .ok request ∧ readLines (n + 1) ls = .ok rest ∧
      t = request.toList ++ rest := by
  rw [readLines_cons_eq] at h
  cases hline : readLine line with
  | error flaw =>
    rw [hline] at h
    cases h
  | ok request =>
    cases hrest : readLines (n + 1) ls with
    | error e =>
      rw [hline, hrest] at h
      cases h
    | ok rest =>
      rw [hline, hrest] at h
      cases h
      exact ⟨request, rest, rfl, rfl, rfl⟩

theorem forall_of_readLines_eq_ok (h : readLines n ls = .ok t) : ∀ l ∈ ls, ∃ r, readLine l = .ok r := by
  induction ls generalizing n t with
  | nil => exact List.forall_mem_nil _
  | cons line ls ih =>
    obtain ⟨request, rest, hline, hrest, -⟩ := readLines_cons_eq_ok h
    exact List.forall_mem_cons.mpr ⟨⟨request, hline⟩, ih hrest⟩

theorem exists_readLines_eq_ok (n : Nat) (h : ∀ l ∈ ls, ∃ r, readLine l = .ok r) :
    ∃ t, readLines n ls = .ok t := by
  induction ls generalizing n with
  | nil => exact ⟨[], rfl⟩
  | cons line ls ih =>
    obtain ⟨⟨r, hr⟩, hls⟩ := List.forall_mem_cons.mp h
    obtain ⟨t, ht⟩ := ih (n + 1) hls
    exact ⟨r.toList ++ t, by rw [readLines_cons_eq, hr, ht]; rfl⟩

/-- What fails is the first line that fails. -/
theorem readLines_eq_error_iff : readLines n ls = .error e ↔
    ∃ before line after, ls = before ++ line :: after ∧ e.line = n + before.length ∧
      readLine line = .error e.flaw ∧ ∀ l ∈ before, ∃ r, readLine l = .ok r := by
  constructor
  · intro h
    induction ls generalizing n with
    | nil => cases h
    | cons line ls ih =>
      rw [readLines_cons_eq] at h
      cases hline : readLine line with
      | error flaw =>
        rw [hline] at h
        cases h
        exact ⟨[], line, ls, rfl, rfl, hline, List.forall_mem_nil _⟩
      | ok request =>
        rw [hline] at h
        cases hrest : readLines (n + 1) ls with
        | ok t =>
          rw [hrest] at h
          cases h
        | error e' =>
          rw [hrest] at h
          cases h
          obtain ⟨before, l, after, rfl, hnum, hl, hbefore⟩ := ih hrest
          refine ⟨line :: before, l, after, rfl, ?_, hl, List.forall_mem_cons.mpr ⟨⟨_, hline⟩, hbefore⟩⟩
          rw [hnum, List.length_cons]
          omega
  · rintro ⟨before, line, after, rfl, hnum, hline, hbefore⟩
    induction before generalizing n with
    | nil =>
      obtain ⟨number, flaw⟩ := e
      rw [List.nil_append, readLines_cons_eq, hline]
      exact congrArg (fun m => Except.error (⟨m, flaw⟩ : TraceError)) hnum.symm
    | cons l before ih =>
      obtain ⟨⟨r, hr⟩, hbefore⟩ := List.forall_mem_cons.mp hbefore
      rw [List.length_cons] at hnum
      rw [List.cons_append, readLines_cons_eq, hr, ih (by omega) hbefore]
      rfl

theorem parse_line (h : '\n' ∉ line) : parse (.ofList line) =
    match readLine line with
    | .error flaw => .error ⟨1, flaw⟩
    | .ok request => .ok request.toList := by
  rw [parse, String.toList_ofList, lines_of_not_mem h, readLines_cons_eq]
  cases readLine line with
  | error flaw => rfl
  | ok request => simp [readLines, Except.map]

theorem parse_line_eq_error_iff (h : '\n' ∉ line) :
    parse (.ofList line) = .error ⟨1, e.flaw⟩ ↔ readLine line = .error e.flaw := by
  rw [parse_line h]
  cases readLine line <;> simp

theorem parse_line_ok_iff (h : '\n' ∉ line) :
    (∃ t, parse (.ofList line) = .ok t) ↔ ∃ r, readLine line = .ok r := by
  rw [parse_line h]
  cases readLine line <;> simp

theorem parse_eq_error_iff {text : String} : parse text = .error e ↔
    ∃ before line after, bareLines text.toList = before ++ line :: after ∧ e.line = before.length + 1 ∧
      parse (.ofList line) = .error ⟨1, e.flaw⟩ ∧ ∀ l ∈ before, ∃ r, parse (.ofList l) = .ok r := by
  have hlines : ∀ line ∈ bareLines text.toList, '\n' ∉ line := fun _ => not_mem_of_mem_bareLines
  rw [parse_eq, readLines_eq_error_iff]
  refine exists₃_congr fun before line after => and_congr_right fun hls => ?_
  rw [hls, List.forall_mem_append, List.forall_mem_cons] at hlines
  rw [Nat.add_comm 1, parse_line_eq_error_iff hlines.2.1]
  refine and_congr_right fun _ => and_congr_right fun _ => forall₂_congr fun l hl => ?_
  exact (parse_line_ok_iff (hlines.1 l hl)).symm

theorem parse_fails_iff {text : String} : (∃ e, parse text = .error e) ↔
    ∃ line ∈ bareLines text.toList, ∃ e, parse (.ofList line) = .error e := by
  constructor
  · rintro ⟨e, he⟩
    obtain ⟨before, line, after, hls, -, hline, -⟩ := parse_eq_error_iff.mp he
    exact ⟨line, by simp [hls], _, hline⟩
  · rintro ⟨line, hmem, e, he⟩
    cases hparse : parse text with
    | error e' => exact ⟨e', rfl⟩
    | ok t =>
      rw [parse_eq] at hparse
      have hok := forall_of_readLines_eq_ok hparse line hmem
      obtain ⟨r, hr⟩ := (parse_line_ok_iff (not_mem_of_mem_bareLines hmem)).mpr hok
      rw [hr] at he
      cases he

/-- A text cut after a line feed reads as its two parts do: as the first part if that fails, else as the
second if that fails, but with the lines of the first counted in, else as both parts' requests in order.
Any text fails to read where some line of it does alone, and the first such line is what is reported. -/
theorem parse_append {t₁ t₂ : String} (h : t₁ = "" ∨ t₁.toList.getLast? = some '\n') :
    (parse (t₁ ++ t₂) =
      match parse t₁, parse t₂ with
      | .error e, _ => .error e
      | .ok _, .error e => .error ⟨e.line + (bareLines t₁.toList).length, e.flaw⟩
      | .ok r₁, .ok r₂ => .ok (r₁ ++ r₂)) ∧
    ∀ text : String,
      ((∃ e, parse text = .error e) ↔
        ∃ line ∈ bareLines text.toList, ∃ e, parse (.ofList line) = .error e) ∧
      ∀ e, parse text = .error e ↔
        ∃ before line after, bareLines text.toList = before ++ line :: after ∧ e.line = before.length + 1 ∧
          parse (.ofList line) = .error ⟨1, e.flaw⟩ ∧ ∀ l ∈ before, ∃ r, parse (.ofList l) = .ok r := by
  refine ⟨?_, fun text => ⟨parse_fails_iff, fun e => parse_eq_error_iff⟩⟩
  have hcut : t₁.toList = [] ∨ t₁.toList.getLast? = some '\n' :=
    h.imp_left fun h => String.toList_eq_nil_iff.mpr h
  rw [parse_eq, parse_eq t₁, parse_eq t₂, String.toList_append, bareLines_append hcut, readLines_append,
    readLines_add]
  cases readLines 1 (bareLines t₁.toList) with
  | error e => rfl
  | ok r₁ => cases readLines 1 (bareLines t₂.toList) <;> rfl

theorem parse_append_five_lines :
    ("# 1\r\n20000\n\na 0 10\r\n".toList.getLast? = some '\n') ∧
      parse "x 1\n" = .error ⟨1, .unknownOp "x"⟩ ∧
      parse ("# 1\r\n20000\n\na 0 10\r\n" ++ "x 1\n") = .error ⟨5, .unknownOp "x"⟩ := by
  have hcut : "# 1\r\n20000\n\na 0 10\r\n".toList.getLast? = some '\n' := by decide
  have h₁ : parse "# 1\r\n20000\n\na 0 10\r\n" = .ok [.allocate 0 10] := by cbv
  have h₂ : parse "x 1\n" = .error ⟨1, .unknownOp "x"⟩ := by cbv
  have hlen : (bareLines "# 1\r\n20000\n\na 0 10\r\n".toList).length = 4 := by cbv
  refine ⟨hcut, h₂, ?_⟩
  rw [(parse_append (.inr hcut)).1, h₁, h₂, hlen]

end Trace

end SegregatedFit
