import SegregatedFit.Text.Fields
import SegregatedFit.Text.Quoted

/-!
Traces: recorded sequences of requests, and the text they are read from. A line of the text holds
one request, `a <id> <bytes>` to allocate, `r <id> <bytes>` to reallocate, `f <id>` to free; what
follows on the line is ignored. Blank lines, lines whose first field starts with a hash sign and
lines whose first field is a number are skipped.
-/
namespace SegregatedFit

inductive Request where
  | allocate (id size : Nat)
  | reallocate (id size : Nat)
  | free (id : Nat)
deriving DecidableEq, Repr

abbrev Trace := List Request

inductive LineFlaw where
  | unknownOp (op : String)
  | malformed
deriving DecidableEq, Repr

/-- The first line with a flaw; lines count from 1. -/
structure TraceError where
  line : Nat
  flaw : LineFlaw
deriving DecidableEq, Repr

def TraceError.message : TraceError → String
  | ⟨line, .unknownOp op⟩ => s!"line {line}: unknown operation {Text.quote op}"
  | ⟨line, .malformed⟩ => s!"line {line}: missing or malformed field"

namespace Trace

open Text

def isSkipped (field : List Char) : Bool := field.head? == some '#' || (numeral? field).isSome

def readSized (request : Nat → Nat → Request) : List (List Char) → Except LineFlaw Request
  | id :: size :: _ =>
    match numeral? id, numeral? size with
    | some id, some size => .ok (request id size)
    | _, _ => .error .malformed
  | _ => .error .malformed

def readNamed (request : Nat → Request) : List (List Char) → Except LineFlaw Request
  | id :: _ =>
    match numeral? id with
    | some id => .ok (request id)
    | none => .error .malformed
  | [] => .error .malformed

def readRequest (op : List Char) (args : List (List Char)) : Except LineFlaw Request :=
  match op with
  | ['a'] => readSized .allocate args
  | ['r'] => readSized .reallocate args
  | ['f'] => readNamed .free args
  | _ => .error (.unknownOp (.ofList op))

def readLine (line : List Char) : Except LineFlaw (Option Request) :=
  match fields line with
  | [] => .ok none
  | op :: args => if isSkipped op then .ok none else (readRequest op args).map some

def readLines (n : Nat) : List (List Char) → Except TraceError Trace
  | [] => .ok []
  | line :: rest =>
    match readLine line with
    | .error flaw => .error ⟨n, flaw⟩
    | .ok request => (readLines (n + 1) rest).map (request.toList ++ ·)

def parse (text : String) : Except TraceError Trace := readLines 1 (lines text.toList)

end Trace

end SegregatedFit
