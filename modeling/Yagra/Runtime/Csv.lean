import Mathlib.Data.List.Basic

/-!
# `Yagra.Runtime.Csv`: the encoder of exported files

A value that a spreadsheet would run as a formula gets an apostrophe in front, and every value is
put in quotes. Negative numbers begin like formulas and stay as they are.
-/

set_option autoImplicit false

namespace Yagra.Runtime.Csv

/-- The characters a spreadsheet takes for the start of a formula. -/
def formulaTriggers : List Char := ['=', '+', '-', '@', '\t', '\r']

/-- The text before and after the first character that passes the test. -/
def splitOnce (p : Char → Bool) : List Char → Option (List Char × List Char)
  | [] => none
  | c :: rest =>
    if p c then some ([], rest)
    else (splitOnce p rest).map fun (before, after) => (c :: before, after)

/-- Digits on at least one side of an optional point. -/
def isDecimal (mantissa : List Char) : Bool :=
  match (splitOnce (· = '.') mantissa).getD (mantissa, []) with
  | (int, frac) =>
    if int.isEmpty && frac.isEmpty then false else int.all Char.isDigit && frac.all Char.isDigit

/-- Digits after an optional sign. -/
def isExponent (exponent : List Char) : Bool :=
  let digits := match exponent with
    | '+' :: digits | '-' :: digits => digits
    | _ => exponent
  !digits.isEmpty && digits.all Char.isDigit

/-- Whether a text is a negative number. -/
def isNegativeNumber (s : String) : Bool :=
  match s.toList with
  | '-' :: rest =>
    match splitOnce (fun c => c = 'e' || c = 'E') rest with
    | some (mantissa, exponent) => isDecimal mantissa && isExponent exponent
    | none => isDecimal rest
  | _ => false

/-- Whether a spreadsheet would run it. -/
def isFormulaLike (s : String) : Bool :=
  match s.toList.head? with
  | none => false
  | some first => if first ∉ formulaTriggers then false else !isNegativeNumber s

/-- A quoted cell. -/
def field (s : String) : String :=
  let out := "".push '"'
  let out := if isFormulaLike s then out.push '\'' else out
  let out := s.toList.foldl (fun out c => (if c = '"' then out.push '"' else out).push c) out
  out.push '"'

/-- One round of the loop of `row`. -/
def addField (out : String) (f : String × Nat) : String :=
  (if 0 < f.2 then out.push ',' else out) ++ field f.1

/-- A row of cells. -/
def row (fields : List String) : String := fields.zipIdx.foldl addField ""

end Yagra.Runtime.Csv
