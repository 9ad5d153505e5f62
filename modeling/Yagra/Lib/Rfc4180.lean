import Mathlib.Data.List.Basic

/-!
# `Yagra.Lib.Rfc4180`: reading comma-separated records

Commas separate the cells of a record, and CR LF ends it; the last record may end with the text. A
cell that begins with a quote goes on to the next quote that is not doubled, whatever stands in
between. A quote inside another cell, text after a closing quote and half a line break are errors.

`read_quoted` says that a record of quoted cells is read back as it was.
-/

set_option autoImplicit false

namespace Yagra.Lib.Rfc4180

/-- Where in a cell a reader is. -/
inductive Place where
  | start | plain | quoted | closed | afterCr
deriving DecidableEq, Repr

/-- A reader in the middle of a text. -/
structure Reader where
  place : Place
  cell : List Char
  cells : List String
  records : List (List String)
deriving DecidableEq, Repr

namespace Reader

variable (r : Reader) (c : Char)

/-- The end of a cell. -/
def endCell : Reader :=
  { r with place := .start, cell := [], cells := r.cells ++ [String.ofList r.cell] }

/-- The end of a record. -/
def endRecord : Reader :=
  { r.endCell with cells := [], records := r.records ++ [r.endCell.cells] }

/-- The characters that end a cell. -/
def separate : Option Reader :=
  if c = ',' then some r.endCell
  else if c = '\r' then some { r with place := .afterCr }
  else none

/-- The characters of a cell without quotes. -/
def text : Option Reader :=
  if c = ',' ∨ c = '\r' then r.separate c
  else if c = '"' ∨ c = '\n' then none
  else some { r with place := .plain, cell := r.cell ++ [c] }

/-- One character. -/
def step : Option Reader :=
  match r.place with
  | .start => if c = '"' then some { r with place := .quoted } else r.text c
  | .plain => r.text c
  | .quoted =>
    if c = '"' then some { r with place := .closed } else some { r with cell := r.cell ++ [c] }
  | .closed =>
    if c = '"' then some { r with place := .quoted, cell := r.cell ++ [c] } else r.separate c
  | .afterCr => if c = '\n' then some r.endRecord else none

/-- The end of the text. A line break before it begins no further record. -/
def finish : Option (List (List String)) :=
  match r.place with
  | .start => some (if r.cells = [] then r.records else r.endRecord.records)
  | .plain | .closed => some r.endRecord.records
  | .quoted | .afterCr => none

end Reader

open Reader

/-- The records of a text. -/
def read (text : String) : Option (List (List String)) :=
  (text.toList.foldlM step ⟨.start, [], [], []⟩).bind finish

/-- A character inside quotes. -/
def double (c : Char) : List Char := if c = '"' then ['"', '"'] else [c]

/-- A cell in quotes. -/
def quoted (cell : String) : List Char := '"' :: cell.toList.flatMap double ++ ['"']

variable (cells : List String) (records : List (List String))

theorem foldlM_double (text cell : List Char) :
    (text.flatMap double).foldlM step ⟨.quoted, cell, cells, records⟩
      = some ⟨.quoted, cell ++ text, cells, records⟩ := by
  induction text generalizing cell with
  | nil => simp
  | cons c rest ih =>
    rw [List.flatMap_cons]
    by_cases hc : c = '"' <;> simp [double, hc, step, ih]

theorem foldlM_quoted (cell : String) :
    (quoted cell).foldlM step ⟨.start, [], cells, records⟩
      = some ⟨.closed, cell.toList, cells, records⟩ := by
  simp [quoted, step, foldlM_double]

theorem finish_quoted (first : String) (rest : List String) :
    ((quoted first ++ rest.flatMap fun cell => ',' :: quoted cell).foldlM step
        ⟨.start, [], cells, records⟩).bind finish
      = some (records ++ [cells ++ first :: rest]) := by
  induction rest generalizing first cells with
  | nil => simp [foldlM_quoted, finish, endRecord, endCell]
  | cons next rest ih =>
    -- The comma ends the first cell, and the reader is at the start of the next one.
    have hcomma : step ⟨.closed, first.toList, cells, records⟩ ','
        = some ⟨.start, [], cells ++ [first], records⟩ := by
      simp [step, separate, endCell]
    have hnext := ih (cells ++ [first]) next
    rw [List.foldlM_append, foldlM_quoted]
    simpa [hcomma] using hnext

/-- A record of one or more quoted cells is read as these cells. -/
theorem read_quoted (first : String) (rest : List String) {text : String}
    (h : text.toList = quoted first ++ rest.flatMap fun cell => ',' :: quoted cell) :
    read text = some [first :: rest] := by
  rw [read, h]
  exact finish_quoted [] [] first rest

end Yagra.Lib.Rfc4180
