import Mathlib.Data.List.Forall2
import Yagra.Lib.Rfc4180
import Yagra.Runtime.Csv

/-!
# `Yagra.Proofs.Csv`: exported cells stay data

An exported row is the quoted cells of its values with commas between them (`toList_row`), so a
reader gets one cell for each value back. A value that begins like a formula is left alone only if
all of it is a negative number (`negativeNumber_of_isNegativeNumber`).

The grammar of these numbers is stated here on its own: nothing in it splits a text at a first
exponent letter or a first point.
-/

set_option autoImplicit false

namespace Yagra.Runtime.Csv

open Yagra.Lib Rfc4180 List

/-! ### Negative numbers -/

/-- All characters are digits. -/
def Digits (text : List Char) : Prop := ∀ c ∈ text, c.isDigit = true

/-- Digits, or digits on at least one side of a point. -/
inductive Decimal : List Char → Prop
  | whole {int : List Char} (hne : int ≠ []) (hint : Digits int) : Decimal int
  | point {int frac : List Char} (hne : int ≠ [] ∨ frac ≠ []) (hint : Digits int)
      (hfrac : Digits frac) : Decimal (int ++ '.' :: frac)

/-- Nothing, or a letter, an optional sign and digits. -/
inductive Exponent : List Char → Prop
  | absent : Exponent []
  | present {mark : Char} {sign digits : List Char} (hmark : mark = 'e' ∨ mark = 'E')
      (hsign : sign = [] ∨ sign = ['+'] ∨ sign = ['-']) (hne : digits ≠ [])
      (hdigits : Digits digits) : Exponent (mark :: sign ++ digits)

/-- The whole text is a minus sign, a decimal number and an optional exponent. -/
def NegativeNumber (s : String) : Prop :=
  ∃ mantissa exponent, s.toList = '-' :: mantissa ++ exponent ∧ Decimal mantissa ∧
    Exponent exponent

theorem splitOnce_eq_some {p : Char → Bool} {text before after : List Char}
    (h : splitOnce p text = some (before, after)) :
    ∃ c, p c = true ∧ text = before ++ c :: after := by
  induction text generalizing before with
  | nil => cases h
  | cons c rest ih =>
    rw [splitOnce] at h
    split at h
    next hc =>
      cases h
      exact ⟨c, hc, rfl⟩
    next =>
      obtain ⟨⟨before', after'⟩, hrest, he⟩ := Option.map_eq_some_iff.1 h
      cases he
      obtain ⟨d, hd, rfl⟩ := ih hrest
      exact ⟨d, hd, rfl⟩

theorem decimal_of_isDecimal {mantissa : List Char} (h : isDecimal mantissa = true) :
    Decimal mantissa := by
  unfold isDecimal at h
  cases hsplit : splitOnce (· = '.') mantissa with
  | none =>
    simp only [hsplit, Option.getD_none] at h
    have hparts : mantissa ≠ [] ∧ Digits mantissa := by simpa [Digits] using h
    exact .whole hparts.1 hparts.2
  | some parts =>
    obtain ⟨int, frac⟩ := parts
    simp only [hsplit, Option.getD_some] at h
    obtain ⟨c, hc, rfl⟩ := splitOnce_eq_some hsplit
    obtain rfl : c = '.' := of_decide_eq_true hc
    have hparts : (int ≠ [] ∨ frac ≠ []) ∧ Digits int ∧ Digits frac := by simpa [Digits] using h
    exact .point hparts.1 hparts.2.1 hparts.2.2

theorem exponent_of_isExponent {mark : Char} (hmark : mark = 'e' ∨ mark = 'E')
    {exponent : List Char} (h : isExponent exponent = true) : Exponent (mark :: exponent) := by
  have hpresent : ∀ (sign : List Char) {digits : List Char},
      sign = [] ∨ sign = ['+'] ∨ sign = ['-'] →
      (!digits.isEmpty && digits.all Char.isDigit) = true → Exponent (mark :: sign ++ digits) := by
    intro sign digits hsign h
    have hparts : digits ≠ [] ∧ Digits digits := by simpa [Digits] using h
    exact .present hmark hsign hparts.1 hparts.2
  unfold isExponent at h
  split at h
  · exact hpresent ['+'] (by simp) h
  · exact hpresent ['-'] (by simp) h
  · exact hpresent [] (by simp) h

theorem negativeNumber_of_isNegativeNumber {s : String} (h : isNegativeNumber s = true) :
    NegativeNumber s := by
  unfold isNegativeNumber at h
  split at h
  next rest hs =>
    split at h
    next mantissa exponent hsplit =>
      obtain ⟨mark, hmark, rfl⟩ := splitOnce_eq_some hsplit
      obtain ⟨hm, he⟩ := Bool.and_eq_true_iff.1 h
      exact ⟨mantissa, mark :: exponent, hs, decimal_of_isDecimal hm,
        exponent_of_isExponent (by simpa using hmark) he⟩
    next => exact ⟨rest, [], by simpa using hs, decimal_of_isDecimal h, .absent⟩
  next => cases h

/-! ### Rows -/

/-- The text of a value's cell. -/
def cellOf (s : String) : String := if isFormulaLike s then "'" ++ s else s

theorem toList_foldl_push (text : List Char) (out : String) :
    (text.foldl (fun out c => (if c = '"' then out.push '"' else out).push c) out).toList
      = out.toList ++ text.flatMap double := by
  induction text generalizing out with
  | nil => simp
  | cons c rest ih =>
    rw [foldl_cons, ih]
    by_cases hc : c = '"' <;> simp [double, hc]

theorem toList_field (s : String) : (field s).toList = quoted (cellOf s) := by
  cases hs : isFormulaLike s <;> simp [field, cellOf, quoted, hs, toList_foldl_push, double]

theorem toList_row (first : String) (rest : List String) :
    (row (first :: rest)).toList
      = quoted (cellOf first) ++ (rest.map cellOf).flatMap fun cell => ',' :: quoted cell := by
  -- Every value after the first one has a comma before it.
  have hrest : ∀ (l : List String) (i : Nat) (out : String),
      ((l.zipIdx (i + 1)).foldl addField out).toList
        = out.toList ++ (l.map cellOf).flatMap fun cell => ',' :: quoted cell := by
    intro l
    induction l with
    | nil => simp
    | cons s l ih => simp [zipIdx_cons, ih, addField, toList_field]
  simp [row, zipIdx_cons, hrest, addField, toList_field]

/-- The cell holds the value, after an apostrophe or as it is. If it begins like a formula, all of
it is a negative number. -/
def Inert (value cell : String) : Prop :=
  (cell = value ∨ cell = "'" ++ value) ∧
    ∀ c ∈ cell.toList.head?, c ∈ formulaTriggers → NegativeNumber cell

theorem inert_cellOf (s : String) : Inert s (cellOf s) := by
  unfold cellOf
  split
  next => exact ⟨.inr rfl, by simp [formulaTriggers]⟩
  next hs =>
    refine ⟨.inl rfl, fun c hc htrigger => negativeNumber_of_isNegativeNumber ?_⟩
    simpa [isFormulaLike, Option.mem_def.1 hc, htrigger] using hs

/-- A row of one or more values is read as one inert cell for each value, in order. -/
theorem exported_cells_stay_data (fields : List String) (hne : fields ≠ []) :
    ∃ cells, Rfc4180.read (row fields) = some [cells] ∧ List.Forall₂ Inert fields cells := by
  obtain ⟨first, rest, rfl⟩ := List.exists_cons_of_ne_nil hne
  refine ⟨(first :: rest).map cellOf, read_quoted _ _ (toList_row first rest), ?_⟩
  rw [List.forall₂_map_right_iff, List.forall₂_same]
  exact fun s _ => inert_cellOf s

/-- A payload with a quote and a line break beside a negative number. -/
theorem payload_beside_number :
    ∃ cells, Rfc4180.read (row ["=1\"\r\n,", "-1.5E-3"]) = some [cells] ∧
      List.Forall₂ Inert ["=1\"\r\n,", "-1.5E-3"] cells :=
  exported_cells_stay_data _ (by simp)

end Yagra.Runtime.Csv
