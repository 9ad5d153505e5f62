import Mathlib.Logic.Function.Basic
import Yagra.Lib.Emit

/-!
# `Yagra.Lib.TreeMap`: ordered maps

The entries of a map have distinct keys, so the entries of one key are the value the map has there
(`filter_toList`). A loop of updates that each touch one key, seen at a key, is the loop over the
items that touch it (`getElem?_foldl`).

`tally key l` is the loop that counts, for each key, how many items of a list have it. A key that no
item has is not in the result, so a lookup reads it as zero (`getD_tally`). `collect key l` is the
loop that gathers the items of each key, in their order (`getElem?_collect`).
-/

set_option autoImplicit false

namespace Yagra.Lib

open Std (ExtTreeMap)
open List

variable {α κ : Type} [Ord κ] [Std.TransOrd κ]

theorem nodup_toList_fst {ν : Type} (m : ExtTreeMap κ ν) : (m.toList.map Prod.fst).Nodup := by
  rw [ExtTreeMap.map_fst_toList_eq_keys]
  exact ExtTreeMap.nodup_keys

theorem getElem?_foldl [DecidableEq κ] {ν : Type} {step : ExtTreeMap κ ν → α → ExtTreeMap κ ν}
    {key : α → κ} {g : Option ν → α → Option ν} {k : κ}
    (hstep : ∀ m a, (step m a)[k]? = if key a = k then g m[k]? a else m[k]?) (l : List α)
    (m : ExtTreeMap κ ν) :
    (l.foldl step m)[k]? = (l.filter fun a => decide (key a = k)).foldl g m[k]? := by
  induction l generalizing m with
  | nil => rfl
  | cons a rest ih =>
    rw [foldl_cons, ih, hstep]
    by_cases hk : key a = k <;> simp [hk]

variable [Std.LawfulEqOrd κ]

/-- The entry of a key. -/
theorem filter_toList [DecidableEq κ] {ν : Type} (m : ExtTreeMap κ ν) (k : κ) :
    m.toList.filter (fun p => decide (p.1 = k)) = m[k]?.toList.map fun v => (k, v) := by
  cases hk : m[k]? with
  | none =>
    refine filter_eq_nil_iff.2 fun p hp heq => ?_
    have := ExtTreeMap.mem_toList_iff_getElem?_eq_some.1 hp
    simp [of_decide_eq_true heq, hk] at this
  | some v =>
    exact filter_key_eq_singleton (nodup_toList_fst m) (a := (k, v))
      (ExtTreeMap.mem_toList_iff_getElem?_eq_some.2 hk)

theorem getElem?_foldl_erase [DecidableEq κ] {ν : Type} (key : α → κ) (l : List α)
    (m : ExtTreeMap κ ν) (k : κ) :
    (l.foldl (fun m a => m.erase (key a)) m)[k]? = if ∃ a ∈ l, key a = k then none else m[k]? := by
  induction l generalizing m with
  | nil => simp
  | cons a rest ih =>
    rw [foldl_cons, ih, ExtTreeMap.getElem?_erase]
    by_cases hk : key a = k <;> simp [hk]

/-! ### Counting by key -/

/-- How many items of the list have each key. -/
def tally (key : α → κ) (l : List α) : ExtTreeMap κ Nat :=
  l.foldl (fun counts a => counts.insert (key a) ((counts[key a]?).getD 0 + 1)) ∅

/-- The count of a key is the number of items that have it. -/
theorem getD_tally [DecidableEq κ] (key : α → κ) (l : List α) (k : κ) :
    ((tally key l)[k]?).getD 0 = l.countP fun a => key a = k := by
  have hloop : ∀ (l : List α) (counts : ExtTreeMap κ Nat),
      ((l.foldl (fun counts a => counts.insert (key a) ((counts[key a]?).getD 0 + 1))
        counts)[k]?).getD 0 = (counts[k]?).getD 0 + l.countP fun a => key a = k := by
    intro l
    induction l with
    | nil => simp
    | cons a rest ih =>
      intro counts
      rw [foldl_cons, ih, ExtTreeMap.getElem?_insert]
      by_cases hk : key a = k
      · subst hk
        simp
        omega
      · simp [hk]
  simpa [tally] using hloop l ∅

/-! ### Gathering by key -/

/-- The items of the list that have each key. -/
def collect (key : α → κ) (l : List α) : ExtTreeMap κ (List α) :=
  l.foldl (fun groups a => groups.insert (key a) ((groups[key a]?).getD [] ++ [a])) ∅

/-- The group of a key is the items that have it, in their order. -/
theorem getElem?_collect [DecidableEq κ] (key : α → κ) (l : List α) (k : κ) :
    (collect key l)[k]?
      = if l.filter (fun a => key a = k) = [] then none
        else some (l.filter fun a => key a = k) := by
  have hloop : ∀ (l : List α) (groups : ExtTreeMap κ (List α)),
      (l.foldl (fun groups a => groups.insert (key a) ((groups[key a]?).getD [] ++ [a])) groups)[k]?
        = if l.filter (fun a => key a = k) = [] then groups[k]?
          else some ((groups[k]?).getD [] ++ l.filter fun a => key a = k) := by
    intro l
    induction l with
    | nil => simp
    | cons a rest ih =>
      intro groups
      rw [foldl_cons, ih, ExtTreeMap.getElem?_insert]
      by_cases hk : key a = k
      · subst hk
        by_cases hrest : rest.filter (fun b => key b = key a) = []
        · simp [hrest]
        · simp [hrest]
      · simp [hk]
  simpa [collect] using hloop l ∅

/-- A gathered map has exactly the groups that are not empty. -/
theorem mem_toList_collect [DecidableEq κ] {key : α → κ} {l : List α} {k : κ} {group : List α} :
    (k, group) ∈ (collect key l).toList ↔ group = l.filter (fun a => key a = k) ∧ group ≠ [] := by
  rw [ExtTreeMap.mem_toList_iff_getElem?_eq_some, getElem?_collect]
  split
  next hnil => simp [hnil]
  next hsome =>
    rw [Option.some.injEq]
    constructor
    · rintro rfl
      exact ⟨rfl, hsome⟩
    · rintro ⟨rfl, -⟩
      rfl

/-!
## Keyed maps as functions

A map from keys to values is a function to `Option`. `orInsert` is the insertion that keeps
a value already there. `foldl_orInsert` reads a loop of such insertions at one key: the value
that was there, or else the one of the first item with that key.
-/

variable {κ ν ι : Type} [DecidableEq κ]

/-- Insert a value unless the key already has one. -/
def orInsert (m : κ → Option ν) (k : κ) (v : ν) : κ → Option ν :=
  if (m k).isSome then m else Function.update m k (some v)

theorem orInsert_apply (m : κ → Option ν) (k : κ) (v : ν) (j : κ) :
    orInsert m k v j = if j = k then some ((m k).getD v) else m j := by
  unfold orInsert
  split
  next h =>
    obtain ⟨w, hw⟩ := Option.isSome_iff_exists.1 h
    split
    next hj => rw [hj, hw, Option.getD_some]
    · rfl
  next h =>
    have hk : m k = none := by simpa using h
    rw [Function.update_apply, hk, Option.getD_none]

/-- A loop of insertions that keep what is there, at one key. -/
theorem foldl_orInsert (key : ι → κ) (val : ι → ν) (l : List ι) (m : κ → Option ν) (k : κ) :
    l.foldl (fun m a => orInsert m (key a) (val a)) m k
      = (m k <|> (l.find? (fun a => key a = k)).map val) := by
  induction l generalizing m with
  | nil => simp
  | cons a rest ih =>
    rw [foldl_cons, ih, orInsert_apply]
    by_cases hk : k = key a
    · subst hk
      cases m (key a) <;> simp
    · have : key a ≠ k := fun h => hk h.symm
      simp [hk, this]

end Yagra.Lib
