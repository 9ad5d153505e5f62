import Mathlib.Data.List.Sort
import Mathlib.Data.Finset.Basic

/-!
# `Yagra.Lib.OrdSet`: ordered sets as strictly sorted lists

An `OrdSet α` is a list together with the proof that it is strictly sorted. Two such sets
with the same members are equal (`OrdSet.ext`), so a set built in two different orders is
one value. The operations recurse on the list, so a membership question on a concrete set
evaluates in the kernel.

`insert` and `erase` carry their membership lemmas as simp lemmas. The rest of the
development uses those lemmas and never looks at the underlying list.
-/

set_option autoImplicit false

namespace Yagra.Lib

open List

/-- A finite set of an ordered type, kept as its strictly increasing list of members. -/
structure OrdSet (α : Type) [LinearOrder α] where
  /-- The members, in increasing order. -/
  toList : List α
  /-- The list is strictly increasing, so it has no duplicates either. -/
  sorted : toList.SortedLT

namespace OrdSet

variable {α : Type} [LinearOrder α]

instance : Membership α (OrdSet α) := ⟨fun s a => a ∈ s.toList⟩

instance (s : OrdSet α) (a : α) : Decidable (a ∈ s) :=
  inferInstanceAs (Decidable (a ∈ s.toList))

instance : DecidableEq (OrdSet α) := fun s t =>
  decidable_of_iff (s.toList = t.toList) (by cases s; cases t; simp)

variable {s : OrdSet α}

theorem mem_toList {a : α} : a ∈ s.toList ↔ a ∈ s := Iff.rfl

/-- Two ordered sets with the same members are equal: a strictly sorted list is determined
by its members. -/
@[ext]
theorem ext {t : OrdSet α} (h : ∀ a, a ∈ s ↔ a ∈ t) : s = t := by
  have hl : s.toList = t.toList := s.sorted.eq_of_mem_iff t.sorted (fun {a} => h a)
  cases s; cases t; simp_all

/-- The set without members. -/
def empty : OrdSet α := ⟨[], by simp [sortedLT_iff_pairwise]⟩

instance : EmptyCollection (OrdSet α) := ⟨empty⟩

@[simp] theorem notMem_empty (a : α) : a ∉ (∅ : OrdSet α) := by
  simp [← mem_toList, EmptyCollection.emptyCollection, empty]

/-- Add a member. -/
def insert (a : α) (s : OrdSet α) : OrdSet α :=
  if h : a ∈ s then s
  else ⟨s.toList.orderedInsert (· ≤ ·) a, by
    rw [sortedLT_iff_nodup_and_sortedLE]
    refine ⟨?_, ?_⟩
    · rw [(perm_orderedInsert (· ≤ ·) a s.toList).nodup_iff]
      exact nodup_cons.2 ⟨h, s.sorted.nodup⟩
    · exact (s.sorted.sortedLE.pairwise.orderedInsert a _).sortedLE⟩

@[simp] theorem mem_insert {a b : α} : b ∈ s.insert a ↔ b = a ∨ b ∈ s := by
  unfold insert
  split
  next h => exact ⟨.inr, fun hb => hb.elim (fun e => e ▸ h) id⟩
  · simp [← mem_toList, mem_orderedInsert]

/-- Remove a member. -/
def erase (a : α) (s : OrdSet α) : OrdSet α :=
  ⟨s.toList.filter (· ≠ a), by
    rw [sortedLT_iff_pairwise]
    exact s.sorted.pairwise.sublist filter_sublist⟩

@[simp] theorem mem_erase {a b : α} : b ∈ s.erase a ↔ b ≠ a ∧ b ∈ s := by
  simp [← mem_toList, erase, and_comm]

/-- Add every element of a list, from left to right. -/
def extend (s : OrdSet α) (l : List α) : OrdSet α := l.foldl (fun s a => s.insert a) s

variable {l : List α}

@[simp] theorem mem_extend {b : α} : b ∈ s.extend l ↔ b ∈ s ∨ b ∈ l := by
  induction l generalizing s with
  | nil => simp [extend]
  | cons a rest ih =>
    have h : s.extend (a :: rest) = (s.insert a).extend rest := rfl
    rw [h, ih, mem_insert, mem_cons]
    tauto

/-- The set of the elements of a list. -/
def ofList (l : List α) : OrdSet α := (∅ : OrdSet α).extend l

@[simp] theorem mem_ofList {b : α} : b ∈ ofList l ↔ b ∈ l := by
  simp [ofList]

/-- Remove every element of a list, from left to right. -/
def eraseAll (s : OrdSet α) (l : List α) : OrdSet α := l.foldl (fun s a => s.erase a) s

@[simp] theorem mem_eraseAll {b : α} : b ∈ s.eraseAll l ↔ b ∈ s ∧ b ∉ l := by
  induction l generalizing s with
  | nil => simp [eraseAll]
  | cons a rest ih =>
    have h : s.eraseAll (a :: rest) = (s.erase a).eraseAll rest := rfl
    rw [h, ih, mem_erase, mem_cons]
    tauto

end OrdSet

end Yagra.Lib
