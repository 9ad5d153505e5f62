import Mathlib.Data.List.Dedup
import Mathlib.Data.List.Sort

/-!
# `Yagra.Lib.SameMembers`: lists up to order and repetition

`SameMembers l l'` says that two lists have the same members. An index that files an item
under several keys and sorts what it finds again gives back the same members, in another
order and with repetitions. So does any reordering of the input.

The lemmas say which list functions cannot tell such lists apart: filters and maps, the
existence of an element, the least element, and a fold whose step commutes and absorbs
repetitions (`SameMembers.foldl_eq`). A sort can tell them apart by the order of items of one rank,
which a cut of the sort only shows when they come before it (`take_eq_of_ties`).
-/

set_option autoImplicit false

namespace Yagra.Lib

open List

variable {α β σ : Type}

/-- The lists have the same members. -/
def SameMembers (l l' : List α) : Prop := ∀ a, a ∈ l ↔ a ∈ l'

namespace SameMembers

variable {l l' : List α}

theorem of_perm (h : l.Perm l') : SameMembers l l' := fun _ => h.mem_iff

theorem filter (h : SameMembers l l') (p : α → Bool) : SameMembers (l.filter p) (l'.filter p) := by
  intro a
  simp only [mem_filter, h a]

theorem map (h : SameMembers l l') (f : α → β) : SameMembers (l.map f) (l'.map f) := by
  intro b
  rw [mem_map, mem_map]
  exact exists_congr fun a => and_congr_left' (h a)

theorem filterMap (h : SameMembers l l') (f : α → Option β) :
    SameMembers (l.filterMap f) (l'.filterMap f) := by
  intro b
  rw [mem_filterMap, mem_filterMap]
  exact exists_congr fun a => and_congr_left' (h a)

theorem any_eq (h : SameMembers l l') (p : α → Bool) : l.any p = l'.any p := by
  rw [Bool.eq_iff_iff, any_eq_true, any_eq_true]
  exact exists_congr fun a => and_congr_left' (h a)

/-- A choice that is told by its members is the same on both lists. -/
theorem eq_of_spec {f : List α → Option β} {P : List α → β → Prop}
    (hspec : ∀ l b, f l = some b ↔ P l b) (hP : ∀ b, P l b ↔ P l' b) : f l = f l' := by
  refine Option.ext fun b => ?_
  rw [hspec, hspec, hP]

theorem min?_eq {l l' : List Nat} (h : SameMembers l l') : l.min? = l'.min? := by
  refine eq_of_spec (P := fun l a => a ∈ l ∧ ∀ b ∈ l, a ≤ b) (fun l a => ?_) fun a => ?_
  · exact min?_eq_some_iff
  · exact and_congr (h a) (forall_congr' fun b => imp_congr_left (h b))

end SameMembers

/-- An item that is folded in again later adds nothing now. -/
theorem foldl_absorb {f : σ → α → σ} {l : List α} {a : α}
    (hcomm : ∀ b ∈ l, ∀ s, f (f s a) b = f (f s b) a) (hidem : ∀ s, f (f s a) a = f s a)
    (ha : a ∈ l) (s : σ) : l.foldl f (f s a) = l.foldl f s := by
  induction l generalizing s with
  | nil => cases ha
  | cons b rest ih =>
    rcases mem_cons.1 ha with rfl | hrest
    · simp only [foldl_cons, hidem]
    · -- Move `a` past the head, to where it comes again.
      rw [foldl_cons, hcomm b mem_cons_self]
      exact ih (fun c hc => hcomm c (mem_cons_of_mem b hc)) hrest (f s b)

/-- A fold whose step commutes and absorbs repetitions only sees which items there are. -/
theorem SameMembers.foldl_eq {f : σ → α → σ} {l l' : List α} (h : SameMembers l l')
    (hcomm : ∀ a ∈ l, ∀ b ∈ l, ∀ s, f (f s a) b = f (f s b) a)
    (hidem : ∀ a ∈ l, ∀ s, f (f s a) a = f s a) (s : σ) : l.foldl f s = l'.foldl f s := by
  classical
  have hdedup : ∀ (l : List α), (∀ a ∈ l, ∀ b ∈ l, ∀ s, f (f s a) b = f (f s b) a) →
      (∀ a ∈ l, ∀ s, f (f s a) a = f s a) → ∀ s, l.foldl f s = l.dedup.foldl f s := by
    intro l
    induction l with
    | nil => exact fun _ _ _ => rfl
    | cons a rest ih =>
      intro hcomm hidem s
      have hrest := ih (fun b hb c hc => hcomm b (mem_cons_of_mem a hb) c
        (mem_cons_of_mem a hc)) fun b hb => hidem b (mem_cons_of_mem a hb)
      by_cases ha : a ∈ rest
      · rw [dedup_cons_of_mem ha, ← hrest]
        exact foldl_absorb (fun b hb => hcomm a mem_cons_self b (mem_cons_of_mem a hb))
          (hidem a mem_cons_self) ha s
      · rw [dedup_cons_of_notMem ha, foldl_cons, foldl_cons, hrest]
  have hperm : l.dedup.Perm l'.dedup :=
    (perm_ext_iff_of_nodup l.nodup_dedup l'.nodup_dedup).2 fun a => by
      rw [mem_dedup, mem_dedup, h a]
  rw [hdedup l hcomm hidem, hdedup l'
    (fun a ha b hb => hcomm a ((h a).2 ha) b ((h b).2 hb)) fun a ha => hidem a ((h a).2 ha)]
  refine hperm.foldl_eq' (fun a ha b hb s => ?_) s
  exact hcomm a (mem_dedup.1 ha) b (mem_dedup.1 hb) s

/-! ### A loop that keeps the best -/

/-- The loop ends with an item that no item of the list is better than. -/
theorem foldl_best {R : α → α → Prop} (htrans : ∀ {a b c}, R a b → R b c → R a c)
    {p : α → α → Bool} {l : List α} {a : α}
    (h : ∀ x ∈ a :: l, ∀ y ∈ a :: l, if p x y then R x y else R y x) :
    l.foldl (fun best x => if p best x then x else best) a ∈ a :: l ∧
      ∀ x ∈ a :: l, R x (l.foldl (fun best x => if p best x then x else best) a) := by
  have hrefl : ∀ x ∈ a :: l, R x x := fun x hx => by simpa using h x hx x hx
  induction l generalizing a with
  | nil => simpa using hrefl a
  | cons b rest ih =>
    have hstep := h a mem_cons_self b (by simp)
    have hb := hrefl b (by simp)
    have ha := hrefl a (by simp)
    rw [foldl_cons]
    -- Of the first two, the better one goes on, and the other one is left behind.
    cases hp : p a b <;> simp only [hp, Bool.false_eq_true, if_true, if_false] at *
    · obtain ⟨hmem, hall⟩ := ih (a := a) (fun x hx y hy => h x (by grind) y (by grind)) (by grind)
      exact ⟨by grind, fun x hx => by grind⟩
    · obtain ⟨hmem, hall⟩ := ih (a := b) (fun x hx y hy => h x (by grind) y (by grind)) (by grind)
      exact ⟨by grind, fun x hx => by grind⟩

/-! ### The first items of a sort -/

section

variable {κ : Type} [LinearOrder κ] {rank : α → κ} {l l' : List α} {n : Nat}

/-- How many items of a list come before those of a rank. -/
def below (rank : α → κ) (l : List α) (k : κ) : Nat := l.countP fun b => rank b < k

/-- The first items of a sort are told by the members, when items of one rank come after the cut. -/
theorem take_eq_of_ties (h : l.Perm l') (hl : l.Pairwise fun a b => rank a ≤ rank b)
    (hl' : l'.Pairwise fun a b => rank a ≤ rank b)
    (hties : ∀ a ∈ l, ∀ b ∈ l, rank a = rank b → below rank l (rank a) < n → a = b) :
    l.take n = l'.take n := by
  induction l generalizing l' n with
  | nil => rw [h.nil_eq]
  | cons a rest ih =>
    cases l' with
    | nil => simp at h
    | cons a' rest' =>
      cases n with
      | zero => rfl
      | succ n =>
        rw [pairwise_cons] at hl hl'
        have hfirst : ∀ b ∈ a :: rest, rank a ≤ rank b := by simpa using hl.1
        have hfirst' : ∀ b ∈ a' :: rest', rank a' ≤ rank b := by simpa using hl'.1
        have ha' : a' ∈ a :: rest := h.mem_iff.2 mem_cons_self
        have hrank := le_antisymm (hfirst a' ha') (hfirst' a (h.mem_iff.1 mem_cons_self))
        have hnone : below rank (a :: rest) (rank a) = 0 :=
          countP_eq_zero.2 fun b hb => by simpa using hfirst b hb
        obtain rfl := hties a mem_cons_self a' ha' hrank (hnone ▸ Nat.succ_pos n)
        rw [take_succ_cons, take_succ_cons, ih h.cons_inv hl.2 hl'.2 fun x hx y hy hxy hbelow => ?_]
        refine hties x (mem_cons_of_mem a hx) y (mem_cons_of_mem a hy) hxy ?_
        rw [below, countP_cons]
        unfold below at hbelow
        split <;> omega

/-- An item is inserted right after the items below it. -/
theorem getElem?_orderedInsert (a : α) (hl : l.Pairwise fun a b => rank a ≤ rank b) :
    (l.orderedInsert (fun a b => rank a ≤ rank b) a)[below rank l (rank a)]? = some a := by
  induction l with
  | nil => rfl
  | cons b rest ih =>
    rw [pairwise_cons] at hl
    by_cases hb : rank a ≤ rank b
    · have hnone : below rank (b :: rest) (rank a) = 0 := by
        refine countP_eq_zero.2 fun c hc => ?_
        rcases mem_cons.1 hc with rfl | hc
        · simpa using hb
        · simpa using hb.trans (hl.1 c hc)
      rw [hnone, orderedInsert_cons, if_pos hb]
      rfl
    · have hone : below rank (b :: rest) (rank a) = below rank rest (rank a) + 1 :=
        countP_cons_of_pos (by simpa using hb)
      rw [hone, orderedInsert_cons, if_neg hb, getElem?_cons_succ, ih hl.2]

end

/-!
## Rows with unique columns

A table is a list of rows, and a unique column is a function `f` with `(rows.map f).Nodup`. The
three writes are appending a row, changing the rows that pass a test, and keeping the rows that pass
one. Each has a lemma that says when it keeps a column unique. `find?_spec` and `find?_of_unique`
are what a lookup by a test answers, and `mapM_eq` is what reading every row answers where a row may
be unreadable.
-/

variable {ρ κ : Type} {f : ρ → κ} {rows : List ρ} {r : ρ}

/-! ### Writes -/

/-- Appending a row whose value is not in the column. -/
theorem nodup_map_concat (h : (rows.map f).Nodup) (hr : f r ∉ rows.map f) :
    ((rows ++ [r]).map f).Nodup := by
  rw [map_append, nodup_append]
  refine ⟨h, nodup_singleton _, fun a ha b hb => ?_⟩
  rw [mem_singleton.1 hb]
  rintro rfl
  exact hr ha

/-- Changing some rows in other columns. -/
theorem map_changeWhere {p : ρ → Prop} [DecidablePred p] {g : ρ → ρ} (hg : ∀ r, f (g r) = f r)
    (rows : List ρ) : (rows.map fun r => if p r then g r else r).map f = rows.map f := by
  rw [map_map]
  refine map_congr_left fun r _ => ?_
  simp only [Function.comp_apply]
  split
  · exact hg r
  · rfl

theorem nodup_map_changeWhere {p : ρ → Prop} [DecidablePred p] {g : ρ → ρ}
    (h : (rows.map f).Nodup) (hg : ∀ r, f (g r) = f r) :
    ((rows.map fun r => if p r then g r else r).map f).Nodup := by
  rw [map_changeWhere hg]
  exact h

theorem nodup_map_filter {p : ρ → Bool} (h : (rows.map f).Nodup) : ((rows.filter p).map f).Nodup :=
  h.sublist (filter_sublist.map f)

/-- What is in a list is still there after one place is overwritten, unless it stood there. -/
theorem mem_set_of_mem {i : Nat} {a b c : ρ} (ha : rows[i]? = some a) (hc : c ∈ rows) :
    c = a ∨ c ∈ rows.set i b := by
  obtain ⟨j, hj⟩ := mem_iff_getElem?.1 hc
  by_cases hij : i = j
  · subst hij
    exact .inl (Option.some.inj (hj.symm.trans ha))
  · refine .inr (mem_iff_getElem?.2 ⟨j, ?_⟩)
    rw [getElem?_set_ne hij]
    exact hj

/-- The same for a place that is taken out. -/
theorem mem_eraseIdx_of_mem {i : Nat} {a c : ρ} (ha : rows[i]? = some a) (hc : c ∈ rows) :
    c = a ∨ c ∈ rows.eraseIdx i := by
  obtain ⟨j, hj⟩ := mem_iff_getElem?.1 hc
  by_cases hij : j = i
  · subst hij
    exact .inl (Option.some.inj (hj.symm.trans ha))
  · exact .inr (mem_eraseIdx_iff_getElem?.2 ⟨j, hij, hj⟩)

/-! ### Lookups -/

variable {p : ρ → Prop} [DecidablePred p]

/-- What a lookup by a test finds. -/
theorem find?_spec (h : rows.find? (fun r => decide (p r)) = some r) : r ∈ rows ∧ p r := by
  have hp := find?_some h
  exact ⟨mem_of_find?_eq_some h, of_decide_eq_true hp⟩

/-- A lookup by a test that only one row passes finds that row. -/
theorem find?_of_unique (hr : r ∈ rows) (hp : p r) (hunique : ∀ r' ∈ rows, p r' → r' = r) :
    rows.find? (fun r => decide (p r)) = some r := by
  cases hf : rows.find? (fun r => decide (p r)) with
  | none => exact absurd (decide_eq_true hp) (find?_eq_none.1 hf r hr)
  | some r' =>
    obtain ⟨hr', hp'⟩ := find?_spec hf
    rw [hunique r' hr' hp']

/-! ### Reading every row -/

theorem mapM_eq (f : ρ → Option κ) (l : List ρ) :
    l.mapM f = if ∀ a ∈ l, (f a).isSome then some (l.filterMap f) else none := by
  induction l with
  | nil => rfl
  | cons a rest ih =>
    rw [mapM_cons, ih]
    cases hf : f a with
    | none => simp [hf]
    | some b =>
      simp only [forall_mem_cons, hf, Option.isSome_some, true_and]
      split <;> simp [hf]

theorem mem_of_mapM {f : ρ → Option κ} {ks : List κ} {k : κ} (h : rows.mapM f = some ks) :
    k ∈ ks ↔ ∃ r ∈ rows, f r = some k := by
  rw [mapM_eq] at h
  split at h
  · rw [← Option.some.inj h, mem_filterMap]
  · contradiction

end Yagra.Lib
