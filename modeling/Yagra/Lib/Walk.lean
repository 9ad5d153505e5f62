import Yagra.Lib.OrdSet

/-!
# `Yagra.Lib.Walk`: breadth-first walks over a keyed set

`walk` is the usual worklist loop: take the first item off the queue, ask `visit` for its
successors, and queue the ones that are kept and were not seen before. `visit` may carry a
state from one item to the next, so that a walk can leave out successors it has already
listed for another item.

`walk_mem_iff` says what the loop computes: the items reachable from the start through
kept items. The caller provides `Explores`, which says what `visit` lists, with a predicate
`covered` that relates the state of the walk to the items seen. The loop is bounded by a
fuel; `walk_mem_iff` also says how much fuel is enough. `walkOrder` lists the same items, each
once (`walkOrder_spec`).
-/

set_option autoImplicit false

namespace Yagra.Lib

open List OrdSet

variable {α σ : Type} [LinearOrder α]

/-- Mark the kept, unseen items of a list as seen and append them to the queue. -/
def discover (keep : α → Bool) : OrdSet α × List α → List α → OrdSet α × List α
  | acc, [] => acc
  | acc, m :: rest =>
    if keep m = true ∧ m ∉ acc.1 then discover keep (acc.1.insert m, acc.2 ++ [m]) rest
    else discover keep acc rest

/-- The worklist loop: the items seen when the queue is empty or the fuel is used up. -/
def walk (visit : σ → α → σ × List α) (keep : α → Bool) :
    Nat → σ → OrdSet α → List α → OrdSet α
  | 0, _, seen, _ => seen
  | _ + 1, _, seen, [] => seen
  | fuel + 1, s, seen, n :: queue =>
    match visit s n with
    | (s', out) =>
      match discover keep (seen, queue) out with
      | (seen', queue') => walk visit keep fuel s' seen' queue'

/-- The items of a walk without a state, in the order they come off the queue. -/
def walkOrder (visit : α → List α) (keep : α → Bool) : Nat → OrdSet α → List α → List α
  | 0, _, _ | _ + 1, _, [] => []
  | fuel + 1, seen, n :: queue =>
    match discover keep (seen, queue) (visit n) with
    | (seen', queue') => n :: walkOrder visit keep fuel seen' queue'

/-- What `visit` has to list for a walk to follow the relation `edge`. `covered s seen` says
that what the state `s` leaves out is already among the items seen. -/
structure Explores (visit : σ → α → σ × List α) (keep : α → Bool) (edge : α → α → Prop)
    (covered : σ → OrdSet α → Prop) : Prop where
  /-- Only successors are listed. -/
  sound : ∀ s n m, m ∈ (visit s n).2 → edge n m
  /-- A kept successor that is not listed was seen before. -/
  complete : ∀ s seen n m, covered s seen → edge n m → keep m = true → m ∈ seen ∨ m ∈ (visit s n).2
  /-- The next state is covered once the kept listed items are seen. -/
  next : ∀ s seen seen' n, covered s seen → (∀ a ∈ seen, a ∈ seen') →
    (∀ m ∈ (visit s n).2, keep m = true → m ∈ seen') → covered (visit s n).1 seen'

section Discover
variable {keep : α → Bool}

section

variable {acc : OrdSet α × List α} {l : List α}

/-- What is seen after discovering a list: what was seen, and the kept items of the list. -/
theorem mem_discover_fst {a : α} :
    a ∈ (discover keep acc l).1 ↔ a ∈ acc.1 ∨ (a ∈ l ∧ keep a = true) := by
  induction l generalizing acc with
  | nil => simp [discover]
  | cons m rest ih =>
    unfold discover
    split
    next h =>
      rw [ih, mem_insert, mem_cons]
      constructor
      · rintro ((rfl | ha) | ⟨ha, hk⟩)
        · exact .inr ⟨.inl rfl, h.1⟩
        · exact .inl ha
        · exact .inr ⟨.inr ha, hk⟩
      · rintro (ha | ⟨rfl | ha, hk⟩)
        · exact .inl (.inr ha)
        · exact .inl (.inl rfl)
        · exact .inr ⟨ha, hk⟩
    next h =>
      rw [ih, mem_cons]
      constructor
      · rintro (ha | ⟨ha, hk⟩)
        · exact .inl ha
        · exact .inr ⟨.inr ha, hk⟩
      · rintro (ha | ⟨rfl | ha, hk⟩)
        · exact .inl ha
        · -- A kept item that is not queued was seen already.
          exact .inl (not_not.1 fun hn => h ⟨hk, hn⟩)
        · exact .inr ⟨ha, hk⟩

variable (keep acc l) in
/-- Discovering appends to the queue what it sees for the first time, each item once. -/
theorem discover_spec : ∃ new, (discover keep acc l).2 = acc.2 ++ new ∧ new.Nodup ∧
    (∀ a ∈ new, a ∉ acc.1) ∧ ∀ a, a ∈ (discover keep acc l).1 ↔ a ∈ acc.1 ∨ a ∈ new := by
  induction l generalizing acc with
  | nil => exact ⟨[], by simp [discover]⟩
  | cons m rest ih =>
    unfold discover
    split
    next hm =>
      obtain ⟨new, hqueue, hnodup, hnew, hseen⟩ := ih (acc.1.insert m, acc.2 ++ [m])
      simp only [mem_insert, not_or] at hnew hseen
      refine ⟨m :: new, by simp [hqueue], nodup_cons.2 ⟨fun h => (hnew m h).1 rfl, hnodup⟩,
        forall_mem_cons.2 ⟨hm.2, fun a ha => (hnew a ha).2⟩, fun a => ?_⟩
      rw [hseen, mem_cons, or_assoc, or_left_comm]
    · exact ih acc

end

/-- The members of `space` a walk has not seen yet. -/
def unseen (space : List α) (seen : OrdSet α) : Nat := (space.filter (· ∉ seen)).length

/-- Seeing a new member of `space` leaves fewer unseen. -/
theorem unseen_insert_lt {space : List α} {seen : OrdSet α} {m : α} (hm : m ∈ space)
    (hnew : m ∉ seen) : unseen space (seen.insert m) < unseen space seen := by
  have hsub : ∀ l : List α, (l.filter (· ∉ seen.insert m)).length
      ≤ (l.filter (· ∉ seen)).length := by
    intro l
    refine (monotone_filter_right l fun a ha => ?_).length_le
    simp only [mem_insert, not_or, decide_eq_true_eq] at ha ⊢
    exact ha.2
  obtain ⟨l₁, l₂, rfl⟩ := append_of_mem hm
  have h₁ := hsub l₁
  have h₂ := hsub l₂
  simp only [unseen, filter_append, length_append, filter_cons, hnew,
    mem_insert, true_or, not_true, decide_false, not_false_eq_true, decide_true,
    if_true, length_cons] at *
  simp only [Bool.false_eq_true, if_false]
  omega

/-- Discovering items moves them from the unseen to the queue: the sum of the two never
grows. This is what bounds the loop. -/
theorem discover_measure {space : List α} (hspace : ∀ m, keep m = true → m ∈ space)
    (acc : OrdSet α × List α) (l : List α) :
    (discover keep acc l).2.length + unseen space (discover keep acc l).1
      ≤ acc.2.length + unseen space acc.1 := by
  induction l generalizing acc with
  | nil => exact le_rfl
  | cons m rest ih =>
    unfold discover
    split
    next hm =>
      have hlt := unseen_insert_lt (hspace m hm.1) hm.2
      have := ih (acc.1.insert m, acc.2 ++ [m])
      simp only [length_append, length_singleton] at this
      omega
    · exact ih acc

end Discover

/-! ### What a walk reaches -/

section
variable {visit : σ → α → σ × List α} {keep : α → Bool} {edge : α → α → Prop}
  {covered : σ → OrdSet α → Prop}

variable {queue : List α} {seen : OrdSet α}

/-- A walk only adds items: what was seen stays seen. -/
theorem mem_walk_of_seen {fuel : Nat} {s : σ} {a : α} (h : a ∈ seen) :
    a ∈ walk visit keep fuel s seen queue := by
  induction fuel generalizing s seen queue with
  | zero => exact h
  | succ fuel ih =>
    cases queue with
    | nil => exact h
    | cons n queue => exact ih (mem_discover_fst.2 (.inl h))

/-- A walk stays inside any set that holds what was seen and is closed under kept
successors. -/
theorem walk_subset (hx : Explores visit keep edge covered) {R : α → Prop}
    (hclosed : ∀ a b, R a → edge a b → keep b = true → R b) {fuel : Nat} {s : σ}
    (hqueue : ∀ a ∈ queue, a ∈ seen) (hseen : ∀ a ∈ seen, R a) :
    ∀ a ∈ walk visit keep fuel s seen queue, R a := by
  induction fuel generalizing s seen queue with
  | zero => exact hseen
  | succ fuel ih =>
    cases queue with
    | nil => exact hseen
    | cons n queue =>
      have hn : R n := hseen n (hqueue n mem_cons_self)
      obtain ⟨new, hnew, -, -, hfound⟩ := discover_spec keep (seen, queue) (visit s n).2
      refine ih (fun a ha => ?_) (fun a ha => ?_)
      · rw [hnew, mem_append] at ha
        exact (hfound a).2 (ha.imp_left fun ha => hqueue a (mem_cons_of_mem n ha))
      · rcases mem_discover_fst.1 ha with ha | ⟨ha, hk⟩
        · exact hseen a ha
        · exact hclosed n a hn (hx.sound s n a ha) hk

section

variable (hx : Explores visit keep edge covered) {space : List α}
  (hspace : ∀ m, keep m = true → m ∈ space) {fuel : Nat}

include hx hspace

/-- With enough fuel the result is closed under kept successors. The invariant is that
every item seen is queued or has all its kept successors among the items seen. -/
theorem walk_closed {s : σ} (hfuel : queue.length + unseen space seen ≤ fuel)
    (hcov : covered s seen)
    (hinv : ∀ a ∈ seen, a ∈ queue ∨ ∀ b, edge a b → keep b = true → b ∈ seen) :
    ∀ a ∈ walk visit keep fuel s seen queue, ∀ b, edge a b → keep b = true →
      b ∈ walk visit keep fuel s seen queue := by
  induction fuel generalizing s seen queue with
  | zero =>
    have hq : queue = [] := length_eq_zero_iff.1 (by omega)
    subst hq
    intro a ha
    exact (hinv a ha).elim (fun h => absurd h not_mem_nil) id
  | succ fuel ih =>
    cases queue with
    | nil =>
      intro a ha
      exact (hinv a ha).elim (fun h => absurd h not_mem_nil) id
    | cons n queue =>
      have hmono : ∀ a ∈ seen, a ∈ (discover keep (seen, queue) (visit s n).2).1 :=
        fun a ha => mem_discover_fst.2 (.inl ha)
      obtain ⟨new, hnew, -, -, hfound⟩ := discover_spec keep (seen, queue) (visit s n).2
      refine ih ?_ ?_ ?_
      · have := discover_measure hspace (seen, queue) (visit s n).2
        simp only [length_cons] at hfuel
        simp only at this
        omega
      · exact hx.next s seen _ n hcov hmono (fun m hm hk => mem_discover_fst.2 (.inr ⟨hm, hk⟩))
      · intro a ha
        rw [hnew, mem_append]
        rcases (hfound a).1 ha with hseen | hq
        · rcases hinv a hseen with hq | hdone
          · rcases mem_cons.1 hq with rfl | hq
            · -- The item just taken off the queue: its kept successors were listed now
              -- or seen before.
              refine .inr fun b hb hk => mem_discover_fst.2 ?_
              exact (hx.complete s seen a b hcov hb hk).imp id (fun h => ⟨h, hk⟩)
            · exact .inl (.inl hq)
          · exact .inr fun b hb hk => hmono b (hdone b hb hk)
        · exact .inl (.inr hq)

/-- A walk from `start` sees exactly the items reachable from it through kept items. -/
theorem walk_mem_iff (hfuel : space.length + 1 ≤ fuel) {s : σ} {start a : α}
    (hcov : covered s (ofList [start])) :
    a ∈ walk visit keep fuel s (ofList [start]) [start]
      ↔ Relation.ReflTransGen (fun x y => edge x y ∧ keep y = true) start a := by
  constructor
  · intro ha
    refine walk_subset hx (R := fun a => Relation.ReflTransGen
      (fun x y => edge x y ∧ keep y = true) start a) ?_ ?_ ?_ a ha
    · exact fun x y hx hxy hk => hx.tail ⟨hxy, hk⟩
    · simp
    · intro b hb
      rw [mem_ofList, mem_singleton] at hb
      exact hb ▸ Relation.ReflTransGen.refl
  · intro h
    induction h with
    | refl => exact mem_walk_of_seen (by simp)
    | tail _ hstep ih =>
      refine walk_closed hx hspace ?_ hcov ?_ _ ih _ hstep.1 hstep.2
      · have : unseen space (ofList [start]) ≤ space.length := length_filter_le ..
        simp only [length_singleton]
        omega
      · simp

end

end

/-! ### The order of a walk -/

/-- The list has the items seen, each once. -/
def Listed (seen : OrdSet α) (l : List α) : Prop := l.Nodup ∧ ∀ a, a ∈ seen ↔ a ∈ l

section
variable {visit : α → List α} {keep : α → Bool} {done : List α}

theorem Listed.discover {acc : OrdSet α × List α} (h : Listed acc.1 (done ++ acc.2)) (l : List α) :
    Listed (Lib.discover keep acc l).1 (done ++ (Lib.discover keep acc l).2) := by
  obtain ⟨new, hqueue, hnodup, hnew, hseen⟩ := discover_spec keep acc l
  rw [hqueue, ← append_assoc]
  refine ⟨h.1.append hnodup fun a ha hb => hnew a hb ((h.2 a).2 ha), fun a => ?_⟩
  rw [hseen, h.2, ← mem_append]

variable {space : List α} (hspace : ∀ m, keep m = true → m ∈ space)

include hspace

/-- The items that came off the queue and those that still will are those the walk sees. -/
theorem Listed.walk {fuel : Nat} {seen : OrdSet α} {queue : List α}
    (h : Listed seen (done ++ queue)) (hfuel : queue.length + unseen space seen ≤ fuel) :
    Listed (Lib.walk (fun (_ : Unit) n => ((), visit n)) keep fuel () seen queue)
      (done ++ walkOrder visit keep fuel seen queue) := by
  induction fuel generalizing done seen queue with
  | zero =>
    obtain rfl : queue = [] := length_eq_zero_iff.1 (by omega)
    exact h
  | succ fuel ih =>
    cases queue with
    | nil => exact h
    | cons n queue =>
      have hdone : Listed seen ((done ++ [n]) ++ queue) := by simpa using h
      have hmeasure := discover_measure hspace (seen, queue) (visit n)
      simp only [length_cons] at hfuel hmeasure
      have hrest := @Listed.discover _ _ keep _ (seen, queue) hdone (visit n)
      have := ih hrest (by omega)
      rwa [append_assoc] at this

variable (hkeep : ∀ n, ∀ m ∈ visit n, keep m = true) {fuel : Nat}
  (hfuel : space.length + 1 ≤ fuel) (start : α)

include hkeep hfuel

/-- A walk without a state that keeps every successor sees what it can reach. -/
theorem mem_walk_iff {a : α} :
    a ∈ walk (fun (_ : Unit) n => ((), visit n)) keep fuel () (.ofList [start]) [start]
      ↔ Relation.ReflTransGen (fun x y => y ∈ visit x) start a := by
  have hx : Explores (fun (_ : Unit) n => ((), visit n)) keep (fun x y => y ∈ visit x)
      (fun _ _ => True) :=
    ⟨fun _ _ _ hm => hm, fun _ _ _ _ _ hm _ => .inr hm, fun _ _ _ _ _ _ _ => trivial⟩
  have hall : (fun x y => y ∈ visit x ∧ keep y = true) = fun x y => y ∈ visit x := by
    funext x y
    exact propext ⟨And.left, fun h => ⟨h, hkeep x y h⟩⟩
  rw [walk_mem_iff hx hspace hfuel trivial, hall]

/-- It lists them, each once. -/
theorem walkOrder_spec : (walkOrder visit keep fuel (.ofList [start]) [start]).Nodup ∧
    ∀ a, a ∈ walkOrder visit keep fuel (.ofList [start]) [start]
      ↔ Relation.ReflTransGen (fun x y => y ∈ visit x) start a := by
  have hseen : unseen space (.ofList [start]) ≤ space.length := length_filter_le ..
  have hstart : Listed (.ofList [start]) ([] ++ [start]) := by simp [Listed]
  have hlisted := @Listed.walk _ _ visit _ _ _ hspace fuel _ _ hstart (by simp; omega)
  exact ⟨hlisted.1, fun a => (hlisted.2 a).symm.trans (mem_walk_iff hspace hkeep hfuel start)⟩

end

end Yagra.Lib
