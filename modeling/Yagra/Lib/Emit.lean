import Mathlib.Logic.Basic
import Mathlib.Data.List.Basic
import Mathlib.Logic.Relation

/-!
# `Yagra.Lib.Emit`: loops that thread a state and emit outputs

Many programs are loops of one shape: for each item of a list, update a state and append
some outputs. `emitAll f s l` is that loop for a step `f : σ → α → σ × List β`. A run of a
state machine over a list of operations is the same loop, with the operations as items.

Two rules carry properties over such a loop.

- `emitAll_invariant`: what every step preserves holds after the loop.
- `Along.invariant`: the same for steps that each meet a side condition in the state they
  are taken in. `Along ok f s l` says that they do.

`emitAll_append` splits a run in two, which is how a run up to some moment is cut out of a
longer one.
-/

set_option autoImplicit false

namespace Yagra.Lib

open List


variable {σ α β : Type}

/-- Run `f` over a list from left to right, threading the state and collecting what each
call emits. -/
def emitAll (f : σ → α → σ × List β) : σ → List α → σ × List β
  | s, [] => (s, [])
  | s, a :: rest =>
    match f s a with
    | (s', out) =>
      match emitAll f s' rest with
      | (s'', out') => (s'', out ++ out')

section
variable (f : σ → α → σ × List β)

@[simp] theorem emitAll_nil (s : σ) : emitAll f s [] = (s, []) := rfl

section

variable (s : σ) (a : α) (rest : List α)

theorem emitAll_cons :
    emitAll f s (a :: rest)
      = ((emitAll f (f s a).1 rest).1, (f s a).2 ++ (emitAll f (f s a).1 rest).2) := rfl

@[simp] theorem emitAll_cons_fst : (emitAll f s (a :: rest)).1 = (emitAll f (f s a).1 rest).1 := rfl

@[simp] theorem emitAll_cons_snd :
    (emitAll f s (a :: rest)).2 = (f s a).2 ++ (emitAll f (f s a).1 rest).2 := rfl

end

/-- A run over `l ++ l'` is the run over `l` followed by the run over `l'` from where the
first one ended. -/
theorem emitAll_append (s : σ) (l l' : List α) :
    emitAll f s (l ++ l')
      = ((emitAll f (emitAll f s l).1 l').1,
          (emitAll f s l).2 ++ (emitAll f (emitAll f s l).1 l').2) := by
  induction l generalizing s with
  | nil => simp
  | cons a rest ih => simp [emitAll_cons, ih, append_assoc]

theorem emitAll_append_fst (s : σ) (l l' : List α) :
    (emitAll f s (l ++ l')).1 = (emitAll f (emitAll f s l).1 l').1 := by rw [emitAll_append]

/-- A run over mapped items is a run of the mapped step. -/
theorem emitAll_map {ι : Type} (g : ι → α) (s : σ) (l : List ι) :
    emitAll f s (l.map g) = emitAll (fun s i => f s (g i)) s l := by
  induction l generalizing s with
  | nil => rfl
  | cons i rest ih => rw [map_cons, emitAll_cons, emitAll_cons, ih]

/-- A loop whose steps are themselves runs is the run over all their items. -/
theorem emitAll_flatMap {ι : Type} (g : ι → List α) (s : σ) (l : List ι) :
    emitAll f s (l.flatMap g) = emitAll (fun s i => emitAll f s (g i)) s l := by
  induction l generalizing s with
  | nil => rfl
  | cons i rest ih => rw [flatMap_cons, emitAll_append, emitAll_cons, ih]

@[simp] theorem emitAll_singleton (s : σ) (a : α) : emitAll f s [a] = f s a := by
  simp [emitAll_cons]

variable {l : List α}

/-- What every step of the loop preserves holds after it. -/
theorem emitAll_invariant {P : σ → Prop} (hstep : ∀ s, ∀ a ∈ l, P s → P (f s a).1) {s : σ}
    (hs : P s) : P (emitAll f s l).1 := by
  induction l generalizing s with
  | nil => exact hs
  | cons a rest ih =>
    exact ih (fun s b hb => hstep s b (mem_cons_of_mem a hb)) (hstep s a mem_cons_self hs)

/-- The same for a property of the state and of everything emitted so far. -/
theorem emitAll_history {I : List β → σ → Prop}
    (hstep : ∀ log s, ∀ a ∈ l, I log s → I (log ++ (f s a).2) (f s a).1) {log : List β} {s : σ}
    (hs : I log s) : I (log ++ (emitAll f s l).2) (emitAll f s l).1 := by
  induction l generalizing log s with
  | nil => simpa using hs
  | cons a rest ih =>
    rw [emitAll_cons_snd, ← append_assoc]
    exact ih (fun log s b hb => hstep log s b (mem_cons_of_mem a hb))
      (hstep log s a mem_cons_self hs)

/-- A projection of the state that no step changes is the same after the loop. -/
theorem emitAll_frame {γ : Type} {π : σ → γ} (hstep : ∀ s, ∀ a ∈ l, π (f s a).1 = π s) (s : σ) :
    π (emitAll f s l).1 = π s :=
  emitAll_invariant f (P := fun s' => π s' = π s) (fun s' a ha h => (hstep s' a ha).trans h) rfl

/-- A loop in which every step, taken in the state the loop begins in, does nothing. -/
theorem emitAll_idle {s : σ} (h : ∀ a ∈ l, f s a = (s, [])) : emitAll f s l = (s, []) := by
  induction l with
  | nil => rfl
  | cons a rest ih =>
    rw [emitAll_cons, h a mem_cons_self]
    simp only [ih fun b hb => h b (mem_cons_of_mem a hb), nil_append]

end

/-! ### Runs whose steps meet a condition -/

/-- Each item of the list meets `ok` in the state its step is taken in. -/
def Along (ok : σ → α → Prop) (f : σ → α → σ × List β) : σ → List α → Prop
  | _, [] => True
  | s, a :: rest => ok s a ∧ Along ok f (f s a).1 rest

section
variable {ok : σ → α → Prop} {f : σ → α → σ × List β}

@[simp] theorem along_nil (s : σ) : Along ok f s [] := trivial

@[simp] theorem along_cons {s : σ} {a : α} {rest : List α} :
    Along ok f s (a :: rest) ↔ ok s a ∧ Along ok f (f s a).1 rest := Iff.rfl

variable {l : List α}

/-- The invariant rule for conditional runs: a property that a step preserves whenever the
step meets the condition holds at the end of a run whose steps all meet it. -/
theorem Along.invariant {P : σ → Prop} (hstep : ∀ s a, ok s a → P s → P (f s a).1) {s : σ}
    (hl : Along ok f s l) (hs : P s) : P (emitAll f s l).1 := by
  induction l generalizing s with
  | nil => exact hs
  | cons a rest ih => exact ih hl.2 (hstep s a hl.1 hs)

/-- The same for a property of the state and of everything emitted so far. -/
theorem Along.emitted {I : List β → σ → Prop}
    (hstep : ∀ log s a, ok s a → I log s → I (log ++ (f s a).2) (f s a).1) {log : List β} {s : σ}
    (hl : Along ok f s l) (hs : I log s) : I (log ++ (emitAll f s l).2) (emitAll f s l).1 := by
  induction l generalizing log s with
  | nil => simpa using hs
  | cons a rest ih =>
    rw [emitAll_cons_snd, ← append_assoc]
    exact ih hl.2 (hstep log s a hl.1 hs)

/-- A weaker condition is met along the same run. -/
theorem Along.mono {ok' : σ → α → Prop} (h : ∀ s a, ok s a → ok' s a) {s : σ}
    (hl : Along ok f s l) : Along ok' f s l := by
  induction l generalizing s with
  | nil => trivial
  | cons a rest ih => exact ⟨h s a hl.1, ih hl.2⟩

/-- A condition that holds of every item in every state is met along every run. -/
theorem Along.of_forall (h : ∀ s, ∀ a ∈ l, ok s a) (s : σ) : Along ok f s l := by
  induction l generalizing s with
  | nil => trivial
  | cons a rest ih =>
    exact ⟨h s a mem_cons_self, ih (fun s b hb => h s b (mem_cons_of_mem a hb)) _⟩

/-- Two conditions met along a run are met together. -/
theorem Along.and {ok' : σ → α → Prop} {s : σ} (hl : Along ok f s l) (hl' : Along ok' f s l) :
    Along (fun s a => ok s a ∧ ok' s a) f s l := by
  induction l generalizing s with
  | nil => trivial
  | cons a rest ih => exact ⟨⟨hl.1, hl'.1⟩, ih hl.2 hl'.2⟩

/-- A condition met along `l ++ l'` is met along `l`, and along `l'` from where `l` ends. -/
theorem along_append {s : σ} {l' : List α} :
    Along ok f s (l ++ l') ↔ Along ok f s l ∧ Along ok f (emitAll f s l).1 l' := by
  induction l generalizing s with
  | nil => simp
  | cons a rest ih => simp [ih, and_assoc]

instance Along.decidable [∀ s a, Decidable (ok s a)] :
    ∀ (s : σ) (l : List α), Decidable (Along ok f s l)
  | _, [] => isTrue trivial
  | s, a :: rest =>
    have := Along.decidable (f s a).1 rest
    inferInstanceAs (Decidable (ok s a ∧ Along ok f (f s a).1 rest))

end

/-! ### Loops in which one item matters -/

/-- Where every step of a loop keeps both `J` and `K`, and the step of one of its items takes `J`
to `K`, so does the loop. -/
theorem emitAll_of_mem {f : σ → α → σ × List β} {J K : σ → Prop} {l : List α} {a : α} (ha : a ∈ l)
    (hJ : ∀ s, ∀ b ∈ l, J s → J (f s b).1) (hK : ∀ s, ∀ b ∈ l, K s → K (f s b).1)
    (hstep : ∀ s, J s → K (f s a).1) {s : σ} (hs : J s) : K (emitAll f s l).1 := by
  obtain ⟨before, after, rfl⟩ := append_of_mem ha
  rw [emitAll_append, emitAll_cons_fst]
  refine emitAll_invariant f (fun s b hb => hK s b (by simp [hb])) (hstep _ ?_)
  exact emitAll_invariant f (fun s b hb => hJ s b (by simp [hb])) hs

/-- A fold in which at most one item passes a test, and every other item keeps both `J` and
`K`: where that one item, or none, takes `J` to `K`, so does the whole fold. -/
theorem foldl_of_filter {f : σ → α → σ} {p : α → Bool} {J K : σ → Prop} {l : List α}
    (hone : (l.filter p).length ≤ 1)
    (hJ : ∀ s a, p a = false → J s → J (f s a)) (hK : ∀ s a, p a = false → K s → K (f s a))
    (hstep : ∀ s, J s → K ((l.filter p).foldl f s)) {s : σ} (hs : J s) : K (l.foldl f s) := by
  have hskip : ∀ (L : σ → Prop) (l : List α), (∀ s a, p a = false → L s → L (f s a)) →
      (∀ a ∈ l, p a = false) → ∀ s, L s → L (l.foldl f s) := by
    intro L l hL hl
    induction l with
    | nil => exact fun s hs => hs
    | cons a rest ih =>
      exact fun s hs => ih (fun b hb => hl b (mem_cons_of_mem a hb)) _
        (hL s a (hl a mem_cons_self) hs)
  cases hf : l.filter p with
  | nil =>
    have hnone : ∀ a ∈ l, p a = false := by simpa using filter_eq_nil_iff.1 hf
    have := hstep _ (hskip J l hJ hnone s hs)
    rwa [hf] at this
  | cons x rest =>
    obtain rfl : rest = [] := by
      rw [hf] at hone
      exact eq_nil_of_length_eq_zero (by simpa using hone)
    obtain ⟨before, after, rfl, hbefore, -, hafter⟩ := filter_eq_cons_iff.1 hf
    rw [hf] at hstep
    rw [foldl_append]
    refine hskip K after hK (by simpa using filter_eq_nil_iff.1 hafter) _ ?_
    exact hstep _ (hskip J before hJ (by simpa using hbefore) s hs)

/-- A fold seen through `π`: items that `π` does not notice can be left out. -/
theorem foldl_filter_view {γ : Type} {f : σ → α → σ} {p : α → Bool} {π : σ → γ}
    (hskip : ∀ s a, p a = false → π (f s a) = π s)
    (hstep : ∀ s s' a, p a = true → π s = π s' → π (f s a) = π (f s' a)) (l : List α) {s s' : σ}
    (h : π s = π s') : π (l.foldl f s) = π ((l.filter p).foldl f s') := by
  induction l generalizing s s' with
  | nil => exact h
  | cons a rest ih =>
    cases hp : p a with
    | false =>
      rw [filter_cons_of_neg (by simp [hp])]
      exact ih ((hskip s a hp).trans h)
    | true =>
      rw [filter_cons_of_pos hp]
      exact ih (hstep s s' a hp h)

/-- Among items with distinct keys, only the item itself has its key. -/
theorem filter_key_eq_singleton {κ : Type} [DecidableEq κ] {key : α → κ} {l : List α}
    (hnodup : (l.map key).Nodup) {a : α} (ha : a ∈ l) :
    l.filter (fun b => decide (key b = key a)) = [a] := by
  induction l with
  | nil => simp at ha
  | cons b rest ih =>
    rw [map_cons, nodup_cons] at hnodup
    rcases mem_cons.1 ha with rfl | ha
    · have hrest : rest.filter (fun b => decide (key b = key a)) = [] := by
        rw [filter_eq_nil_iff]
        intro b hb heq
        exact hnodup.1 (of_decide_eq_true heq ▸ mem_map_of_mem hb)
      simp [hrest]
    · have hne : key b ≠ key a := fun h => hnodup.1 (h ▸ mem_map_of_mem ha)
      simp [hne, ih hnodup.2 ha]

/-! ### Loops over distinct keys

A loop over the entries of a map usually touches, for each entry, only what belongs to that
entry's key. Then what the loop leaves at a key, and what it emits for it, is what the one
step for that key leaves and emits, wherever in the loop that step stands. -/

/-- A step that, in the states that satisfy `inv`, only touches the key of its item. `slot k`
is what the state holds at a key, `env` is what no step changes, and `outKey` is the key an
output is about. -/
structure Local {κ τ ε : Type} (f : σ → α → σ × List β) (inv : σ → Prop) (key : α → κ)
    (outKey : β → κ) (slot : κ → σ → τ) (env : σ → ε) : Prop where
  inv_step : ∀ s a, inv s → inv (f s a).1
  frame : ∀ s a k, inv s → k ≠ key a → slot k (f s a).1 = slot k s
  env_eq : ∀ s a, env (f s a).1 = env s
  out : ∀ s a, inv s → ∀ b ∈ (f s a).2, outKey b = key a
  /-- The step reads only `env` and the slot of its own key. -/
  det : ∀ s s' a, env s = env s' → slot (key a) s = slot (key a) s' →
    slot (key a) (f s a).1 = slot (key a) (f s' a).1 ∧ (f s a).2 = (f s' a).2

namespace Local

variable {κ τ ε : Type} {f : σ → α → σ × List β} {inv : σ → Prop} {key : α → κ}
  {outKey : β → κ} {slot : κ → σ → τ} {env : σ → ε}

theorem emitAll_env (hf : Local f inv key outKey slot env) (s : σ) (l : List α) :
    env (emitAll f s l).1 = env s :=
  emitAll_frame f (fun s a _ => hf.env_eq s a) s

variable [DecidableEq κ]

/-- A key no item has is left alone, and nothing is emitted for it. -/
theorem emitAll_of_notMem (hf : Local f inv key outKey slot env) {l : List α} {k : κ}
    (hk : k ∉ l.map key) {s : σ} (hs : inv s) :
    slot k (emitAll f s l).1 = slot k s ∧
      (emitAll f s l).2.filter (fun b => outKey b = k) = [] := by
  induction l generalizing s with
  | nil => simp
  | cons a rest ih =>
    simp only [map_cons, mem_cons, not_or] at hk
    obtain ⟨hslot, hout⟩ := ih hk.2 (hf.inv_step s a hs)
    refine ⟨by rw [emitAll_cons_fst, hslot, hf.frame s a k hs hk.1], ?_⟩
    rw [emitAll_cons_snd, filter_append, hout, append_nil, filter_eq_nil_iff]
    intro b hb
    simp [hf.out s a hs b hb, Ne.symm hk.1]

/-- At the key of an item the loop leaves and emits what the item's own step does, in the
state the loop began in. -/
theorem emitAll_of_mem (hf : Local f inv key outKey slot env) {l : List α}
    (hnodup : (l.map key).Nodup) {a : α} (ha : a ∈ l) {s : σ} (hs : inv s) :
    slot (key a) (emitAll f s l).1 = slot (key a) (f s a).1 ∧
      (emitAll f s l).2.filter (fun b => outKey b = key a) = (f s a).2 := by
  induction l generalizing s with
  | nil => cases ha
  | cons b rest ih =>
    rw [map_cons, nodup_cons] at hnodup
    rcases mem_cons.1 ha with rfl | ha
    · -- The item comes first: the rest of the loop does not have its key.
      obtain ⟨hslot, hout⟩ := hf.emitAll_of_notMem hnodup.1 (hf.inv_step s a hs)
      refine ⟨by rw [emitAll_cons_fst, hslot], ?_⟩
      rw [emitAll_cons_snd, filter_append, hout, append_nil, filter_eq_self]
      intro c hc
      simpa using hf.out s a hs c hc
    · -- The item comes later: the first step does not touch its key.
      have hne : key a ≠ key b := fun h => hnodup.1 (h ▸ mem_map_of_mem ha)
      obtain ⟨hslot, hout⟩ := ih hnodup.2 ha (hf.inv_step s b hs)
      obtain ⟨hdet, hdetOut⟩ :=
        hf.det (f s b).1 s a (hf.env_eq s b) (hf.frame s b (key a) hs hne)
      have hnil : (f s b).2.filter (fun c => outKey c = key a) = [] := by
        rw [filter_eq_nil_iff]
        intro c hc
        simp [hf.out s b hs c hc, Ne.symm hne]
      exact ⟨by rw [emitAll_cons_fst, hslot, hdet],
        by rw [emitAll_cons_snd, filter_append, hnil, nil_append, hout, hdetOut]⟩

end Local

/-!
## Runs of a machine whose inputs meet a condition

A machine is a step function `σ → α → σ`, and a run is `List.foldl step`. `Meets` says that
every input of a run meets a condition in the state it arrives in. `Meets.history` is the rule
the proofs use: an invariant that relates the state to the inputs so far is kept by every step
that meets the condition, so it holds at the end of every such run. `Meets.simulation` is the
same rule for two machines fed the same inputs. `logged` turns a step that emits a list into a
machine whose state has the output so far.
-/

variable {σ α : Type} {ok : σ → α → Prop} {step : σ → α → σ}

/-- Every input of the run meets `ok` in the state it arrives in. -/
def Meets (ok : σ → α → Prop) (step : σ → α → σ) : σ → List α → Prop
  | _, [] => True
  | s, a :: rest => ok s a ∧ Meets ok step (step s a) rest

instance Meets.decidable [∀ s a, Decidable (ok s a)] :
    ∀ (s : σ) (l : List α), Decidable (Meets ok step s l)
  | _, [] => isTrue trivial
  | s, a :: rest =>
    have := Meets.decidable (step s a) rest
    inferInstanceAs (Decidable (ok s a ∧ Meets ok step (step s a) rest))

variable {l : List α}

/-- A condition on the inputs alone. -/
theorem Meets.of_forall {P : α → Prop} (h : ∀ a ∈ l, P a) (s : σ) :
    Meets (fun _ a => P a) step s l := by
  induction l generalizing s with
  | nil => exact trivial
  | cons a rest ih =>
    exact ⟨h a mem_cons_self, ih (fun b hb => h b (mem_cons_of_mem a hb)) (step s a)⟩

/-- Two conditions along the same run. -/
theorem Meets.and {ok' : σ → α → Prop} {s : σ} (h : Meets ok step s l) (h' : Meets ok' step s l) :
    Meets (fun s a => ok s a ∧ ok' s a) step s l := by
  induction l generalizing s with
  | nil => exact trivial
  | cons a rest ih => exact ⟨⟨h.1, h'.1⟩, ih h.2 h'.2⟩

/-- The rule for invariants that remember the inputs. -/
theorem Meets.history {I : List α → σ → Prop}
    (hstep : ∀ past s a, ok s a → I past s → I (past ++ [a]) (step s a)) {s : σ}
    (hl : Meets ok step s l) (hs : I [] s) : I l (l.foldl step s) := by
  -- Induction on the run, with the inputs before it generalised.
  have hrun : ∀ (l past : List α) (s : σ), Meets ok step s l → I past s →
      I (past ++ l) (l.foldl step s) := by
    intro l
    induction l with
    | nil =>
      intro past s _ hs
      simpa using hs
    | cons a rest ih =>
      intro past s hl hs
      have hnext := ih (past ++ [a]) (step s a) hl.2 (hstep past s a hl.1 hs)
      simpa using hnext
  exact hrun l [] s hl hs

/-- The rule for two machines side by side: a relation that remembers the inputs, kept by every
input that meets the condition in the first of them. -/
theorem Meets.simulation {τ : Type} {step' : τ → α → τ} {R : List α → σ → τ → Prop}
    (hstep : ∀ past s t a, ok s a → R past s t → R (past ++ [a]) (step s a) (step' t a)) {s : σ}
    {t : τ} (hl : Meets ok step s l) (hs : R [] s t) : R l (l.foldl step s) (l.foldl step' t) := by
  have hrun : ∀ (l past : List α) (s : σ) (t : τ), Meets ok step s l → R past s t →
      R (past ++ l) (l.foldl step s) (l.foldl step' t) := by
    intro l
    induction l with
    | nil =>
      intro past s t _ hs
      simpa using hs
    | cons a rest ih =>
      intro past s t hl hs
      have hnext := ih (past ++ [a]) (step s a) (step' t a) hl.2 (hstep past s t a hl.1 hs)
      simpa using hnext
  exact hrun l [] s t hl hs

/-- The rule for invariants of the state alone. -/
theorem Meets.invariant {I : σ → Prop} (hstep : ∀ s a, ok s a → I s → I (step s a)) {s : σ}
    (hl : Meets ok step s l) (hs : I s) : I (l.foldl step s) :=
  hl.history (I := fun _ => I) (fun _ => hstep) hs

/-! ### Machines that keep their output -/

section
variable {β : Type} {f : σ → α → σ × List β}

/-- A step on the state and the output so far. -/
def logged (f : σ → α → σ × List β) (st : σ × List β) (a : α) : σ × List β :=
  ((f st.1 a).1, st.2 ++ (f st.1 a).2)

theorem foldl_logged (s : σ) (out : List β) (l : List α) :
    l.foldl (logged f) (s, out) = ((emitAll f s l).1, out ++ (emitAll f s l).2) := by
  induction l generalizing s out with
  | nil => simp
  | cons a rest ih => simp [logged, ih]

/-- A condition on the state alone. -/
theorem Along.logged {s : σ} (h : Along ok f s l) (out : List β) :
    Meets (fun st a => ok st.1 a) (Lib.logged f) (s, out) l := by
  induction l generalizing s out with
  | nil => exact trivial
  | cons a rest ih => exact ⟨h.1, ih h.2 _⟩

end

end Yagra.Lib
