import Yagra.Lib.Emit
import Yagra.Poller.Limiter

/-!
# `Yagra.Proofs.Limiter`: who may probe a device

`Exclusive` says three things about a state of the limiter: every permit is free or with a task,
the marked devices are those of the live claims, and no device has two of them. Every step replaces
one task by another, so one lemma (`Exclusive.move`) covers them all.

The one step that can break it is the drop of a guard of `begin_global`. The placeholder it carries
is an address that can be claimed too, so the drop takes away the marker of a claim it has nothing
to do with. `Undisturbed` excludes this. `Settled` is what holds even so.
-/

set_option autoImplicit false

namespace Yagra.Poller

open Yagra.Lib PollTask List

/-- The task has a permit. -/
def PollTask.hasPermit : PollTask → Bool
  | .claim _ | .giveBack _ | .holding _ | .dropping => true
  | _ => false

/-- The task has a guard. -/
def PollTask.hasGuard : PollTask → Bool
  | .holding _ => true
  | _ => false

namespace PollLimiter

/-- The task at position `i` has a guard of `claim_then_permit` for the device. -/
def Claims (s : PollLimiter) (i : Nat) (target : IpAddr) : Prop :=
  s.tasks[i]? = some (.holding (.ofClaim target))

/-- A guard of `begin_global` is not dropped while the unspecified address is claimed. -/
def Undisturbed (s : PollLimiter) : Op → Prop
  | .advance i _ =>
    s.tasks[i]? = some (.holding .ofGlobal) → .holding (.ofClaim .unspecified) ∉ s.tasks
  | .spawn _ => True

instance (s : PollLimiter) : ∀ op, Decidable (Undisturbed s op)
  | .advance i _ => inferInstanceAs (Decidable
      (s.tasks[i]? = some (.holding .ofGlobal) → .holding (.ofClaim .unspecified) ∉ s.tasks))
  | .spawn _ => inferInstanceAs (Decidable True)

/-- Each permit and each device is with one task. -/
structure Exclusive (total : Nat) (s : PollLimiter) : Prop where
  permits : s.permits + s.tasks.countP hasPermit = total
  marked : ∀ t, t ∈ s.inflight ↔ .holding (.ofClaim t) ∈ s.tasks
  single : ∀ i j t, s.Claims i t → s.Claims j t → i = j

variable {s : PollLimiter} {total : Nat}

theorem mem_tasks_iff_claims {t : IpAddr} :
    .holding (.ofClaim t) ∈ s.tasks ↔ ∃ i, s.Claims i t := mem_iff_getElem?

theorem new_exclusive (maxConcurrent : Nat) :
    Exclusive (max maxConcurrent 1) (new maxConcurrent) where
  permits := by simp [new]
  marked t := by simp [new]
  single i j t hi _ := by simp [Claims, new] at hi

section

variable (hs : Exclusive total s)

include hs

variable {i permits : Nat} {new old : PollTask}

/-- One task becomes another: its permit is accounted for, and so is its claim. -/
theorem Exclusive.move (hi : s.tasks[i]? = some old) {inflight : OrdSet IpAddr}
    (hpermits : permits + new.hasPermit.toNat = s.permits + old.hasPermit.toNat)
    (hmark : ∀ t, t ∈ inflight ↔
    new = .holding (.ofClaim t) ∨ t ∈ s.inflight ∧ old ≠ .holding (.ofClaim t))
    (hnew : ∀ t, new = .holding (.ofClaim t) → t ∉ s.inflight) :
    Exclusive total ⟨permits, inflight, s.tasks.set i new⟩ := by
  obtain ⟨hlt, hget⟩ := List.getElem?_eq_some_iff.1 hi
  -- A claim after the step is the new one, or one of another task.
  have hclaims : ∀ j t, (⟨permits, inflight, s.tasks.set i new⟩ : PollLimiter).Claims j t ↔
      (j = i ∧ new = .holding (.ofClaim t)) ∨ (j ≠ i ∧ s.Claims j t) := by
    intro j t
    by_cases hj : j = i
    · subst hj
      simp [Claims, hlt]
    · simp [Claims, getElem?_set_ne (Ne.symm hj), hj]
  have hold : ∀ t, (t ∈ s.inflight ∧ old ≠ .holding (.ofClaim t)) ↔ ∃ j, j ≠ i ∧ s.Claims j t := by
    intro t
    rw [hs.marked t, mem_tasks_iff_claims]
    constructor
    · rintro ⟨⟨j, hj⟩, hne⟩
      refine ⟨j, ?_, hj⟩
      rintro rfl
      exact hne (Option.some.inj (hi.symm.trans hj))
    · rintro ⟨j, hne, hj⟩
      refine ⟨⟨j, hj⟩, ?_⟩
      rintro rfl
      exact hne (hs.single j i t hj hi)
  refine ⟨?_, ?_, ?_⟩
  · have hcount := countP_set (p := hasPermit) (a := new) hlt
    have hpos : old.hasPermit = true → 0 < s.tasks.countP hasPermit := by
      intro hold
      exact countP_pos_iff.2 ⟨old, mem_of_getElem? hi, hold⟩
    have htotal := hs.permits
    rw [hget] at hcount
    show permits + (s.tasks.set i new).countP hasPermit = total
    cases hn : new.hasPermit <;> cases ho : old.hasPermit <;>
      simp only [hn, ho, Bool.toNat_true, Bool.toNat_false, Bool.false_eq_true, if_true, if_false,
        forall_const, false_implies] at hpermits hcount hpos <;> omega
  · intro t
    rw [hmark t, hold t, mem_tasks_iff_claims]
    constructor
    · rintro (hn | ⟨j, hne, hj⟩)
      · exact ⟨i, (hclaims i t).2 (.inl ⟨rfl, hn⟩)⟩
      · exact ⟨j, (hclaims j t).2 (.inr ⟨hne, hj⟩)⟩
    · rintro ⟨j, hj⟩
      rcases (hclaims j t).1 hj with ⟨_, hn⟩ | hother
      · exact .inl hn
      · exact .inr ⟨j, hother⟩
  · intro j k t hj hk
    -- The new claim is of a device that was not marked, so no other task has one.
    have hfree : new = .holding (.ofClaim t) → ∀ l, ¬ s.Claims l t := by
      intro hn l hl
      exact hnew t hn ((hs.marked t).2 (mem_tasks_iff_claims.2 ⟨l, hl⟩))
    rcases (hclaims j t).1 hj with ⟨rfl, hn⟩ | ⟨_, hjs⟩
    · rcases (hclaims k t).1 hk with ⟨rfl, _⟩ | ⟨_, hks⟩
      · rfl
      · exact absurd hks (hfree hn k)
    · rcases (hclaims k t).1 hk with ⟨rfl, hn⟩ | ⟨_, hks⟩
      · exact absurd hjs (hfree hn j)
      · exact hs.single j k t hjs hks

/-- A step that neither claims a device nor drops a guard. -/
theorem Exclusive.pass (hi : s.tasks[i]? = some old)
    (hpermits : permits + new.hasPermit.toNat = s.permits + old.hasPermit.toNat)
    (hold : ∀ t, old ≠ .holding (.ofClaim t)) (hnew : ∀ t, new ≠ .holding (.ofClaim t)) :
    Exclusive total ⟨permits, s.inflight, s.tasks.set i new⟩ := by
  refine hs.move hi hpermits (fun t => ?_) (fun t hn => absurd hn (hnew t))
  exact ⟨fun ht => .inr ⟨ht, hold t⟩, fun ht => ht.elim (fun hn => absurd hn (hnew t)) And.left⟩

theorem Exclusive.spawn (call : PollCall) :
    Exclusive total { s with tasks := s.tasks ++ [start call] } := by
  have hstart : ∀ t, start call ≠ .holding (.ofClaim t) := by
    cases call <;> simp [start]
  have hclaims : ∀ j t,
      ({ s with tasks := s.tasks ++ [start call] } : PollLimiter).Claims j t → s.Claims j t := by
    intro j t hj
    rw [Claims, getElem?_append] at hj
    split at hj
    · exact hj
    · have hmem := mem_of_getElem? hj
      exact absurd (mem_singleton.1 hmem).symm (hstart t)
  refine ⟨?_, fun t => ?_, fun i j t hi hj => hs.single i j t (hclaims i t hi) (hclaims j t hj)⟩
  · have hpermit : (start call).hasPermit = false := by cases call <;> rfl
    simp [hpermit, hs.permits]
  · rw [hs.marked t]
    simp [Ne.symm (hstart t)]

/-- Dropping a guard unmarks its device, and nothing else if the guard is the claim's own. -/
theorem Exclusive.drop {guard : PollGuard} (hi : s.tasks[i]? = some (.holding guard))
    (hglobal : guard = .ofGlobal → .unspecified ∉ s.inflight) :
    Exclusive total ⟨s.permits, s.inflight.erase guard.target, s.tasks.set i .dropping⟩ := by
  refine hs.move hi rfl (fun t => ?_) (fun t hn => by simp at hn)
  cases guard with
  | ofClaim target => simp [PollGuard.target, and_comm, eq_comm]
  | ofGlobal =>
    have hfree := hglobal rfl
    have hne : t ∈ s.inflight → t ≠ .unspecified := by
      rintro ht rfl
      exact hfree ht
    simpa [PollGuard.target] using hne

theorem Exclusive.advance {task : PollTask} (late : Bool) (hi : s.tasks[i]? = some task)
    (hglobal : task = .holding .ofGlobal → .unspecified ∉ s.inflight) :
    Exclusive total (s.advance i late task) := by
  cases task with
  | peek t | checkDeadline t =>
    rw [PollLimiter.advance]
    split
    · exact hs.pass hi rfl (by simp) (by simp)
    · exact hs.pass hi rfl (by simp) (by simp)
  | awaitPermit t | awaitGlobal =>
    rw [PollLimiter.advance]
    split
    · exact hs
    next hfree =>
      refine hs.pass hi ?_ (by simp) (by simp)
      show s.permits - 1 + 1 = s.permits + 0
      omega
  | claim t =>
    rw [PollLimiter.advance]
    split
    · exact hs.pass hi rfl (by simp) (by simp)
    next hfree =>
      refine hs.move hi rfl (fun u => ?_) (fun u hu => ?_)
      · simp [eq_comm]
      · simp only [holding.injEq, PollGuard.ofClaim.injEq] at hu
        exact hu ▸ hfree
  | giveBack t | awaitRelease t | dropping => exact hs.pass hi rfl (by simp) (by simp)
  | holding guard => exact hs.drop hi fun hg => hglobal (hg ▸ rfl)
  | done => exact hs

theorem Exclusive.step {op : Op} (hop : Undisturbed s op) : Exclusive total (s.step op) := by
  cases op with
  | spawn call => exact hs.spawn call
  | advance i late =>
    rw [PollLimiter.step]
    split
    next task hi =>
      refine hs.advance late hi ?_
      rintro rfl
      exact mt (hs.marked _).1 (hop hi)
    next => exact hs

/-- Every guard is held with a permit. -/
theorem Exclusive.guards_le : s.tasks.countP hasGuard ≤ total := by
  have hle : s.tasks.countP hasGuard ≤ s.tasks.countP hasPermit := by
    refine countP_mono_left fun task _ hg => ?_
    cases task <;> first | rfl | simp [hasGuard] at hg
  have htotal := hs.permits
  omega

end

/-- In every run in which no guard of `begin_global` is dropped while the unspecified address is
claimed: a device has at most one claim, there are at most as many guards as permits, and the
devices in flight are the claimed ones. -/
theorem one_probe_per_device (maxConcurrent : Nat) (ops : List Op)
    (hops : Meets Undisturbed step (new maxConcurrent) ops) :
    (∀ i j t, Claims (ops.foldl step (new maxConcurrent)) i t →
      Claims (ops.foldl step (new maxConcurrent)) j t → i = j) ∧
    (ops.foldl step (new maxConcurrent)).tasks.countP hasGuard ≤ max maxConcurrent 1 ∧
    ∀ t, t ∈ (ops.foldl step (new maxConcurrent)).inflight ↔
      ∃ i, Claims (ops.foldl step (new maxConcurrent)) i t := by
  have hrun := hops.invariant (I := Exclusive (max maxConcurrent 1))
    (fun s op hop hs => hs.step hop) (new_exclusive maxConcurrent)
  exact ⟨hrun.single, hrun.guards_le, fun t => (hrun.marked t).trans mem_tasks_iff_claims⟩

/-- A task that calls, and makes its next `n` steps without waiting. -/
def through (call : PollCall) (i n : Nat) : List Op :=
  .spawn call :: replicate n (.advance i false)

/-- Two claims on one device, one after the other, and a probe without a device beside the
first. -/
theorem one_probe_per_device_two_calls :
    let ops := through (.claimThenPermit (.v4 7)) 0 5 ++ through .beginGlobal 1 3 ++
      through (.claimThenPermit (.v4 7)) 2 3
    (∀ i j t, Claims (ops.foldl step (new 2)) i t → Claims (ops.foldl step (new 2)) j t → i = j) ∧
    (ops.foldl step (new 2)).tasks.countP hasGuard ≤ max 2 1 ∧
    ∀ t, t ∈ (ops.foldl step (new 2)).inflight ↔ ∃ i, Claims (ops.foldl step (new 2)) i t :=
  one_probe_per_device 2 _ (by decide +kernel)

/-- The placeholder is claimed, a guard of `begin_global` comes and goes, and the placeholder is
claimed again: two live claims on one device. In between, it is claimed and not in flight. -/
theorem global_guard_unmarks_claim :
    let before := through (.claimThenPermit .unspecified) 0 3 ++ through .beginGlobal 1 2
    let after := before ++ through (.claimThenPermit .unspecified) 2 3
    (Claims (before.foldl step (new 3)) 0 .unspecified ∧
      .unspecified ∉ (before.foldl step (new 3)).inflight) ∧
    Claims (after.foldl step (new 3)) 0 .unspecified ∧
      Claims (after.foldl step (new 3)) 2 .unspecified := by
  unfold Claims
  decide +kernel

/-! ### What no interleaving leaks -/

/-- Every permit is free or with a task, and every marked device is that of a live claim. -/
def Settled (total : Nat) (s : PollLimiter) : Prop :=
  s.permits + s.tasks.countP hasPermit = total ∧ ∀ t ∈ s.inflight, .holding (.ofClaim t) ∈ s.tasks

theorem Settled.move (hs : Settled total s) {i permits : Nat} {new old : PollTask}
    {inflight : OrdSet IpAddr} (hi : s.tasks[i]? = some old)
    (hpermits : permits + new.hasPermit.toNat = s.permits + old.hasPermit.toNat)
    (hmark : ∀ t ∈ inflight,
      new = .holding (.ofClaim t) ∨ t ∈ s.inflight ∧ old ≠ .holding (.ofClaim t)) :
    Settled total ⟨permits, inflight, s.tasks.set i new⟩ := by
  obtain ⟨hlt, hold⟩ := List.getElem?_eq_some_iff.1 hi
  obtain ⟨before, after, htasks, -, hset⟩ := @exists_of_set _ i new s.tasks hlt
  rw [hold] at htasks
  rw [Settled, htasks] at hs
  rw [hset, Settled]
  simp only [countP_append, countP_cons, mem_append, mem_cons] at hs ⊢
  refine ⟨?_, fun t ht => by grind⟩
  cases hn : new.hasPermit <;> cases ho : old.hasPermit <;> simp_all <;> omega

theorem Settled.step (hs : Settled total s) (op : Op) : Settled total (s.step op) := by
  cases op with
  | spawn call =>
    have hpermit : (start call).hasPermit = false := by cases call <;> rfl
    exact ⟨by simp [PollLimiter.step, hpermit, hs.1], fun t ht => mem_append_left _ (hs.2 t ht)⟩
  | advance i late =>
    rw [PollLimiter.step]
    split
    next task hi =>
      cases task with
      | peek t | checkDeadline t | claim t =>
        rw [PollLimiter.advance]
        split <;> exact hs.move hi rfl (by simp [eq_comm])
      | awaitPermit t | awaitGlobal =>
        rw [PollLimiter.advance]
        split
        · exact hs
        next hfree =>
          refine hs.move hi ?_ (by simp)
          show s.permits - 1 + 1 = s.permits + 0
          omega
      | giveBack t | awaitRelease t | dropping => exact hs.move hi rfl (by simp)
      | holding guard =>
        refine hs.move hi rfl fun t ht => .inr ?_
        obtain ⟨hne, hmem⟩ := OrdSet.mem_erase.1 ht
        refine ⟨hmem, ?_⟩
        rintro ⟨⟩
        exact hne rfl
      | done => exact hs
    next => exact hs

/-- In every interleaving of any calls, each permit is free or with a task, and each device in
flight is one that a live guard has claimed. -/
theorem nothing_leaks (maxConcurrent : Nat) (ops : List Op) :
    Settled (max maxConcurrent 1) (ops.foldl step (new maxConcurrent)) :=
  foldlRecOn ops step ⟨by simp [new], by simp [new]⟩ fun _ hs op _ => hs.step op

end PollLimiter

end Yagra.Poller
