import Yagra.Proofs.Revocations

/-!
# `Yagra.Proofs.Rejections`: revoked means rejected until expiry, and only then

`accepts_iff` describes what a core accepts by the revocations that it applied over all its
restarts. That nothing gets lost is shown in `Yagra.Proofs.Revocations`: an entry is on the list, or
in the table, with at least the cutoff and the expiry of what was applied (`Has`, `InTable`).
Nothing is made up either. Entries are merged by the later cutoff and the later expiry, each on its
own, and the two belong together because every expiry lies one lifetime after its cutoff. So an
entry is always one of the revocations that were applied (`Row.applyLocal`, `mem_persist`).
-/

set_option autoImplicit false

namespace Yagra.Auth

open Yagra.Lib SessionStore List

/-! ### Where an entry comes from -/

namespace Denylist

variable {d : Denylist} {r r' : AuthRevoke} {now : Nat}

/-- The entry of the list for the key of a revocation is this revocation. -/
def Row (d : Denylist) : AuthRevoke → Prop
  | .token claims exp => d.tokens claims = some exp
  | .user uid cutoff exp => d.users uid = some (cutoff, exp)

/-- Two entries of a user merge to one of them. -/
theorem merged_eq_or {old : Option (Nat × Nat)} {cutoff exp : Nat}
    (hexp : exp = cutoff + sessionAbsoluteTtl)
    (hold : ∀ c e, old = some (c, e) → e = c + sessionAbsoluteTtl) :
    merged old cutoff exp = (cutoff, exp) ∨ old = some (merged old cutoff exp) := by
  cases old with
  | none => exact .inl rfl
  | some entry =>
    have hentry := hold entry.1 entry.2 rfl
    show (max entry.1 cutoff, max entry.2 exp) = _ ∨ some entry = some (max _ _, max _ _)
    rcases le_total entry.1 cutoff with hle | hle
    · left
      rw [max_eq_right hle, max_eq_right (by omega)]
    · right
      rw [max_eq_left hle, max_eq_left (by omega)]

theorem Row.applyLocal (hd : ∀ row, d.Row row → row.Genuine) (hr' : r'.Genuine)
    (h : (d.applyLocal r').Row r) : r = r' ∨ d.Row r := by
  cases r with
  | token claims exp =>
    cases r' with
    | user => exact .inr h
    | token claims' exp' =>
      change Function.update d.tokens claims' (some exp') claims = some exp at h
      rw [Function.update_apply] at h
      split at h
      · rename_i heq
        rw [heq, Option.some.inj h]
        exact .inl rfl
      · exact .inr h
  | user uid cutoff exp =>
    cases r' with
    | token => exact .inr h
    | user uid' cutoff' exp' =>
      change (d.applyLocal (.user uid' cutoff' exp')).users uid = some (cutoff, exp) at h
      rw [applyLocal_user_apply] at h
      split at h
      · rename_i heq
        subst heq
        rcases merged_eq_or hr' fun c e hold => hd (.user uid c e) hold with hnew | hold
        · rw [hnew] at h
          cases h
          exact .inl rfl
        · exact .inr (hold.trans h)
      · exact .inr h

theorem Row.of_prune (h : (d.prune now).Row r) : d.Row r := by
  cases r with
  | token | user => exact (Option.filter_eq_some_iff.1 h).1

/-- A token is denied only for an entry that revokes it. -/
theorem exists_row_of_isDenied {c : Claims} (h : d.isDenied c now = true) :
    ∃ r, d.Row r ∧ r.Revokes c := by
  rcases Bool.or_eq_true_iff.1 h with htoken | huser
  · obtain ⟨exp, hexp, -⟩ := (Option.any_eq_true _ _).1 htoken
    exact ⟨.token c exp, hexp, rfl⟩
  · obtain ⟨e, he, hcounts⟩ := (Option.any_eq_true _ _).1 huser
    have hiat : c.iat ≤ e.1 := of_decide_eq_true (Bool.and_eq_true_iff.1 hcounts).2
    exact ⟨.user c.uid e.1 e.2, he, rfl, hiat⟩

/-- A list that is read from a table has only rows of the table. -/
theorem Row.of_foldl {l : List AuthRevoke} {s : SessionStore}
    (hl : ∀ row ∈ l, row.Genuine) (hs : ∀ row, s.denylist.Row row → row.Genuine)
    (h : (l.foldl applyRemoteRevoke s).denylist.Row r) :
    r ∈ l ∨ s.denylist.Row r := by
  induction l generalizing s with
  | nil => exact .inr h
  | cons row rest ih =>
    obtain ⟨hrow, hrest⟩ := forall_mem_cons.1 hl
    have hnext : ∀ row', (s.applyRemoteRevoke row).denylist.Row row' → row'.Genuine :=
      fun row' hrow' => by
        rcases Row.applyLocal hs hrow hrow' with rfl | hold
        · exact hrow
        · exact hs row' hold
    rcases ih hrest hnext h with hmem | hlast
    · exact .inl (mem_cons_of_mem row hmem)
    · rcases Row.applyLocal hs hrow hlast with rfl | hold
      · exact .inl mem_cons_self
      · exact .inr hold

end Denylist

/-! ### Runs -/

namespace SignedCore

variable {s : SignedCore} {applied : List AuthRevoke} {r : AuthRevoke}

/-- What the list and the table have of the revocations applied so far. -/
structure Reflects (applied : List AuthRevoke) (s : SignedCore) : Prop where
  signer : s.store.signer = true
  genuine : ∀ r ∈ applied, r.Genuine
  listed : ∀ r ∈ applied, r.Expired s.now ∨ s.store.denylist.Has r
  written : ∀ r ∈ applied, r.Expired s.now ∨ r ∈ s.unwritten ∨ InTable s.table r
  listed_applied : ∀ r, s.store.denylist.Row r → r ∈ applied
  table_applied : ∀ r ∈ s.table, r ∈ applied
  unwritten_applied : ∀ r ∈ s.unwritten, r ∈ applied

/-- A message is a revocation that a core made, and a core restarts only when everything it applied
is in the table. -/
def Allowed (s : SignedCore) : SignedCoreOp → Prop
  | .applyRemoteRevoke r => r.Genuine
  | .restart => s.unwritten = []
  | _ => True

theorem Reflects.apply (h : Reflects applied s) (hr : r.Genuine) {store : SessionStore}
    (hsigner : store.signer = true) (hstore : store.denylist = s.store.denylist.applyLocal r) :
    Reflects (applied ++ [r]) (s.apply store r).1 := by
  have hgenuine : ∀ row, s.store.denylist.Row row → row.Genuine :=
    fun row hrow => h.genuine row (h.listed_applied row hrow)
  refine ⟨hsigner, ?_, fun r' hr' => ?_, fun r' hr' => ?_, fun r' hr' => ?_, fun r' hr' => ?_,
    fun r' hr' => ?_⟩
  · simpa [forall_and, or_imp] using ⟨h.genuine, hr⟩
  · show r'.Expired s.now ∨ store.denylist.Has r'
    rw [hstore]
    rcases mem_append.1 hr' with hold | hnew
    · exact (h.listed r' hold).imp_right fun hhas => hhas.applyLocal (h.genuine r' hold) hr
    · rw [mem_singleton.1 hnew]
      exact .inr (Denylist.has_applyLocal _ r)
  · show r'.Expired s.now ∨ r' ∈ s.unwritten ++ [r] ∨ InTable s.table r'
    rcases mem_append.1 hr' with hold | hnew
    · exact (h.written r' hold).imp_right (Or.imp_left (mem_append_left _))
    · exact .inr (.inl (mem_append_right _ hnew))
  · change store.denylist.Row r' at hr'
    rw [hstore] at hr'
    rcases Denylist.Row.applyLocal hgenuine hr hr' with rfl | hold
    · exact mem_append_right _ mem_cons_self
    · exact mem_append_left _ (h.listed_applied r' hold)
  · exact mem_append_left _ (h.table_applied r' hr')
  · rcases mem_append.1 hr' with hold | hnew
    · exact mem_append_left _ (h.unwritten_applied r' hold)
    · exact mem_append_right _ hnew

/-- The list of a core that restarts is the one of a core that kept running, as far as it counts. -/
theorem Reflects.restart (h : Reflects applied s) (hall : s.unwritten = []) :
    Reflects applied (s.step .restart).1 := by
  have htable : ∀ row ∈ s.table, row.Genuine := fun row hrow =>
    h.genuine row (h.table_applied row hrow)
  refine ⟨Start.foldl_applyRemoteRevoke_signer _ _, h.genuine, fun r hr => ?_, h.written,
    fun r hr => ?_, h.table_applied, h.unwritten_applied⟩
  · by_cases hover : r.Expired s.now
    · exact .inl hover
    · rcases (h.written r hr).resolve_left hover with hpending | hin
      · rw [hall] at hpending
        cases hpending
      · exact .inr (hin.load (h.genuine r hr) htable hover _)
  · have hactive : ∀ row ∈ loadActiveRevocations s.table s.now, row ∈ s.table :=
      fun row hrow => (mem_filter.1 hrow).1
    have hfresh : ∀ row, ¬ (SessionStore.new true).denylist.Row row := fun row => by
      cases row <;> exact nofun
    have hrow := Denylist.Row.of_foldl (fun row hrow => htable row (hactive row hrow))
      (fun row hrow => absurd hrow (hfresh row)) hr
    exact h.table_applied r (hactive r (hrow.resolve_right (hfresh r)))

theorem Reflects.step (h : Reflects applied s) {op : SignedCoreOp} (hok : s.Allowed op) :
    Reflects (applied ++ (s.step op).2) (s.step op).1 := by
  cases op with
  | revokeToken claims =>
    refine h.apply (r := .token claims claims.exp) rfl ?_ ?_ <;>
      simp [revokeToken, h.signer]
  | revokeUser uid =>
    refine h.apply (r := .user uid _ _) rfl h.signer ?_
    simp [revokeUser, h.signer]
  | applyRemoteRevoke r => exact h.apply hok h.signer rfl
  | wait ms =>
    have hlater : ∀ {r : AuthRevoke}, r.Expired s.now → r.Expired (s.now + ms) :=
      fun hover => le_trans hover (Nat.le_add_right ..)
    rw [show (s.step (.wait ms)).2 = [] from rfl, append_nil]
    exact ⟨h.signer, h.genuine, fun r hr => (h.listed r hr).imp_left hlater,
      fun r hr => (h.written r hr).imp_left hlater, h.listed_applied, h.table_applied,
      h.unwritten_applied⟩
  | issue userId principal username =>
    have hstore : (s.store.issue s.now userId principal username "").1 = s.store := by
      rw [issue, if_pos h.signer]
    rw [show s.step (.issue userId principal username) = (s, []) by
      simp only [SignedCore.step, hstore], append_nil]
    exact h
  | persist =>
    rw [SignedCore.step]
    split
    · rw [append_nil]
      exact h
    rename_i r rest hunwritten
    rw [append_nil]
    have hr : r ∈ applied := h.unwritten_applied r (hunwritten ▸ mem_cons_self)
    have htable : ∀ row ∈ s.table, row.Genuine := fun row hrow =>
      h.genuine row (h.table_applied row hrow)
    refine ⟨h.signer, h.genuine, h.listed, fun r' hr' => ?_, h.listed_applied, fun r' hr' => ?_,
      fun r' hr' => h.unwritten_applied r' (hunwritten ▸ mem_cons_of_mem r hr')⟩
    · refine (h.written r' hr').imp_right fun hpending => ?_
      rw [hunwritten, mem_cons] at hpending
      rcases hpending with (rfl | hrest) | hin
      · exact .inr (inTable_persist_self htable (h.genuine r' hr'))
      · exact .inl hrest
      · exact .inr (hin.persist htable (h.genuine r hr))
    · rcases mem_persist htable (h.genuine r hr) hr' with hold | rfl
      · exact h.table_applied r' hold
      · exact hr
  | pruneDenylist =>
    rw [show (s.step .pruneDenylist).2 = [] from rfl, append_nil]
    refine ⟨h.signer, h.genuine, fun r hr => ?_, h.written,
      fun r hr => h.listed_applied r hr.of_prune, h.table_applied, h.unwritten_applied⟩
    by_cases hover : r.Expired s.now
    · exact .inl hover
    · exact .inr (((h.listed r hr).resolve_left hover).prune hover)
  | pruneTable =>
    rw [show (s.step .pruneTable).2 = [] from rfl, append_nil]
    refine ⟨h.signer, h.genuine, h.listed, fun r hr => ?_, h.listed_applied,
      fun r hr => h.table_applied r (mem_filter.1 hr).1, h.unwritten_applied⟩
    by_cases hover : r.Expired s.now
    · exact .inl hover
    · exact ((h.written r hr).imp_right (Or.imp_right fun hin => hin.prune hover))
  | restart =>
    rw [show (s.step .restart).2 = [] from rfl, append_nil]
    exact h.restart hok

/-- A core, at any time and however often it was restarted, accepts a token that was issued under
its key exactly when the token has not expired, was not itself revoked, and was issued in a later
second than every revocation of its user applied so far. -/
theorem accepts_iff {now : Nat} {ops : List SignedCoreOp} (hok : Along Allowed step (new now) ops)
    {issuedAt : Nat} {uid : Uuid} {principal : Principal} {username : String} {c : Claims}
    (hissued : ((SessionStore.new true).issue issuedAt uid principal username "").2 = .signed c) :
    (emitAll step (new now) ops).1.Accepts c ↔
      unixNow (emitAll step (new now) ops).1.now < c.exp ∧
      (∀ exp, AuthRevoke.token c exp ∉ (emitAll step (new now) ops).2) ∧
      ∀ cutoff exp, AuthRevoke.user uid cutoff exp ∈ (emitAll step (new now) ops).2 →
        cutoff < unixNow issuedAt := by
  cases hissued
  set c : Claims :=
    ⟨uid, principal, username, unixNow issuedAt, unixNow issuedAt + sessionAbsoluteTtl⟩ with hc
  have hstart : Reflects [] (new now) := by
    refine ⟨rfl, ?_, ?_, ?_, fun r hr => ?_, ?_, ?_⟩
    case refine_4 => cases r <;> cases hr
    all_goals simp [new]
  have h := hok.emitted (I := Reflects) (fun _ _ _ hop h => h.step hop) hstart
  generalize emitAll step (new now) ops = run at h
  obtain ⟨s, applied⟩ := run
  have hspared : (∀ r ∈ applied, ¬ r.Revokes c) ↔ (∀ exp, AuthRevoke.token c exp ∉ applied) ∧
      ∀ cutoff exp, AuthRevoke.user uid cutoff exp ∈ applied → cutoff < unixNow issuedAt := by
    constructor
    · intro hnone
      exact ⟨fun exp hmem => hnone _ hmem rfl,
        fun cutoff exp hmem => not_le.1 fun hle => hnone _ hmem ⟨rfl, hle⟩⟩
    · rintro ⟨htoken, huser⟩ r hr hrev
      cases r with
      | token hash exp =>
        obtain rfl : hash = c := hrev
        exact htoken exp hr
      | user uid' cutoff exp =>
        obtain ⟨rfl, hiat⟩ : uid' = uid ∧ unixNow issuedAt ≤ cutoff := hrev
        exact absurd hiat (not_le.2 (huser cutoff exp hr))
  rw [← hspared]
  constructor
  · intro haccepts
    refine ⟨?_, fun r hr hrev => ?_⟩
    · change (if s.store.signer then s.store.lookupSigned s.now c else none).isSome = true
        at haccepts
      rw [if_pos h.signer, lookupSigned] at haccepts
      split at haccepts
      · cases haccepts
      · exact not_le.1 ‹_›
    · rw [Accepts, rejects h.signer (h.genuine r hr) (h.listed r hr) rfl hrev]
        at haccepts
      cases haccepts
  · rintro ⟨hexp, hnone⟩
    have hallowed : ¬ s.store.denylist.isDenied c (unixNow s.now) = true := fun hdenied => by
      obtain ⟨r, hrow, hrev⟩ := Denylist.exists_row_of_isDenied hdenied
      exact hnone r (h.listed_applied r hrow) hrev
    change (if s.store.signer then s.store.lookupSigned s.now c else none).isSome = true
    rw [if_pos h.signer, lookupSigned, if_neg (not_le.2 hexp), if_neg hallowed]
    rfl

/-- All tokens of user 7 are revoked at second 200, another core revoked them at second 100, and the
core restarts. -/
def revokedTwice : List SignedCoreOp :=
  [.revokeUser 7, .applyRemoteRevoke (.user 7 100 (100 + sessionAbsoluteTtl)), .persist, .persist,
    .wait 1000, .pruneDenylist, .pruneTable, .restart]

theorem issued_after_is_accepted :
    (emitAll step (new 200000) revokedTwice).1.Accepts
      ⟨7, ⟨.viewer, .all⟩, "ann", 201, 201 + sessionAbsoluteTtl⟩ := by
  have hok : Along Allowed step (new 200000) revokedTwice :=
    ⟨trivial, rfl, trivial, trivial, trivial, trivial, trivial, rfl, trivial⟩
  have happlied : (emitAll step (new 200000) revokedTwice).2
      = [.user 7 200 (200 + sessionAbsoluteTtl), .user 7 100 (100 + sessionAbsoluteTtl)] := by
    decide +kernel
  refine (@accepts_iff _ _ hok 201000 7 ⟨.viewer, .all⟩ "ann" _ rfl).2 ⟨by decide +kernel, ?_, ?_⟩
  · simp [happlied]
  · intro cutoff exp hmem
    rcases List.mem_pair.1 hmem with heq | heq <;> cases heq <;> decide

end SignedCore

end Yagra.Auth
