import Yagra.Auth.Sessions
import Yagra.Proofs.Users

/-!
# `Yagra.Proofs.Sessions`: a session and the authority of its account

A token keeps the role and the scope its account had when the sign-in read it. Changes of an account
are followed by a revocation, so every token is dead, or of an account with a revocation still to
come, or of an account that covers it (`SignIns.Sound`). Two steps can break that. A token can be
issued for what was read before a change whose revocation is over, and a directory sign-in can lower
the stored role, which revokes nothing. `session_within_account` is the statement for runs without
them, and `session_outlives_authority` has a run with each.

A dead signed token stays dead: its revocation counts for as long as the token would have been good.
-/

set_option autoImplicit false

namespace Yagra.Auth

open Yagra.Lib SessionStore
open List (append_nil)

/-! ### Revoked tokens -/

namespace Denylist

variable {d : Denylist} {now now' : Nat} {c : Claims}

/-- The token has expired, or its user was cut off for as long as it lasts. -/
def Dead (d : Denylist) (now : Nat) (c : Claims) : Prop :=
  c.exp ≤ now ∨ ∃ cutoff exp, d.users c.uid = some (cutoff, exp) ∧ c.iat ≤ cutoff ∧ c.exp ≤ exp

theorem Dead.mono (h : d.Dead now c) (hle : now ≤ now') : d.Dead now' c :=
  h.imp (fun hexp => hexp.trans hle) id

theorem applyLocal_user_apply (d : Denylist) (uid : Uuid) (cutoff exp : Nat) (uid' : Uuid) :
    (d.applyLocal (.user uid cutoff exp)).users uid'
      = if uid' = uid then some (merged (d.users uid) cutoff exp) else d.users uid' := by
  simp only [applyLocal, Function.update_apply]

theorem le_merged_left (cutoff exp cutoff' exp' : Nat) :
    cutoff ≤ (merged (some (cutoff, exp)) cutoff' exp').1 ∧
      exp ≤ (merged (some (cutoff, exp)) cutoff' exp').2 :=
  ⟨le_max_left .., le_max_left ..⟩

theorem le_merged_right (old : Option (Nat × Nat)) (cutoff exp : Nat) :
    cutoff ≤ (merged old cutoff exp).1 ∧ exp ≤ (merged old cutoff exp).2 := by
  cases old with
  | none => exact ⟨le_rfl, le_rfl⟩
  | some e => exact ⟨le_max_right .., le_max_right ..⟩

/-- A later revocation never weakens an earlier one. -/
theorem cutOff_applyLocal {uid : Uuid} {iat exp : Nat}
    (h : ∃ c e, d.users uid = some (c, e) ∧ iat ≤ c ∧ exp ≤ e) (r : AuthRevoke) :
    ∃ c e, (d.applyLocal r).users uid = some (c, e) ∧ iat ≤ c ∧ exp ≤ e := by
  cases r with
  | token => exact h
  | user uid' cutoff' exp' =>
    obtain ⟨c, e, hd, hc, he⟩ := h
    rw [applyLocal_user_apply]
    by_cases heq : uid = uid'
    · subst heq
      rw [if_pos rfl, hd]
      obtain ⟨hc', he'⟩ := le_merged_left c e cutoff' exp'
      exact ⟨_, _, rfl, hc.trans hc', he.trans he'⟩
    · rw [if_neg heq]
      exact ⟨c, e, hd, hc, he⟩

theorem Dead.applyLocal (h : d.Dead now c) (r : AuthRevoke) : (d.applyLocal r).Dead now c :=
  h.imp_right fun h => cutOff_applyLocal h r

theorem Dead.prune (h : d.Dead now c) : (d.prune now).Dead now c := by
  rcases h with hexp | ⟨cutoff, exp, hd, hiat, hexp⟩
  · exact .inl hexp
  · by_cases hkeep : now < exp
    · exact .inr ⟨cutoff, exp, by simp [Denylist.prune, hd, hkeep], hiat, hexp⟩
    · exact .inl (hexp.trans (not_lt.1 hkeep))

/-- Cutting off a user kills the tokens issued up to then. -/
theorem dead_of_cutoff (d : Denylist) (hiat : c.iat ≤ now)
    (hexp : c.exp = c.iat + sessionAbsoluteTtl) :
    (d.applyLocal (.user c.uid now (now + sessionAbsoluteTtl))).Dead now c := by
  have hle : c.exp ≤ now + sessionAbsoluteTtl := by
    rw [hexp]
    exact Nat.add_le_add_right hiat _
  refine .inr ?_
  rw [applyLocal_user_apply, if_pos rfl]
  obtain ⟨hc, he⟩ := le_merged_right (d.users c.uid) now (now + sessionAbsoluteTtl)
  exact ⟨_, _, rfl, hiat.trans hc, hle.trans he⟩

theorem Dead.isDenied (h : d.Dead now c) (hexp : now < c.exp) : d.isDenied c now = true := by
  rcases h with hle | ⟨cutoff, exp, hd, hiat, hle⟩
  · exact absurd hle (not_le.2 hexp)
  · simp [Denylist.isDenied, hd, hiat, lt_of_lt_of_le hexp hle]

end Denylist

/-! ### Tokens of a store -/

namespace SessionStore

variable (s : SessionStore) (now : Nat)

theorem issue_signed (h : s.signer = true) (userId : Uuid) (principal : Principal)
    (username fresh : String) :
    s.issue now userId principal username fresh
      = (s, .signed ⟨userId, principal, username, unixNow now, unixNow now + sessionAbsoluteTtl⟩) :=
  if_pos h

theorem issue_random (h : s.signer ≠ true) (userId : Uuid) (principal : Principal)
    (username fresh : String) :
    s.issue now userId principal username fresh
      = (s.put fresh (some ⟨principal, username, userId, now, now⟩), .random fresh) :=
  if_neg h

/-- Looking up a random token finds nothing, drops an entry, or sees it. -/
theorem lookup_random_cases (hex : String) :
    s.lookup now (.random hex) = (s, none) ∨ s.lookup now (.random hex) = (s.put hex none, none) ∨
      ∃ session, s.sessions hex = some session ∧
        s.lookup now (.random hex) = (s.put hex (some { session with lastSeen := now }),
          some { session with lastSeen := now }) := by
  rw [lookup]
  cases hs : s.sessions hex with
  | none => exact .inl rfl
  | some session =>
    dsimp only
    split
    · exact .inr (.inl rfl)
    · exact .inr (.inr ⟨session, rfl, rfl⟩)

variable {s now}

/-- The entry under a token after a write to the map. -/
theorem sessions_put {hex hex' : String} {new : Option Session} {session : Session}
    (h : (s.put hex new).sessions hex' = some session) :
    new = some session ∧ hex' = hex ∨ s.sessions hex' = some session := by
  simp only [put, Function.update_apply] at h
  split at h
  · rename_i heq
    exact .inl ⟨h, heq⟩
  · exact .inr h

end SessionStore

/-! ### Accounts that cover a principal -/

/-- The account is enabled and has at least the principal's authority. -/
structure User.Covers (u : User) (p : Principal) : Prop where
  enabled : u.enabled = true
  role : p.role ≤ parseRole u.role
  scope : u.scope ≠ .all → p.scope = u.scope

instance (u : User) (p : Principal) : Decidable (u.Covers p) :=
  decidable_of_iff
    (u.enabled = true ∧ p.role ≤ parseRole u.role ∧ (u.scope ≠ .all → p.scope = u.scope))
    ⟨fun h => ⟨h.1, h.2.1, h.2.2⟩, fun h => ⟨h.enabled, h.role, h.scope⟩⟩

namespace Users

variable {t t' : Users} {uid : Uuid} {p : Principal}

/-- There is an account with the id that covers the principal. -/
def Covered (t : Users) (uid : Uuid) (p : Principal) : Prop := ∃ u ∈ t.rows, u.id = uid ∧ u.Covers p

instance (t : Users) (uid : Uuid) (p : Principal) : Decidable (t.Covered uid p) :=
  inferInstanceAs (Decidable (∃ u ∈ t.rows, _))

theorem Covered.insert {v : User} (h : t.Covered uid p) (hi : t.insert v = some t') :
    t'.Covered uid p := by
  obtain ⟨u, hu, hid, hc⟩ := h
  exact ⟨u, (mem_insert hi).2 (.inl hu), hid, hc⟩

variable {username : String} {now : UnixMs} {c : User.Change} {id : Uuid}

theorem Covered.update (h : t.Covered uid p)
    (hc : ∀ u ∈ t.rows, u.id = uid → u.id = id → u.Covers p → (u.apply c).Covers p) :
    (t.update id c).Covered uid p := by
  obtain ⟨u, hu, hid, hcov⟩ := h
  by_cases hid' : u.id = id
  · subst hid'
    exact ⟨_, mem_update_self hu, (u.apply_id c).trans hid, hc u hu hid rfl hcov⟩
  · exact ⟨u, mem_update_of_ne hu hid', hid, hcov⟩

theorem Covered.update_of_ne (h : t.Covered uid p) (hne : uid ≠ id) :
    (t.update id c).Covered uid p :=
  h.update fun _ _ hid hid' => absurd (hid.symm.trans hid') hne

theorem Covered.remove (h : t.Covered uid p) (hne : uid ≠ id) : (t.remove id).Covered uid p := by
  obtain ⟨u, hu, hid, hcov⟩ := h
  exact ⟨u, mem_remove.2 ⟨hu, fun h => hne (hid.symm.trans h)⟩, hid, hcov⟩

theorem Covered.rename {name : String} (h : t.Covered uid p) :
    (t.rename id name).Covered uid p := by
  obtain ⟨u, hu, hid, hcov⟩ := h
  obtain ⟨n, hn⟩ : ∃ n, { u with username := n } ∈ (t.rename id name).rows := exists_mem_rename hu
  exact ⟨_, hn, hid, ⟨hcov.enabled, hcov.role, hcov.scope⟩⟩

theorem parseRole_key (r : Role) : parseRole r.key = r := by cases r <;> decide

/-- Refreshing a role that does not go down keeps what the account covers. -/
theorem covers_refresh {u : User} {role : Role} (hle : parseRole u.role ≤ role) (h : u.Covers p) :
    (u.apply (.refresh role.key now)).Covers p := by
  refine ⟨h.enabled, ?_, ?_⟩
  · change p.role ≤ parseRole role.key
    rw [parseRole_key]
    exact h.role.trans hle
  · change (if role.key = "admin" then Scope.all else u.scope) ≠ .all →
      p.scope = if role.key = "admin" then Scope.all else u.scope
    split
    · exact fun hne => absurd rfl hne
    · exact h.scope

/-- A sign-in with a password changes nothing that counts. -/
theorem Covered.verify {checks : String → String → Bool} {password : String} (h : t.Covered uid p) :
    (t.verify checks username password now).1.Covered uid p := by
  unfold Users.verify
  split
  · exact h
  · split
    · exact h
    · split
      · exact h
      · split
        · exact h.update fun u _ _ _ hcov => ⟨hcov.enabled, hcov.role, hcov.scope⟩
        · exact h

/-- A directory sign-in that does not lower the role of its account. -/
theorem Covered.upsertExternalUser {kind : UserKind} {provider : Uuid} {subject : String}
    {role : Role} {newId : Uuid} (h : t.Covered uid p)
    (hrole : kind.isExternal → ∀ u ∈ t.withIdentity provider subject, u.enabled →
      parseRole u.role ≤ role) :
    (t.upsertExternalUser kind provider subject username role newId now).1.Covered uid p := by
  have heff := upsertExternalUser_effect t kind provider subject username role newId now
  generalize (t.upsertExternalUser kind provider subject username role newId now).1 = t' at heff
  cases heff with
  | nothing => exact h
  | provision hi => exact h.insert hi
  | @refresh _ _ _ _ _ _ _ u hu henabled hkind =>
    refine (h.update fun v hv _ hid hcov => ?_).rename
    obtain rfl := eq_of_id hv (withIdentity_spec hu).1 hid
    exact covers_refresh (hrole hkind v hu henabled) hcov

end Users

namespace AccountChange

variable {t : Users} {uid : Uuid} {p : Principal}

/-- A change that is refused writes nothing. -/
theorem step_eq_of_refused (t : Users) (c : AccountChange) (h : c.outcome t ≠ .done) :
    t.step c.op = t := by
  cases c with
  | delete id =>
    change (t.delete id).1 = t
    change (t.delete id).2 ≠ .done at h
    unfold Users.delete at h ⊢
    grind
  | role id r =>
    change (t.setRole id r.key).1 = t
    change (t.setRole id r.key).2 ≠ .done at h
    unfold Users.setRole at h ⊢
    grind
  | scope id sc =>
    change (t.setScope id sc).1 = t
    change (t.setScope id sc).2 ≠ .done at h
    unfold Users.setScope at h ⊢
    grind
  | enabled id on =>
    change (t.setEnabled id on).1 = t
    change (t.setEnabled id on).2 ≠ .done at h
    unfold Users.setEnabled at h ⊢
    grind
  | password id hash =>
    change (t.setPassword id hash).1 = t
    change (t.setPassword id hash).2 ≠ .done at h
    unfold Users.setPassword at h ⊢
    grind

/-- A change touches its own account only. -/
theorem covered_of_ne {c : AccountChange} (h : t.Covered uid p) (hne : uid ≠ c.account) :
    (t.step c.op).Covered uid p := by
  have heff := Users.step_effect t c.op
  generalize t.step c.op = t' at heff
  cases c with
  | delete id =>
    cases heff with
    | nothing => exact h
    | delete _ _ => exact h.remove hne
  | role id r =>
    cases heff with
    | nothing => exact h
    | setRole _ _ => exact h.update_of_ne hne
  | scope id sc =>
    cases heff with
    | nothing => exact h
    | setScope _ _ => exact h.update_of_ne hne
  | enabled id on =>
    cases heff with
    | nothing => exact h
    | setEnabled _ _ => exact h.update_of_ne hne
  | password id hash =>
    cases heff with
    | nothing => exact h
    | setPassword _ => exact h.update_of_ne hne

/-- The one change that revokes nothing enables an account. -/
theorem covered_of_not_revokes {c : AccountChange} (h : t.Covered uid p) (hc : c.revokes = false) :
    (t.step c.op).Covered uid p := by
  cases c with
  | enabled id on =>
    obtain rfl : on = true := by simpa [revokes] using hc
    have heff := Users.step_effect t (.setEnabled id true)
    change (t.step (.setEnabled id true)).Covered uid p
    generalize t.step (.setEnabled id true) = t' at heff
    cases heff with
    | nothing => exact h
    | setEnabled _ _ => exact h.update fun u _ _ _ hcov => ⟨rfl, hcov.role, hcov.scope⟩
  | delete | role | scope | password => cases hc

end AccountChange

/-! ### Runs -/

namespace SignIns

variable {s s' : SignIns} {log : List Token} {uid : Uuid} {p : Principal}
  {checks : String → String → Bool}

/-- The account is about to be revoked, or covers the principal. -/
def Backed (s : SignIns) (uid : Uuid) (p : Principal) : Prop :=
  uid ∈ s.changing ∨ s.users.Covered uid p

instance (s : SignIns) (uid : Uuid) (p : Principal) : Decidable (s.Backed uid p) :=
  inferInstanceAs (Decidable (_ ∨ _))

/-- Every token that was issued is dead or backed. -/
structure Sound (log : List Token) (s : SignIns) : Prop where
  signer : ∀ c, .signed c ∈ log → s.store.signer = true
  issued : ∀ c, .signed c ∈ log → c.iat ≤ unixNow s.now ∧ c.exp = c.iat + sessionAbsoluteTtl
  signed : ∀ c, .signed c ∈ log →
    s.store.denylist.Dead (unixNow s.now) c ∨ s.Backed c.uid c.principal
  sessions : ∀ hex session, s.store.sessions hex = some session →
    s.Backed session.userId session.principal

theorem unixNow_mono {n m : Nat} (h : n ≤ m) : unixNow n ≤ unixNow m := Nat.div_le_div_right h

/-- A step that takes no backing away, issues nothing and revives nothing. -/
theorem Sound.of_le (h : Sound log s) (hsigner : s'.store.signer = s.store.signer)
    (hnow : s.now ≤ s'.now)
    (hdead : ∀ c, s.store.denylist.Dead (unixNow s.now) c →
      s'.store.denylist.Dead (unixNow s'.now) c)
    (hsessions : ∀ hex session, s'.store.sessions hex = some session →
      ∃ old, s.store.sessions hex = some old ∧ old.userId = session.userId ∧
        old.principal = session.principal)
    (hbacked : ∀ uid p, s.Backed uid p → s'.Backed uid p) : Sound log s' where
  signer c hc := hsigner.trans (h.signer c hc)
  issued c hc := ⟨(h.issued c hc).1.trans (unixNow_mono hnow), (h.issued c hc).2⟩
  signed c hc := (h.signed c hc).imp (hdead c) (hbacked _ _)
  sessions hex session hs := by
    obtain ⟨old, hold, hid, hp⟩ := hsessions hex session hs
    rw [← hid, ← hp]
    exact hbacked _ _ (h.sessions hex old hold)

/-- A step that changes the accounts only. -/
theorem Sound.of_users (h : Sound log s) (hstore : s'.store = s.store) (hnow : s'.now = s.now)
    (hbacked : ∀ uid p, s.Backed uid p → s'.Backed uid p) : Sound log s' :=
  h.of_le (by rw [hstore]) hnow.ge (fun c hc => by rwa [hstore, hnow])
    (fun hex session hs => ⟨session, by rwa [← hstore], rfl, rfl⟩) hbacked

/-- A token is issued only for an account that still backs it, and a directory sign-in that is let
in does not lower the stored role. -/
def Safe (s : SignIns) : SignInOp → Prop
  | .issue i _ => ∀ v ∈ s.verified[i]?, s.Backed v.userId v.principal
  | .external kind provider subject _ role _ => kind.isExternal →
    ∀ u ∈ s.users.withIdentity provider subject, u.enabled → parseRole u.role ≤ role
  | _ => True

instance (s : SignIns) : (op : SignInOp) → Decidable (s.Safe op)
  | .issue i _ => inferInstanceAs (Decidable (∀ v ∈ s.verified[i]?, _))
  | .external _ provider subject _ _ _ =>
    inferInstanceAs (Decidable (_ → ∀ u ∈ s.users.withIdentity provider subject, _))
  | .wait _ | .create .. | .createService .. | .verify .. | .write _ | .revoke _ | .lookup _
  | .logout _ | .prune => isTrue trivial

theorem Backed.of_covered (hchanging : s'.changing = s.changing)
    (hcov : s.users.Covered uid p → s'.users.Covered uid p) (h : s.Backed uid p) :
    s'.Backed uid p := by
  rcases h with hmem | hc
  · exact .inl (hchanging ▸ hmem)
  · exact .inr (hcov hc)

variable {i : Nat} {token : Token}

theorem step_issue {v : Verified} (hv : s.verified[i]? = some v) (fresh : String) :
    s.step checks (.issue i fresh)
      = ({ s with
            store := (s.store.issue s.now v.userId v.principal v.username fresh).1
            verified := s.verified.eraseIdx i },
          [(s.store.issue s.now v.userId v.principal v.username fresh).2]) := by
  rw [step, hv]

theorem sound_issue {fresh : String} (h : Sound log s) (hok : s.Safe (.issue i fresh)) :
    Sound (log ++ (s.step checks (.issue i fresh)).2) (s.step checks (.issue i fresh)).1 := by
  cases hv : s.verified[i]? with
  | none => simpa [step, hv] using h
  | some v =>
    have hback : s.Backed v.userId v.principal := hok v hv
    rw [step_issue hv]
    by_cases hsig : s.store.signer = true
    · rw [issue_signed s.store s.now hsig]
      refine ⟨fun _ _ => hsig, fun c hc => ?_, fun c hc => ?_, h.sessions⟩
      all_goals
        rw [List.mem_append, List.mem_singleton, Token.signed.injEq] at hc
        rcases hc with hc | rfl
      · exact h.issued c hc
      · exact ⟨le_rfl, rfl⟩
      · exact h.signed c hc
      · exact .inr hback
    · rw [issue_random s.store s.now hsig]
      have hold : ∀ c : Claims, Token.signed c ∈ log ++ [Token.random fresh] → .signed c ∈ log := by
        intro c hc
        simpa using hc
      refine ⟨fun c hc => h.signer c (hold c hc), fun c hc => h.issued c (hold c hc),
        fun c hc => h.signed c (hold c hc), fun hex session hs => ?_⟩
      rcases sessions_put hs with ⟨hnew, -⟩ | hs
      · cases hnew
        exact hback
      · exact h.sessions hex session hs

theorem sound_write {c : AccountChange} (h : Sound log s) :
    Sound (log ++ (s.step checks (.write c)).2) (s.step checks (.write c)).1 := by
  rw [step, append_nil]
  refine h.of_users rfl rfl fun uid p hback => ?_
  by_cases hdone : c.outcome s.users = .done
  · by_cases hrev : c.revokes = true
    · rcases hback with hmem | hcov
      · left
        simp [hmem, hdone, hrev]
      · by_cases huid : uid = c.account
        · left
          simp [huid, hdone, hrev]
        · exact .inr (AccountChange.covered_of_ne hcov huid)
    · refine hback.imp (fun hmem => ?_) fun hcov => ?_
      · simpa [hrev] using hmem
      · exact AccountChange.covered_of_not_revokes hcov (by simpa using hrev)
  · refine hback.imp (fun hmem => ?_) fun hcov => ?_
    · simpa [hdone] using hmem
    · rwa [AccountChange.step_eq_of_refused _ _ hdone]

/-- The revocation of a change: the account is no longer about to be revoked, and its tokens are
dead. -/
theorem sound_revoke (h : Sound log s) :
    Sound (log ++ (s.step checks (.revoke i)).2) (s.step checks (.revoke i)).1 := by
  rw [step]
  cases hid : s.changing[i]? with
  | none => simpa using h
  | some id =>
    rw [append_nil]
    -- Every other account is backed as before.
    have hother : ∀ uid p, uid ≠ id → s.Backed uid p →
        uid ∈ s.changing.eraseIdx i ∨ s.users.Covered uid p := by
      intro uid p hne hback
      exact hback.imp (fun hmem => (mem_eraseIdx_of_mem hid hmem).resolve_left hne) fun hcov => hcov
    refine ⟨h.signer, h.issued, fun c hc => ?_, fun hex session hs => ?_⟩
    · have hlist : (s.store.revokeUser s.now id).denylist = s.store.denylist.applyLocal
          (.user id (unixNow s.now) (unixNow s.now + sessionAbsoluteTtl)) := if_pos (h.signer c hc)
      rw [hlist]
      by_cases huid : c.uid = id
      · left
        obtain ⟨hiat, hexp⟩ := h.issued c hc
        rw [← huid]
        exact Denylist.dead_of_cutoff _ hiat hexp
      · exact (h.signed c hc).imp (fun hdead => hdead.applyLocal _) (hother _ _ huid)
    · simp only [revokeUser, Option.filter_eq_some_iff, decide_eq_true_eq] at hs
      exact hother _ _ hs.2 (h.sessions hex session hs.1)

theorem sound_lookup (h : Sound log s) :
    Sound (log ++ (s.step checks (.lookup token)).2) (s.step checks (.lookup token)).1 := by
  rw [step, append_nil]
  cases token with
  | signed c => exact h
  | random hex =>
    rcases s.store.lookup_random_cases s.now hex with hl | hl | ⟨session, hs, hl⟩
    · rw [hl]
      exact h
    · rw [hl]
      refine h.of_le rfl le_rfl (fun _ hc => hc) (fun hex' session' hs' => ?_)
        (fun _ _ hback => hback)
      rcases sessions_put hs' with ⟨hnew, -⟩ | hs'
      · cases hnew
      · exact ⟨session', hs', rfl, rfl⟩
    · rw [hl]
      refine h.of_le rfl le_rfl (fun _ hc => hc) (fun hex' session' hs' => ?_)
        (fun _ _ hback => hback)
      rcases sessions_put hs' with ⟨hnew, rfl⟩ | hs'
      · cases hnew
        exact ⟨session, hs, rfl, rfl⟩
      · exact ⟨session', hs', rfl, rfl⟩

theorem sound_logout (h : Sound log s) :
    Sound (log ++ (s.step checks (.logout token)).2) (s.step checks (.logout token)).1 := by
  rw [step, append_nil]
  cases token with
  | random hex =>
    refine h.of_le rfl le_rfl (fun _ hc => hc) (fun hex' session hs => ?_) (fun _ _ hback => hback)
    rcases sessions_put hs with ⟨hnew, -⟩ | hs
    · cases hnew
    · exact ⟨session, hs, rfl, rfl⟩
  | signed c =>
    unfold revokeToken
    dsimp only
    split
    · refine h.of_le rfl le_rfl (fun c' hc => ?_) (fun _ session hs => ⟨session, hs, rfl, rfl⟩)
        (fun _ _ hback => hback)
      exact hc.applyLocal (.token c c.exp)
    · exact h

theorem sound_step {op : SignInOp} (hok : s.Safe op) (h : Sound log s) :
    Sound (log ++ (s.step checks op).2) (s.step checks op).1 := by
  cases op with
  | wait ms =>
    rw [step, append_nil]
    have hnow : s.now ≤ s.now + ms := Nat.le_add_right ..
    exact h.of_le rfl hnow (fun _ hc => hc.mono (unixNow_mono hnow))
      (fun _ session hs => ⟨session, hs, rfl, rfl⟩) (fun _ _ hback => hback)
  | create id username hash role =>
    rw [step, append_nil]
    refine h.of_users rfl rfl fun uid p => Backed.of_covered rfl fun hcov => ?_
    have heff := Users.step_effect s.users (.create id username hash role)
    generalize s.users.step (.create id username hash role) = t' at heff
    cases heff with
    | nothing => exact hcov
    | create hi => exact hcov.insert hi
  | createService id username role =>
    rw [step, append_nil]
    refine h.of_users rfl rfl fun uid p => Backed.of_covered rfl fun hcov => ?_
    have heff := Users.step_effect s.users (.createService id username role)
    generalize s.users.step (.createService id username role) = t' at heff
    cases heff with
    | nothing => exact hcov
    | createService hi => exact hcov.insert hi
  | verify username password =>
    have hcov : ∀ uid p, s.users.Covered uid p →
        (s.users.verify checks username password s.now).1.Covered uid p :=
      fun uid p hc => hc.verify
    rw [step]
    generalize s.users.verify checks username password s.now = answer at hcov
    obtain ⟨users, read⟩ := answer
    cases read <;>
      exact (append_nil log).symm ▸ h.of_users rfl rfl fun uid p =>
        Backed.of_covered rfl (hcov uid p)
  | external kind provider subject username role newId =>
    have hcov : ∀ uid p, s.users.Covered uid p →
        (s.users.upsertExternalUser kind provider subject username role newId s.now).1.Covered
          uid p := fun uid p hc => hc.upsertExternalUser hok
    rw [step]
    generalize s.users.upsertExternalUser kind provider subject username role newId s.now = answer
      at hcov
    obtain ⟨users, read⟩ := answer
    cases read <;>
      exact (append_nil log).symm ▸ h.of_users rfl rfl fun uid p =>
        Backed.of_covered rfl (hcov uid p)
  | issue i fresh => exact sound_issue h hok
  | write c => exact sound_write h
  | revoke i => exact sound_revoke h
  | lookup token => exact sound_lookup h
  | logout token => exact sound_logout h
  | prune =>
    rw [step, append_nil]
    exact h.of_le rfl le_rfl (fun _ hc => hc.prune) (fun _ session hs => ⟨session, hs, rfl, rfl⟩)
      (fun _ _ hback => hback)

/-- A session that is accepted is backed. -/
theorem Sound.backed_of_lookup (h : Sound log s) (htoken : token ∈ log) {session : Session}
    (hlook : (s.store.lookup s.now token).2 = some session) :
    s.Backed session.userId session.principal := by
  cases token with
  | random hex =>
    rcases s.store.lookup_random_cases s.now hex with hl | hl | ⟨old, hold, hl⟩
    · rw [hl] at hlook
      cases hlook
    · rw [hl] at hlook
      cases hlook
    · rw [hl] at hlook
      cases hlook
      exact h.sessions hex old hold
  | signed c =>
    change (if s.store.signer then s.store.lookupSigned s.now c else none) = some session at hlook
    rw [if_pos (h.signer c htoken), lookupSigned] at hlook
    split at hlook
    · cases hlook
    · rename_i hexp
      split at hlook
      · cases hlook
      · rename_i hdenied
        cases hlook
        rcases h.signed c htoken with hdead | hback
        · exact absurd (hdead.isDenied (not_le.1 hexp)) hdenied
        · exact hback

/-- A session has no more authority than its account, in every run that issues tokens only for
accounts that still back what was read, and whose directory sign-ins lower no role. -/
theorem session_within_account (checks : String → String → Bool) {signer : Bool} {now : Nat}
    {users : Users} {ops : List SignInOp}
    (hok : Along Safe (step checks) (start signer now users) ops) {token : Token}
    (hissued : token ∈ (emitAll (step checks) (start signer now users) ops).2) {session : Session}
    (hlook : ((emitAll (step checks) (start signer now users) ops).1.store.lookup
      (emitAll (step checks) (start signer now users) ops).1.now token).2 = some session)
    (hquiet : session.userId ∉ (emitAll (step checks) (start signer now users) ops).1.changing) :
    ∃ u ∈ (emitAll (step checks) (start signer now users) ops).1.users.rows,
      u.id = session.userId ∧ u.enabled = true ∧
      (∀ perm, session.principal.role.grants perm = true → (parseRole u.role).grants perm = true) ∧
      (u.scope ≠ .all → session.principal.scope = u.scope) := by
  have hstart : Sound [] (start signer now users) :=
    ⟨fun _ hc => absurd hc (by simp), fun _ hc => absurd hc (by simp),
      fun _ hc => absurd hc (by simp), fun _ _ hs => absurd hs (by simp [start, new])⟩
  have hsound := hok.emitted (I := Sound) (fun log s op hop h => sound_step hop h) hstart
  rcases hsound.backed_of_lookup hissued hlook with hmem | ⟨u, hu, hid, hcov⟩
  · exact absurd hmem hquiet
  · exact ⟨u, hu, hid, hcov.enabled, fun perm => Role.grants_mono hcov.role, hcov.scope⟩

/-! ### Runs of two accounts -/

/-- Two administrators. -/
def rootAndAnn : Users where
  rows := [⟨1, "root", "h1", "admin", .localUser, none, true, .all, none⟩,
    ⟨2, "ann", "h2", "admin", .localUser, none, true, .all, none⟩]
  ids := by decide
  names := by decide

/-- The second administrator signs in, is demoted, and signs in again. -/
def demotedRun : List SignInOp :=
  [.verify "ann" "pw", .issue 0 "t1", .write (.role 2 .viewer), .revoke 0, .wait 1000,
    .verify "ann" "pw", .issue 0 "t2"]

/-- The claims of the second sign-in. -/
def secondClaims : Claims := ⟨2, ⟨.viewer, .all⟩, "ann", 1, 86401⟩

/-- The session of the second sign-in is a viewer's. -/
theorem demoted_session_within :
    ∃ u ∈ (emitAll (step fun _ _ => true) (start true 0 rootAndAnn) demotedRun).1.users.rows,
      u.id = 2 ∧ u.enabled = true ∧
      (∀ perm, Role.viewer.grants perm = true → (parseRole u.role).grants perm = true) ∧
      (u.scope ≠ .all → Scope.all = u.scope) := by
  have hok : Along Safe (step fun _ _ => true) (start true 0 rootAndAnn) demotedRun := by
    decide +kernel
  have hissued : Token.signed secondClaims ∈
      (emitAll (step fun _ _ => true) (start true 0 rootAndAnn) demotedRun).2 := by
    decide +kernel
  have hlook : ((emitAll (step fun _ _ => true) (start true 0 rootAndAnn)
      demotedRun).1.store.lookup
        (emitAll (step fun _ _ => true) (start true 0 rootAndAnn) demotedRun).1.now
        (.signed secondClaims)).2 = some ⟨⟨.viewer, .all⟩, "ann", 2, 1000, 1000⟩ := by
    decide +kernel
  exact session_within_account (fun _ _ => true) hok hissued hlook (by decide +kernel)

/-- What was read before a demotion is issued after its revocation. -/
def lateIssue : List SignInOp :=
  [.verify "ann" "pw", .write (.role 2 .viewer), .revoke 0, .wait 1000, .issue 0 "t1"]

/-- A directory sign-in lowers the role while a session is open. -/
def refreshedRole : List SignInOp :=
  [.external .ldap 5 "cn=bob" "bob" .admin 3, .issue 0 "t1",
    .external .ldap 5 "cn=bob" "bob" .viewer 4]

/-- The token that a run issued, its session, the stored role of the session's account, and the
accounts that are about to be revoked. -/
def outcome (signer : Bool) (ops : List SignInOp) : Option (Role × Option String × List Uuid) :=
  let run := emitAll (step fun _ _ => true) (start signer 0 rootAndAnn) ops
  run.2.head?.bind fun token =>
    (run.1.store.lookup run.1.now token).2.map fun session =>
      (session.principal.role, (run.1.users.find session.userId).map User.role, run.1.changing)

/-- In both modes a token issued after the revocation, and one from before a directory sign-in that
lowered the role, is accepted as an administrator's while the account is a viewer's and no change is
under way. -/
theorem session_outlives_authority :
    outcome false lateIssue = some (.admin, some "viewer", []) ∧
      outcome true lateIssue = some (.admin, some "viewer", []) ∧
      outcome false refreshedRole = some (.admin, some "viewer", []) ∧
      outcome true refreshedRole = some (.admin, some "viewer", []) := by
  decide +kernel

end SignIns

end Yagra.Auth
