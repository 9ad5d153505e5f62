import Yagra.Auth.Users
import Yagra.Lib.Emit

/-!
# `Yagra.Proofs.Users`: what an operation does to the table of accounts

`Users.Effect t op t'` lists what an operation can do: nothing, or one write whose guard let it
through. `Users.step_effect` says that there is nothing else, so that a proof about accounts is a
case analysis over `Effect` and reads no operation again. The lemmas before it say which rows each
kind of write leaves.
-/

set_option autoImplicit false

namespace Yagra.Auth.Users

open Yagra.Lib List

variable {t t' : Users} {u v : User} {id : Uuid}

/-! ### Lookups -/

/-- Two rows with the same id are the same row. -/
theorem eq_of_id (hu : u ∈ t.rows) (hv : v ∈ t.rows) (h : u.id = v.id) : u = v :=
  inj_on_of_nodup_map t.ids hu hv h

theorem find_eq_some : t.find id = some u ↔ u ∈ t.rows ∧ u.id = id := by
  constructor
  · exact find?_spec
  · rintro ⟨hu, rfl⟩
    exact find?_of_unique hu rfl fun v hv hid => eq_of_id hv hu hid

theorem named_of_mem (hu : u ∈ t.rows) : t.named u.username = some u :=
  find?_of_unique hu rfl fun _ hv hname => inj_on_of_nodup_map t.names hv hu hname

theorem withIdentity_spec {provider : Uuid} {subject : String}
    (h : t.withIdentity provider subject = some u) :
    u ∈ t.rows ∧ u.identity = some (provider, subject) :=
  find?_spec h

/-! ### Rows after a write -/

theorem insert_eq_some (h : t.insert u = some t') :
    t'.rows = t.rows ++ [u] ∧ u.id ∉ t.rows.map User.id := by
  unfold insert at h
  split at h
  · rename_i hfree
    cases h
    exact ⟨rfl, hfree.1⟩
  · cases h

theorem mem_insert (h : t.insert u = some t') : v ∈ t'.rows ↔ v ∈ t.rows ∨ v = u := by
  rw [(insert_eq_some h).1, mem_append, mem_singleton]

variable {name : String} {c : User.Change}

theorem mem_update :
    v ∈ (t.update id c).rows ↔ ∃ w ∈ t.rows, (if w.id = id then w.apply c else w) = v :=
  mem_map

/-- The row that is updated. -/
theorem mem_update_self (hu : u ∈ t.rows) : u.apply c ∈ (t.update u.id c).rows :=
  mem_update.2 ⟨u, hu, if_pos rfl⟩

/-- Every other row stays. -/
theorem mem_update_of_ne (hu : u ∈ t.rows) (hid : u.id ≠ id) : u ∈ (t.update id c).rows :=
  mem_update.2 ⟨u, hu, if_neg hid⟩

theorem mem_remove : v ∈ (t.remove id).rows ↔ v ∈ t.rows ∧ v.id ≠ id := by
  rw [remove, mem_filter, decide_eq_true_iff]

/-- A row keeps everything but, perhaps, its username when an account is renamed. -/
theorem exists_mem_rename (hu : u ∈ t.rows) :
    ∃ n, { u with username := n } ∈ (t.rename id name).rows := by
  unfold rename
  split
  · by_cases hid : u.id = id
    · exact ⟨name, mem_map.2 ⟨u, hu, if_pos hid⟩⟩
    · exact ⟨u.username, mem_map.2 ⟨u, hu, if_neg hid⟩⟩
  · exact ⟨u.username, hu⟩

/-- A row after a renaming is a row from before it, up to its username. -/
theorem of_mem_rename (hv : v ∈ (t.rename id name).rows) :
    ∃ u ∈ t.rows, ∃ n, v = { u with username := n } := by
  unfold rename at hv
  split at hv
  · obtain ⟨u, hu, rfl⟩ := mem_map.1 hv
    by_cases hid : u.id = id
    · exact ⟨u, hu, name, if_pos hid⟩
    · exact ⟨u, hu, u.username, if_neg hid⟩
  · exact ⟨v, hv, v.username, rfl⟩

/-! ### Operations -/

/-- What an operation can do to the table. -/
inductive Effect (t : Users) : UserOp → Users → Prop where
  | nothing {op : UserOp} : Effect t op t
  | create {id : Uuid} {username hash role : String} {t' : Users}
      (h : t.insert ⟨id, username, hash, role, .localUser, none, true, .all, none⟩ = some t') :
      Effect t (.create id username hash role) t'
  | createService {id : Uuid} {username role : String} {t' : Users}
      (h : t.insert ⟨id, username, servicePasswordSentinel, role, .service, none, true, .all, none⟩
        = some t') :
      Effect t (.createService id username role) t'
  | delete {u : User} (hu : u ∈ t.rows) (hlast : u.role = "admin" → 1 < t.adminCount) :
      Effect t (.delete u.id) (t.remove u.id)
  | setRole {u : User} {role : String} (hu : u ∈ t.rows)
      (hlast : u.role = "admin" → role ≠ "admin" → 1 < t.adminCount) :
      Effect t (.setRole u.id role) (t.update u.id (.role role))
  | setScope {u : User} {scope : Scope} (hu : u ∈ t.rows)
      (hadmin : u.role = "admin" → scope = .all) :
      Effect t (.setScope u.id scope) (t.update u.id (.scope scope))
  | setEnabled {u : User} {enabled : Bool} (hu : u ∈ t.rows)
      (hlast : enabled = false → u.enabled = true → u.role = "admin" → 1 < t.enabledAdminCount) :
      Effect t (.setEnabled u.id enabled) (t.update u.id (.enabled enabled))
  | setPassword {u : User} {hash : String} (hu : u ∈ t.rows) :
      Effect t (.setPassword u.id hash) (t.update u.id (.password hash))
  | refresh {kind : UserKind} {provider : Uuid} {subject username : String} {role : Role}
      {newId : Uuid} {now : UnixMs} {u : User} (hu : t.withIdentity provider subject = some u)
      (henabled : u.enabled = true) (hkind : kind.isExternal = true) :
      Effect t (.external kind provider subject username role newId now)
        ((t.update u.id (.refresh role.key now)).rename u.id username)
  | provision {kind : UserKind} {provider : Uuid} {subject username sentinel : String} {role : Role}
      {newId : Uuid} {now : UnixMs} {t' : Users}
      (h : t.insert
        ⟨newId, username, sentinel, role.key, kind, some (provider, subject), true, .all,
        some now⟩ = some t') :
      Effect t (.external kind provider subject username role newId now) t'

section

variable (t : Users) (id : Uuid)

theorem delete_effect : Effect t (.delete id) (t.delete id).1 := by
  unfold delete
  cases hf : t.find id with
  | none => exact .nothing
  | some u =>
    obtain ⟨hu, rfl⟩ := find_eq_some.1 hf
    dsimp only
    split
    · exact .nothing
    · rename_i hguard
      refine .delete hu fun hrole => ?_
      exact not_le.1 fun hle => hguard ⟨hrole, hle⟩

theorem setRole_effect (role : String) : Effect t (.setRole id role) (t.setRole id role).1 := by
  unfold setRole
  cases hf : t.find id with
  | none => exact .nothing
  | some u =>
    obtain ⟨hu, rfl⟩ := find_eq_some.1 hf
    dsimp only
    split
    · exact .nothing
    · rename_i hguard
      refine .setRole hu fun hrole hnew => ?_
      exact not_le.1 fun hle => hguard ⟨hrole, hnew, hle⟩

theorem setScope_effect (scope : Scope) :
    Effect t (.setScope id scope) (t.setScope id scope).1 := by
  unfold setScope
  cases hf : t.find id with
  | none => exact .nothing
  | some u =>
    obtain ⟨hu, rfl⟩ := find_eq_some.1 hf
    dsimp only
    split
    · exact .nothing
    · rename_i hguard
      refine .setScope hu fun hrole => ?_
      exact not_not.1 fun hne => hguard ⟨hrole, hne⟩

theorem setEnabled_effect (enabled : Bool) :
    Effect t (.setEnabled id enabled) (t.setEnabled id enabled).1 := by
  unfold setEnabled
  cases hf : t.find id with
  | none => exact .nothing
  | some u =>
    obtain ⟨hu, rfl⟩ := find_eq_some.1 hf
    dsimp only
    split
    · exact .nothing
    · rename_i hguard
      refine .setEnabled hu fun hoff hon hrole => ?_
      exact not_le.1 fun hle => hguard ⟨hoff, hon, hrole, hle⟩

theorem setPassword_effect (hash : String) :
    Effect t (.setPassword id hash) (t.setPassword id hash).1 := by
  unfold setPassword
  cases hf : t.find id with
  | none => exact .nothing
  | some u =>
    obtain ⟨hu, rfl⟩ := find_eq_some.1 hf
    dsimp only
    split
    · exact .nothing
    · exact .setPassword hu

theorem create_effect (username hash role : String) :
    Effect t (.create id username hash role) (t.create id username hash role).1 := by
  unfold create insertUser
  split
  · rename_i h
    exact .create h
  · exact .nothing

theorem createService_effect (username role : String) :
    Effect t (.createService id username role) (t.createService id username role).1 := by
  unfold createService insertUser
  split
  · rename_i h
    exact .createService h
  · exact .nothing

end

theorem upsertExternalUser_effect (t : Users) (kind : UserKind) (provider : Uuid)
    (subject username : String) (role : Role) (newId : Uuid) (now : UnixMs) :
    Effect t (.external kind provider subject username role newId now)
      (t.upsertExternalUser kind provider subject username role newId now).1 := by
  unfold upsertExternalUser
  cases passwordSentinel kind with
  | none => exact .nothing
  | some sentinel =>
    dsimp only
    split
    · exact .nothing
    · rename_i hkind
      cases hid : t.withIdentity provider subject with
      | some u =>
        dsimp only
        split
        · exact .nothing
        · rename_i henabled
          exact .refresh hid (by simpa using henabled) (by simpa using hkind)
      | none =>
        dsimp only
        split
        · rename_i h
          exact .provision h
        · exact .nothing

theorem step_effect (t : Users) (op : UserOp) : Effect t op (t.step op) := by
  cases op with
  | create id username hash role => exact create_effect t id username hash role
  | createService id username role => exact createService_effect t id username role
  | delete id => exact delete_effect t id
  | setRole id role => exact setRole_effect t id role
  | setScope id scope => exact setScope_effect t id scope
  | setEnabled id enabled => exact setEnabled_effect t id enabled
  | setPassword id hash => exact setPassword_effect t id hash
  | external kind provider subject username role newId now =>
    exact upsertExternalUser_effect t kind provider subject username role newId now

end Yagra.Auth.Users

namespace Yagra.Auth

open Yagra.Lib Yagra.Groups

/-!
## Who can still administer the system

An administrator is an account with the role `admin` whose username takes a way of signing in. Three
operations can take one away, and each has a guard. Disabling counts the administrators that are
enabled. Deleting and demoting count all of them, so that a disabled administrator is enough for the
guard to let the only enabled one go. `administrator_remains` says that there is no other way to be
left without one, and `disabled_admin_counts` is the way there is.
-/

/-- Whether a person with the account can sign in. -/
def LoginRoute.signsIn : LoginRoute → Bool
  | .localPassword | .external _ => true
  | .unknown | .refused => false

/-- The account is an administrator that a person can sign in with when it is enabled. -/
def User.Administers (u : User) : Prop := u.role = "admin" ∧ u.kind ≠ .service

instance (u : User) : Decidable u.Administers :=
  inferInstanceAs (Decidable (u.role = "admin" ∧ u.kind ≠ .service))

namespace Users

variable {t t' : Users} {u : User} {id : Uuid}

/-- Some enabled administrator can sign in. -/
def CanAdminister (t : Users) : Prop :=
  ∃ u ∈ t.rows, u.role = "admin" ∧ u.enabled = true ∧ (t.loginRoute u.username).signsIn = true

instance (t : Users) : Decidable t.CanAdminister :=
  inferInstanceAs (Decidable (∃ u ∈ t.rows, _))

theorem signsIn_loginRoute (hu : u ∈ t.rows) :
    (t.loginRoute u.username).signsIn = true ↔ u.enabled = true ∧ u.kind ≠ .service := by
  unfold loginRoute
  rw [named_of_mem hu]
  dsimp only
  cases u.enabled <;> cases u.kind <;> simp [LoginRoute.signsIn]

theorem canAdminister_iff : t.CanAdminister ↔ ∃ u ∈ t.rows, u.Administers ∧ u.enabled = true := by
  constructor
  · rintro ⟨u, hu, hrole, henabled, hsigns⟩
    exact ⟨u, hu, ⟨hrole, ((signsIn_loginRoute hu).1 hsigns).2⟩, henabled⟩
  · rintro ⟨u, hu, ⟨hrole, hkind⟩, henabled⟩
    exact ⟨u, hu, hrole, henabled, (signsIn_loginRoute hu).2 ⟨henabled, hkind⟩⟩

/-! ### Counting -/

/-- Two rows that pass a test have different ids, so one of them is not the row in question. -/
theorem exists_ne_of_one_lt_countP {p : User → Bool} (h : 1 < t.rows.countP p) (id : Uuid) :
    ∃ u ∈ t.rows, u.id ≠ id ∧ p u = true := by
  by_contra hnone
  have hall : ∀ i ∈ (t.rows.filter p).map User.id, i = id := by
    intro i hi
    obtain ⟨u, hu, rfl⟩ := List.mem_map.1 hi
    obtain ⟨hmem, hp⟩ := List.mem_filter.1 hu
    exact not_not.1 fun hne => hnone ⟨u, hmem, hne, hp⟩
  have hnodup := nodup_map_filter (p := p) t.ids
  rw [List.eq_replicate_of_mem hall, List.nodup_replicate, List.length_map,
    ← List.countP_eq_length_filter] at hnodup
  exact absurd h (not_lt.2 hnodup)

theorem exists_other_admin (h : 1 < t.adminCount) (id : Uuid) :
    ∃ u ∈ t.rows, u.id ≠ id ∧ u.Administers := by
  obtain ⟨u, hu, hid, hp⟩ := exists_ne_of_one_lt_countP h id
  exact ⟨u, hu, hid, by simpa [User.Administers] using hp⟩

theorem exists_other_enabled_admin (h : 1 < t.enabledAdminCount) (id : Uuid) :
    ∃ u ∈ t.rows, u.id ≠ id ∧ u.Administers ∧ u.enabled = true := by
  obtain ⟨u, hu, hid, hp⟩ := exists_ne_of_one_lt_countP h id
  simp only [Bool.and_eq_true, decide_eq_true_eq] at hp
  exact ⟨u, hu, hid, ⟨hp.1.1, hp.2⟩, hp.1.2⟩

/-! ### Operations -/

/-- The account is the only enabled administrator, and a disabled one exists besides. -/
def OnlyEnabledAdmin (t : Users) (id : Uuid) : Prop :=
  (∀ u ∈ t.rows, u.Administers → u.enabled = true → u.id = id) ∧
    ∃ u ∈ t.rows, u.Administers ∧ u.enabled = false

instance (t : Users) (id : Uuid) : Decidable (t.OnlyEnabledAdmin id) :=
  inferInstanceAs (Decidable (_ ∧ ∃ u ∈ t.rows, _))

/-- An external sign-in that leaves the role of its account as it is. -/
def KeepsRole (t : Users) : UserOp → Prop
  | .external _ provider subject _ role _ _ =>
    ∀ u ∈ t.rows, u.identity = some (provider, subject) → u.role = role.key
  | _ => True

instance (t : Users) (op : UserOp) : Decidable (t.KeepsRole op) :=
  match op with
  | .external _ _ _ _ _ _ _ => inferInstanceAs (Decidable (∀ u ∈ t.rows, _))
  | .create .. | .createService .. | .delete .. | .setRole .. | .setScope .. | .setEnabled ..
  | .setPassword .. => isTrue trivial

/-- The only enabled administrator is not deleted or demoted while a disabled one exists. -/
def KeepsEnabledAdmin (t : Users) : UserOp → Prop
  | .delete id => ¬ t.OnlyEnabledAdmin id
  | .setRole id role => role ≠ "admin" → ¬ t.OnlyEnabledAdmin id
  | _ => True

instance (t : Users) (op : UserOp) : Decidable (t.KeepsEnabledAdmin op) :=
  match op with
  | .delete id => inferInstanceAs (Decidable (¬ t.OnlyEnabledAdmin id))
  | .setRole id role => inferInstanceAs (Decidable (role ≠ "admin" → ¬ t.OnlyEnabledAdmin id))
  | .create .. | .createService .. | .setScope .. | .setEnabled .. | .setPassword ..
  | .external .. => isTrue trivial

/-- Where the guard of a deletion or a demotion passed, and the account is not the only enabled
administrator beside a disabled one, another enabled administrator is there. -/
theorem exists_other_of_guard (hadm : ∃ u ∈ t.rows, u.Administers ∧ u.enabled = true)
    (hu : u ∈ t.rows) (hlast : u.role = "admin" → 1 < t.adminCount)
    (hsafe : ¬ t.OnlyEnabledAdmin u.id) :
    ∃ v ∈ t.rows, v.id ≠ u.id ∧ v.Administers ∧ v.enabled = true := by
  by_contra hnone
  have honly : ∀ v ∈ t.rows, v.Administers → v.enabled = true → v.id = u.id :=
    fun v hv ha he => not_not.1 fun hne => hnone ⟨v, hv, hne, ha, he⟩
  -- The account itself is the enabled administrator there is, so the guard counted another one.
  obtain ⟨w, hw, hadmin, henabled⟩ := hadm
  have hrole : u.role = "admin" := by
    rw [← eq_of_id hw hu (honly w hw hadmin henabled)]
    exact hadmin.1
  obtain ⟨v, hv, hne, ha⟩ := exists_other_admin (hlast hrole) u.id
  refine hsafe ⟨honly, v, hv, ha, ?_⟩
  exact Bool.eq_false_iff.2 fun he => hne (honly v hv ha he)

/-- An update keeps some enabled administrator, if it keeps one or there is one besides. -/
theorem update_keeps_admin {c : User.Change} (hu : u ∈ t.rows)
    (hadm : ∃ v ∈ t.rows, v.Administers ∧ v.enabled = true)
    (h : (u.Administers → u.enabled = true → (u.apply c).Administers ∧ (u.apply c).enabled = true) ∨
      ∃ v ∈ t.rows, v.id ≠ u.id ∧ v.Administers ∧ v.enabled = true) :
    ∃ v ∈ (t.update u.id c).rows, v.Administers ∧ v.enabled = true := by
  rcases h with hkeep | ⟨v, hv, hne, ha, he⟩
  · obtain ⟨w, hw, ha, he⟩ := hadm
    by_cases hid : w.id = u.id
    · obtain rfl := eq_of_id hw hu hid
      exact ⟨_, mem_update_self hw, hkeep ha he⟩
    · exact ⟨w, mem_update_of_ne hw hid, ha, he⟩
  · exact ⟨v, mem_update_of_ne hv hne, ha, he⟩

/-- One operation leaves an enabled administrator. -/
theorem effect_keeps_admin {op : UserOp} (heff : Effect t op t') (hrole : t.KeepsRole op)
    (hsafe : t.KeepsEnabledAdmin op) (hadm : ∃ u ∈ t.rows, u.Administers ∧ u.enabled = true) :
    ∃ u ∈ t'.rows, u.Administers ∧ u.enabled = true := by
  cases heff with
  | nothing => exact hadm
  | create h | createService h | provision h =>
    obtain ⟨u, hu, ha⟩ := hadm
    exact ⟨u, (mem_insert h).2 (.inl hu), ha⟩
  | delete hu hlast =>
    obtain ⟨v, hv, hne, ha⟩ := exists_other_of_guard hadm hu hlast hsafe
    exact ⟨v, mem_remove.2 ⟨hv, hne⟩, ha⟩
  | @setRole u role hu hlast =>
    refine update_keeps_admin hu hadm ?_
    by_cases hnew : role = "admin"
    · exact .inl fun ha he => ⟨⟨hnew, ha.2⟩, he⟩
    · exact .inr (exists_other_of_guard hadm hu (fun h => hlast h hnew) (hsafe hnew))
  | setScope hu _ | setPassword hu =>
    exact update_keeps_admin hu hadm (.inl fun ha he => ⟨ha, he⟩)
  | @setEnabled u enabled hu hlast =>
    refine update_keeps_admin hu hadm ?_
    cases enabled with
    | true => exact .inl fun ha _ => ⟨ha, rfl⟩
    | false =>
      by_cases hon : u.Administers ∧ u.enabled = true
      · exact .inr (exists_other_enabled_admin (hlast rfl hon.2 hon.1.1) u.id)
      · exact .inl fun ha he => absurd ⟨ha, he⟩ hon
  | @refresh kind provider subject username role newId now u hid henabled =>
    obtain ⟨hu, hident⟩ := withIdentity_spec hid
    have hsame : role.key = u.role := (hrole u hu hident).symm
    have hupdated := update_keeps_admin (c := .refresh role.key now) hu hadm
      (.inl fun ha he => ⟨⟨hsame.trans ha.1, ha.2⟩, he⟩)
    obtain ⟨v, hv, ha⟩ := hupdated
    obtain ⟨n, hn⟩ : ∃ n, { v with username := n } ∈
        ((t.update u.id (.refresh role.key now)).rename u.id username).rows :=
      exists_mem_rename hv
    exact ⟨_, hn, ha⟩

/-- Somebody can administer the system after every sequence of operations that does not delete or
demote the only enabled administrator while a disabled one exists. -/
theorem administrator_remains {t : Users} {ops : List UserOp} (hadm : t.CanAdminister)
    (hroles : Meets KeepsRole Users.step t ops)
    (hsafe : Meets KeepsEnabledAdmin Users.step t ops) :
    (ops.foldl Users.step t).CanAdminister := by
  have hmeets := hroles.and hsafe
  refine hmeets.invariant (I := CanAdminister) (fun t op hok h => ?_) hadm
  exact canAdminister_iff.2
    (effect_keeps_admin (step_effect t op) hok.1 hok.2 (canAdminister_iff.1 h))

/-- Two administrators, of which the second is disabled. -/
def twoAdmins : Users where
  rows := [⟨1, "root", "h1", "admin", .localUser, none, true, .all, none⟩,
    ⟨2, "old", "h2", "admin", .localUser, none, false, .all, none⟩]
  ids := by decide
  names := by decide

/-- Enabling the second administrator first, the first one can go. -/
theorem administrator_remains_after_handover :
    (([.setEnabled 2 true, .delete 1, .setEnabled 2 false, .setRole 2 "viewer"] :
      List UserOp).foldl Users.step twoAdmins).CanAdminister :=
  administrator_remains (by decide +kernel) (by decide +kernel) (by decide +kernel)

/-- A disabled administrator is enough for the guard to let the only enabled one go. -/
theorem disabled_admin_counts :
    twoAdmins.CanAdminister ∧ ¬ (twoAdmins.step (.delete 1)).CanAdminister ∧
      ¬ (twoAdmins.step (.setRole 1 "viewer")).CanAdminister := by
  decide +kernel

/-! ### Administrators have no scope -/

/-- No administrator is restricted to folders. -/
def AdminsUnscoped (t : Users) : Prop := ∀ u ∈ t.rows, u.role = "admin" → u.scope = .all

theorem AdminsUnscoped.update {c : User.Change} (h : t.AdminsUnscoped)
    (hc : ∀ u ∈ t.rows, u.id = id → (u.apply c).role = "admin" → (u.apply c).scope = .all) :
    (t.update id c).AdminsUnscoped := by
  intro v hv
  obtain ⟨w, hw, rfl⟩ := mem_update.1 hv
  split
  next hid => exact hc w hw hid
  next => exact h w hw

theorem AdminsUnscoped.effect {op : UserOp} (h : t.AdminsUnscoped) (heff : Effect t op t') :
    t'.AdminsUnscoped := by
  cases heff with
  | nothing => exact h
  | create hi | createService hi | provision hi =>
    intro v hv
    rcases (mem_insert hi).1 hv with hv | rfl
    · exact h v hv
    · exact fun _ => rfl
  | delete => exact fun v hv => h v (mem_remove.1 hv).1
  | setRole => exact h.update fun _ _ _ hrole => if_pos hrole
  | setScope hu hadmin => exact h.update fun v hv hid => eq_of_id hv hu hid ▸ hadmin
  | setEnabled | setPassword => exact h.update fun v hv _ => h v hv
  | refresh =>
    intro v hv
    obtain ⟨w, hw, n, rfl⟩ := of_mem_rename hv
    exact h.update (c := .refresh _ _) (fun _ _ _ hrole => if_pos hrole) w hw

/-- No sequence of operations on a new table makes an administrator with a scope. -/
theorem admins_stay_unscoped (ops : List UserOp) :
    (ops.foldl Users.step ⟨[], .nil, .nil⟩).AdminsUnscoped :=
  List.foldlRecOn ops Users.step (by simp [AdminsUnscoped])
    fun t h op _ => h.effect (step_effect t op)

end Users

/-- A scope of folders shows the nodes in one of them or beneath it, and no others. -/
theorem scope_allows_iff (edges : GroupEdges) (raw : List ScopeEntry) (group : Option GroupId) :
    Scope.allows edges (.groups raw) group = true ↔ ∃ g root, group = some g ∧ .group root ∈ raw ∧
      Relation.ReflTransGen (fun parent id => (id, some parent) ∈ edges) root g := by
  simp only [Scope.allows, Scope.groupUuids, Option.any_eq_true, List.any_eq_true,
    List.mem_filterMap,
    decide_eq_true_eq, mem_groupSubtree]
  constructor
  · rintro ⟨g, rfl, root, ⟨entry, hentry, hroot⟩, hg⟩
    cases entry <;> cases hroot
    exact ⟨g, root, rfl, hentry, hg⟩
  · rintro ⟨g, root, rfl, hroot, hg⟩
    exact ⟨g, rfl, root, ⟨_, hroot, rfl⟩, hg⟩

end Yagra.Auth
