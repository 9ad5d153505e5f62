import Yagra.Base.Groups
import Yagra.Lib.SameMembers

/-!
# `Yagra.Auth.Users`: the accounts

The table of accounts has one row for an id and one for a username, which is part of what a `Users`
is. The operations of the store are those of one transaction each. A guard that keeps the last
administrator refuses, and then nothing changes.

A role is the stored text. The scope is the stored one, where a value that cannot be read is the
scope of no folder. Passwords are their hashes, and how a password is checked against one is a
parameter.
-/

set_option autoImplicit false

namespace Yagra.Auth

open Yagra.Groups List

/-!
## Roles, and what an account may see

A principal is a role and a scope. The role says what it may do, the scope which nodes it may see:
all of them, or those in some folders and the folders beneath.

A scope names folders by text. `ScopeEntry` keeps what the source asks of such a text: whether it is
the id of a folder.
-/

/-- The roles, from the least to the most privileged. -/
inductive Role where
  | viewer | operator | admin
deriving DecidableEq, Repr

/-- A capability that is checked at the edge of the API. -/
inductive Permission where
  | view | ackAlerts | manageMaintenance | manageConfig | manageCredentials | revealCredentials
  | saveDeviceConfig | manageSystem | manageUsers | viewAudit
deriving DecidableEq, Repr

namespace Role

/-- The place of a role in its order. -/
def rank : Role → Nat
  | viewer => 0
  | operator => 1
  | admin => 2

theorem rank_injective : Function.Injective rank := by
  intro r r' h
  cases r <;> cases r' <;> first | rfl | exact absurd h (by decide)

instance : LinearOrder Role := LinearOrder.lift' rank rank_injective

/-- All roles. -/
def all : List Role := [viewer, operator, admin]

/-- How a role is stored. -/
def key : Role → String
  | viewer => "viewer"
  | operator => "operator"
  | admin => "admin"

/-- The role of a stored key. -/
def parse (key : String) : Option Role := all.find? fun r => decide (r.key = key)

/-- Whether the role grants a permission. -/
def grants (r : Role) : Permission → Bool
  | .view => true
  | .ackAlerts | .manageMaintenance | .manageConfig | .manageCredentials => decide (.operator ≤ r)
  | .manageSystem | .manageUsers | .viewAudit | .revealCredentials | .saveDeviceConfig =>
    decide (r = .admin)

/-- A higher role grants what a lower one grants. -/
theorem grants_mono {r r' : Role} (h : r ≤ r') {p : Permission} (hp : r.grants p = true) :
    r'.grants p = true := by
  revert h hp
  cases r <;> cases r' <;> cases p <;> decide

end Role

/-- How an account signs in. -/
inductive UserKind where
  | localUser | oidc | ldap | service
deriving DecidableEq, Repr

namespace UserKind

/-- Whether an outside directory knows if it still exists. -/
def isExternal : UserKind → Bool
  | oidc | ldap => true
  | localUser | service => false

end UserKind

/-- What a scope names: a folder, or a text that is no id. -/
inductive ScopeEntry where
  | group (id : GroupId)
  | other (text : String)
deriving DecidableEq, Repr

/-- The nodes a principal may see. -/
inductive Scope where
  | all
  | groups (raw : List ScopeEntry)
deriving DecidableEq, Repr

/-- Who acts. -/
structure Principal where
  role : Role
  scope : Scope
deriving DecidableEq, Repr

namespace Scope

/-- The folders a scope names, unless it is unrestricted. -/
def groupUuids : Scope → Option (List GroupId)
  | all => none
  | groups raw => some (raw.filterMap fun
      | .group id => some id
      | .other _ => none)

/-- Whether a node in a folder may be seen. A node in no folder is seen only without a
restriction. -/
def allows (edges : GroupEdges) (scope : Scope) (group : Option GroupId) : Bool :=
  match scope.groupUuids with
  | none => true
  | some roots => group.any fun g => roots.any fun root => decide (g ∈ groupSubtree edges root)

/-- Why a scope is refused. -/
inductive ScopeError where
  | emptyScope
  | invalidScope (text : String)
  | unknownGroup (id : GroupId)
deriving DecidableEq, Repr

/-- A scope must name at least one folder, and only folders there are. -/
def checkedScope (scope : Scope) (known : List GroupId) : Except ScopeError Unit :=
  match scope with
  | all => .ok ()
  | groups [] => .error .emptyScope
  | groups raw => raw.forM fun
      | .other text => .error (.invalidScope text)
      | .group id => if id ∈ known then .ok () else .error (.unknownGroup id)

end Scope

open Yagra.Lib

/-! ## Accounts -/

/-- A row of the table. -/
structure User where
  id : Uuid
  username : String
  passwordHash : String
  role : String
  kind : UserKind
  /-- The provider and the subject of an account that was provisioned by signing in. -/
  identity : Option (Uuid × String)
  enabled : Bool
  scope : Scope
  lastLogin : Option UnixMs
deriving DecidableEq, Repr

/-- A stored role that is none reads as the least privileged one. -/
def parseRole (s : String) : Role := (Role.parse s).getD .viewer

namespace User

variable (u : User)

/-- Who an account acts as. -/
def principal : Principal := ⟨parseRole u.role, u.scope⟩

/-- What one statement sets in a row. -/
inductive Change where
  | role (role : String)
  | refresh (role : String) (now : UnixMs)
  | scope (scope : Scope)
  | enabled (enabled : Bool)
  | password (hash : String)
  | touch (now : UnixMs)
deriving DecidableEq, Repr

/-- An administrator is unscoped: setting the role clears the scope. -/
def withRole (role : String) : User :=
  { u with role := role, scope := if role = "admin" then .all else u.scope }

/-- The row after a statement. -/
def apply : Change → User
  | .role role => u.withRole role
  | .refresh role now => { u.withRole role with lastLogin := some now }
  | .scope scope => { u with scope := scope }
  | .enabled enabled => { u with enabled := enabled }
  | .password hash => { u with passwordHash := hash }
  | .touch now => { u with lastLogin := some now }

@[simp] theorem apply_id (c : Change) : (u.apply c).id = u.id := by cases c <;> rfl

@[simp] theorem apply_username (c : Change) : (u.apply c).username = u.username := by
  cases c <;> rfl

end User

/-- The table of accounts. -/
structure Users where
  rows : List User
  /-- No two rows have the same id. -/
  ids : (rows.map User.id).Nodup
  /-- No two rows have the same username. -/
  names : (rows.map User.username).Nodup

namespace Users

variable (t : Users)

/-- The row of an id. -/
def find (id : Uuid) : Option User := t.rows.find? fun u => decide (u.id = id)

/-- The row of a username. -/
def named (username : String) : Option User :=
  t.rows.find? fun u => decide (u.username = username)

/-- The row of an outside identity. -/
def withIdentity (provider : Uuid) (subject : String) : Option User :=
  t.rows.find? fun u => decide (u.identity = some (provider, subject))

/-! ### Statements -/

/-- Insert a row, unless its id or its username is taken. -/
def insert (u : User) : Option Users :=
  if h : u.id ∉ t.rows.map User.id ∧ u.username ∉ t.rows.map User.username then
    some ⟨t.rows ++ [u], nodup_map_concat t.ids h.1, nodup_map_concat t.names h.2⟩
  else none

variable (t : Users) (id : Uuid)

theorem update_ids (c : User.Change) :
    ((t.rows.map fun u => if u.id = id then u.apply c else u).map User.id).Nodup :=
  nodup_map_changeWhere t.ids fun u => u.apply_id c

theorem update_names (c : User.Change) :
    ((t.rows.map fun u => if u.id = id then u.apply c else u).map User.username).Nodup :=
  nodup_map_changeWhere t.names fun u => u.apply_username c

/-- Set something in the row of an id. -/
def update (t : Users) (id : Uuid) (c : User.Change) : Users :=
  ⟨t.rows.map fun u => if u.id = id then u.apply c else u, t.update_ids id c, t.update_names id c⟩

/-- Delete the row of an id. -/
def remove (t : Users) (id : Uuid) : Users :=
  ⟨t.rows.filter fun u => decide (u.id ≠ id), nodup_map_filter t.ids, nodup_map_filter t.names⟩

theorem rename_ids (username : String) :
    ((t.rows.map fun u => if u.id = id then { u with username := username } else u).map
      User.id).Nodup :=
  nodup_map_changeWhere t.ids fun _ => rfl

theorem rename_names {username : String} (h : ∀ u ∈ t.rows, u.id ≠ id → u.username ≠ username) :
    ((t.rows.map fun u => if u.id = id then { u with username := username } else u).map
      User.username).Nodup := by
  have hids := t.ids
  have hnames := t.names
  generalize t.rows = rows at h hids hnames ⊢
  induction rows with
  | nil => exact nodup_nil
  | cons u rest ih =>
    rw [map_cons, nodup_cons] at hids hnames
    have hrest := ih (fun v hv => h v (mem_cons_of_mem _ hv)) hids.2 hnames.2
    rw [map_cons, map_cons, nodup_cons]
    refine ⟨fun hmem => ?_, hrest⟩
    obtain ⟨v', hv', heq⟩ := mem_map.1 hmem
    obtain ⟨v, hv, rfl⟩ := mem_map.1 hv'
    have hne : v.id ≠ u.id := fun hvu => hids.1 (hvu ▸ mem_map_of_mem hv)
    have hname : v.username ≠ u.username := fun hvu => hnames.1 (hvu ▸ mem_map_of_mem hv)
    by_cases hu : u.id = id
    · have hv' : v.id ≠ id := fun hvid => hne (hvid.trans hu.symm)
      rw [if_pos hu, if_neg hv'] at heq
      exact h v (mem_cons_of_mem _ hv) hv' heq
    · rw [if_neg hu] at heq
      by_cases hvid : v.id = id
      · rw [if_pos hvid] at heq
        exact h u (by simp) hu heq.symm
      · rw [if_neg hvid] at heq
        exact hname heq

/-- Give the row of an id another username, unless some other row has it. -/
def rename (t : Users) (id : Uuid) (username : String) : Users :=
  if h : ∀ u ∈ t.rows, u.id ≠ id → u.username ≠ username then
    ⟨t.rows.map fun u => if u.id = id then { u with username := username } else u,
      t.rename_ids id username, t.rename_names id h⟩
  else t

/-! ### The last administrator -/

/-- How many administrators a person can sign in with. -/
def adminCount (t : Users) : Nat :=
  t.rows.countP fun u => decide (u.role = "admin") && decide (u.kind ≠ .service)

/-- How many of them are enabled. -/
def enabledAdminCount (t : Users) : Nat :=
  t.rows.countP fun u => decide (u.role = "admin") && u.enabled && decide (u.kind ≠ .service)

end Users

/-! ### Operations of the store -/

/-- What comes of a change. -/
inductive UserMutation where
  | done | notFound | lastAdmin | adminIsUnscoped | notLocal
deriving DecidableEq, Repr

/-- What comes of a new account. -/
inductive UserCreateOutcome where
  | created (id : Uuid)
  | usernameTaken
deriving DecidableEq, Repr

/-- What comes of an identity that a provider vouched for. -/
inductive ExternalUpsert where
  | ok (id : Uuid) (principal : Principal)
  | disabled
  | usernameTaken (username : String)
  /-- The kind of account is not provisioned by signing in. -/
  | notExternal
deriving DecidableEq, Repr

/-- Which way a username signs in. -/
inductive LoginRoute where
  | localPassword
  | external (kind : UserKind)
  | unknown
  | refused
deriving DecidableEq, Repr

/-- Instead of a hash, for OIDC. -/
def oidcPasswordSentinel : String := "!oidc-no-local-login"

/-- Instead of a hash, for a service. -/
def servicePasswordSentinel : String := "!service-account-no-login"

/-- Instead of a hash, for LDAP. -/
def ldapPasswordSentinel : String := "!ldap-no-local-login"

/-- What is stored instead of a hash for an account that has no password. A local account has
one. -/
def passwordSentinel : UserKind → Option String
  | .oidc => some oidcPasswordSentinel
  | .ldap => some ldapPasswordSentinel
  | .service => some servicePasswordSentinel
  | .localUser => none

namespace Users

variable (t : Users) (id : Uuid)

/-- How a username signs in. -/
def loginRoute (username : String) : LoginRoute :=
  match t.named username with
  | none => .unknown
  | some u =>
    if !u.enabled then .refused
    else
      match u.kind with
      | .localUser => .localPassword
      | .oidc => .external .oidc
      | .ldap => .external .ldap
      | .service => .refused

/-- Check a username and a password. -/
def verify (checks : String → String → Bool) (t : Users) (username password : String)
    (now : UnixMs) : Users × Option (Uuid × Principal) :=
  match t.named username with
  | none => (t, none)
  | some u =>
    if !u.enabled then (t, none)
    else if u.kind ≠ .localUser then (t, none)
    else if checks password u.passwordHash then
      (t.update u.id (.touch now), some (u.id, u.principal))
    else (t, none)

/-- Insert an account with the defaults of the table. -/
def insertUser (username hash role : String) (kind : UserKind) : Users × UserCreateOutcome :=
  match t.insert ⟨id, username, hash, role, kind, none, true, .all, none⟩ with
  | some t' => (t', .created id)
  | none => (t, .usernameTaken)

/-- A new local account. -/
def create (username hash role : String) : Users × UserCreateOutcome :=
  t.insertUser id username hash role .localUser

/-- A new service account. -/
def createService (username role : String) : Users × UserCreateOutcome :=
  t.insertUser id username servicePasswordSentinel role .service

/-- Look up or provision the account of an identity. The role comes from the directory, the scope
from the table. -/
def upsertExternalUser (kind : UserKind) (provider : Uuid) (subject username : String) (role : Role)
    (newId : Uuid) (now : UnixMs) : Users × ExternalUpsert :=
  match passwordSentinel kind with
  | none => (t, .notExternal)
  | some sentinel =>
    if !kind.isExternal then (t, .notExternal)
    else
      match t.withIdentity provider subject with
      | some u =>
        if !u.enabled then (t, .disabled)
        else
          ((t.update u.id (.refresh role.key now)).rename u.id username,
            .ok u.id ⟨role, (u.withRole role.key).scope⟩)
      | none =>
        match t.insert ⟨newId, username, sentinel, role.key, kind, some (provider, subject), true,
            .all, some now⟩ with
        | some t' => (t', .ok newId ⟨role, .all⟩)
        | none => (t, .usernameTaken username)

/-- Delete an account. -/
def delete : Users × UserMutation :=
  match t.find id with
  | none => (t, .notFound)
  | some u =>
    if u.role = "admin" ∧ t.adminCount ≤ 1 then (t, .lastAdmin)
    else (t.remove id, .done)

/-- Set the role. -/
def setRole (newRole : String) : Users × UserMutation :=
  match t.find id with
  | none => (t, .notFound)
  | some u =>
    if u.role = "admin" ∧ newRole ≠ "admin" ∧ t.adminCount ≤ 1 then (t, .lastAdmin)
    else (t.update id (.role newRole), .done)

/-- The scope of an account. -/
def scopeOf : Option Scope := (t.find id).map User.scope

/-- Set the scope. -/
def setScope (scope : Scope) : Users × UserMutation :=
  match t.find id with
  | none => (t, .notFound)
  | some u =>
    if u.role = "admin" ∧ scope ≠ .all then (t, .adminIsUnscoped)
    else (t.update id (.scope scope), .done)

/-- Enable or disable an account. -/
def setEnabled (enabled : Bool) : Users × UserMutation :=
  match t.find id with
  | none => (t, .notFound)
  | some u =>
    if enabled = false ∧ u.enabled ∧ u.role = "admin" ∧ t.enabledAdminCount ≤ 1 then
      (t, .lastAdmin)
    else (t.update id (.enabled enabled), .done)

/-- Set the password. -/
def setPassword (hash : String) : Users × UserMutation :=
  match t.find id with
  | none => (t, .notFound)
  | some u => if u.kind ≠ .localUser then (t, .notLocal) else (t.update id (.password hash), .done)

end Users

/-- An operation of the store. -/
inductive UserOp where
  | create (id : Uuid) (username hash role : String)
  | createService (id : Uuid) (username role : String)
  | delete (id : Uuid)
  | setRole (id : Uuid) (role : String)
  | setScope (id : Uuid) (scope : Scope)
  | setEnabled (id : Uuid) (enabled : Bool)
  | setPassword (id : Uuid) (hash : String)
  | external (kind : UserKind) (provider : Uuid) (subject username : String) (role : Role)
      (newId : Uuid) (now : UnixMs)
deriving DecidableEq, Repr

/-- The table after an operation. -/
def Users.step (t : Users) : UserOp → Users
  | .create id username hash role => (t.create id username hash role).1
  | .createService id username role => (t.createService id username role).1
  | .delete id => (t.delete id).1
  | .setRole id role => (t.setRole id role).1
  | .setScope id scope => (t.setScope id scope).1
  | .setEnabled id enabled => (t.setEnabled id enabled).1
  | .setPassword id hash => (t.setPassword id hash).1
  | .external kind provider subject username role newId now =>
    (t.upsertExternalUser kind provider subject username role newId now).1

end Yagra.Auth
