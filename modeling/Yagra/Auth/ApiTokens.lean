import Yagra.Auth.Users
import Yagra.Lib.Emit

/-!
# `Yagra.Auth.ApiTokens`: long-lived tokens and the accounts they act as

A token has a role and a scope of its own and belongs to an account. It is stored by its hash; the
hash function is a parameter. `createApiToken` is the request that mints one, with its checks in the
source's order. `verify` answers who a presented token is: the role is the lower one of the token
and its owner, and the scope of a scoped owner takes the place of the token's.

`Accounts.step` is one operation on the two tables. What it emits is the tokens that were minted,
with what was asked for, so that a run has a record of what each token was minted with. When a token
was last used is not kept, since nothing decides on it.
-/

set_option autoImplicit false

namespace Yagra.Auth

open Yagra.Lib Yagra.Groups

/-- Where a credential may be presented. -/
inductive TokenSurface where
  | mcp | rest
deriving DecidableEq, Repr

namespace TokenSurface

/-- All surfaces. -/
def all : List TokenSurface := [mcp, rest]

/-- How a surface is stored. -/
def key : TokenSurface → String
  | mcp => "mcp"
  | rest => "rest"

/-- The surface of a stored key. -/
def parse (key : String) : Option TokenSurface := all.find? fun s => decide (s.key = key)

end TokenSurface

/-- A row of the table. -/
structure ApiToken where
  id : Uuid
  name : String
  tokenHash : String
  role : String
  scope : Scope
  surfaces : List String
  expiresAt : Option UnixMs
  owner : Option Uuid
  createdBy : String
  revokedAt : Option UnixMs
deriving DecidableEq, Repr

/-- The table of tokens. -/
structure ApiTokens where
  rows : List ApiToken
  /-- No two rows have the same id. -/
  ids : (rows.map ApiToken.id).Nodup
  /-- No two rows have the same name. -/
  names : (rows.map ApiToken.name).Nodup
  /-- No two rows have the same hash. -/
  hashes : (rows.map ApiToken.tokenHash).Nodup

/-! ### Statements -/

namespace ApiToken

variable (now : UnixMs) (tk : ApiToken)

/-- Revoke the token, unless it is. -/
def revoke : ApiToken :=
  if tk.revokedAt = none then { tk with revokedAt := some now } else tk

/-- The owner's row is deleted. -/
def orphan : ApiToken := { tk with owner := none }

@[simp] theorem revoke_id : (tk.revoke now).id = tk.id := by
  unfold revoke
  split <;> rfl

@[simp] theorem revoke_name : (tk.revoke now).name = tk.name := by
  unfold revoke
  split <;> rfl

@[simp] theorem revoke_tokenHash : (tk.revoke now).tokenHash = tk.tokenHash := by
  unfold revoke
  split <;> rfl

end ApiToken

namespace ApiTokens

/-- A table without rows. -/
def empty : ApiTokens := ⟨[], List.nodup_nil, List.nodup_nil, List.nodup_nil⟩

/-- Insert a row, unless its id, its name or its hash is taken. -/
def insert (t : ApiTokens) (tk : ApiToken) : Option ApiTokens :=
  if h : tk.id ∉ t.rows.map ApiToken.id ∧ tk.name ∉ t.rows.map ApiToken.name ∧
      tk.tokenHash ∉ t.rows.map ApiToken.tokenHash then
    some ⟨t.rows ++ [tk], nodup_map_concat t.ids h.1, nodup_map_concat t.names h.2.1,
      nodup_map_concat t.hashes h.2.2⟩
  else none

/-- What an update of some rows keeps. -/
structure KeepsKeys (g : ApiToken → ApiToken) : Prop where
  id : ∀ tk, (g tk).id = tk.id
  name : ∀ tk, (g tk).name = tk.name
  tokenHash : ∀ tk, (g tk).tokenHash = tk.tokenHash

theorem keepsKeys_revoke (now : UnixMs) : KeepsKeys (ApiToken.revoke now) :=
  ⟨ApiToken.revoke_id now, ApiToken.revoke_name now, ApiToken.revoke_tokenHash now⟩

theorem keepsKeys_orphan : KeepsKeys ApiToken.orphan := ⟨fun _ => rfl, fun _ => rfl, fun _ => rfl⟩

section
variable (t : ApiTokens) (p : ApiToken → Prop) [DecidablePred p] {g : ApiToken → ApiToken}

theorem update_ids (hg : KeepsKeys g) :
    ((t.rows.map fun tk => if p tk then g tk else tk).map ApiToken.id).Nodup :=
  nodup_map_changeWhere t.ids hg.id

theorem update_names (hg : KeepsKeys g) :
    ((t.rows.map fun tk => if p tk then g tk else tk).map ApiToken.name).Nodup :=
  nodup_map_changeWhere t.names hg.name

theorem update_hashes (hg : KeepsKeys g) :
    ((t.rows.map fun tk => if p tk then g tk else tk).map ApiToken.tokenHash).Nodup :=
  nodup_map_changeWhere t.hashes hg.tokenHash

/-- Change the rows that pass a test. -/
def update (hg : KeepsKeys g) : ApiTokens :=
  ⟨t.rows.map fun tk => if p tk then g tk else tk, t.update_ids p hg, t.update_names p hg,
    t.update_hashes p hg⟩

end

/-- Revoke one token. -/
def revoke (t : ApiTokens) (id : Uuid) (now : UnixMs) : ApiTokens :=
  t.update (fun tk => tk.id = id) (keepsKeys_revoke now)

/-- Revoke the tokens of an owner. -/
def revokeOwnedBy (t : ApiTokens) (user : Uuid) (now : UnixMs) : ApiTokens :=
  t.update (fun tk => tk.owner = some user) (keepsKeys_revoke now)

/-- An account is deleted: its tokens stay, without an owner. -/
def orphan (t : ApiTokens) (user : Uuid) : ApiTokens :=
  t.update (fun tk => tk.owner = some user) keepsKeys_orphan

end ApiTokens

/-- The accounts and the tokens. -/
structure Accounts where
  users : Users
  tokens : ApiTokens

/-! ### Minting -/

/-- How every token begins. -/
def tokenPrefix : String := "yat_"

/-- Whether a text can be a token. -/
def isApiTokenShape (token : String) : Bool := token.startsWith tokenPrefix

/-- How long a name may be. -/
def maxTokenNameChars : Nat := 128

/-- Why a token is not minted. -/
inductive TokenError where
  | invalidName | noSurface | expiryInThePast
  | scope (e : Scope.ScopeError)
  | ownerIsScoped | duplicateName | unknownOwner
deriving DecidableEq, Repr

/-- What is asked for. -/
structure CreateApiTokenBody where
  name : String
  role : Role
  scope : Option Scope
  surfaces : Option (List TokenSurface)
  expiresAt : Option UnixMs
  ownerUserId : Option Uuid
deriving DecidableEq, Repr

/-- What was resolved out of a request. -/
structure NewToken where
  name : String
  scope : Scope
  surfaces : List TokenSurface
  expiresAt : Option UnixMs
deriving DecidableEq, Repr

/-- A name without the white space around it, of 1 to `max` characters. -/
def boundedName (raw : String) (max : Nat) : Option String :=
  let name := trim raw
  if name.isEmpty ∨ name.length > max then none else some name

/-- The checks that need no store. -/
def validateCreate (body : CreateApiTokenBody) (now : UnixMs) : Except TokenError NewToken :=
  match boundedName body.name maxTokenNameChars with
  | none => .error .invalidName
  | some name =>
    let surfaces := body.surfaces.getD [.mcp]
    if surfaces.isEmpty then .error .noSurface
    else if body.expiresAt.any fun t => decide (t ≤ now) then .error .expiryInThePast
    else .ok ⟨name, body.scope.getD .all, surfaces, body.expiresAt⟩

/-- A group scope must name folders there are, and its owner must be unscoped. -/
def checkedTokenScope (users : Users) (edges : GroupEdges) (scope : Scope) (owner : Uuid) :
    Except TokenError Unit :=
  if scope = .all then .ok ()
  else
    match scope.checkedScope (edges.map Prod.fst) with
    | .error e => .error (.scope e)
    | .ok () =>
      -- An owner that does not exist is left to the foreign key.
      if (users.scopeOf owner).any fun s => decide (s ≠ .all) then .error .ownerIsScoped
      else .ok ()

/-- A token that was minted: the bearer, and what it was asked to be. -/
structure Minted where
  raw : String
  role : Role
  scope : Scope
  owner : Uuid
deriving DecidableEq, Repr

namespace Accounts

/-- Store a token. The unique columns are checked as the row goes in, the owner after it. -/
def insertToken (hash : String → String) (a : Accounts) (new : NewToken) (role : Role)
    (owner : Uuid)
    (createdBy : String) (id : Uuid) (raw : String) : Except TokenError Accounts :=
  match a.tokens.insert ⟨id, new.name, hash raw, role.key, new.scope,
      new.surfaces.map TokenSurface.key, new.expiresAt, some owner, createdBy, none⟩ with
  | none => .error .duplicateName
  | some tokens =>
    if (a.users.find owner).isNone then .error .unknownOwner else .ok ⟨a.users, tokens⟩

/-- Mint a token: `id` and `secret` are what was drawn for it. -/
def createApiToken (hash : String → String) (a : Accounts) (edges : GroupEdges)
    (body : CreateApiTokenBody) (caller : Uuid) (callerName : String) (now : UnixMs) (id : Uuid)
    (secret : String) : Except TokenError (Accounts × Minted) :=
  match validateCreate body now with
  | .error e => .error e
  | .ok new =>
    let owner := body.ownerUserId.getD caller
    match checkedTokenScope a.users edges new.scope owner with
    | .error e => .error e
    | .ok () =>
      let raw := tokenPrefix ++ secret
      match a.insertToken hash new body.role owner callerName id raw with
      | .error e => .error e
      | .ok a' => .ok (a', ⟨raw, body.role, new.scope, owner⟩)

/-! ### Verification -/

/-- A verified token: who it acts as and what it may do. -/
structure TokenAuth where
  tokenName : String
  ownerUsername : String
  principal : Principal
deriving DecidableEq, Repr

/-- The live token of a hash and its enabled owner. -/
def liveToken (a : Accounts) (tokenHash : String) (now : UnixMs) : Option (ApiToken × User) :=
  (a.tokens.rows.find? fun tk => decide (tk.tokenHash = tokenHash)).bind fun tk =>
    (tk.owner.bind a.users.find).bind fun u =>
      if tk.revokedAt = none ∧ (tk.expiresAt.all fun t => decide (now < t)) ∧ u.enabled then
        some (tk, u)
      else none

/-- The owner has not signed in for too long. -/
def ownerIsIdle (idle : Int) (u : User) (now : UnixMs) : Bool :=
  u.kind.isExternal && (match u.lastLogin with
    | none => true
    | some t => decide (now - t > idle))

/-- A scoped owner's scope takes the place of the token's. -/
def cappedScope (token owner : Scope) : Scope :=
  match owner with
  | .all => token
  | narrowed => narrowed

/-- Resolve a token that is presented at a surface. -/
def verify (hash : String → String) (idle : Int) (a : Accounts) (raw : String) (want : TokenSurface)
    (now : UnixMs) : Option TokenAuth :=
  if !isApiTokenShape raw then none
  else
    match a.liveToken (hash raw) now with
    | none => none
    | some (tk, u) =>
      if want ∉ tk.surfaces.filterMap TokenSurface.parse then none
      else if ownerIsIdle idle u now then none
      else
        match Role.parse tk.role, Role.parse u.role with
        | some role, some ownerRole =>
          some ⟨tk.name, u.username, ⟨min role ownerRole, cappedScope tk.scope u.scope⟩⟩
        | _, _ => none

end Accounts

/-! ### Operations -/

/-- An operation on accounts and tokens. -/
inductive AccountOp where
  | users (op : UserOp)
  | login (username password : String) (now : UnixMs)
  | mint (edges : GroupEdges) (body : CreateApiTokenBody) (caller : Uuid) (callerName : String)
      (now : UnixMs) (id : Uuid) (secret : String)
  | revokeToken (id : Uuid) (now : UnixMs)
  | revokeOwnedBy (user : Uuid) (now : UnixMs)
deriving DecidableEq, Repr

namespace Accounts

/-- Deleting an account takes its tokens' owner away. -/
def afterUserOp (a : Accounts) (op : UserOp) : Accounts :=
  match op with
  | .delete id =>
    match a.users.delete id with
    | (users, .done) => ⟨users, a.tokens.orphan id⟩
    | (users, _) => ⟨users, a.tokens⟩
  | op => ⟨a.users.step op, a.tokens⟩

/-- One operation, and the token it mints. `checks` is how a password is checked against a hash. -/
def step (hash : String → String) (checks : String → String → Bool) (a : Accounts) :
    AccountOp → Accounts × List Minted
  | .users op => (a.afterUserOp op, [])
  | .login username password now =>
    (⟨(a.users.verify checks username password now).1, a.tokens⟩, [])
  | .mint edges body caller callerName now id secret =>
    match a.createApiToken hash edges body caller callerName now id secret with
    | .error _ => (a, [])
    | .ok (a', m) => (a', [m])
  | .revokeToken id now => (⟨a.users, a.tokens.revoke id now⟩, [])
  | .revokeOwnedBy user now => (⟨a.users, a.tokens.revokeOwnedBy user now⟩, [])

end Accounts

end Yagra.Auth
