import Yagra.Auth.Users

/-!
# `Yagra.Auth.Sessions`: session tokens and their revocation

A session is either an entry of a map in memory, under a random token, or a signed token that
carries its claims. A signed token is checked without a map: by its signature, its expiry and the
list of revocations. Only tokens that were issued have a valid signature, so a signed token is its
claims here, and its hash in the list of revocations is the token itself.

There is one clock, in milliseconds. The claims and the list of revocations count whole seconds.

`SignIns` is one core with its accounts: signing in is reading the account and issuing the token,
two steps with anything between them, and an administrator's change is the write and the revocation,
again two steps.
-/

set_option autoImplicit false

namespace Yagra.Auth

/-- Absolute lifetime of a session, in seconds. -/
def sessionAbsoluteTtl : Nat := 24 * 60 * 60

/-- How long a session in memory may go unused, in seconds. -/
def sessionIdleTtl : Nat := 8 * 60 * 60

/-- The clock in whole seconds. -/
def unixNow (now : Nat) : Nat := now / 1000

/-- What a signed token carries. -/
structure Claims where
  uid : Uuid
  principal : Principal
  username : String
  iat : Nat
  exp : Nat
deriving DecidableEq, Repr

/-! ### Revocations -/

/-- A revocation of one token, or of all tokens of a user up to a cutoff. -/
inductive AuthRevoke where
  | token (hash : Claims) (expUnix : Nat)
  | user (uid : Uuid) (cutoffIat expUnix : Nat)
deriving DecidableEq, Repr

/-- The revocations that a core knows of. -/
structure Denylist where
  /-- Revoked tokens, with their own expiry. -/
  tokens : Claims → Option Nat
  /-- The cutoff of a user, and how long the entry counts. -/
  users : Uuid → Option (Nat × Nat)

namespace Denylist

/-- Nothing revoked. -/
def empty : Denylist := ⟨fun _ => none, fun _ => none⟩

/-- Whether a token is revoked, asked after its signature and its expiry. -/
def isDenied (d : Denylist) (claims : Claims) (now : Nat) : Bool :=
  ((d.tokens claims).any fun exp => decide (exp > now)) ||
    (d.users claims.uid).any fun e => decide (e.2 > now) && decide (claims.iat ≤ e.1)

/-- The entry of a user, with the later cutoff and the later expiry. -/
def merged (old : Option (Nat × Nat)) (cutoff exp : Nat) : Nat × Nat :=
  match old with
  | some (c, e) => (max c cutoff, max e exp)
  | none => (cutoff, exp)

/-- Note a revocation. -/
def applyLocal (d : Denylist) : AuthRevoke → Denylist
  | .token hash exp => { d with tokens := Function.update d.tokens hash (some exp) }
  | .user uid cutoff exp =>
    { d with users := Function.update d.users uid (some (merged (d.users uid) cutoff exp)) }

/-- Drop the entries that no longer count. -/
def prune (d : Denylist) (now : Nat) : Denylist where
  tokens hash := (d.tokens hash).filter fun exp => decide (exp > now)
  users uid := (d.users uid).filter fun e => decide (e.2 > now)

end Denylist

/-! ### Sessions -/

/-- A bearer token: random, or signed. -/
inductive Token where
  | random (hex : String)
  | signed (claims : Claims)
deriving DecidableEq, Repr

/-- A session in memory. -/
structure Session where
  principal : Principal
  username : String
  userId : Uuid
  issuedAt : Nat
  lastSeen : Nat
deriving DecidableEq, Repr

/-- The sessions of one core. -/
structure SessionStore where
  /-- Whether a signing key is configured. -/
  signer : Bool
  sessions : String → Option Session
  denylist : Denylist

namespace SessionStore

/-- A store without sessions. -/
def new (signer : Bool) : SessionStore := ⟨signer, fun _ => none, Denylist.empty⟩

variable (s : SessionStore) (now : Nat)

/-- Put an entry into the map, or take it out. -/
def put (hex : String) (session : Option Session) : SessionStore :=
  { s with sessions := Function.update s.sessions hex session }

/-- Mint a token. `fresh` is the random one, where it is needed. -/
def issue (userId : Uuid) (principal : Principal) (username : String) (fresh : String) :
    SessionStore × Token :=
  if s.signer then
    (s, .signed ⟨userId, principal, username, unixNow now, unixNow now + sessionAbsoluteTtl⟩)
  else
    (s.put fresh (some ⟨principal, username, userId, now, now⟩), .random fresh)

/-- Resolve a signed token. -/
def lookupSigned (claims : Claims) : Option Session :=
  if claims.exp ≤ unixNow now then none
  else if s.denylist.isDenied claims (unixNow now) then none
  else some ⟨claims.principal, claims.username, claims.uid, now, now⟩

/-- Resolve a token. One in memory is dropped when it has expired, and is seen otherwise. -/
def lookup : Token → SessionStore × Option Session
  | .signed claims => (s, if s.signer then s.lookupSigned now claims else none)
  | .random hex =>
    match s.sessions hex with
    | none => (s, none)
    | some session =>
      if now - session.issuedAt > sessionAbsoluteTtl * 1000 ∨
          now - session.lastSeen > sessionIdleTtl * 1000 then
        (s.put hex none, none)
      else
        (s.put hex (some { session with lastSeen := now }), some { session with lastSeen := now })

/-- Sign out. -/
def revokeToken : Token → SessionStore
  | .random hex => s.put hex none
  | .signed claims =>
    if s.signer then { s with denylist := s.denylist.applyLocal (.token claims claims.exp) } else s

/-- Revoke every session of an account. -/
def revokeUser (userId : Uuid) : SessionStore where
  signer := s.signer
  sessions hex := (s.sessions hex).filter fun session => decide (session.userId ≠ userId)
  denylist :=
    if s.signer then
      s.denylist.applyLocal (.user userId (unixNow now) (unixNow now + sessionAbsoluteTtl))
    else s.denylist

/-- Note a revocation of another core. -/
def applyRemoteRevoke (r : AuthRevoke) : SessionStore :=
  { s with denylist := s.denylist.applyLocal r }

/-- Forget revocations that have expired. -/
def pruneDenylist : SessionStore :=
  { s with denylist := s.denylist.prune (unixNow now) }

end SessionStore

/-! ### One core -/

/-- A change of an account by an administrator, or of the own password. -/
inductive AccountChange where
  | delete (id : Uuid)
  | role (id : Uuid) (role : Role)
  | scope (id : Uuid) (scope : Scope)
  | enabled (id : Uuid) (enabled : Bool)
  | password (id : Uuid) (hash : String)
deriving DecidableEq, Repr

namespace AccountChange

/-- The account a change is about. -/
def account : AccountChange → Uuid
  | .delete id | .role id _ | .scope id _ | .enabled id _ | .password id _ => id

/-- The change as an operation of the store. -/
def op : AccountChange → UserOp
  | .delete id => .delete id
  | .role id r => .setRole id r.key
  | .scope id sc => .setScope id sc
  | .enabled id on => .setEnabled id on
  | .password id hash => .setPassword id hash

/-- What comes of a change. -/
def outcome (t : Users) : AccountChange → UserMutation
  | .delete id => (t.delete id).2
  | .role id r => (t.setRole id r.key).2
  | .scope id sc => (t.setScope id sc).2
  | .enabled id on => (t.setEnabled id on).2
  | .password id hash => (t.setPassword id hash).2

/-- Whether the sessions are revoked after the change. Enabling an account has nothing to revoke. -/
def revokes : AccountChange → Bool
  | .enabled _ on => !on
  | _ => true

end AccountChange

/-- A sign-in that has read its account. -/
structure Verified where
  userId : Uuid
  principal : Principal
  username : String
deriving DecidableEq, Repr

/-- One core, its accounts, and what is between two steps. -/
structure SignIns where
  now : Nat
  users : Users
  store : SessionStore
  /-- Sign-ins that have read the account and have no token yet. -/
  verified : List Verified
  /-- Accounts with a change that is written and whose sessions are not revoked yet. -/
  changing : List Uuid

/-- A step of one core. -/
inductive SignInOp where
  | wait (ms : Nat)
  | create (id : Uuid) (username hash role : String)
  | createService (id : Uuid) (username role : String)
  | verify (username password : String)
  | external (kind : UserKind) (provider : Uuid) (subject username : String) (role : Role)
      (newId : Uuid)
  | issue (i : Nat) (fresh : String)
  | write (change : AccountChange)
  | revoke (i : Nat)
  | lookup (token : Token)
  | logout (token : Token)
  | prune
deriving DecidableEq, Repr

namespace SignIns

/-- The start of a core. -/
def start (signer : Bool) (now : Nat) (users : Users) : SignIns :=
  ⟨now, users, SessionStore.new signer, [], []⟩

/-- One step, and the token it issues. -/
def step (checks : String → String → Bool) (s : SignIns) : SignInOp → SignIns × List Token
  | .wait ms => ({ s with now := s.now + ms }, [])
  | .create id username hash role =>
    ({ s with users := s.users.step (.create id username hash role) }, [])
  | .createService id username role =>
    ({ s with users := s.users.step (.createService id username role) }, [])
  | .verify username password =>
    match s.users.verify checks username password s.now with
    | (users, none) => ({ s with users := users }, [])
    | (users, some (id, principal)) =>
      ({ s with users := users, verified := s.verified ++ [⟨id, principal, username⟩] }, [])
  | .external kind provider subject username role newId =>
    match s.users.upsertExternalUser kind provider subject username role newId s.now with
    | (users, .ok id principal) =>
      ({ s with users := users, verified := s.verified ++ [⟨id, principal, username⟩] }, [])
    | (users, _) => ({ s with users := users }, [])
  | .issue i fresh =>
    match s.verified[i]? with
    | none => (s, [])
    | some v =>
      match s.store.issue s.now v.userId v.principal v.username fresh with
      | (store, token) => ({ s with store := store, verified := s.verified.eraseIdx i }, [token])
  | .write change =>
    ({ s with
        users := s.users.step change.op
        changing :=
          if change.outcome s.users = .done ∧ change.revokes then change.account :: s.changing
          else s.changing }, [])
  | .revoke i =>
    match s.changing[i]? with
    | none => (s, [])
    | some id =>
      ({ s with store := s.store.revokeUser s.now id, changing := s.changing.eraseIdx i }, [])
  | .lookup token => ({ s with store := (s.store.lookup s.now token).1 }, [])
  | .logout token => ({ s with store := s.store.revokeToken token }, [])
  | .prune => ({ s with store := s.store.pruneDenylist s.now }, [])

end SignIns

/-!
## How a revocation reaches a core that starts

A revocation is applied on the core it was made on, then written to a table that all cores share,
then published. A core that starts reads the active rows of the table once and subscribes after
that. From then on it hears what is published. Every core prunes the table and its own list from
time to time.

The clock counts milliseconds, and the expiry of a row is a whole second. `Start` is one starting
core, the table, and the revocations of the other cores that are on their way. Writes and publishes
succeed, and a published message waits in the inbox of a subscribed core until it is applied.

`SignedCore` is one core over its restarts. A restart keeps nothing but the table.
-/

/-! ### The table -/

namespace AuthRevoke

/-- When a revocation expires. -/
def expUnix : AuthRevoke → Nat
  | .token _ exp => exp
  | .user _ _ exp => exp

/-- Two revocations have the same key in the table. -/
def sameKey : AuthRevoke → AuthRevoke → Bool
  | .token hash _, .token hash' _ => decide (hash = hash')
  | .user uid _ _, .user uid' _ _ => decide (uid = uid')
  | _, _ => false

/-- A row after the same key is written again. -/
def greatest : AuthRevoke → AuthRevoke → AuthRevoke
  | .token hash exp, .token _ exp' => .token hash (max exp exp')
  | .user uid cutoff exp, .user _ cutoff' exp' => .user uid (max cutoff cutoff') (max exp exp')
  | row, _ => row

end AuthRevoke

variable (table : List AuthRevoke)

/-- Write a revocation to the table. -/
def persistRevocation (r : AuthRevoke) : List AuthRevoke :=
  if table.any fun row => row.sameKey r then
    table.map fun row => if row.sameKey r then row.greatest r else row
  else table ++ [r]

/-- The rows that still count. -/
def loadActiveRevocations (now : Nat) : List AuthRevoke :=
  table.filter fun row => decide (row.expUnix * 1000 > now)

/-- Delete the rows that no longer count. -/
def pruneRevocations (now : Nat) : List AuthRevoke :=
  table.filter fun row => !decide (row.expUnix * 1000 ≤ now)

/-! ### A start -/

/-- A revocation that is applied where it was made, and whether it is in the table yet. -/
structure OnItsWay where
  revoke : AuthRevoke
  persisted : Bool
deriving DecidableEq, Repr

/-- A core that starts, and what the others send. -/
structure Start where
  now : Nat
  table : List AuthRevoke
  onTheWay : List OnItsWay
  loaded : Bool
  subscribed : Bool
  /-- Messages for the starting core that it has not applied yet. -/
  inbox : List AuthRevoke
  /-- The sessions of the starting core. -/
  store : SessionStore

/-- A step while a core starts. -/
inductive StartOp where
  | wait (ms : Nat)
  /-- Another core revokes a token, or all tokens of a user. -/
  | revokeToken (claims : Claims)
  | revokeUser (uid : Uuid)
  | persist (i : Nat)
  | publish (i : Nat)
  | load
  | subscribe
  | receive
  | pruneTable
  | pruneDenylist
deriving DecidableEq, Repr

namespace Start

/-- Before anything was revoked, and before the core starts. -/
def new (now : Nat) : Start := ⟨now, [], [], false, false, [], SessionStore.new true⟩

/-- A revocation is applied on another core. -/
def make (s : Start) (r : AuthRevoke) : Start × List AuthRevoke :=
  ({ s with onTheWay := s.onTheWay ++ [⟨r, false⟩] }, [r])

/-- One step, and the revocation that it makes. -/
def step (s : Start) : StartOp → Start × List AuthRevoke
  | .wait ms => ({ s with now := s.now + ms }, [])
  | .revokeToken claims => s.make (.token claims claims.exp)
  | .revokeUser uid => s.make (.user uid (unixNow s.now) (unixNow s.now + sessionAbsoluteTtl))
  | .persist i =>
    match s.onTheWay[i]? with
    | some ⟨r, false⟩ =>
      ({ s with
          table := persistRevocation s.table r
          onTheWay := s.onTheWay.set i ⟨r, true⟩ }, [])
    | _ => (s, [])
  | .publish i =>
    match s.onTheWay[i]? with
    | some ⟨r, true⟩ =>
      ({ s with
          onTheWay := s.onTheWay.eraseIdx i
          inbox := if s.subscribed then s.inbox ++ [r] else s.inbox }, [])
    | _ => (s, [])
  | .load =>
    if s.loaded then (s, [])
    else
      ({ s with
          loaded := true
          store :=
            (loadActiveRevocations s.table s.now).foldl SessionStore.applyRemoteRevoke s.store },
        [])
  | .subscribe => if s.loaded then ({ s with subscribed := true }, []) else (s, [])
  | .receive =>
    match s.inbox with
    | [] => (s, [])
    | r :: rest => ({ s with inbox := rest, store := s.store.applyRemoteRevoke r }, [])
  | .pruneTable => ({ s with table := pruneRevocations s.table s.now }, [])
  | .pruneDenylist => ({ s with store := s.store.pruneDenylist s.now }, [])

/-- The start is over, and so is every revocation made so far. -/
def Complete (s : Start) : Prop :=
  s.loaded = true ∧ s.subscribed = true ∧ s.onTheWay = [] ∧ s.inbox = []

instance (s : Start) : Decidable s.Complete := inferInstanceAs (Decidable (_ ∧ _ ∧ _ ∧ _))

end Start

/-- A revocation revokes a signed token. -/
def AuthRevoke.Revokes (r : AuthRevoke) (claims : Claims) : Prop :=
  match r with
  | .token hash _ => hash = claims
  | .user uid cutoff _ => uid = claims.uid ∧ claims.iat ≤ cutoff

/-! ### A core and its restarts -/

/-- A core with a signing key, and the table. -/
structure SignedCore where
  now : Nat
  store : SessionStore
  table : List AuthRevoke
  /-- Revocations that the core applied and that are not in the table yet. -/
  unwritten : List AuthRevoke

/-- A step of a core that restarts. -/
inductive SignedCoreOp where
  | wait (ms : Nat)
  | issue (userId : Uuid) (principal : Principal) (username : String)
  | revokeToken (claims : Claims)
  | revokeUser (uid : Uuid)
  /-- A message of another core. -/
  | applyRemoteRevoke (r : AuthRevoke)
  | persist
  | pruneDenylist
  | pruneTable
  | restart

namespace SignedCore

/-- A core that has issued nothing. -/
def new (now : Nat) : SignedCore := ⟨now, SessionStore.new true, [], []⟩

/-- The core applied a revocation. -/
def apply (s : SignedCore) (store : SessionStore) (r : AuthRevoke) : SignedCore × List AuthRevoke :=
  ({ s with store := store, unwritten := s.unwritten ++ [r] }, [r])

/-- One step, and the revocation that is applied in it. -/
def step (s : SignedCore) : SignedCoreOp → SignedCore × List AuthRevoke
  | .wait ms => ({ s with now := s.now + ms }, [])
  | .issue userId principal username =>
    ({ s with store := (s.store.issue s.now userId principal username "").1 }, [])
  | .revokeToken claims =>
    s.apply (s.store.revokeToken (.signed claims)) (.token claims claims.exp)
  | .revokeUser uid =>
    s.apply (s.store.revokeUser s.now uid)
      (.user uid (unixNow s.now) (unixNow s.now + sessionAbsoluteTtl))
  | .applyRemoteRevoke r => s.apply (s.store.applyRemoteRevoke r) r
  | .persist =>
    match s.unwritten with
    | [] => (s, [])
    | r :: rest => ({ s with table := persistRevocation s.table r, unwritten := rest }, [])
  | .pruneDenylist => ({ s with store := s.store.pruneDenylist s.now }, [])
  | .pruneTable => ({ s with table := pruneRevocations s.table s.now }, [])
  | .restart =>
    ({ s with
        store := (loadActiveRevocations s.table s.now).foldl SessionStore.applyRemoteRevoke
          (SessionStore.new true) }, [])

/-- Whether the core accepts a signed token. -/
def Accepts (s : SignedCore) (claims : Claims) : Prop :=
  (s.store.lookup s.now (.signed claims)).2.isSome = true

end SignedCore

end Yagra.Auth
