import Yagra.Auth.ApiTokens
import Yagra.Proofs.Users

/-!
# `Yagra.Proofs.ApiTokens`: what a token can see

A token is minted with a role and a scope, and the rows of the table keep both (`Records`). Its role
is capped at its owner's each time it is verified. Its scope is replaced by the owner's when the
owner has one, which is right as long as the two are never both group scopes (`Apart`). Minting sees
to that, and most operations keep it. Giving a group scope to the owner of a live token that has one
does not.

`token_within_minted_and_owner` is the statement over whole runs without that operation;
`scoped_owner_widens_token` is a run with it.
-/

set_option autoImplicit false

namespace Yagra.Auth

open Yagra.Lib Yagra.Groups List

/-! ### Accounts -/

namespace Users

/-- Setting the role keeps the scope or clears it. -/
theorem withRole_scope (u : User) (role : String) :
    (u.withRole role).scope = .all ∨ (u.withRole role).scope = u.scope := by
  by_cases hadmin : role = "admin"
  · exact .inl (if_pos hadmin)
  · exact .inr (if_neg hadmin)

variable {t t' : Users} {v : User}

/-- A group scope after an update that keeps or clears scopes was there before. -/
theorem scope_of_mem_update {id : Uuid} {c : User.Change}
    (hv : v ∈ (t.update id c).rows) (hscope : v.scope ≠ .all)
    (hc : ∀ u : User, (u.apply c).scope = .all ∨ (u.apply c).scope = u.scope) :
    ∃ u ∈ t.rows, u.id = v.id ∧ u.scope ≠ .all := by
  obtain ⟨u, hu, heq⟩ := mem_update.1 hv
  by_cases hid : u.id = id
  · rw [if_pos hid] at heq
    subst heq
    refine ⟨u, hu, (u.apply_id c).symm, ?_⟩
    rcases hc u with hall | hsame
    · exact absurd hall hscope
    · rwa [← hsame]
  · rw [if_neg hid] at heq
    exact ⟨u, hu, congrArg User.id heq, heq ▸ hscope⟩

/-- A new account is unscoped. -/
theorem scope_of_mem_insert {u : User} (h : t.insert u = some t') (hu : u.scope = .all)
    (hv : v ∈ t'.rows) (hscope : v.scope ≠ .all) : ∃ w ∈ t.rows, w.id = v.id ∧ w.scope ≠ .all := by
  rcases (mem_insert h).1 hv with hv | rfl
  · exact ⟨v, hv, rfl, hscope⟩
  · exact absurd hu hscope

/-- A group scope after an operation was there before, or the operation set it. -/
theorem scope_origin {op : UserOp} (heff : Effect t op t') (hv : v ∈ t'.rows)
    (hscope : v.scope ≠ .all) :
    op = .setScope v.id v.scope ∨ ∃ u ∈ t.rows, u.id = v.id ∧ u.scope ≠ .all := by
  cases heff with
  | nothing => exact .inr ⟨v, hv, rfl, hscope⟩
  | create h | createService h | provision h => exact .inr (scope_of_mem_insert h rfl hv hscope)
  | delete _ _ => exact .inr ⟨v, (mem_remove.1 hv).1, rfl, hscope⟩
  | @setRole u role _ _ =>
    exact .inr (scope_of_mem_update hv hscope fun u => withRole_scope u role)
  | @setScope u scope _ _ =>
    obtain ⟨w, hw, heq⟩ := mem_update.1 hv
    by_cases hid : w.id = u.id
    · rw [if_pos hid] at heq
      subst heq
      exact .inl (congrArg (UserOp.setScope · scope) hid.symm)
    · rw [if_neg hid] at heq
      exact .inr ⟨w, hw, congrArg User.id heq, heq ▸ hscope⟩
  | setEnabled _ _ | setPassword _ =>
    exact .inr (scope_of_mem_update hv hscope fun _ => .inr rfl)
  | @refresh _ _ _ _ role _ _ _ _ _ =>
    obtain ⟨w, hw, n, rfl⟩ := of_mem_rename hv
    have hold : ∃ u ∈ t.rows, u.id = w.id ∧ u.scope ≠ .all :=
      scope_of_mem_update hw hscope fun u => withRole_scope u role.key
    exact .inr hold

/-- Signing in with a password changes no scope. -/
theorem scope_of_mem_verify {checks : String → String → Bool} {username password : String}
    {now : UnixMs}
    (hv : v ∈ (t.verify checks username password now).1.rows) :
    ∃ u ∈ t.rows, u.id = v.id ∧ u.scope = v.scope := by
  unfold verify at hv
  split at hv
  · exact ⟨v, hv, rfl, rfl⟩
  · split at hv
    · exact ⟨v, hv, rfl, rfl⟩
    · split at hv
      · exact ⟨v, hv, rfl, rfl⟩
      · split at hv
        · obtain ⟨w, hw, rfl⟩ := mem_update.1 hv
          refine ⟨w, hw, ?_, ?_⟩ <;> split <;> rfl
        · exact ⟨v, hv, rfl, rfl⟩

end Users

/-! ### Tokens -/

/-- A row of the table is the record of a minted token. -/
structure Records (hash : String → String) (m : Minted) (tk : ApiToken) : Prop where
  tokenHash : tk.tokenHash = hash m.raw
  role : tk.role = m.role.key
  scope : tk.scope = m.scope
  owner : tk.owner = none ∨ tk.owner = some m.owner

/-- A row of the table, some operations later. -/
structure Later (tk tk' : ApiToken) : Prop where
  tokenHash : tk'.tokenHash = tk.tokenHash
  role : tk'.role = tk.role
  scope : tk'.scope = tk.scope
  owner : tk'.owner = none ∨ tk'.owner = tk.owner
  live : tk'.revokedAt = none → tk.revokedAt = none

theorem Later.refl (tk : ApiToken) : Later tk tk := ⟨rfl, rfl, rfl, .inr rfl, id⟩

theorem later_revoke (now : UnixMs) (tk : ApiToken) : Later tk (tk.revoke now) := by
  unfold ApiToken.revoke
  split
  · rename_i h
    exact ⟨rfl, rfl, rfl, .inr rfl, fun _ => h⟩
  · exact Later.refl tk

theorem later_orphan (tk : ApiToken) : Later tk tk.orphan := ⟨rfl, rfl, rfl, .inl rfl, id⟩

theorem Records.later {hash : String → String} {m : Minted} {tk tk' : ApiToken}
    (h : Records hash m tk) (hl : Later tk tk') : Records hash m tk' := by
  refine ⟨hl.tokenHash.trans h.tokenHash, hl.role.trans h.role, hl.scope.trans h.scope, ?_⟩
  rcases hl.owner with hnone | hsame
  · exact .inl hnone
  · rw [hsame]
    exact h.owner

/-- Every row of a table comes from a row of another. -/
theorem later_update {t : ApiTokens} {p : ApiToken → Prop} [DecidablePred p]
    {g : ApiToken → ApiToken} (hg : ApiTokens.KeepsKeys g) (hlater : ∀ tk, Later tk (g tk)) :
    List.Forall₂ Later t.rows (t.update p hg).rows := by
  rw [ApiTokens.update, forall₂_map_right_iff]
  refine forall₂_same.2 fun tk _ => ?_
  split
  · exact hlater tk
  · exact Later.refl tk

section

variable {hash : String → String} {log : List Minted}
variable {tk : ApiToken} {rows : List ApiToken}

theorem forall₂_records_later {rows' : List ApiToken} (h : List.Forall₂ (Records hash) log rows)
    (hl : List.Forall₂ Later rows rows') : List.Forall₂ (Records hash) log rows' := by
  induction h generalizing rows' with
  | nil =>
    cases hl
    exact .nil
  | cons hm _ ih =>
    cases hl with
    | cons htk hrest => exact .cons (hm.later htk) (ih hrest)

/-- A record of a table and a row of it with its hash belong together. -/
theorem Records.of_mem {t : ApiTokens} (h : List.Forall₂ (Records hash) log t.rows) {m : Minted}
    (hm : m ∈ log) (htk : tk ∈ t.rows) (heq : tk.tokenHash = hash m.raw) : Records hash m tk := by
  obtain ⟨i, hi, rfl⟩ := getElem_of_mem hm
  have hi' : i < t.rows.length := h.length_eq ▸ hi
  have hrec := h.get hi hi'
  have hsame : t.rows.get ⟨i, hi'⟩ = tk :=
    inj_on_of_nodup_map t.hashes (get_mem _ _) htk (hrec.tokenHash.trans heq.symm)
  rw [← hsame]
  exact hrec

theorem Records.exists_of_mem (h : List.Forall₂ (Records hash) log rows) (htk : tk ∈ rows) :
    ∃ m ∈ log, Records hash m tk := by
  induction h with
  | nil => cases htk
  | cons hm _ ih =>
    rcases mem_cons.1 htk with rfl | htk
    · exact ⟨_, mem_cons_self, hm⟩
    · obtain ⟨m, hmem, hrec⟩ := ih htk
      exact ⟨m, mem_cons_of_mem _ hmem, hrec⟩

end

namespace Accounts

variable {a a' : Accounts} {hash : String → String} {checks : String → String → Bool}

/-- No live token with a group scope belongs to an account with one. -/
def Apart (a : Accounts) : Prop :=
  ∀ tk ∈ a.tokens.rows, tk.revokedAt = none → tk.scope ≠ .all →
    ∀ u ∈ a.users.rows, tk.owner = some u.id → u.scope = .all

/-- Older tokens and accounts whose group scopes are old ones stay apart. -/
theorem Apart.of_later (h : a.Apart) (hl : List.Forall₂ Later a.tokens.rows a'.tokens.rows)
    (husers : ∀ tk ∈ a.tokens.rows, tk.revokedAt = none → tk.scope ≠ .all →
      ∀ v ∈ a'.users.rows, tk.owner = some v.id → v.scope ≠ .all →
        ∃ u ∈ a.users.rows, u.id = v.id ∧ u.scope ≠ .all) : a'.Apart := by
  intro tk' htk' hlive hscope v hv howner
  obtain ⟨i, hi', rfl⟩ := getElem_of_mem htk'
  have hi : i < a.tokens.rows.length := hl.length_eq ▸ hi'
  have hlater : Later (a.tokens.rows.get ⟨i, hi⟩) (a'.tokens.rows.get ⟨i, hi'⟩) := hl.get hi hi'
  have htk : a.tokens.rows.get ⟨i, hi⟩ ∈ a.tokens.rows := get_mem _ _
  have hlive' := hlater.live hlive
  have hscope' : (a.tokens.rows.get ⟨i, hi⟩).scope ≠ .all := hlater.scope ▸ hscope
  have howner' : (a.tokens.rows.get ⟨i, hi⟩).owner = some v.id := by
    rcases hlater.owner with hnone | hsame
    · exact absurd (hnone.symm.trans howner) (by simp)
    · exact hsame.symm.trans howner
  by_contra hne
  obtain ⟨u, hu, hid, hne'⟩ := husers _ htk hlive' hscope' v hv howner' hne
  exact hne' (h _ htk hlive' hscope' u hu (hid ▸ howner'))

/-! ### Minting -/

theorem forall₂_later_refl (rows : List ApiToken) : List.Forall₂ Later rows rows :=
  forall₂_same.2 fun tk _ => Later.refl tk

variable {edges : GroupEdges} {raw : String} {now : UnixMs} {owner : Uuid}

/-- The owner a group scope is checked against is unscoped. -/
theorem checkedTokenScope_ok {users : Users} {scope : Scope}
    (h : checkedTokenScope users edges scope owner = .ok ()) (hscope : scope ≠ .all) {u : User}
    (hu : u ∈ users.rows) (hid : u.id = owner) : u.scope = .all := by
  unfold checkedTokenScope at h
  rw [if_neg hscope] at h
  split at h
  · cases h
  · split at h
    · cases h
    · rename_i hall
      rw [Users.scopeOf, Users.find_eq_some.2 ⟨hu, hid⟩] at hall
      simpa using hall

theorem insertToken_ok {new : NewToken} {role : Role} {id : Uuid} {createdBy : String}
    (h : a.insertToken hash new role owner createdBy id raw = .ok a') :
    a'.users = a.users ∧ ∃ tk, a'.tokens.rows = a.tokens.rows ++ [tk] ∧
      tk.tokenHash = hash raw ∧ tk.role = role.key ∧ tk.scope = new.scope ∧
      tk.owner = some owner := by
  unfold insertToken at h
  split at h
  · cases h
  · rename_i tokens hinsert
    split at h
    · cases h
    · cases h
      unfold ApiTokens.insert at hinsert
      split at hinsert
      · cases hinsert
        exact ⟨rfl, _, rfl, rfl, rfl, rfl, rfl⟩
      · cases hinsert

/-- A minted token is one more row, and a group scope goes to an unscoped owner only. -/
theorem createApiToken_ok {body : CreateApiTokenBody} {caller : Uuid} {callerName : String}
    {id : Uuid} {secret : String} {m : Minted}
    (h : a.createApiToken hash edges body caller callerName now id secret = .ok (a', m)) :
    a'.users = a.users ∧ ∃ tk, a'.tokens.rows = a.tokens.rows ++ [tk] ∧ Records hash m tk ∧
      (tk.scope ≠ .all → ∀ u ∈ a.users.rows, tk.owner = some u.id → u.scope = .all) := by
  unfold createApiToken at h
  split at h
  · cases h
  · rename_i new hnew
    dsimp only at h
    split at h
    · cases h
    · rename_i hscope
      split at h
      · cases h
      · rename_i a'' hins
        cases h
        obtain ⟨husers, tk, hrows, hhash, hrole, hsc, howner⟩ := insertToken_ok hins
        refine ⟨husers, tk, hrows, ⟨hhash, hrole, hsc, .inr howner⟩, fun hne u hu hid => ?_⟩
        refine checkedTokenScope_ok hscope (hsc ▸ hne) hu ?_
        exact Option.some.inj (hid.symm.trans howner)

/-! ### Runs -/

/-- No group scope is given to the owner of a live token that has one. -/
def KeepsApart (a : Accounts) : AccountOp → Prop
  | .users (.setScope id scope) =>
    scope ≠ .all → ∀ tk ∈ a.tokens.rows, tk.revokedAt = none → tk.owner = some id → tk.scope = .all
  | _ => True

instance (a : Accounts) : (op : AccountOp) → Decidable (a.KeepsApart op)
  | .users (.setScope _ scope) =>
    inferInstanceAs (Decidable (scope ≠ .all → ∀ tk ∈ a.tokens.rows, _))
  | .users (.create ..) | .users (.createService ..) | .users (.delete ..) | .users (.setRole ..)
  | .users (.setEnabled ..) | .users (.setPassword ..) | .users (.external ..) | .login ..
  | .mint .. | .revokeToken .. | .revokeOwnedBy .. => isTrue trivial

/-- An operation on the accounts changes no token but for its owner. -/
theorem afterUserOp_spec (a : Accounts) (op : UserOp) :
    (a.afterUserOp op).users = a.users.step op ∧
      List.Forall₂ Later a.tokens.rows (a.afterUserOp op).tokens.rows := by
  unfold afterUserOp
  split
  · rename_i id
    split
    · rename_i users hdel
      exact ⟨congrArg Prod.fst hdel.symm, later_update ApiTokens.keepsKeys_orphan later_orphan⟩
    · rename_i users outcome _ hdel
      exact ⟨congrArg Prod.fst hdel.symm, forall₂_later_refl _⟩
  · exact ⟨rfl, forall₂_later_refl _⟩

/-- One operation keeps the record of the minted tokens, and the scopes apart. -/
theorem step_keeps {log : List Minted} {op : AccountOp} (hok : a.KeepsApart op)
    (h : List.Forall₂ (Records hash) log a.tokens.rows ∧ a.Apart) :
    List.Forall₂ (Records hash) (log ++ (a.step hash checks op).2)
        (a.step hash checks op).1.tokens.rows ∧
      (a.step hash checks op).1.Apart := by
  obtain ⟨hrec, hapart⟩ := h
  cases op with
  | users op =>
    obtain ⟨husers, hlater⟩ := a.afterUserOp_spec op
    rw [step, append_nil]
    refine ⟨forall₂_records_later hrec hlater, hapart.of_later hlater ?_⟩
    intro tk htk hlive hscope v hv howner hne
    rw [husers] at hv
    rcases Users.scope_origin (Users.step_effect a.users op) hv hne with rfl | hold
    · exact absurd (hok hne tk htk hlive howner) hscope
    · exact hold
  | login username password now =>
    rw [step, append_nil]
    refine ⟨hrec, hapart.of_later (forall₂_later_refl _) ?_⟩
    intro tk _ _ _ v hv _ hne
    obtain ⟨u, hu, hid, hscope⟩ := Users.scope_of_mem_verify hv
    exact ⟨u, hu, hid, hscope ▸ hne⟩
  | mint edges body caller callerName now id secret =>
    rw [step]
    cases hmint : a.createApiToken hash edges body caller callerName now id secret with
    | error e => exact ⟨by simpa using hrec, hapart⟩
    | ok minted =>
      obtain ⟨husers, tk, hrows, hm, hnew⟩ := createApiToken_ok hmint
      refine ⟨?_, ?_⟩
      · rw [hrows]
        exact rel_append hrec (.cons hm .nil)
      · intro tk' htk' hlive hscope u hu howner
        rw [husers] at hu
        rw [hrows, mem_append, mem_singleton] at htk'
        rcases htk' with htk' | rfl
        · exact hapart tk' htk' hlive hscope u hu howner
        · exact hnew hscope u hu howner
  | revokeToken id now =>
    rw [step, append_nil]
    have hlater := later_update (t := a.tokens) (p := fun tk => tk.id = id)
      (ApiTokens.keepsKeys_revoke now) (later_revoke now)
    exact ⟨forall₂_records_later hrec hlater,
      hapart.of_later hlater fun _ _ _ _ v hv _ hne => ⟨v, hv, rfl, hne⟩⟩
  | revokeOwnedBy user now =>
    rw [step, append_nil]
    have hlater := later_update (t := a.tokens) (p := fun tk => tk.owner = some user)
      (ApiTokens.keepsKeys_revoke now) (later_revoke now)
    exact ⟨forall₂_records_later hrec hlater,
      hapart.of_later hlater fun _ _ _ _ v hv _ hne => ⟨v, hv, rfl, hne⟩⟩

/-! ### Verification -/

theorem liveToken_spec {tokenHash : String} {tk : ApiToken} {u : User}
    (h : a.liveToken tokenHash now = some (tk, u)) :
    tk ∈ a.tokens.rows ∧ tk.tokenHash = tokenHash ∧ tk.revokedAt = none ∧ u ∈ a.users.rows ∧
      tk.owner = some u.id := by
  obtain ⟨tk', hfind, h⟩ := Option.bind_eq_some_iff.1 h
  obtain ⟨u', howner, h⟩ := Option.bind_eq_some_iff.1 h
  split at h
  · rename_i hlive
    cases h
    obtain ⟨id, hid, hu⟩ := Option.bind_eq_some_iff.1 howner
    obtain ⟨hmem, hhash⟩ := find?_spec hfind
    obtain ⟨hmemu, rfl⟩ := Users.find_eq_some.1 hu
    exact ⟨hmem, hhash, hlive.1, hmemu, hid⟩
  · cases h

/-- What an accepted token is: a live row, its owner, and the two capped. -/
theorem verify_spec {idle : Int} {want : TokenSurface} {auth : TokenAuth}
    (h : a.verify hash idle raw want now = some auth) :
    ∃ tk ∈ a.tokens.rows, ∃ u ∈ a.users.rows, ∃ role ownerRole,
      tk.tokenHash = hash raw ∧ tk.revokedAt = none ∧ tk.owner = some u.id ∧
      Role.parse tk.role = some role ∧ Role.parse u.role = some ownerRole ∧
      auth.principal = ⟨min role ownerRole, cappedScope tk.scope u.scope⟩ := by
  unfold verify at h
  split at h
  · cases h
  · split at h
    · cases h
    · rename_i tk u hlive
      obtain ⟨htk, hhash, hrev, hu, howner⟩ := liveToken_spec hlive
      split at h
      · cases h
      · split at h
        · cases h
        · split at h
          · rename_i role ownerRole hrole howr
            cases h
            exact ⟨tk, htk, u, hu, role, ownerRole, hhash, hrev, howner, hrole, howr, rfl⟩
          · cases h

theorem parse_key (r : Role) : Role.parse r.key = some r := by cases r <;> decide

/-- A scope that is the token's or the owner's allows no more than either, when one of the two is
unrestricted. -/
theorem allows_of_capped {token owner : Scope} {group : Option GroupId}
    (hapart : token ≠ .all → owner = .all)
    (h : (cappedScope token owner).allows edges group = true) :
    token.allows edges group = true ∧ owner.allows edges group = true := by
  cases owner with
  | all => exact ⟨h, rfl⟩
  | groups raw =>
    obtain rfl : token = .all := by
      by_contra hne
      exact absurd (hapart hne) (by simp)
    exact ⟨rfl, h⟩

/-- Whatever was done to accounts and tokens, an accepted token has no more than it was minted with
and no more than its owner has now, in every run that gives no group scope to the owner of a live
token that has one. -/
theorem token_within_minted_and_owner (hash : String → String) (checks : String → String → Bool)
    (idle : Int) {a : Accounts} (hnone : a.tokens.rows = []) {ops : List AccountOp}
    (hok : Along KeepsApart (step hash checks) a ops) {raw : String} {want : TokenSurface}
    {now : UnixMs} {auth : TokenAuth}
    (hauth : (emitAll (step hash checks) a ops).1.verify hash idle raw want now = some auth) :
    (∃ m ∈ (emitAll (step hash checks) a ops).2, hash m.raw = hash raw) ∧
      ∀ m ∈ (emitAll (step hash checks) a ops).2, hash m.raw = hash raw →
        auth.principal.role ≤ m.role ∧
        ∃ u ∈ (emitAll (step hash checks) a ops).1.users.rows, u.id = m.owner ∧
          auth.principal.role ≤ parseRole u.role ∧
          ∀ (edges : GroupEdges) (group : Option GroupId),
            auth.principal.scope.allows edges group = true →
              m.scope.allows edges group = true ∧ u.scope.allows edges group = true := by
  have hstart : List.Forall₂ (Records hash) [] a.tokens.rows ∧ a.Apart := by
    refine ⟨hnone ▸ .nil, fun tk htk => ?_⟩
    rw [hnone] at htk
    cases htk
  have hinv := hok.emitted
    (I := fun log (a : Accounts) => List.Forall₂ (Records hash) log a.tokens.rows ∧ a.Apart)
    (fun log a op hok h => step_keeps hok h) hstart
  obtain ⟨hrec, hapart⟩ := hinv
  obtain ⟨tk, htk, u, hu, role, ownerRole, hhash, hrev, howner, hrole, howr, hprincipal⟩ :=
    verify_spec hauth
  refine ⟨?_, fun m hm hraw => ?_⟩
  · obtain ⟨m, hm, hrm⟩ := Records.exists_of_mem hrec htk
    exact ⟨m, hm, hrm.tokenHash.symm.trans hhash⟩
  · have hrm := Records.of_mem hrec hm htk (hhash.trans hraw.symm)
    have hid : u.id = m.owner := by
      rcases hrm.owner with hno | hsome
      · exact absurd (howner.symm.trans hno) (by simp)
      · exact Option.some.inj (howner.symm.trans hsome)
    have hmrole : role = m.role := by
      rw [hrm.role, parse_key] at hrole
      exact (Option.some.inj hrole).symm
    rw [hprincipal]
    refine ⟨hmrole ▸ min_le_left _ _, u, hu, hid, ?_, fun edges group hallows => ?_⟩
    · rw [parseRole, howr]
      exact min_le_right _ _
    · rw [← hrm.scope]
      exact allows_of_capped (fun hne => hapart tk htk hrev hne u hu howner) hallows

/-! ### Two runs -/

/-- An administrator and an operator for a machine. -/
def rootAndBot : Accounts where
  users :=
    { rows := [⟨1, "root", "h1", "admin", .localUser, none, true, .all, none⟩,
        ⟨2, "bot", servicePasswordSentinel, "operator", .service, none, true, .all, none⟩]
      ids := by decide
      names := by decide }
  tokens := ApiTokens.empty

/-- The folders 10 and 20. -/
def twoFolders : GroupEdges := [(10, none), (20, none)]

/-- A token for the folder 10 that acts as the machine's account. -/
def folderToken : AccountOp :=
  .mint twoFolders ⟨"ci", .admin, some (.groups [.group 10]), some [.rest], none, some 2⟩ 1 "root"
    0 7
    "s3cret"

/-- The token is an operator for the folder 10: its owner is an operator, and has no scope. -/
theorem folder_token_within :
    (emitAll (step id fun _ _ => false) rootAndBot [folderToken]).1.verify id 0 "yat_s3cret" .rest 5
        = some ⟨"ci", "bot", ⟨.operator, .groups [.group 10]⟩⟩ ∧
      ∃ u ∈ (emitAll (step id fun _ _ => false) rootAndBot [folderToken]).1.users.rows, u.id = 2 ∧
        Role.operator ≤ parseRole u.role := by
  have hauth : (emitAll (step id fun _ _ => false) rootAndBot [folderToken]).1.verify id 0
      "yat_s3cret" .rest 5 = some ⟨"ci", "bot", ⟨.operator, .groups [.group 10]⟩⟩ := by
    decide +kernel
  have hok : Along KeepsApart (step id fun _ _ => false) rootAndBot [folderToken] := by
    decide +kernel
  have hmain := token_within_minted_and_owner id (fun _ _ => false) 0 rfl hok hauth
  obtain ⟨-, u, hu, hid, hrole, -⟩ :=
    hmain.2 ⟨"yat_s3cret", .admin, .groups [.group 10], 2⟩ (by decide +kernel) rfl
  exact ⟨hauth, u, hu, hid, hrole⟩

/-- Scoping the owner to the folder 20 moves the token there, away from the folder it was minted
for. -/
theorem scoped_owner_widens_token :
    (emitAll (step id fun _ _ => false) rootAndBot
        [folderToken, .users (.setScope 2 (.groups [.group 20]))]).2
        = [⟨"yat_s3cret", .admin, .groups [.group 10], 2⟩] ∧
      (emitAll (step id fun _ _ => false) rootAndBot
          [folderToken, .users (.setScope 2 (.groups [.group 20]))]).1.verify id 0 "yat_s3cret"
            .rest 5
        = some ⟨"ci", "bot", ⟨.operator, .groups [.group 20]⟩⟩ ∧
      (Scope.groups [.group 20]).allows twoFolders (some 20) = true ∧
      (Scope.groups [.group 10]).allows twoFolders (some 20) = false := by
  decide +kernel

end Accounts

end Yagra.Auth
