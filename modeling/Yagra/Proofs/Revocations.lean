import Yagra.Proofs.Sessions

/-!
# `Yagra.Proofs.Revocations`: a starting core and the revocations it must know

`Denylist.Has d r` says that a list of revocations is at least as strict as `r`. A revocation that
was written is in the table for as long as it counts (`Known.persisted`), and one that was published
is on the list or in the inbox of a core that has read the table (`Known.published`). The second
part has a gap: the core reads the table and subscribes later, and what is written and published
between the two reaches it by neither way.

`started_core_rejects` is the statement for runs in which nothing falls into the gap.
`revocation_missed_before_subscribe` is one in which something does.
-/

set_option autoImplicit false

namespace Yagra.Auth

open Yagra.Lib List

/-! ### Lists that have a revocation -/

/-- The revocation no longer counts. -/
def AuthRevoke.Expired (r : AuthRevoke) (now : Nat) : Prop := r.expUnix * 1000 ≤ now

/-- A token's revocation has the token's own expiry. -/
def AuthRevoke.Genuine : AuthRevoke → Prop
  | .token claims exp => exp = claims.exp
  | .user _ cutoff exp => exp = cutoff + sessionAbsoluteTtl

/-- One revocation is at least as strict as another. -/
def AuthRevoke.AtLeast : AuthRevoke → AuthRevoke → Prop
  | .token hash exp, .token hash' exp' => hash = hash' ∧ exp' = exp
  | .user uid cutoff exp, .user uid' cutoff' exp' => uid = uid' ∧ cutoff' ≤ cutoff ∧ exp' ≤ exp
  | _, _ => False

namespace Denylist

variable {d : Denylist} {r r' : AuthRevoke} {now : Nat}

/-- The list is at least as strict as the revocation. -/
def Has (d : Denylist) : AuthRevoke → Prop
  | .token claims exp => d.tokens claims = some exp
  | .user uid cutoff exp => ∃ c e, d.users uid = some (c, e) ∧ cutoff ≤ c ∧ exp ≤ e

/-- What was noted is on the list. -/
theorem has_applyLocal (d : Denylist) (r : AuthRevoke) : (d.applyLocal r).Has r := by
  cases r with
  | token claims exp => exact Function.update_self ..
  | user uid cutoff exp =>
    obtain ⟨hc, he⟩ := le_merged_right (d.users uid) cutoff exp
    exact ⟨_, _, Function.update_self .., hc, he⟩

/-- What is on the list stays there, as the two revocations of one token have one expiry. -/
theorem Has.applyLocal (h : d.Has r) (hr : r.Genuine) (hr' : r'.Genuine) :
    (d.applyLocal r').Has r := by
  cases r with
  | token claims exp =>
    cases r' with
    | user => exact h
    | token claims' exp' =>
      change Function.update d.tokens claims' (some exp') claims = some exp
      by_cases heq : claims = claims'
      · subst heq
        rw [Function.update_self]
        exact congrArg some (Eq.trans hr' (Eq.symm hr))
      · rw [Function.update_of_ne heq]
        exact h
  | user uid cutoff exp => exact cutOff_applyLocal h r'

theorem Has.of_atLeast (h : d.Has r') (hle : r'.AtLeast r) : d.Has r := by
  cases r with
  | token claims exp =>
    cases r' with
    | user => exact hle.elim
    | token claims' exp' =>
      obtain ⟨rfl, rfl⟩ := hle
      exact h
  | user uid cutoff exp =>
    cases r' with
    | token => exact hle.elim
    | user uid' cutoff' exp' =>
      obtain ⟨rfl, hc, he⟩ := hle
      obtain ⟨c, e, hd, hc', he'⟩ := h
      exact ⟨c, e, hd, hc.trans hc', he.trans he'⟩

/-- Pruning drops only what no longer counts. -/
theorem Has.prune (h : d.Has r) (hcounts : ¬ r.Expired now) : (d.prune (unixNow now)).Has r := by
  have hlt : unixNow now < r.expUnix := by
    unfold AuthRevoke.Expired at hcounts
    unfold unixNow
    omega
  cases r with
  | token claims exp =>
    change (d.tokens claims).filter _ = some exp
    rw [show d.tokens claims = some exp from h, Option.filter_some,
      if_pos (by simpa [AuthRevoke.expUnix] using hlt)]
  | user uid cutoff exp =>
    obtain ⟨c, e, hd, hc, he⟩ := h
    refine ⟨c, e, ?_, hc, he⟩
    change (d.users uid).filter _ = some (c, e)
    rw [hd, Option.filter_some, if_pos (by simpa using lt_of_lt_of_le hlt he)]

/-- A token that is revoked by something on the list is denied until it expires. -/
theorem Has.isDenied (h : d.Has r) (hr : r.Genuine) {c : Claims} (hrev : r.Revokes c)
    (hc : c.exp = c.iat + sessionAbsoluteTtl) (hexp : now < c.exp) : d.isDenied c now = true := by
  cases r with
  | token claims exp =>
    obtain rfl : claims = c := hrev
    have hd : d.tokens claims = some exp := h
    have hexp' : exp = claims.exp := hr
    simp [Denylist.isDenied, hd, hexp', hexp]
  | user uid cutoff exp =>
    obtain ⟨rfl, hiat⟩ := hrev
    obtain ⟨cut, e, hd, hcut, he⟩ := h
    have hexp' : exp = cutoff + sessionAbsoluteTtl := hr
    have hlt : now < e := by omega
    simp [Denylist.isDenied, hd, hiat.trans hcut, hlt]

end Denylist

/-! ### The table -/

namespace AuthRevoke

variable {r r' : AuthRevoke}

theorem AtLeast.refl (r : AuthRevoke) : r.AtLeast r := by
  cases r with
  | token => exact ⟨rfl, rfl⟩
  | user => exact ⟨rfl, le_rfl, le_rfl⟩

theorem AtLeast.expUnix_le (h : r.AtLeast r') : r'.expUnix ≤ r.expUnix := by
  cases r <;> cases r'
  · exact h.2.le
  · exact h.elim
  · exact h.elim
  · exact h.2.2

/-- A row at least as strict counts for at least as long. -/
theorem AtLeast.counts (h : r.AtLeast r') {now : Nat} (hcounts : ¬ r'.Expired now) :
    now < r.expUnix * 1000 :=
  lt_of_lt_of_le (not_le.1 hcounts) (Nat.mul_le_mul_right 1000 h.expUnix_le)

/-- Writing the same key again keeps a row at least as strict, for either. -/
theorem greatest_atLeast (hkey : r.sameKey r' = true) (hr : r.Genuine) (hr' : r'.Genuine) :
    (r.greatest r').AtLeast r ∧ (r.greatest r').AtLeast r' := by
  cases r <;> cases r'
  · rename_i hash exp hash' exp'
    obtain rfl : hash = hash' := of_decide_eq_true hkey
    obtain rfl : exp = exp' := Eq.trans hr (Eq.symm hr')
    simp [greatest, AtLeast]
  · cases hkey
  · cases hkey
  · rename_i uid cutoff exp uid' cutoff' exp'
    obtain rfl : uid = uid' := of_decide_eq_true hkey
    exact ⟨⟨rfl, le_max_left .., le_max_left ..⟩, ⟨rfl, le_max_right .., le_max_right ..⟩⟩

theorem AtLeast.trans {r'' : AuthRevoke} (h : r.AtLeast r') (h' : r'.AtLeast r'') :
    r.AtLeast r'' := by
  cases r <;> cases r' <;> cases r'' <;> simp only [AtLeast] at *
  · exact ⟨h.1.trans h'.1, h'.2.trans h.2⟩
  · exact ⟨h.1.trans h'.1, h'.2.1.trans h.2.1, h'.2.2.trans h.2.2⟩

/-- As genuine revocations of one key are ordered, the greatest of two is one of them. -/
theorem greatest_eq_or (hkey : r.sameKey r' = true) (hr : r.Genuine) (hr' : r'.Genuine) :
    r.greatest r' = r ∨ r.greatest r' = r' := by
  cases r <;> cases r'
  · rename_i hash exp hash' exp'
    obtain rfl : hash = hash' := of_decide_eq_true hkey
    obtain rfl : exp = exp' := Eq.trans hr (Eq.symm hr')
    simp [greatest]
  · cases hkey
  · cases hkey
  · rename_i uid cutoff exp uid' cutoff' exp'
    obtain rfl : uid = uid' := of_decide_eq_true hkey
    have hexp : exp = cutoff + sessionAbsoluteTtl := hr
    have hexp' : exp' = cutoff' + sessionAbsoluteTtl := hr'
    simp only [greatest, user.injEq, true_and]
    omega

end AuthRevoke

section
variable {table : List AuthRevoke} {r r' : AuthRevoke} {now : Nat}

/-- The table has a row at least as strict. -/
def InTable (table : List AuthRevoke) (r : AuthRevoke) : Prop := ∃ row ∈ table, row.AtLeast r

section

variable (htable : ∀ row ∈ table, row.Genuine) (hr : r.Genuine)

include htable hr

theorem mem_persist {row : AuthRevoke} (hrow : row ∈ persistRevocation table r) :
    row ∈ table ∨ row = r := by
  unfold persistRevocation at hrow
  split at hrow
  · obtain ⟨old, hold, rfl⟩ := mem_map.1 hrow
    split
    · rename_i hkey
      rcases AuthRevoke.greatest_eq_or hkey (htable old hold) hr with heq | heq <;> rw [heq]
      · exact .inl hold
      · exact .inr rfl
    · exact .inl hold
  · rcases mem_append.1 hrow with hrow | hrow
    · exact .inl hrow
    · exact .inr (mem_singleton.1 hrow)

theorem genuine_persist : ∀ row ∈ persistRevocation table r, row.Genuine := fun row hrow => by
  rcases mem_persist htable hr hrow with hrow | rfl
  · exact htable row hrow
  · exact hr

theorem inTable_persist_self : InTable (persistRevocation table r) r := by
  unfold persistRevocation
  split
  · rename_i hany
    obtain ⟨old, hold, hkey⟩ := any_eq_true.1 hany
    exact ⟨old.greatest r, mem_map.2 ⟨old, hold, if_pos hkey⟩,
      (AuthRevoke.greatest_atLeast hkey (htable old hold) hr).2⟩
  · exact ⟨r, by simp, AuthRevoke.AtLeast.refl r⟩

end

theorem InTable.persist (h : InTable table r) (htable : ∀ row ∈ table, row.Genuine)
    (hr' : r'.Genuine) : InTable (persistRevocation table r') r := by
  obtain ⟨row, hrow, hle⟩ := h
  unfold persistRevocation
  split
  · by_cases hkey : row.sameKey r' = true
    · exact ⟨row.greatest r', mem_map.2 ⟨row, hrow, if_pos hkey⟩,
        (AuthRevoke.greatest_atLeast hkey (htable row hrow) hr').1.trans hle⟩
    · exact ⟨row, mem_map.2 ⟨row, hrow, if_neg hkey⟩, hle⟩
  · exact ⟨row, mem_append_left _ hrow, hle⟩

theorem InTable.prune (h : InTable table r) (hcounts : ¬ r.Expired now) :
    InTable (pruneRevocations table now) r := by
  obtain ⟨row, hrow, hle⟩ := h
  refine ⟨row, mem_filter.2 ⟨hrow, ?_⟩, hle⟩
  rw [Bool.not_eq_true', decide_eq_false_iff_not]
  exact not_le.2 (hle.counts hcounts)

/-- Noting a list of revocations keeps what is there. -/
theorem has_foldl {l : List AuthRevoke} {s : SessionStore} (h : s.denylist.Has r) (hr : r.Genuine)
    (hl : ∀ row ∈ l, row.Genuine) :
    (l.foldl SessionStore.applyRemoteRevoke s).denylist.Has r := by
  induction l generalizing s with
  | nil => exact h
  | cons row rest ih =>
    refine ih (h.applyLocal hr (hl row mem_cons_self)) fun row' hrow' => ?_
    exact hl row' (mem_cons_of_mem row hrow')

/-- What is in the table and counts is on the list after it was read. -/
theorem InTable.load (h : InTable table r) (hr : r.Genuine) (htable : ∀ row ∈ table, row.Genuine)
    (hcounts : ¬ r.Expired now) (s : SessionStore) :
    ((loadActiveRevocations table now).foldl SessionStore.applyRemoteRevoke s).denylist.Has r := by
  obtain ⟨row, hrow, hle⟩ := h
  have hmem : row ∈ loadActiveRevocations table now :=
    mem_filter.2 ⟨hrow, decide_eq_true (hle.counts hcounts)⟩
  have hgenuine : ∀ row ∈ loadActiveRevocations table now, row.Genuine :=
    fun row hrow => htable row (mem_filter.1 hrow).1
  generalize loadActiveRevocations table now = l at hmem hgenuine
  obtain ⟨before, after, rfl⟩ := append_of_mem hmem
  rw [foldl_append, foldl_cons]
  refine has_foldl ?_ hr fun row' hrow' => hgenuine row' (by simp [hrow'])
  exact (Denylist.has_applyLocal _ row).of_atLeast hle

/-- A token that something on the list revokes is rejected. -/
theorem SessionStore.rejects {s : SessionStore} (hsigner : s.signer = true) (hr : r.Genuine)
    (h : r.Expired now ∨ s.denylist.Has r) {c : Claims} (hc : c.exp = c.iat + sessionAbsoluteTtl)
    (hrev : r.Revokes c) : (s.lookup now (.signed c)).2 = none := by
  change (if s.signer then s.lookupSigned now c else none) = none
  rw [if_pos hsigner, lookupSigned]
  split
  · rfl
  · rename_i hexp
    rw [if_pos]
    rcases h with hover | hhas
    · -- The revocation is over, so the token has expired.
      refine absurd ?_ hexp
      cases r with
      | token claims exp =>
        obtain rfl : claims = c := hrev
        have hexp' : exp = claims.exp := hr
        have hle : exp * 1000 ≤ now := hover
        unfold unixNow
        omega
      | user uid cutoff exp =>
        have hexp' : exp = cutoff + sessionAbsoluteTtl := hr
        have hle : exp * 1000 ≤ now := hover
        have hiat : c.iat ≤ cutoff := hrev.2
        unfold unixNow
        omega
    · exact hhas.isDenied hr hrev hc (not_le.1 hexp)

end

/-! ### Runs -/

namespace Start

variable {s : Start} {made : List AuthRevoke} {r : AuthRevoke}

/-- Everything that is written or sent is a revocation that was made. -/
structure Tidy (s : Start) : Prop where
  rows : ∀ row ∈ s.table, row.Genuine
  messages : ∀ r ∈ s.inbox, r.Genuine
  onTheWay : ∀ w ∈ s.onTheWay, w.revoke.Genuine
  signer : s.store.signer = true

theorem foldl_applyRemoteRevoke_signer (l : List AuthRevoke) (store : SessionStore) :
    (l.foldl SessionStore.applyRemoteRevoke store).signer = store.signer := by
  induction l generalizing store with
  | nil => rfl
  | cons r rest ih => exact ih _

theorem tidy_make (h : Tidy s) (hr : r.Genuine) : Tidy (s.make r).1 := by
  refine ⟨h.rows, h.messages, fun w hw => ?_, h.signer⟩
  rcases mem_append.1 hw with hw | hw
  · exact h.onTheWay w hw
  · rw [mem_singleton.1 hw]
    exact hr

theorem tidy_step (h : Tidy s) (op : StartOp) :
    Tidy (s.step op).1 ∧ ∀ r ∈ (s.step op).2, r.Genuine := by
  have hnone : ∀ {s' : Start}, Tidy s' → Tidy s' ∧ ∀ r ∈ ([] : List AuthRevoke), r.Genuine :=
    fun h => ⟨h, fun r hr => absurd hr not_mem_nil⟩
  cases op with
  | wait ms | pruneDenylist => exact hnone ⟨h.rows, h.messages, h.onTheWay, h.signer⟩
  | revokeToken claims | revokeUser uid =>
    exact ⟨tidy_make h rfl, fun r hr => mem_singleton.1 hr ▸ rfl⟩
  | persist i =>
    rw [step]
    split
    · rename_i r hi
      have hr : r.Genuine := h.onTheWay _ (mem_of_getElem? hi)
      refine hnone ⟨genuine_persist h.rows hr, h.messages, fun w hw => ?_, h.signer⟩
      rcases mem_or_eq_of_mem_set hw with hw | rfl
      · exact h.onTheWay w hw
      · exact hr
    · exact hnone h
  | publish i =>
    rw [step]
    split
    · rename_i r hi
      have hr : r.Genuine := h.onTheWay _ (mem_of_getElem? hi)
      refine hnone ⟨h.rows, fun r' hr' => ?_, fun w hw => ?_, h.signer⟩
      · split at hr'
        · rcases mem_append.1 hr' with hr' | hr'
          · exact h.messages r' hr'
          · exact mem_singleton.1 hr' ▸ hr
        · exact h.messages r' hr'
      · exact h.onTheWay w (mem_of_mem_eraseIdx hw)
    · exact hnone h
  | load =>
    rw [step]
    split
    · exact hnone h
    · exact hnone ⟨h.rows, h.messages, h.onTheWay,
        (foldl_applyRemoteRevoke_signer _ _).trans h.signer⟩
  | subscribe =>
    rw [step]
    split
    · exact hnone ⟨h.rows, h.messages, h.onTheWay, h.signer⟩
    · exact hnone h
  | receive =>
    rw [step]
    split
    · exact hnone h
    · rename_i r rest hinbox
      refine hnone ⟨h.rows, fun r' hr' => h.messages r' ?_, h.onTheWay, h.signer⟩
      rw [hinbox]
      exact mem_cons_of_mem r hr'
  | pruneTable =>
    exact hnone ⟨fun row hrow => h.rows row (mem_filter.1 hrow).1, h.messages, h.onTheWay,
      h.signer⟩

/-! ### What a core that has read the table keeps -/

/-- The revocation is over, or on the list of the starting core. -/
def Listed (s : Start) (r : AuthRevoke) : Prop := r.Expired s.now ∨ s.store.denylist.Has r

theorem loaded_step (h : s.loaded = true) (op : StartOp) : (s.step op).1.loaded = true := by
  cases op <;> simp only [step, make] <;> (try split) <;> exact h

/-- What is on the list of a core that has read the table stays there. -/
theorem Listed.step (h : s.Listed r) (hr : r.Genuine) (htidy : Tidy s) (hloaded : s.loaded = true)
    (op : StartOp) : (s.step op).1.Listed r := by
  cases op with
  | wait ms => exact h.imp (fun hexp => le_trans hexp (Nat.le_add_right ..)) id
  | revokeToken | revokeUser | pruneTable => exact h
  | persist i | publish i | subscribe =>
    rw [Start.step]
    split <;> exact h
  | load =>
    rw [Start.step, if_pos hloaded]
    exact h
  | receive =>
    rw [Start.step]
    split
    · exact h
    · rename_i r' rest hinbox
      refine h.imp id fun hhas => hhas.applyLocal hr (htidy.messages r' ?_)
      rw [hinbox]
      exact mem_cons_self
  | pruneDenylist =>
    by_cases hexp : r.Expired s.now
    · exact .inl hexp
    · exact .inr ((h.resolve_left hexp).prune hexp)

/-! ### What a core knows when everything is complete -/

/-- What is known of the revocations made so far. -/
structure Known (made : List AuthRevoke) (s : Start) : Prop where
  tidy : Tidy s
  genuine : ∀ r ∈ made, r.Genuine
  /-- A revocation that was written is in the table while it counts. -/
  persisted : ∀ r ∈ made, r.Expired s.now ∨ ⟨r, false⟩ ∈ s.onTheWay ∨ InTable s.table r
  /-- A revocation that was published is known to a core that has read the table. -/
  published : s.loaded = true → ∀ r ∈ made, (∃ b, ⟨r, b⟩ ∈ s.onTheWay) ∨ r ∈ s.inbox ∨ s.Listed r

/-- A revocation is not published between reading the table and subscribing, unless the core has
read it. -/
def NoGap (s : Start) : StartOp → Prop
  | .publish i => s.loaded = true → s.subscribed = false → ∀ w ∈ s.onTheWay[i]?, s.Listed w.revoke
  | _ => True

theorem persisted_step (h : Known made s) (op : StartOp) :
    ∀ r ∈ made, r.Expired (s.step op).1.now ∨ ⟨r, false⟩ ∈ (s.step op).1.onTheWay ∨
      InTable (s.step op).1.table r := by
  intro r hr
  have hold := h.persisted r hr
  cases op with
  | wait ms => exact hold.imp (fun hexp => le_trans hexp (Nat.le_add_right ..)) id
  | revokeToken | revokeUser => exact hold.imp id (Or.imp (mem_append_left _) id)
  | persist i =>
    rw [step]
    split
    · rename_i r' hi
      have hr' : r'.Genuine := h.tidy.onTheWay _ (mem_of_getElem? hi)
      rcases hold with hexp | hway | htable
      · exact .inl hexp
      · rcases mem_set_of_mem (b := ⟨r', true⟩) hi hway with heq | hmem
        · cases heq
          exact .inr (.inr (inTable_persist_self h.tidy.rows hr'))
        · exact .inr (.inl hmem)
      · exact .inr (.inr (htable.persist h.tidy.rows hr'))
    · exact hold
  | publish i =>
    rw [step]
    split
    · rename_i r' hi
      -- What is published was written, so no other revocation loses its place.
      refine hold.imp id (Or.imp (fun hway => ?_) id)
      exact (mem_eraseIdx_of_mem hi hway).resolve_left (by simp)
    · exact hold
  | load | subscribe | receive =>
    rw [step]
    split <;> exact hold
  | pruneTable =>
    by_cases hexp : r.Expired s.now
    · exact .inl hexp
    · exact .inr ((hold.resolve_left hexp).imp id fun htable => htable.prune hexp)
  | pruneDenylist => exact hold

/-- What is on its way stays so, unless it is published now. -/
theorem onTheWay_step {b : Bool} (hway : ⟨r, b⟩ ∈ s.onTheWay) (op : StartOp) :
    (∃ b, ⟨r, b⟩ ∈ (s.step op).1.onTheWay) ∨
      ∃ i, op = .publish i ∧ s.onTheWay[i]? = some ⟨r, true⟩ := by
  cases op with
  | persist i =>
    left
    rw [step]
    split
    · rename_i r' hi
      rcases mem_set_of_mem (b := ⟨r', true⟩) hi hway with heq | hmem
      · cases heq
        exact ⟨true, List.mem_set (List.getElem?_eq_some_iff.1 hi).1 _⟩
      · exact ⟨b, hmem⟩
    · exact ⟨b, hway⟩
  | publish i =>
    rw [step]
    split
    · rename_i r' hi
      rcases mem_eraseIdx_of_mem hi hway with heq | hmem
      · cases heq
        exact .inr ⟨i, rfl, hi⟩
      · exact .inl ⟨b, hmem⟩
    · exact .inl ⟨b, hway⟩
  | _ => grind [step, make]

/-- What is in the inbox stays there, unless it is applied now. -/
theorem inbox_step (hinbox : r ∈ s.inbox) (op : StartOp) :
    r ∈ (s.step op).1.inbox ∨ (s.step op).1.store.denylist.Has r := by
  cases op with
  | receive =>
    rw [step]
    split
    · exact .inl hinbox
    · rename_i r' rest hcons
      rw [hcons] at hinbox
      rcases mem_cons.1 hinbox with rfl | hmem
      · exact .inr (Denylist.has_applyLocal _ _)
      · exact .inl hmem
  | _ => grind [step, make]

variable {op : StartOp}

theorem published_step (h : Known made s) (hok : s.NoGap op)
    (hloaded : (s.step op).1.loaded = true) :
    ∀ r ∈ made, (∃ b, ⟨r, b⟩ ∈ (s.step op).1.onTheWay) ∨ r ∈ (s.step op).1.inbox ∨
      (s.step op).1.Listed r := by
  intro r hr
  by_cases hbefore : s.loaded = true
  · have hlisted : s.Listed r → (s.step op).1.Listed r :=
      fun hl => hl.step (h.genuine r hr) h.tidy hbefore op
    rcases h.published hbefore r hr with ⟨b, hway⟩ | hinbox | hl
    · rcases onTheWay_step hway op with hstays | ⟨i, rfl, hi⟩
      · exact .inl hstays
      -- The message goes out now: to the inbox, or the core has read it.
      · by_cases hsub : s.subscribed = true
        · exact .inr (.inl (by simp [step, hi, hsub]))
        · exact .inr (.inr (hlisted (hok hbefore (Bool.eq_false_iff.2 hsub) ⟨r, true⟩ hi)))
    · exact .inr ((inbox_step hinbox op).imp_right .inr)
    · exact .inr (.inr (hlisted hl))
  · -- The core reads the table in this step.
    cases op with
    | load =>
      rw [step, if_neg hbefore]
      rcases h.persisted r hr with hexp | hway | htable
      · exact .inr (.inr (.inl hexp))
      · exact .inl ⟨false, hway⟩
      · by_cases hexp : r.Expired s.now
        · exact .inr (.inr (.inl hexp))
        · exact .inr (.inr (.inr (htable.load (h.genuine r hr) h.tidy.rows hexp s.store)))
    | _ => grind [step, make]

/-- A revocation that is made in a step is on its way. -/
theorem made_onTheWay (hr : r ∈ (s.step op).2) : ⟨r, false⟩ ∈ (s.step op).1.onTheWay := by
  cases op with
  | revokeToken | revokeUser =>
    rw [mem_singleton.1 hr]
    exact mem_append_right _ mem_cons_self
  | wait | pruneTable | pruneDenylist => cases hr
  | persist | publish | load | subscribe | receive =>
    simp only [step] at hr
    split at hr <;> cases hr

theorem known_step (h : Known made s) (hok : s.NoGap op) :
    Known (made ++ (s.step op).2) (s.step op).1 := by
  obtain ⟨htidy, hnew⟩ := tidy_step h.tidy op
  refine ⟨htidy, fun r hr => ?_, fun r hr => ?_, fun hloaded r hr => ?_⟩ <;>
    rcases mem_append.1 hr with hr | hr
  · exact h.genuine r hr
  · exact hnew r hr
  · exact persisted_step h op r hr
  · exact .inr (.inl (made_onTheWay hr))
  · exact published_step h hok hloaded r hr
  · exact .inl ⟨false, made_onTheWay hr⟩

/-- Once the start and all revocations made so far are complete, the started core rejects what they
revoked at every later moment, in every run in which no revocation is published between reading the
table and subscribing without having been read. -/
theorem started_core_rejects {now : Nat} {ops : List StartOp}
    (hok : Along NoGap step (new now) ops) (hdone : (emitAll step (new now) ops).1.Complete)
    {r : AuthRevoke} (hr : r ∈ (emitAll step (new now) ops).2) {c : Claims}
    (hc : c.exp = c.iat + sessionAbsoluteTtl) (hrev : r.Revokes c) (later : List StartOp) :
    ((emitAll step (new now) (ops ++ later)).1.store.lookup
      (emitAll step (new now) (ops ++ later)).1.now (.signed c)).2 = none := by
  have hstart : Known [] (new now) := by
    refine ⟨⟨?_, ?_, ?_, rfl⟩, ?_, ?_, ?_⟩ <;> simp [new]
  have hknown := hok.emitted (I := Known) (fun _ _ _ hop h => known_step h hop) hstart
  obtain ⟨hloaded, -, hway, hinbox⟩ := hdone
  have hlisted : (emitAll step (new now) ops).1.Listed r := by
    rcases hknown.published hloaded r hr with ⟨b, hmem⟩ | hmem | hl
    · rw [hway] at hmem
      cases hmem
    · rw [hinbox] at hmem
      cases hmem
    · exact hl
  have hgenuine := hknown.genuine r hr
  rw [emitAll_append_fst]
  have hend : Tidy (emitAll step (emitAll step (new now) ops).1 later).1 ∧
      (emitAll step (emitAll step (new now) ops).1 later).1.loaded = true ∧
      (emitAll step (emitAll step (new now) ops).1 later).1.Listed r := by
    refine emitAll_invariant step
      (P := fun s : Start => Tidy s ∧ s.loaded = true ∧ s.Listed r) (fun s op _ h => ?_)
      ⟨hknown.tidy, hloaded, hlisted⟩
    exact ⟨(tidy_step h.1 op).1, loaded_step h.2.1 op, h.2.2.step hgenuine h.1 h.2.1 op⟩
  exact SessionStore.rejects hend.1.signer hgenuine hend.2.2 hc hrev

/-! ### Two starts -/

/-- A token of user 7 that was issued at second 100. -/
def someClaims : Claims := ⟨7, ⟨.viewer, .all⟩, "ann", 100, 100 + sessionAbsoluteTtl⟩

/-- The revocation is written before the core reads the table, and published after it subscribed. -/
def inOrder : List StartOp :=
  [.revokeUser 7, .persist 0, .load, .publish 0, .subscribe]

theorem in_order_is_rejected :
    ((emitAll step (new 200000)
      (inOrder ++ [.wait 3600000, .pruneTable, .pruneDenylist])).1.store.lookup
      (emitAll step (new 200000) (inOrder ++ [.wait 3600000, .pruneTable, .pruneDenylist])).1.now
      (.signed someClaims)).2 = none := by
  have hok : Along NoGap step (new 200000) inOrder :=
    ⟨trivial, trivial, trivial,
      fun _ _ w hw => .inr (by cases hw; exact ⟨200, 86600, rfl, by decide⟩), trivial, trivial⟩
  have hdone : (emitAll step (new 200000) inOrder).1.Complete := by decide +kernel
  exact started_core_rejects hok hdone (r := .user 7 200 (200 + sessionAbsoluteTtl))
    (by decide +kernel) rfl ⟨rfl, by decide⟩ _

/-- The revocation is written and published after the core read the table and before it subscribed.
-/
def inTheGap : List StartOp :=
  [.load, .revokeUser 7, .persist 0, .publish 0, .subscribe]

/-- Both are complete, and the core accepts the token that was revoked. -/
theorem revocation_missed_before_subscribe :
    (emitAll step (new 200000) inTheGap).1.Complete ∧
      (emitAll step (new 200000) inTheGap).2 = [.user 7 200 (200 + sessionAbsoluteTtl)] ∧
      (AuthRevoke.user 7 200 (200 + sessionAbsoluteTtl)).Revokes someClaims ∧
      ((emitAll step (new 200000) inTheGap).1.store.lookup
        (emitAll step (new 200000) inTheGap).1.now (.signed someClaims)).2.isSome = true := by
  refine ⟨by decide +kernel, by decide +kernel, ⟨rfl, by decide⟩, by decide +kernel⟩

end Start

end Yagra.Auth
