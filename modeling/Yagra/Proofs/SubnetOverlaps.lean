import Yagra.Inventory.SubnetOverlaps
import Yagra.Lib.SameMembers

/-!
# `Yagra.Proofs.SubnetOverlaps`: what a caller learns from the overlaps

Every place of a draft is a place of the fleet, and every range of it is the range it is named by or
one of the ranges inside (`Draft.Sound`). So what `finish` keeps of a draft comes from places the
caller may see, field by field. The outer range of a nested overlap may be carried by hidden devices
only. Then the ranges inside that are in sight have a range around them, the hidden one, and
`covering` finds the narrowest: it never gives up and falls back to the hidden range.

A key has no `#` before the rows are numbered, so the numbered keys are different
(`numberKeys_nodup`).
-/

set_option autoImplicit false

open List
open Yagra.Lib.OrdSet (mem_ofList mem_toList)

namespace Yagra

/-!
## Ranges inside ranges

A range contains another when it is the other's network cut off after its own prefix
(`contains_iff`). Cutting off twice is cutting off after the shorter prefix, so the relation is
transitive, and of two ranges around a common one the shorter prefix contains the longer
(`contains_of_common`). From this `covering` finds the narrowest range around a list of ranges
whenever some range contains them all.
-/

/-! ### Cutting off -/

theorem keepTop_keepTop {w : Nat} (m n : Nat) (x : BitVec w) :
    x &&& (BitVec.allOnes w <<< (w - n)) &&& (BitVec.allOnes w <<< (w - m))
      = x &&& (BitVec.allOnes w <<< (w - min m n)) := by
  refine BitVec.eq_of_getLsbD_eq fun i hi => ?_
  have hlow : ∀ k, i - k < w := fun k => by omega
  simp only [BitVec.getLsbD_and, BitVec.getLsbD_shiftLeft, BitVec.getLsbD_allOnes, hi, hlow,
    decide_true, Bool.true_and, Bool.and_true, Bool.and_assoc]
  -- Bit `i` is kept by both cuts exactly if it is kept by the shorter one.
  rw [← Bool.not_or, ← Bool.decide_or]
  congr 3
  apply propext
  omega

namespace IpAddr

theorem width_mask (n : Nat) (ip : IpAddr) : (ip.mask n).width = ip.width := by
  cases ip <;> rfl

theorem mask_mask (m n : Nat) (ip : IpAddr) : (ip.mask n).mask m = ip.mask (min m n) := by
  cases ip with
  | v4 bits => exact congrArg v4 (keepTop_keepTop m n bits)
  | v6 bits => exact congrArg v6 (keepTop_keepTop m n bits)

end IpAddr

theorem subnetKey_eq_some {ip : IpAddr} {n : Nat} {k : SubnetKey} :
    subnetKey ip n = some k ↔ (0 < n ∧ n ≤ ip.width) ∧ k = ⟨ip.mask n, n⟩ := by
  rw [subnetKey]
  split
  next h =>
    refine ⟨fun heq => absurd heq (by simp), ?_⟩
    rintro ⟨⟨hpos, hle⟩, -⟩
    omega
  next h =>
    refine ⟨fun heq => ⟨⟨by omega, by omega⟩, (Option.some.inj heq).symm⟩, ?_⟩
    rintro ⟨-, rfl⟩
    rfl

/-! ### Containment -/

namespace SubnetKey

/-- A range that is the network of some address. -/
structure Proper (k : SubnetKey) : Prop where
  pos : 0 < k.prefixLen
  le : k.prefixLen ≤ k.network.width
  masked : k.network.mask k.prefixLen = k.network

theorem proper_of_subnetKey {ip : IpAddr} {n : Nat} {k : SubnetKey}
    (h : subnetKey ip n = some k) : k.Proper := by
  obtain ⟨⟨hpos, hle⟩, rfl⟩ := subnetKey_eq_some.1 h
  exact ⟨hpos, by rwa [IpAddr.width_mask], by rw [IpAddr.mask_mask, Nat.min_self]⟩

variable {a b k r : SubnetKey}

theorem contains_iff :
    k.contains r = true ↔ k.prefixLen ≤ r.prefixLen ∧ subnetKey r.network k.prefixLen = some k := by
  rw [contains]
  split
  next h => exact ⟨fun heq => absurd heq (by decide), fun heq => absurd heq.1 (by omega)⟩
  next h =>
    -- A range of the other family is no cut of `r`.
    have hfamily : subnetKey r.network k.prefixLen = some k →
        k.network = r.network.mask k.prefixLen := fun heq =>
      congrArg SubnetKey.network (subnetKey_eq_some.1 heq).2
    cases hk : k.network <;> cases hr : r.network <;>
      simp_all [IpAddr.mask]

/-- The network of a range around `r` is that of `r`, cut off. -/
theorem network_of_contains (h : k.contains r = true) : k.network = r.network.mask k.prefixLen :=
  congrArg network (subnetKey_eq_some.1 (contains_iff.1 h).2).2

theorem Proper.of_contains (h : k.contains r = true) : k.Proper :=
  proper_of_subnetKey (contains_iff.1 h).2

theorem Proper.contains_self (h : k.Proper) : k.contains k = true :=
  contains_iff.2 ⟨le_rfl, subnetKey_eq_some.2 ⟨⟨h.pos, h.le⟩, by rw [h.masked]⟩⟩

/-- The cut of a range contains it. -/
theorem contains_of_subnetKey {n : Nat} (hn : n ≤ r.prefixLen)
    (h : subnetKey r.network n = some k) :
    k.contains r = true := by
  have hk := (subnetKey_eq_some.1 h).2
  subst hk
  exact contains_iff.2 ⟨hn, h⟩

theorem contains_trans (hab : a.contains b = true) (hbk : b.contains k = true) :
    a.contains k = true := by
  have hlen := (contains_iff.1 hab).1
  obtain ⟨⟨hpos, hle⟩, -⟩ := subnetKey_eq_some.1 (contains_iff.1 hab).2
  have hcut : a.network = k.network.mask a.prefixLen := by
    rw [network_of_contains hab, network_of_contains hbk, IpAddr.mask_mask, Nat.min_eq_left hlen]
  refine contains_iff.2 ⟨hlen.trans (contains_iff.1 hbk).1, subnetKey_eq_some.2 ⟨⟨hpos, ?_⟩, ?_⟩⟩
  · rwa [network_of_contains hbk, IpAddr.width_mask] at hle
  · rw [← hcut]

/-- Of two ranges around a common one, the shorter prefix contains the longer. -/
theorem contains_of_common (ha : a.contains r = true) (hb : b.contains r = true)
    (hlen : a.prefixLen ≤ b.prefixLen) : a.contains b = true := by
  obtain ⟨⟨hpos, hle⟩, -⟩ := subnetKey_eq_some.1 (contains_iff.1 ha).2
  have hcut : a.network = b.network.mask a.prefixLen := by
    rw [network_of_contains ha, network_of_contains hb, IpAddr.mask_mask, Nat.min_eq_left hlen]
  refine contains_iff.2 ⟨hlen, subnetKey_eq_some.2 ⟨⟨hpos, ?_⟩, ?_⟩⟩
  · rwa [network_of_contains hb, IpAddr.width_mask]
  · rw [← hcut]

/-- Two ranges of one length around a common one are the same. -/
theorem eq_of_common (ha : a.contains r = true) (hb : b.contains r = true)
    (hlen : a.prefixLen = b.prefixLen) : a = b := by
  have hnet : a.network = b.network := by
    rw [network_of_contains ha, network_of_contains hb, hlen]
  cases a
  cases b
  simp_all

/-- The narrowest range around some ranges. -/
structure Narrowest (ranges : List SubnetKey) (k : SubnetKey) : Prop where
  around : ∀ r ∈ ranges, k.contains r = true
  narrow : ∀ outer : SubnetKey, (∀ r ∈ ranges, outer.contains r = true) → outer.contains k = true

end SubnetKey

/-! ### The narrowest range around some -/

namespace Inventory

open SubnetKey

variable {outer : SubnetKey}

/-- Widening stops at the narrowest range around the two. -/
theorem widen_spec {r : SubnetKey} (hr : outer.contains r = true) (len : Nat) (network : IpAddr)
    (hproper : (SubnetKey.mk network len).Proper) (h : outer.contains ⟨network, len⟩ = true) :
    ∃ k, widen r len network = some k ∧ Narrowest [⟨network, len⟩, r] k := by
  induction len generalizing network with
  | zero => exact absurd hproper.pos (by simp)
  | succ len ih =>
    rw [widen]
    split
    next hin =>
      refine ⟨_, rfl, ?_, fun outer houter => houter _ (by simp)⟩
      simpa [hin] using hproper.contains_self
    next hout =>
      -- The range of `outer` is wider than this one, so there is one bit to take away.
      have hlen : ∀ {o : SubnetKey}, o.contains ⟨network, len + 1⟩ = true → o.contains r = true →
          o.prefixLen ≤ len := by
        intro o h hr
        have hle : o.prefixLen ≤ len + 1 := (contains_iff.1 h).1
        refine Nat.le_of_lt_succ (Nat.lt_of_le_of_ne hle fun heq => hout ?_)
        rw [← eq_of_common h hproper.contains_self heq]
        exact hr
      obtain ⟨⟨hpos, -⟩, -⟩ := subnetKey_eq_some.1 (contains_iff.1 h).2
      have hwidth : len + 1 ≤ network.width := hproper.le
      have hwider : subnetKey network len = some ⟨network.mask len, len⟩ :=
        subnetKey_eq_some.2 ⟨⟨hpos.trans_le (hlen h hr), by omega⟩, rfl⟩
      have hcut : (SubnetKey.mk (network.mask len) len).contains ⟨network, len + 1⟩ = true :=
        contains_of_subnetKey (Nat.le_succ len) hwider
      obtain ⟨k, hk, hnarrowest⟩ := ih (network.mask len) (proper_of_subnetKey hwider)
        (contains_of_common h hcut (hlen h hr))
      refine ⟨k, by rw [hwider]; exact hk, ?_, fun outer' houter => ?_⟩
      · intro x hx
        rcases mem_cons.1 hx with rfl | hx
        · exact contains_trans (hnarrowest.around _ (by simp)) hcut
        · exact hnarrowest.around x (mem_cons_of_mem _ hx)
      · have hthis := houter ⟨network, len + 1⟩ (by simp)
        refine hnarrowest.narrow outer' fun x hx => ?_
        rcases mem_cons.1 hx with rfl | hx
        · exact contains_of_common hthis hcut (hlen hthis (houter r (by simp)))
        · exact houter x (mem_cons_of_mem _ hx)

theorem foldlM_widen_spec (rest : List SubnetKey) {cover : SubnetKey} (hproper : cover.Proper)
    (hcover : outer.contains cover = true) (hrest : ∀ r ∈ rest, outer.contains r = true) :
    ∃ k, rest.foldlM (fun cover r => widen r cover.prefixLen cover.network) cover = some k ∧
      Narrowest (cover :: rest) k := by
  induction rest generalizing cover with
  | nil =>
    refine ⟨cover, rfl, ?_, fun outer houter => houter cover (by simp)⟩
    simpa using hproper.contains_self
  | cons r rest ih =>
    obtain ⟨wider, hwider, hboth⟩ := widen_spec (hrest r (by simp)) cover.prefixLen cover.network
      hproper hcover
    have hcontains : wider.contains cover = true := hboth.around cover (by simp)
    have houter : outer.contains wider = true := by
      refine hboth.narrow outer fun x hx => ?_
      simp only [mem_cons, not_mem_nil, or_false] at hx
      rcases hx with rfl | rfl
      · exact hcover
      · exact hrest x (by simp)
    obtain ⟨k, hk, hnarrowest⟩ := ih (.of_contains hcontains) houter fun x hx =>
      hrest x (mem_cons_of_mem _ hx)
    refine ⟨k, ?_, ?_, fun outer' houter' => ?_⟩
    · rw [foldlM_cons, hwider]
      exact hk
    · intro x hx
      have hk' := hnarrowest.around wider (by simp)
      simp only [mem_cons] at hx
      rcases hx with rfl | rfl | hx
      · exact contains_trans hk' hcontains
      · exact contains_trans hk' (hboth.around x (by simp))
      · exact hnarrowest.around x (mem_cons_of_mem _ hx)
    · refine hnarrowest.narrow outer' fun x hx => ?_
      rcases mem_cons.1 hx with rfl | hx
      · refine hboth.narrow outer' fun y hy => houter' y ?_
        simp only [mem_cons, not_mem_nil, or_false] at hy ⊢
        tauto
      · exact houter' x (by simp [hx])

/-- If some range contains every one of `ranges`, `covering` finds the narrowest that does. -/
theorem covering_spec {ranges : List SubnetKey} (hne : ranges ≠ [])
    (hproper : ∀ r ∈ ranges, r.Proper) (houter : ∀ r ∈ ranges, outer.contains r = true) :
    ∃ k, covering ranges = some k ∧ Narrowest ranges k := by
  cases ranges with
  | nil => exact absurd rfl hne
  | cons first rest =>
    exact foldlM_widen_spec rest (hproper first (by simp)) (houter first (by simp)) fun r hr =>
      houter r (mem_cons_of_mem _ hr)

end Inventory

end Yagra

namespace Yagra.Inventory

open Yagra.Lib

/-! ## Overlaps -/

/-! ### Drafts -/

/-- What a draft is made of. -/
structure Draft.Sound (places : List (SubnetKey × Place)) (d : Draft) : Prop where
  mem : ∀ p ∈ d.places, p ∈ places
  sites : d.sites = sitesOf (d.places.map Prod.snd)
  same : d.kind ≠ .nested → d.key = "same:" ++ d.subnet.text ∧ ∀ p ∈ d.places, p.1 = d.subnet
  nested : d.kind = .nested →
    d.key = "nested:" ++ d.subnet.text ∧ (∀ p ∈ d.places, p.1 = d.subnet ∨ p.1 ∈ d.inner) ∧
      ∀ i ∈ d.inner, i.Proper ∧ d.subnet.contains i = true

variable {d : Draft} {input : Input} {w : String} {k : SubnetKey}

section

variable {places : List (SubnetKey × Place)}

theorem mem_carriers {p : Place} : p ∈ carriers places k ↔ (k, p) ∈ places := by
  constructor
  · intro h
    obtain ⟨⟨k', p'⟩, hmem, rfl⟩ := mem_map.1 h
    obtain ⟨hmem, hk⟩ := mem_filter.1 hmem
    have hk : k' = k := of_decide_eq_true hk
    exact hk ▸ hmem
  · intro h
    exact mem_map.2 ⟨(k, p), mem_filter.2 ⟨h, decide_eq_true rfl⟩, rfl⟩

theorem mem_rangesOf : k ∈ rangesOf places ↔ ∃ p, (k, p) ∈ places := by
  rw [rangesOf, mem_toList, mem_ofList, mem_map]
  constructor
  · rintro ⟨⟨k', p⟩, hmem, rfl⟩
    exact ⟨p, hmem⟩
  · rintro ⟨p, hmem⟩
    exact ⟨(k, p), hmem, rfl⟩

theorem sameDraft_sound (h : sameDraft k (carriers places k) = some d) : d.Sound places := by
  rw [sameDraft] at h
  split at h
  · cases h
  · rw [← Option.some.inj h]
    refine ⟨?_, ?_, fun _ => ⟨rfl, ?_⟩, fun hkind => ?_⟩
    · intro p hp
      obtain ⟨place, hplace, rfl⟩ := mem_map.1 hp
      exact mem_carriers.1 hplace
    · simp [Function.comp_def]
    · intro p hp
      obtain ⟨place, -, rfl⟩ := mem_map.1 hp
      rfl
    · simp only at hkind
      split at hkind <;> exact absurd hkind (by decide)

/-- What a pair of ranges is. -/
theorem mem_nestings {n : Nesting} (h : n ∈ nestings places) :
    n.inner ∈ rangesOf places ∧ (∀ p ∈ n.crossing, (n.inner, p) ∈ places) ∧
      n.outer.contains n.inner = true := by
  obtain ⟨inner, hinner, hn⟩ := mem_flatMap.1 h
  obtain ⟨len, hlen, hat⟩ := mem_filterMap.1 hn
  simp only [mem_reverse, mem_range'_1] at hlen
  obtain ⟨outer, houter, hsome⟩ := Option.bind_eq_some_iff.1 hat
  simp only at hsome
  split at hsome
  · rw [← Option.some.inj hsome]
    have hle : len ≤ inner.prefixLen := by omega
    exact ⟨hinner, fun p hp => mem_carriers.1 (mem_of_mem_filter hp),
      SubnetKey.contains_of_subnetKey hle houter⟩
  · cases hsome

theorem nestedDraft_sound (hproper : ∀ p ∈ places, p.1.Proper) (outer : SubnetKey) :
    (nestedDraft places outer).Sound places := by
  have hunder : ∀ n ∈ (nestings places).filter fun n => decide (n.outer = outer),
      n ∈ nestings places ∧ n.outer = outer := fun n hn =>
    ⟨mem_of_mem_filter hn, of_decide_eq_true (mem_filter.1 hn).2⟩
  refine ⟨?_, rfl, fun hkind => absurd rfl hkind, fun _ => ⟨rfl, ?_, ?_⟩⟩
  · intro p hp
    rcases mem_append.1 hp with hp | hp
    · obtain ⟨n, hn, hp⟩ := mem_flatMap.1 hp
      obtain ⟨place, hplace, rfl⟩ := mem_map.1 hp
      exact (mem_nestings (hunder n hn).1).2.1 place hplace
    · obtain ⟨place, hplace, rfl⟩ := mem_map.1 hp
      exact mem_carriers.1 hplace
  · intro p hp
    rcases mem_append.1 hp with hp | hp
    · obtain ⟨n, hn, hp⟩ := mem_flatMap.1 hp
      obtain ⟨place, -, rfl⟩ := mem_map.1 hp
      exact .inr (mem_toList.2 (mem_ofList.2 (mem_map_of_mem hn)))
    · obtain ⟨place, -, rfl⟩ := mem_map.1 hp
      exact .inl rfl
  · intro i hi
    obtain ⟨n, hn, rfl⟩ := mem_map.1 (mem_ofList.1 (mem_toList.1 hi))
    obtain ⟨hin, hfrom⟩ := hunder n hn
    obtain ⟨hrange, -, hcontains⟩ := mem_nestings hin
    obtain ⟨p, hp⟩ := mem_rangesOf.1 hrange
    exact ⟨hproper _ hp, hfrom ▸ hcontains⟩

theorem overlapsOf_sound (hproper : ∀ p ∈ places, p.1.Proper) (hd : d ∈ overlapsOf places) :
    d.Sound places := by
  rcases mem_append.1 hd with hd | hd
  · obtain ⟨k, -, hsome⟩ := mem_filterMap.1 hd
    exact sameDraft_sound hsome
  · obtain ⟨outer, -, rfl⟩ := mem_map.1 hd
    exact nestedDraft_sound hproper outer

end

/-! ### Words -/

theorem mostCommon_mem {found : List String} (h : mostCommon found = some w) : w ∈ found := by
  -- The best word so far is one of the words found.
  have hbest : ∀ b, mostCommon found = some b → b ∈ found := by
    refine foldlRecOn _ _ (motive := fun best => ∀ b, best = some b → b ∈ found) (by simp) ?_
    intro best ih x hx b hb
    have hx : x ∈ found := mem_ofList.1 (mem_toList.1 hx)
    cases best with
    | none => exact Option.some.inj hb ▸ hx
    | some b' =>
      simp only [moreCommon] at hb
      split at hb
      · exact Option.some.inj hb ▸ hx
      · exact ih b hb
  exact hbest w h

variable {places : List (SubnetKey × Place)} {sep : List Char} {l : List Overlap} {key : String}
  {lower : String → String}

theorem commonWord_mem {words : List String} (h : commonWord lower places words = some w) :
    ∃ p ∈ places, portWord lower p.2 words = some w := by
  obtain ⟨found, hfound, hmost⟩ := Option.bind_eq_some_iff.1 h
  exact (Lib.mem_of_mapM hfound).1 (mostCommon_mem hmost)

/-- A word of a hint is a word of a port. -/
theorem hintFor_word
    (h : d.hintFor lower = some (.wan w) ∨ d.hintFor lower = some (.redundancy w)) :
    ∃ p ∈ d.places, ∃ words, portWord lower p.2 words = some w := by
  have hword : ∀ words, commonWord lower d.places words = some w →
      ∃ p ∈ d.places, ∃ words, portWord lower p.2 words = some w := by
    intro words hcommon
    obtain ⟨p, hp, hw⟩ := commonWord_mem hcommon
    exact ⟨p, hp, words, hw⟩
  rw [Draft.hintFor] at h
  split at h
  next word hwan =>
    rcases h with h | h
    · rw [OverlapHint.wan.inj (Option.some.inj h)] at hwan
      exact hword wanWords hwan
    · exact absurd (Option.some.inj h) (by simp)
  · split at h
    next word hredundancy =>
      rcases h with h | h
      · exact absurd (Option.some.inj h) (by simp)
      · rw [OverlapHint.redundancy.inj (Option.some.inj h)] at hredundancy
        exact hword redundancyWords hredundancy
    · exfalso
      split at h
      · simp at h
      · split at h <;> simp at h

/-! ### Keys -/

theorem mem_intercalate {l : List (List Char)} {c : Char} (h : c ∈ sep.intercalate l) :
    c ∈ sep ∨ ∃ word ∈ l, c ∈ word := by
  obtain ⟨part, hpart, hc⟩ := mem_flatten.1 h
  clear h
  induction l with
  | nil => cases hpart
  | cons word rest ih =>
    cases rest with
    | nil =>
      rw [intersperse_singleton, mem_singleton] at hpart
      exact .inr ⟨word, by simp, hpart ▸ hc⟩
    | cons next rest =>
      rw [intersperse_cons_cons, mem_cons, mem_cons] at hpart
      rcases hpart with rfl | rfl | hpart
      · exact .inr ⟨_, by simp, hc⟩
      · exact .inl hc
      · obtain hsep | ⟨w, hw, hcw⟩ := ih hpart
        · exact .inl hsep
        · exact .inr ⟨w, mem_cons_of_mem _ hw, hcw⟩

theorem hash_notMem_toDigits {b : Nat} (hb : 1 < b) (n : Nat) : '#' ∉ Nat.toDigits b n := by
  induction n using Nat.strongRecOn with
  | _ n ih =>
    rw [Nat.toDigits_eq_if hb]
    split
    · simp
    next hn =>
      have hpos : 0 < n := by omega
      simpa using ih (n / b) (Nat.div_lt_self hpos hb)

theorem hash_notMem_digits (hsep : '#' ∉ sep) {b : Nat} (hb : 1 < b) (l : List Nat) :
    '#' ∉ sep.intercalate (l.map (Nat.toDigits b)) := by
  intro h
  obtain h | ⟨word, hword, h⟩ := mem_intercalate h
  · exact hsep h
  · obtain ⟨n, -, rfl⟩ := mem_map.1 hword
    exact hash_notMem_toDigits hb n h

theorem hash_notMem_v4Text (n : Nat) : '#' ∉ v4Text n :=
  hash_notMem_digits (by decide) (by decide) _

theorem hash_notMem_segmentsText (l : List Nat) : '#' ∉ segmentsText l :=
  hash_notMem_digits (by decide) (by decide) l

theorem hash_notMem_v6Text (n : Nat) : '#' ∉ v6Text n := by
  have hcolons : '#' ∉ "::".toList := by decide
  have hmapped : '#' ∉ "::ffff:".toList := by decide
  rw [v6Text]
  split
  · simp only [mem_append, not_or]
    exact ⟨hmapped, hash_notMem_v4Text _⟩
  · simp only
    split
    · simp only [mem_append, not_or]
      exact ⟨⟨hash_notMem_segmentsText _, hcolons⟩, hash_notMem_segmentsText _⟩
    · exact hash_notMem_segmentsText _

theorem hash_notMem_text (k : SubnetKey) : '#' ∉ k.text.toList := by
  have hip : '#' ∉ k.network.text.toList := by
    cases hk : k.network with
    | v4 bits => simpa [IpAddr.text] using hash_notMem_v4Text bits.toNat
    | v6 bits => simpa [IpAddr.text] using hash_notMem_v6Text bits.toNat
  have hlen : '#' ∉ k.prefixLen.repr.toList := by
    rw [Nat.repr_eq_ofList_toDigits, String.toList_ofList]
    exact hash_notMem_toDigits (by decide) _
  rw [SubnetKey.text, String.toList_append, String.toList_append, mem_append, mem_append]
  tauto

/-- What is appended to the key of the `n`th row that has it. -/
def suffixOf (n : Nat) : List Char := if 1 < n then '#' :: n.repr.toList else []

theorem toList_numbered (key : String) (n : Nat) :
    (numbered key n).toList = key.toList ++ suffixOf n := by
  rw [numbered, suffixOf]
  split
  · rw [String.toList_append, String.toList_append, append_assoc]
    rfl
  · rw [append_nil]

theorem suffixOf_inj {n n' : Nat} (hn : 0 < n) (hn' : 0 < n') (h : suffixOf n = suffixOf n') :
    n = n' := by
  rw [suffixOf, suffixOf] at h
  split at h <;> split at h
  · rw [cons.injEq, Nat.toList_repr, Nat.toList_repr] at h
    rw [← Nat.ofDigitChars_ten_toDigits (n := n), h.2, Nat.ofDigitChars_ten_toDigits]
  · cases h
  · cases h
  · omega

/-- The key before it was numbered is what stands before the `#`. -/
theorem takeWhile_numbered (hkey : '#' ∉ key.toList) (n : Nat) :
    (numbered key n).toList.takeWhile (· ≠ '#') = key.toList := by
  have hall : ∀ c ∈ key.toList, decide (c ≠ '#') = true := by
    intro c hc
    refine decide_eq_true ?_
    rintro rfl
    exact hkey hc
  have hsuffix : (suffixOf n).takeWhile (· ≠ '#') = [] := by
    rw [suffixOf]
    split <;> rfl
  rw [toList_numbered, takeWhile_append_of_pos hall, hsuffix, append_nil]

/-- The number of a key can be read off it. -/
theorem numbered_inj {key' : String} {n n' : Nat} (hkey : '#' ∉ key.toList)
    (hkey' : '#' ∉ key'.toList) (hn : 0 < n) (hn' : 0 < n')
    (h : numbered key n = numbered key' n') : key = key' ∧ n = n' := by
  have hlists : (numbered key n).toList = (numbered key' n').toList := congrArg String.toList h
  have hbase : key.toList = key'.toList := by
    rw [← takeWhile_numbered hkey n, hlists, takeWhile_numbered hkey' n']
  rw [toList_numbered, toList_numbered, hbase, append_cancel_left_eq] at hlists
  exact ⟨String.toList_inj.1 hbase, suffixOf_inj hn hn' hlists⟩

/-- A numbered row is a row with a number above how often its key was seen before. -/
theorem mem_numberKeys {o' : Overlap} {earlier : List String} (h : o' ∈ numberKeys earlier l) :
    ∃ o ∈ l, ∃ n, earlier.count o.key < n ∧ o' = { o with key := numbered o.key n } := by
  induction l generalizing earlier with
  | nil => exact absurd h (by simp [numberKeys])
  | cons o rest ih =>
    rcases mem_cons.1 h with rfl | h
    · exact ⟨o, by simp, _, Nat.lt_succ_self _, rfl⟩
    · obtain ⟨o₁, ho₁, n, hn, heq⟩ := ih h
      refine ⟨o₁, mem_cons_of_mem _ ho₁, n, ?_, heq⟩
      rw [count_cons] at hn
      omega

/-- Numbered rows have different keys. -/
theorem numberKeys_nodup (hl : ∀ o ∈ l, '#' ∉ o.key.toList) (earlier : List String) :
    ((numberKeys earlier l).map Overlap.key).Nodup := by
  induction l generalizing earlier with
  | nil => simp [numberKeys]
  | cons o rest ih =>
    rw [numberKeys, map_cons, nodup_cons]
    refine ⟨?_, ih (fun o ho => hl o (mem_cons_of_mem _ ho)) _⟩
    intro hmem
    obtain ⟨o', ho', hkey⟩ := mem_map.1 hmem
    obtain ⟨o₁, ho₁, n, hn, rfl⟩ := mem_numberKeys ho'
    -- The row further down has the same key only with a higher number.
    obtain ⟨hbase, hnumber⟩ := numbered_inj (hl o₁ (mem_cons_of_mem _ ho₁))
      (hl o (by simp)) (by omega) (by omega) hkey
    rw [hbase, count_cons_self] at hn
    omega

/-! ### What the caller is told -/

namespace Input

/-- A place of the fleet on a device the caller may see. -/
def InSight (input : Input) (p : Place) : Prop :=
  sees input.visible p = true ∧ ∃ k, (k, p) ∈ collectPlaces input

/-- A range that a device the caller may see carries. -/
def CarriedInSight (input : Input) (k : SubnetKey) : Prop :=
  ∃ p, sees input.visible p = true ∧ (k, p) ∈ collectPlaces input

end Input

/-- An overlap tells only what comes from devices the caller may see, and how many sites are
hidden. -/
structure ShowsOnlyVisible (input : Input) (o : Overlap) : Prop where
  places : ∀ p ∈ o.places, input.InSight p
  shared : ∀ address ∈ o.sharedAddresses, ∃ p, input.InSight p ∧ address = p.ip.text
  hint : ∀ word, o.hint = some (.wan word) ∨ o.hint = some (.redundancy word) →
    ∃ p, input.InSight p ∧ ∃ words, portWord input.lower p words = some word
  /-- The ranges inside and the range it is named by. -/
  ranges : ∃ (inner : List SubnetKey) (range : SubnetKey) (tag : String) (n : Nat),
    (∀ r ∈ inner, input.CarriedInSight r) ∧ o.inner = (inner.take innerMax).map SubnetKey.text ∧
    o.innerCount = count inner.length ∧ o.subnet = range.text ∧
    o.key = numbered (tag ++ range.text) n ∧
    (tag = "same:" ∨ tag = "nested:" ∨ tag = "within:") ∧
    (o.outerWithheld = false → input.CarriedInSight range) ∧
    (o.outerWithheld = true → covering inner = some range ∧ SubnetKey.Narrowest inner range)
  /-- The sites in sight are sites of the overlap, and the others are hidden. The two counts are
  numbers of 32 bits. -/
  sites : ∃ seen : List Place, (∀ p ∈ seen, input.InSight p) ∧
    o.places = (seen.insertionSort fun a b => a.rank ≤ b.rank).take placesMax ∧
    (∀ site ∈ sitesOf seen, site ∈ o.sites) ∧ o.siteCount = count o.sites.toList.length ∧
    o.hiddenSites = count (o.sites.toList.length - (sitesOf seen).toList.length) ∧
    (o.sites.toList.length < 2 ^ 32 → o.hiddenSites + (sitesOf seen).toList.length = o.siteCount)

section
variable {input : Input} {d : Draft} (hd : d.Sound (collectPlaces input))
include hd

theorem inSight_of_seen {p : SubnetKey × Place} (hp : p ∈ d.seen input.visible) :
    input.InSight p.2 :=
  ⟨(mem_filter.1 hp).2, p.1, hd.mem p (mem_filter.1 hp).1⟩

theorem inSight_of_any {q : SubnetKey × Place → Bool}
    (h : (d.places.any fun p => q p && sees input.visible p.2) = true) :
    ∃ p, q p = true ∧ sees input.visible p.2 = true ∧ p ∈ collectPlaces input := by
  obtain ⟨p, hp, hboth⟩ := any_eq_true.1 h
  rw [Bool.and_eq_true] at hboth
  exact ⟨p, hboth.1, hboth.2, hd.mem p hp⟩

theorem innerSeen_carried {r : SubnetKey} (hr : r ∈ d.innerSeen input.visible) :
    input.CarriedInSight r := by
  obtain ⟨p, hrange, hsees, hp⟩ := inSight_of_any hd (mem_filter.1 hr).2
  have hrange : p.1 = r := of_decide_eq_true hrange
  exact ⟨p.2, hsees, hrange ▸ hp⟩

/-- What an overlap with a place in sight is named by. -/
theorem named_spec (hseen : d.seen input.visible ≠ []) :
    ∃ tag, (d.named input.visible).1 = tag ++ (d.named input.visible).2.text ∧
      (tag = "same:" ∨ tag = "nested:" ∨ tag = "within:") ∧
      (d.outerWithheld input.visible = false → input.CarriedInSight (d.named input.visible).2) ∧
      (d.outerWithheld input.visible = true →
        covering (d.innerSeen input.visible) = some (d.named input.visible).2 ∧
          SubnetKey.Narrowest (d.innerSeen input.visible) (d.named input.visible).2) := by
  obtain ⟨p, hp⟩ := exists_mem_of_ne_nil _ hseen
  obtain ⟨hmem, hsees⟩ := mem_filter.1 hp
  cases hwithheld : d.outerWithheld input.visible with
  | false =>
    have hnamed : d.named input.visible = (d.key, d.subnet) := by
      rw [Draft.named]
      split <;> simp_all
    rw [hnamed]
    by_cases hkind : d.kind = .nested
    · -- A place in sight has the outer range.
      have hany : (d.places.any fun p =>
          decide (p.1 = d.subnet) && sees input.visible p.2) = true := by
        simpa [Draft.outerWithheld, hkind] using hwithheld
      obtain ⟨q, hrange, hq, hfleet⟩ := inSight_of_any hd hany
      have hrange : q.1 = d.subnet := of_decide_eq_true hrange
      exact ⟨"nested:", (hd.nested hkind).1, by simp, fun _ => ⟨q.2, hq, hrange ▸ hfleet⟩,
        fun h => absurd h (by simp)⟩
    · have hrange : p.1 = d.subnet := (hd.same hkind).2 p hmem
      exact ⟨"same:", (hd.same hkind).1, by simp, fun _ => ⟨p.2, hsees, hrange ▸ hd.mem p hmem⟩,
        fun h => absurd h (by simp)⟩
  | true =>
    rw [Draft.outerWithheld, Bool.and_eq_true, decide_eq_true_eq, Bool.not_eq_true'] at hwithheld
    obtain ⟨hkind, hhidden⟩ := hwithheld
    obtain ⟨-, hranges, hinner⟩ := hd.nested hkind
    -- The place in sight has an inner range, so there is something to cover.
    have hne : d.innerSeen input.visible ≠ [] := by
      have hrange : p.1 ≠ d.subnet := by
        intro heq
        have hcarried := any_eq_false.1 hhidden p hmem
        simp [heq, hsees] at hcarried
      have hmine : p.1 ∈ d.inner := (hranges p hmem).resolve_left hrange
      refine ne_nil_of_mem (mem_filter.2 ⟨hmine, any_eq_true.2 ⟨p, hmem, ?_⟩⟩)
      simp [hsees]
    obtain ⟨cover, hcover, hnarrowest⟩ := covering_spec hne
      (fun r hr => (hinner r (mem_of_mem_filter hr)).1)
      fun r hr => (hinner r (mem_of_mem_filter hr)).2
    have hnamed : d.named input.visible = ("within:" ++ cover.text, cover) := by
      rw [Draft.named, hcover, Draft.outerWithheld, hkind, hhidden]
      rfl
    rw [hnamed]
    exact ⟨"within:", rfl, by simp, fun h => absurd h (by simp), fun _ => ⟨hcover, hnarrowest⟩⟩

theorem seenSites_subset {site : SiteId}
    (h : site ∈ sitesOf ((d.seen input.visible).map Prod.snd)) :
    site ∈ d.sites := by
  rw [hd.sites]
  rw [sitesOf, mem_ofList, map_map] at h ⊢
  obtain ⟨p, hp, rfl⟩ := mem_map.1 h
  exact mem_map_of_mem (mem_of_mem_filter hp)

theorem finish_showsOnlyVisible (status : OverlapStatus) (excludedBy : List Exclusion) (n : Nat)
    (hseen : d.seen input.visible ≠ []) :
    ShowsOnlyVisible input
      { d.finish input.lower status excludedBy input.visible with
        key := numbered (d.named input.visible).1 n } where
  places := by
    intro p hp
    have hp := (mem_insertionSort _).1 (mem_of_mem_take hp)
    obtain ⟨q, hq, rfl⟩ := mem_map.1 hp
    exact inSight_of_seen hd hq
  shared := by
    intro address haddress
    obtain ⟨ip, hip, rfl⟩ := mem_map.1 haddress
    obtain ⟨p, hsame, hsees, hp⟩ := inSight_of_any hd (mem_filter.1 hip).2
    have hsame : p.2.ip = ip := of_decide_eq_true hsame
    exact ⟨p.2, ⟨hsees, p.1, hp⟩, by rw [hsame]⟩
  hint := by
    intro word hword
    simp only [Draft.finish] at hword
    split at hword
    next hall =>
      obtain ⟨p, hp, hcarries⟩ := hintFor_word hword
      have hsees : sees input.visible p.2 = true := by
        rw [Option.isNone_iff_eq_none.1 hall]
        rfl
      exact ⟨p.2, ⟨hsees, p.1, hd.mem p hp⟩, hcarries⟩
    · obtain ⟨p, hp, hcarries⟩ := hintFor_word hword
      exact ⟨p.2, inSight_of_seen hd hp, hcarries⟩
  ranges := by
    obtain ⟨tag, hkey, htag, hcarried, hcovering⟩ := named_spec hd hseen
    refine ⟨d.innerSeen input.visible, (d.named input.visible).2, tag, n,
      fun r hr => innerSeen_carried hd hr, rfl, rfl, rfl, ?_, htag, hcarried, hcovering⟩
    rw [← hkey]
  sites := by
    have hsub : (sitesOf ((d.seen input.visible).map Prod.snd)).toList ⊆ d.sites.toList :=
      fun site hsite => seenSites_subset hd hsite
    have hle : (sitesOf ((d.seen input.visible).map Prod.snd)).toList.length
        ≤ d.sites.toList.length :=
      ((sitesOf _).sorted.nodup.subperm hsub).length_le
    refine ⟨(d.seen input.visible).map Prod.snd, ?_, rfl, fun site hsite => hsub hsite, rfl, rfl,
      fun hfits => ?_⟩
    · intro p hp
      obtain ⟨q, hq, rfl⟩ := mem_map.1 hp
      exact inSight_of_seen hd hq
    · simp only [Draft.finish, count] at hfits ⊢
      omega

end

/-! ### The report -/

theorem proper_of_mem_collectPlaces {p : SubnetKey × Place} (h : p ∈ collectPlaces input) :
    p.1.Proper := by
  obtain ⟨device, -, hp⟩ := mem_flatMap.1 h
  obtain ⟨addr, -, hplace⟩ := mem_filterMap.1 hp
  obtain ⟨subnet, hsubnet, rfl⟩ := Option.map_eq_some_iff.1 hplace
  rw [L3Address.subnet] at hsubnet
  split at hsubnet
  · exact SubnetKey.proper_of_subnetKey hsubnet
  · cases hsubnet

theorem Draft.Sound.mono {places' : List (SubnetKey × Place)} (h : d.Sound places)
    (hsub : ∀ p ∈ places, p ∈ places') : d.Sound places' :=
  ⟨fun p hp => hsub p (h.mem p hp), h.sites, h.same, h.nested⟩

/-- What is reported of a draft is a sound draft. -/
theorem exclude_sound {full : Draft} {remaining : List Draft}
    (hfull : full.Sound (collectPlaces input))
    (hremaining : ∀ d ∈ remaining, d.Sound (collectPlaces input)) :
    (exclude input remaining full).1.Sound (collectPlaces input) := by
  rw [exclude]
  split
  · exact hfull
  · split
    next kept hkept => exact hremaining kept (mem_of_mem_filter (mem_of_getLast? hkept))
    · exact hfull

/-- The rows before they are numbered. -/
def rowsOf (input : Input) : List Overlap :=
  let kept := (collectPlaces input).filter fun p =>
    !input.rules.any fun r => ruleMatches input.lower r p.1 p.2
  let decided := (overlapsOf (collectPlaces input)).map (exclude input (overlapsOf kept))
  ((decided.map fun d =>
    d.1.finish input.lower (statusOf input d.1 d.2) d.2 input.visible).filter fun o =>
      !o.places.isEmpty).insertionSort fun a b => a.rank ≤ b.rank

/-- Every row comes from a sound draft with a place in sight. -/
theorem mem_rowsOf {o : Overlap} (h : o ∈ rowsOf input) :
    ∃ d status excludedBy, Draft.Sound (collectPlaces input) d ∧ d.seen input.visible ≠ [] ∧
      o = d.finish input.lower status excludedBy input.visible := by
  have h := (mem_insertionSort _).1 h
  obtain ⟨hmem, hplaces⟩ := mem_filter.1 h
  obtain ⟨decided, hdecided, rfl⟩ := mem_map.1 hmem
  obtain ⟨full, hfull, rfl⟩ := mem_map.1 hdecided
  have hproper : ∀ p ∈ collectPlaces input, p.1.Proper := fun p => proper_of_mem_collectPlaces
  refine ⟨_, _, _, exclude_sound (overlapsOf_sound hproper hfull) ?_, ?_, rfl⟩
  · intro d hd
    refine (overlapsOf_sound (fun p hp => hproper p (mem_of_mem_filter hp)) hd).mono ?_
    exact fun p hp => mem_of_mem_filter hp
  · intro hnil
    simp [Draft.finish, hnil] at hplaces

/-- In every overlap that is reported, the places, the ranges inside, the shared addresses and the
words of the hint come from devices the caller may see. The range it is named by is carried by one
of them, or, when the outer range is withheld, it is the narrowest range around the ranges inside
that are in sight. The hidden sites and those in sight are all the sites. No two overlaps have the
same key. -/
theorem overlaps_show_only_visible (input : Input) :
    (∀ o ∈ (find input).overlaps, ShowsOnlyVisible input o) ∧
      ((find input).overlaps.map Overlap.key).Nodup := by
  constructor
  · intro o ho
    obtain ⟨row, hrow, n, -, rfl⟩ := mem_numberKeys (l := rowsOf input) ho
    obtain ⟨d, status, excludedBy, hd, hseen, rfl⟩ := mem_rowsOf hrow
    exact finish_showsOnlyVisible hd status excludedBy n hseen
  · refine numberKeys_nodup (l := rowsOf input) (fun row hrow => ?_) []
    obtain ⟨d, status, excludedBy, hd, hseen, rfl⟩ := mem_rowsOf hrow
    obtain ⟨tag, hkey, htag, -⟩ := named_spec hd hseen
    have hnamed : '#' ∉ ((d.named input.visible).1).toList := by
      rw [hkey, String.toList_append, mem_append, not_or]
      refine ⟨?_, hash_notMem_text _⟩
      rcases htag with rfl | rfl | rfl <;> decide
    exact hnamed

end Yagra.Inventory
