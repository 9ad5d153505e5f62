import Yagra.Lib.TreeMap
import Yagra.Topology.Derive

/-!
# `Yagra.Proofs.Overrides`: what becomes of an operator's decisions

The decisions about a pair only see the link of that pair, so the link after all of them is a fold
over the decisions about it (`getElem?_applyOverrides`). To hide comes last and always wins. A pin
makes a link and stays visible in its sources. A direction only counts for a link that is there when
its turn comes: listed before the pin that makes the link, it is lost.

The limit on the links of a node comes after the decisions and does not know them. It goes over the
links in the order of their pairs, and keeps a link exactly when neither end has as many as it may
in its turn (`mem_capLinks`), so of more pins of a node than the limit the last ones are lost.
-/

set_option autoImplicit false

namespace Yagra.Topology

open Std (ExtTreeMap)
open Yagra.Lib List Std.ExtTreeMap

variable {links : LinkMap} {k : LinkKey} {l : DerivedLink}

/-! ### One link -/

@[simp] theorem merge_key (self other : DerivedLink) : (self.merge other).key = self.key := rfl

@[simp] theorem mem_merge_sources {self other : DerivedLink} {source : LinkSource} :
    source ∈ (self.merge other).sources ↔ source ∈ self.sources ∨ source ∈ other.sources := by
  rw [DerivedLink.merge, OrdSet.mem_extend, OrdSet.mem_toList]

@[simp] theorem new_key (x y : NodeId) (source : LinkSource) :
    (DerivedLink.new x y source).key = .of x y := rfl

variable (ov : LinkOverride)

@[simp] theorem manual_key : ov.manual.key = ov.key := rfl

theorem manual_mem_sources : .manual ∈ ov.manual.sources := by
  simp [LinkOverride.manual, DerivedLink.new]

/-- A link added to what is there for its pair. -/
def mergeInto (there : Option DerivedLink) (l : DerivedLink) : DerivedLink :=
  there.elim l (·.merge l)

theorem getElem?_addLink :
    (addLink links l)[k]? = if l.key = k then some (mergeInto links[k]? l) else links[k]? := by
  rw [addLink, getElem?_alter]
  simp only [Std.compare_eq_iff_eq]
  split
  next hk =>
    subst hk
    cases links[l.key]? <;> rfl
  next => rfl

/-- Every link is stored under its own pair. -/
def Keyed (links : LinkMap) : Prop :=
  ∀ (k : LinkKey) (l : DerivedLink), links[k]? = some l → l.key = k

theorem keyed_empty : Keyed ∅ := fun k l h => by simp at h

theorem Keyed.addLink (h : Keyed links) (l : DerivedLink) : Keyed (addLink links l) := by
  intro k l' hl'
  rw [getElem?_addLink] at hl'
  split at hl'
  next hk =>
    cases hl'
    cases hthere : links[k]? with
    | none => exact hk
    | some there => exact h k there hthere
  next => exact h k l' hl'

theorem observed_keyed (inp : DeriveInput) : Keyed inp.observed :=
  foldlRecOn (motive := Keyed) inp.observations _ keyed_empty fun _ h l _ => h.addLink l

/-! ### Decisions about one pair -/

/-- What a decision does to the link of its pair. -/
def decideAt (there : Option DerivedLink) (ov : LinkOverride) : Option DerivedLink :=
  match ov.action with
  | .pin => some (mergeInto there ov.manual)
  | .direction => there.map fun l => { l with forcedParent := ov.forcedParent }
  | .hide => there

theorem getElem?_applyOverride :
    (applyOverride links ov)[k]? = if ov.key = k then decideAt links[k]? ov else links[k]? := by
  rw [applyOverride, decideAt]
  cases ov.action with
  | pin => exact getElem?_addLink
  | hide => simp
  | direction =>
    simp only [ExtTreeMap.getElem?_modify, Std.compare_eq_iff_eq]
    split
    next hk => rw [hk]
    next => rfl

variable (overrides : List LinkOverride)

/-- Whether a pair is hidden. -/
def hides (overrides : List LinkOverride) (k : LinkKey) : Bool :=
  overrides.any fun ov => decide (ov.action = .hide) && decide (ov.key = k)

/-- The decisions about a pair other than to hide it, in their order. -/
def decisions (overrides : List LinkOverride) (k : LinkKey) : List LinkOverride :=
  overrides.filter fun ov => decide (ov.action ≠ .hide) && decide (ov.key = k)

/-- The link of a pair after all decisions. -/
theorem getElem?_applyOverrides :
    (applyOverrides links overrides)[k]?
      = if hides overrides k then none else (decisions overrides k).foldl decideAt links[k]? := by
  rw [applyOverrides, Lib.getElem?_foldl_erase LinkOverride.key,
    Lib.getElem?_foldl fun _ ov => getElem?_applyOverride ov, filter_filter, hides, decisions]
  simp [Bool.and_comm, and_assoc]

variable {inp : DeriveInput} {ov : LinkOverride} {there : Option DerivedLink}

theorem Keyed.decideAt (h : ∀ l ∈ there, l.key = k) (hov : ov.key = k) :
    ∀ l ∈ Topology.decideAt there ov, l.key = k := by
  intro l hl
  rw [Topology.decideAt] at hl
  cases haction : ov.action with
  | pin =>
    rw [haction] at hl
    cases hl
    cases there with
    | none => exact hov
    | some there => exact h there rfl
  | hide =>
    rw [haction] at hl
    exact h l hl
  | direction =>
    rw [haction] at hl
    obtain ⟨there, hthere, rfl⟩ := Option.map_eq_some_iff.1 hl
    exact h there hthere

theorem Keyed.applyOverrides (h : Keyed links) (overrides : List LinkOverride) :
    Keyed (applyOverrides links overrides) := by
  intro k l hl
  rw [getElem?_applyOverrides] at hl
  split at hl
  next => simp at hl
  next =>
    have hfold := foldlRecOn (motive := fun there => ∀ l ∈ there, l.key = k)
      (decisions overrides k) Topology.decideAt (fun l hl => h k l hl) fun there hthere ov hov =>
        Keyed.decideAt hthere (of_decide_eq_true (Bool.and_eq_true_iff.1 (mem_filter.1 hov).2).2)
    exact hfold l hl

/-- The link is there, and an operator is among its sources. -/
def IsPinned (there : Option DerivedLink) : Prop := ∃ l, there = some l ∧ .manual ∈ l.sources

theorem decideAt_pin (there : Option DerivedLink) (hov : ov.action = .pin) :
    IsPinned (decideAt there ov) := by
  refine ⟨mergeInto there ov.manual, by rw [decideAt, hov], ?_⟩
  cases there with
  | none => exact manual_mem_sources ov
  | some there => exact mem_merge_sources.2 (.inr (manual_mem_sources ov))

theorem IsPinned.decideAt (h : IsPinned there) (ov : LinkOverride) :
    IsPinned (decideAt there ov) := by
  obtain ⟨l, rfl, hl⟩ := h
  cases haction : ov.action with
  | pin => exact decideAt_pin _ haction
  | hide => exact ⟨l, by rw [Topology.decideAt, haction], hl⟩
  | direction =>
    exact ⟨{ l with forcedParent := ov.forcedParent }, by rw [Topology.decideAt, haction]; rfl, hl⟩

variable {ovs : List LinkOverride}

/-- A pin among the decisions leaves a pinned link, wherever it stands. -/
theorem foldl_decideAt_pin (hov : ov ∈ ovs) (hpin : ov.action = .pin) (there : Option DerivedLink) :
    IsPinned (ovs.foldl decideAt there) := by
  obtain ⟨before, after, rfl⟩ := append_of_mem hov
  rw [foldl_append]
  exact foldlRecOn (motive := IsPinned) after _ (decideAt_pin _ hpin)
    fun _ h ov _ => h.decideAt ov

/-- A link that is there stays there. -/
theorem foldl_decideAt_isSome (ovs : List LinkOverride) (h : there.isSome) :
    (ovs.foldl decideAt there).isSome := by
  refine foldlRecOn (motive := fun there : Option DerivedLink => there.isSome) ovs _ h
    fun there h ov _ => ?_
  obtain ⟨l, rfl⟩ := Option.isSome_iff_exists.1 h
  rw [decideAt]
  cases ov.action <;> rfl

/-- Without a pin, no link comes to be. -/
theorem foldl_decideAt_none (h : ∀ ov ∈ ovs, ov.action ≠ .pin) :
    ovs.foldl decideAt none = none := by
  refine foldlRecOn (motive := fun there => there = none) ovs _ rfl fun there hthere ov hov => ?_
  rw [decideAt]
  cases haction : ov.action <;> simp_all

/-- Decisions that are no directions keep the upstream end of a link, and a link they make has
none. -/
theorem foldl_decideAt_forcedParent (h : ∀ ov ∈ ovs, ov.action ≠ .direction)
    {parent : Option NodeId} (hthere : ∀ l ∈ there, l.forcedParent = parent)
    (hnone : there = none → parent = none) :
    ∀ l ∈ ovs.foldl decideAt there, l.forcedParent = parent := by
  refine (foldlRecOn (motive := fun there : Option DerivedLink =>
    (∀ l ∈ there, l.forcedParent = parent) ∧ (there = none → parent = none)) ovs decideAt
    ⟨hthere, hnone⟩ ?_).1
  rintro there ⟨hthere, hnone⟩ ov hov
  rw [decideAt]
  cases haction : ov.action with
  | direction => exact absurd haction (h ov hov)
  | hide => exact ⟨hthere, hnone⟩
  | pin =>
    -- A pin names no end, so merging it in changes nothing here.
    have hmanual : ov.manual.forcedParent = none := by
      simp [LinkOverride.manual, LinkOverride.forcedParent, haction]
    refine ⟨fun l hl => ?_, nofun⟩
    cases hl
    cases there with
    | none => exact hmanual.trans (hnone rfl).symm
    | some l =>
      simp only [mergeInto, Option.elim_some, DerivedLink.merge, hmanual]
      have hparent := hthere l rfl
      cases hl : l.forcedParent with
      | none | some node => exact hl.symm.trans hparent

/-! ### The limit -/

section
variable (s : Capped) (l : DerivedLink)

@[simp] theorem links_capLink :
    (s.capLink l).links = if s.full l.key then s.links else s.links ++ [l] := by
  rw [Capped.capLink]
  split <;> rfl

theorem linksOf_bump (node n : NodeId) :
    (s.bump node).linksOf n = s.linksOf n + if node = n then 1 else 0 := by
  rw [Capped.linksOf, Capped.bump, getD_insert]
  by_cases h : node = n <;> simp [h, Capped.linksOf]

@[simp] theorem linksOf_capLink (n : NodeId) :
    (s.capLink l).linksOf n = if s.full l.key then s.linksOf n
      else s.linksOf n + (if l.key.aNode = n then 1 else 0) + if l.key.bNode = n then 1 else 0 := by
  rw [Capped.capLink]
  split
  · rfl
  · rw [← linksOf_bump, ← linksOf_bump]
    rfl

end

/-- A link that is kept stays kept. -/
theorem mem_foldl_capLink {s : Capped} (h : l ∈ s.links) (ls : List DerivedLink) :
    l ∈ (ls.foldl Capped.capLink s).links := by
  refine foldlRecOn (motive := fun s : Capped => l ∈ s.links) ls _ h fun s h l' _ => ?_
  rw [links_capLink]
  split
  · exact h
  · exact mem_append_left _ h

/-- Only links that come are kept. -/
theorem foldl_capLink_subset (ls : List DerivedLink) (s : Capped) :
    ∀ l ∈ (ls.foldl Capped.capLink s).links, l ∈ s.links ∨ l ∈ ls := by
  induction ls generalizing s with
  | nil => exact fun l hl => .inl hl
  | cons l' rest ih =>
    intro l hl
    rcases ih _ l hl with hl | hl
    · rw [links_capLink] at hl
      split at hl
      · exact .inl hl
      · exact (mem_append.1 hl).imp_right fun h => mem_cons.2 (.inl (mem_singleton.1 h))
    · exact .inr (mem_cons_of_mem _ hl)

theorem mem_linkList (h : Keyed links) : l ∈ linkList links ↔ links[l.key]? = some l := by
  rw [linkList, mem_map]
  constructor
  · rintro ⟨entry, hentry, rfl⟩
    have hget : links[entry.1]? = some entry.2 :=
      mem_toList_iff_getElem?_eq_some.1 hentry
    rw [h _ _ hget]
    exact hget
  · intro hget
    exact ⟨(l.key, l), mem_toList_iff_getElem?_eq_some.2 hget, rfl⟩

theorem pairwise_linkList (h : Keyed links) :
    (linkList links).Pairwise fun l l' => l.key < l'.key := by
  refine pairwise_map.2 (ordered_keys_toList.imp_of_mem fun hx hy hlt => ?_)
  rw [h _ _ (mem_toList_iff_getElem?_eq_some.1 hx), h _ _ (mem_toList_iff_getElem?_eq_some.1 hy)]
  exact compare_lt_iff_lt.1 hlt

/-- The limit when it comes to a pair. -/
def capBefore (links : LinkMap) (k : LinkKey) : Capped :=
  ((linkList links).filter fun l => decide (l.key < k)).foldl Capped.capLink .empty

/-- When the limit comes to a pair, neither end has as many links as it may. -/
def RoomFor (links : LinkMap) (k : LinkKey) : Prop := (capBefore links k).full k = false

instance : Decidable (RoomFor links k) := inferInstanceAs (Decidable (_ = _))

/-- A link is kept exactly when there is room for it in its turn. -/
theorem mem_capLinks (h : Keyed links) :
    l ∈ (capLinks links).links ↔ links[l.key]? = some l ∧ RoomFor links l.key := by
  rw [← mem_linkList h]
  by_cases hl : l ∈ linkList links
  · obtain ⟨before, after, hsplit⟩ := append_of_mem hl
    have hsorted := pairwise_append.1 (hsplit ▸ pairwise_linkList h)
    have hbefore : ∀ x ∈ before, x.key < l.key := fun x hx => hsorted.2.2 x hx l mem_cons_self
    have hafter : ∀ x ∈ after, l.key < x.key := (pairwise_cons.1 hsorted.2.1).1
    have hcap : capBefore links l.key = before.foldl Capped.capLink .empty := by
      rw [capBefore, hsplit, filter_append, filter_eq_self.2 (by simpa using hbefore),
        filter_cons_of_neg (by simp),
        filter_eq_nil_iff.2 fun x hx => by simpa using (hafter x hx).le, append_nil]
    have hnew : l ∉ (before.foldl Capped.capLink .empty).links := fun hmem =>
      (hbefore l ((foldl_capLink_subset _ _ l hmem).resolve_left not_mem_nil)).false
    rw [and_iff_right hl, RoomFor, hcap, capLinks, hsplit, foldl_append, foldl_cons]
    generalize before.foldl Capped.capLink .empty = s at hnew ⊢
    cases hfull : s.full l.key with
    | true =>
      refine iff_of_false (fun hmem => ?_) (by simp)
      rcases foldl_capLink_subset _ _ l hmem with hin | hin
      · exact hnew (by simpa [hfull] using hin)
      · exact (hafter l hin).false
    | false => exact iff_of_true (mem_foldl_capLink (by simp [hfull]) after) rfl
  · refine iff_of_false (fun hmem => hl ?_) fun hmem => hl hmem.1
    exact (foldl_capLink_subset _ _ l hmem).resolve_left not_mem_nil

/-- The links of one node to others are kept up to the limit. -/
theorem cap_star {hub : NodeId} {ns : List NodeId} {link : NodeId → DerivedLink}
    (hlink : ∀ n ∈ ns, (link n).key = .of hub n) (hnodup : (hub :: ns).Nodup)
    (hlen : ns.length ≤ maxLinksPerNode) :
    ((ns.map link).foldl Capped.capLink .empty).links = ns.map link ∧
      ∀ m, ((ns.map link).foldl Capped.capLink .empty).linksOf m
        = if m = hub then ns.length else if m ∈ ns then 1 else 0 := by
  induction ns using reverseRecOn with
  | nil => simp [Capped.empty, Capped.linksOf]
  | append_singleton ns n ih =>
    obtain ⟨hhub, hn⟩ : hub ∉ ns ∧ hub ≠ n := by simpa using (nodup_cons.1 hnodup).1
    obtain ⟨hns, hnew⟩ : ns.Nodup ∧ n ∉ ns := by simpa [nodup_append'] using (nodup_cons.1 hnodup).2
    rw [length_append, length_singleton] at hlen ⊢
    obtain ⟨hlinks, hcount⟩ := ih (fun m hm => hlink m (mem_append_left _ hm))
      (nodup_cons.2 ⟨hhub, hns⟩) (Nat.le_of_succ_le hlen)
    have hends : (link n).key.aNode = hub ∧ (link n).key.bNode = n ∨
        (link n).key.aNode = n ∧ (link n).key.bNode = hub := by
      rw [hlink n (by simp), LinkKey.of]
      split <;> simp
    simp only [map_append, map_cons, map_nil, foldl_append, foldl_cons, foldl_nil]
    generalize (ns.map link).foldl Capped.capLink .empty = s at hlinks hcount ⊢
    have hroom : s.full (link n).key = false := by
      rcases hends with ⟨ha, hb⟩ | ⟨ha, hb⟩ <;>
        simp [Capped.full, ha, hb, hcount, hnew, Ne.symm hn] <;> omega
    refine ⟨by simp [hroom, hlinks], fun m => ?_⟩
    rw [linksOf_capLink, hroom, hcount]
    rcases hends with ⟨ha, hb⟩ | ⟨ha, hb⟩ <;> grind

/-! ### The decisions in the derived graph -/

variable (inp)

/-- The links the limit is applied to. -/
def DeriveInput.decided : LinkMap := applyOverrides inp.observed inp.overrides

theorem decided_keyed : Keyed inp.decided :=
  (observed_keyed inp).applyOverrides inp.overrides

theorem links_eq : (deriveLinks inp).links = (capLinks inp.decided).links := rfl

variable {inp}

/-- An output link is the link of its pair after the decisions, and there was room for it. -/
theorem mem_links : l ∈ (deriveLinks inp).links ↔
    inp.decided[l.key]? = some l ∧ RoomFor inp.decided l.key :=
  mem_capLinks (decided_keyed inp)

/-- A pair that is pinned and not hidden has a link, with an operator among the sources. -/
theorem decided_of_pin (hov : ov ∈ inp.overrides) (hpin : ov.action = .pin)
    (hshown : hides inp.overrides ov.key = false) :
    ∃ l, inp.decided[ov.key]? = some l ∧ l.key = ov.key ∧ .manual ∈ l.sources := by
  have hmem : ov ∈ decisions inp.overrides ov.key := mem_filter.2 ⟨hov, by simp [hpin]⟩
  obtain ⟨l, hl, hmanual⟩ := foldl_decideAt_pin hmem hpin inp.observed[ov.key]?
  have hget : inp.decided[ov.key]? = some l := by
    rw [DeriveInput.decided, getElem?_applyOverrides, hshown]
    exact hl
  exact ⟨l, hget, decided_keyed inp ov.key l hget, hmanual⟩

/-- The decision comes when its link is there: it is derived or pinned before, or it is not pinned
later. -/
def InTime (inp : DeriveInput) (before : List LinkOverride) (dir : LinkOverride)
    (after : List LinkOverride) : Prop :=
  dir.key ∈ inp.observed ∨ (∃ ov ∈ before, ov.action = .pin ∧ ov.key = dir.key) ∨
    ∀ ov ∈ after, ov.action = .pin → ov.key ≠ dir.key

/-- No decision in the list names the upstream end of the pair. -/
def NoDirection (overrides : List LinkOverride) (k : LinkKey) : Prop :=
  ∀ ov ∈ overrides, ov.action = .direction → ov.key ≠ k

/-- The last direction for a pair holds in the end if it is given in time, and is lost if not. -/
theorem forcedParent_decided {before after : List LinkOverride} {dir : LinkOverride}
    (hovs : inp.overrides = before ++ dir :: after) (hdir : dir.action = .direction)
    (hafter : NoDirection after dir.key) (hl : inp.decided[dir.key]? = some l) :
    InTime inp before dir after ∧ l.forcedParent = dir.forcedParent ∨
      ¬ InTime inp before dir after ∧ l.forcedParent = none := by
  rw [DeriveInput.decided, getElem?_applyOverrides] at hl
  split at hl
  next => simp at hl
  next =>
    have hsplit : decisions inp.overrides dir.key
        = decisions before dir.key ++ dir :: decisions after dir.key := by
      rw [hovs, decisions, filter_append, filter_cons_of_pos (by simp [hdir])]
      rfl
    have hmem : ∀ {ovs : List LinkOverride} {ov}, ov ∈ decisions ovs dir.key ↔
        ov ∈ ovs ∧ ov.action ≠ .hide ∧ ov.key = dir.key := by simp [decisions]
    have hnodir : ∀ ov ∈ decisions after dir.key, ov.action ≠ .direction := fun ov hov haction =>
      hafter ov (hmem.1 hov).1 haction (hmem.1 hov).2.2
    rw [hsplit, foldl_append, foldl_cons] at hl
    generalize hthere : (decisions before dir.key).foldl decideAt inp.observed[dir.key]? = there
      at hl
    have hstep : decideAt there dir
        = there.map fun l => { l with forcedParent := dir.forcedParent } := by
      rw [decideAt, hdir]
    rw [hstep] at hl
    cases there with
    | some there =>
      refine .inl ⟨?_, foldl_decideAt_forcedParent hnodir (by simp) (by simp) l hl⟩
      by_cases hobserved : dir.key ∈ inp.observed
      · exact .inl hobserved
      · refine .inr (.inl ?_)
        by_contra hpin
        rw [getElem?_neg _ _ hobserved, foldl_decideAt_none] at hthere
        · cases hthere
        · exact fun ov hov haction => hpin ⟨ov, (hmem.1 hov).1, haction, (hmem.1 hov).2.2⟩
    | none =>
      refine .inr ⟨?_, foldl_decideAt_forcedParent hnodir (by simp) (fun _ => rfl) l hl⟩
      rintro (hobserved | ⟨ov, hov, hpin, hkey⟩ | hnopin)
      · have hsome := foldl_decideAt_isSome (decisions before dir.key)
          (mem_iff_isSome_getElem?.1 hobserved)
        simp [hthere] at hsome
      · obtain ⟨l', hl', -⟩ := foldl_decideAt_pin (hmem.2 ⟨hov, by simp [hpin], hkey⟩) hpin
          inp.observed[dir.key]?
        simp [hthere] at hl'
      · rw [Option.map_none, foldl_decideAt_none] at hl
        · cases hl
        · exact fun ov hov haction => hnopin ov (hmem.1 hov).1 haction (hmem.1 hov).2.2

/-- One pin, and a direction after it. -/
def pinThenDirection : DeriveInput :=
  { nodes := [], l3 := [], neighbors := [], routing := [], chassisMacs := []
    overrides := [⟨1, 2, .pin, none⟩, ⟨1, 2, .direction, some .bParent⟩] }

/-- The same two decisions in the other order. -/
def directionThenPin : DeriveInput :=
  { pinThenDirection with overrides := [⟨1, 2, .direction, some .bParent⟩, ⟨1, 2, .pin, none⟩] }

/-- So many pins of one node. -/
def pinsOf (count : Nat) : DeriveInput :=
  { pinThenDirection with
      overrides := (range' 1 count).map fun n => ⟨0, n, .pin, none⟩ }

/-- The last of the pins finds its node full. -/
theorem capBefore_pins : (capBefore (pinsOf 513).decided (.of 0 513)).linksOf 0 = 512 := by
  have hbefore : ((linkList (pinsOf 513).decided).filter fun l => decide (l.key < .of 0 513))
      = (range' 1 512).map fun n => .new 0 n .manual := by decide +kernel
  have hstar := @cap_star 0 (range' 1 512) (fun n => .new 0 n .manual) (fun _ _ => rfl)
    (nodup_cons.2 ⟨by simp, nodup_range'⟩) (by simp [maxLinksPerNode])
  rw [capBefore, hbefore, hstar.2]
  simp

end Yagra.Topology
