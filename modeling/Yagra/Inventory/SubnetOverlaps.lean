import Mathlib.Data.List.DropRight
import Mathlib.Data.List.Infix
import Mathlib.Data.String.Basic
import Mathlib.Order.WithBot
import Yagra.Common.Address
import Yagra.Lib.OrdSet

/-!
# `Yagra.Inventory.SubnetOverlaps`: the address ranges that two sites both use

`find` turns the interface addresses of every device into places, one for each address that forms a
network. `overlapsOf` finds the ranges that more than one site carries, and the ranges of one site
inside those of another. Rules take places away, acknowledgements answer an overlap, and a short
range with two devices is a link. Then `Draft.finish` says about each overlap what the caller may
see.

A sorted map from ranges to places is here its keys in their order and the places of a key
(`carriers`). The map of the nested ranges is filled by one entry for each pair of ranges
(`Nesting`). How a text is put in lower case is part of the input.
-/

set_option autoImplicit false

namespace Yagra.Inventory

open Yagra.Lib
open OrdSet (ofList)

/-- How many places are listed with one overlap. -/
def placesMax : Nat := 50
/-- How many inner ranges are listed with one overlap. -/
def innerMax : Nat := 20
/-- From how many sites a range looks like a template. -/
def templateMinSites : Nat := 10
/-- From how many sites a range looks like a shared line. -/
def sharedLineMinSites : Nat := 3

/-- Words that suggest a port towards a WAN. -/
def wanWords : List String :=
  ["wan", "isp", "internet", "onu", "dialer", "wwan", "lte", "cellular", "pppoe", "carrier"]

/-- Words that suggest a port between the two members of a redundant pair. -/
def redundancyWords : List String := ["ha", "hasync", "sync", "heartbeat", "failover"]

/-- A site. The root of the tree is `⊥`. -/
abbrev SiteId := WithBot Uuid

/-- How the ranges of two sites meet. -/
inductive OverlapKind where
  | sameAddress | nested | sameRange
deriving DecidableEq, Repr

/-- The order of kinds. -/
def OverlapKind.rank : OverlapKind → Nat
  | sameAddress => 0
  | nested => 1
  | sameRange => 2

/-- Where an overlap stands. -/
inductive OverlapStatus where
  | stillOpen | intentional | excluded
deriving DecidableEq, Repr

/-- The order of statuses. -/
def OverlapStatus.rank : OverlapStatus → Nat
  | stillOpen => 0
  | intentional => 1
  | excluded => 2

/-- What took an overlap out of the open list. -/
inductive Exclusion where
  | link
  | rule (id : Uuid)
deriving DecidableEq, Repr

/-- Why an overlap looks expected. -/
inductive OverlapHint where
  | wan (word : String)
  | redundancy (word : String)
  | sharedLine
  | template
deriving DecidableEq, Repr

/-- A rule takes away the places in its range and on ports with its text. -/
structure Rule where
  id : Uuid
  range : Option SubnetKey
  portText : Option String
  enabled : Bool

/-- The overlap `key` is deliberate across `sites`. -/
structure Ack where
  key : String
  sites : OrdSet SiteId

/-- A port, as it is named. -/
structure Port where
  name : Option String
  portAlias : Option String

/-- An interface address and the port it is on. -/
structure PortAddress extends L3Address where
  ifindex : Nat

/-- One place a range was seen. -/
structure Place where
  siteId : SiteId
  nodeId : NodeId
  ifindex : Nat
  ifName : Option String
  ifAlias : Option String
  address : String
  subnet : String
  ip : IpAddr
deriving DecidableEq

/-- One range that more than one site carries, as it is reported. -/
structure Overlap where
  key : String
  kind : OverlapKind
  status : OverlapStatus
  subnet : String
  outerWithheld : Bool
  inner : List String
  innerCount : Nat
  sharedAddresses : List String
  siteCount : Nat
  hiddenSites : Nat
  nodeCount : Nat
  places : List Place
  placeCount : Nat
  hint : Option OverlapHint
  excludedBy : List Exclusion
  sites : OrdSet SiteId

/-- Everything the comparison reads. -/
structure Input where
  observed : List (NodeId × List PortAddress)
  siteOf : NodeId → SiteId
  ports : NodeId → Nat → Option Port
  rules : List Rule
  acks : List Ack
  /-- The devices the caller may see, unless it may see all. -/
  visible : Option (List NodeId)
  lower : String → String

/-- A size as a 32-bit number. -/
def count (n : Nat) : Nat := min n (2 ^ 32 - 1)

/-! ### Words on ports -/

section
variable (lower : String → String)

/-- The words of a text. -/
def wordsOf (text : String) : List (List Char) :=
  ((lower text).toList.splitOnP fun c => !c.isAlphanum).filter fun word => !word.isEmpty

/-- Whether a token is the word, or the word followed by digits. -/
def wordIs (token word : List Char) : Bool :=
  decide (token = word) || decide (token.rdropWhile Char.isDigit = word)

/-- Whether the words of `needle` stand in `text` in this order. A needle without words is looked
for as it is. -/
def carriesWords (text needle : String) : Bool :=
  let wanted := wordsOf lower needle
  if wanted.isEmpty then
    let needle := (lower (trim needle)).toList
    !needle.isEmpty && decide (needle <:+: (lower text).toList)
  else
    (wordsOf lower text).tails.any fun window =>
      decide (wanted.length ≤ window.length) && (window.zip wanted).all fun p => wordIs p.1 p.2

/-- Whether a rule takes a place away. -/
def ruleMatches (rule : Rule) (subnet : SubnetKey) (place : Place) : Bool :=
  let carried (text : String) (s : Option String) := s.any fun s => carriesWords lower s text
  if !rule.enabled then false
  else if rule.range.isNone && rule.portText.isNone then false
  else
    (rule.range.all fun range => range.contains subnet) &&
      rule.portText.all fun text => carried text place.ifName || carried text place.ifAlias

/-- The first word of a port that is one of `words`. -/
def portWord (place : Place) (words : List String) : Option String :=
  let text := " ".intercalate ((place.ifName.toList ++ place.ifAlias.toList).map lower)
  (wordsOf lower text).findSome? fun token => words.find? fun w => wordIs token w.toList

/-- The word that was found more often, the earlier one of two. -/
def moreCommon (found : List String) (best : Option String) (w : String) : Option String :=
  match best with
  | none => some w
  | some b => if found.count b < found.count w then some w else some b

/-- The most common word of `found`, the first in the alphabet of several. -/
def mostCommon (found : List String) : Option String :=
  (ofList found).toList.foldl (moreCommon found) none

/-- The word that the port of every place carries, if there is one. -/
def commonWord (places : List (SubnetKey × Place)) (words : List String) : Option String :=
  (places.mapM fun p => portWord lower p.2 words).bind mostCommon

end

/-! ### Places -/

/-- The place of an address, with the range it forms. -/
def Input.placeOf (input : Input) (node : NodeId) (addr : PortAddress) :
    Option (SubnetKey × Place) :=
  addr.subnet.map fun subnet =>
    let port := input.ports node addr.ifindex
    (subnet,
      { siteId := input.siteOf node
        nodeId := node
        ifindex := addr.ifindex
        ifName := port.bind Port.name
        ifAlias := port.bind Port.portAlias
        address := addr.ip.text ++ "/" ++ addr.prefixLen.repr
        subnet := subnet.text
        ip := addr.ip })

/-- All places, by range. -/
def collectPlaces (input : Input) : List (SubnetKey × Place) :=
  input.observed.flatMap fun o => o.2.filterMap (input.placeOf o.1)

/-- The sites of some places. -/
def sitesOf (places : List Place) : OrdSet SiteId := ofList (places.map Place.siteId)

variable (places : List (SubnetKey × Place)) (subnet : SubnetKey)

/-- The ranges of the places, in their order. -/
def rangesOf : List SubnetKey :=
  (ofList (places.map Prod.fst)).toList

/-- The places of a range. -/
def carriers : List Place :=
  (places.filter fun p => decide (p.1 = subnet)).map Prod.snd

/-! ### Drafts -/

/-- An overlap before its status is decided. -/
structure Draft where
  key : String
  kind : OverlapKind
  subnet : SubnetKey
  inner : List SubnetKey
  shared : List IpAddr
  sites : OrdSet SiteId
  places : List (SubnetKey × Place)

/-- The addresses that two sites both configure. -/
def sharedOf (places : List Place) : List IpAddr :=
  (ofList (places.map Place.ip)).toList.filter fun ip =>
    decide (1 < (sitesOf (places.filter fun p => decide (p.ip = ip))).toList.length)

/-- The overlap of a range that two sites carry. -/
def sameDraft (places : List Place) : Option Draft :=
  if (sitesOf places).toList.length < 2 then none
  else
    let shared := sharedOf places
    some
      { key := "same:" ++ subnet.text
        kind := if shared.isEmpty then .sameRange else .sameAddress
        subnet := subnet
        inner := []
        shared := shared
        sites := sitesOf places
        places := places.map fun p => (subnet, p) }

/-- A range inside another, with the places of it that are not at the only site of the other. -/
structure Nesting where
  outer : SubnetKey
  inner : SubnetKey
  crossing : List Place

/-- The places inside a range that some other site carries. -/
def crossingOf (outerPlaces innerPlaces : List Place) : List Place :=
  innerPlaces.filter fun p => (sitesOf outerPlaces).toList.any fun s => decide (s ≠ p.siteId)

/-- The pair of a range and the wider range of length `len` around it. -/
def nestingAt (inner : SubnetKey) (len : Nat) :
    Option Nesting := do
  let outer ← subnetKey inner.network len
  let crossing := crossingOf (carriers places outer) (carriers places inner)
  if outer ∈ rangesOf places ∧ crossing ≠ [] then some ⟨outer, inner, crossing⟩ else none

/-- All nestings. -/
def nestings : List Nesting :=
  (rangesOf places).flatMap fun inner =>
    (List.range' 1 (inner.prefixLen - 1)).reverse.filterMap (nestingAt places inner)

/-- The overlap of a range with the ranges of other sites inside it. -/
def nestedDraft (outer : SubnetKey) : Draft :=
  let under := (nestings places).filter fun n => decide (n.outer = outer)
  let all := under.flatMap (fun n => n.crossing.map fun p => (n.inner, p)) ++
    (carriers places outer).map fun p => (outer, p)
  { key := "nested:" ++ outer.text
    kind := .nested
    subnet := outer
    inner := (ofList (under.map Nesting.inner)).toList
    shared := []
    sites := sitesOf (all.map Prod.snd)
    places := all }

/-- The overlaps of a set of places. -/
def overlapsOf : List Draft :=
  (rangesOf places).filterMap (fun subnet => sameDraft subnet (carriers places subnet)) ++
    (ofList ((nestings places).map Nesting.outer)).toList.map (nestedDraft places)

/-- The range can hold two addresses only. -/
def isShort : Bool :=
  match subnet.network with
  | .v4 _ => decide (30 ≤ subnet.prefixLen)
  | .v6 _ => decide (126 ≤ subnet.prefixLen)

/-! ### The narrowest range around some -/

/-- Widen the range of `network` with length `len` until it contains `r`. -/
def widen (r : SubnetKey) : Nat → IpAddr → Option SubnetKey
  | 0, network => if (SubnetKey.mk network 0).contains r then some ⟨network, 0⟩ else none
  | len + 1, network =>
    if (SubnetKey.mk network (len + 1)).contains r then some ⟨network, len + 1⟩
    else (subnetKey network len).bind fun wider => widen r len wider.network

/-- The narrowest range that contains every one of `ranges`. -/
def covering : List SubnetKey → Option SubnetKey
  | [] => none
  | first :: rest => rest.foldlM (fun cover r => widen r cover.prefixLen cover.network) first

/-! ### What the caller is told -/

/-- Whether the caller may see a device. -/
def sees (visible : Option (List NodeId)) (p : Place) : Bool :=
  visible.all fun v => decide (p.nodeId ∈ v)

/-- What the list of places is sorted by. -/
def Place.rank (p : Place) : SiteId ×ₗ NodeId ×ₗ Nat ×ₗ String :=
  toLex (p.siteId, toLex (p.nodeId, toLex (p.ifindex, p.address)))

namespace Draft

variable (d : Draft) (visible : Option (List NodeId))

/-- The link between two sites: one short range, two devices, two addresses. -/
def isLink : Bool :=
  if !isShort d.subnet || decide (d.kind = .nested) then false
  else
    decide ((ofList (d.places.map fun p => p.2.nodeId)).toList.length = 2) &&
      decide ((ofList (d.places.map fun p => p.2.ip)).toList.length = 2)

/-- Whether every site has one device. -/
def oneDevicePerSite : Bool :=
  (sitesOf (d.places.map Prod.snd)).toList.all fun site =>
    let nodes := (d.places.filter fun p => decide (p.2.siteId = site)).map fun p => p.2.nodeId
    decide ((ofList nodes).toList.length = 1)

/-- Why an overlap may be harmless. -/
def hintFor (lower : String → String) (d : Draft) : Option OverlapHint :=
  match commonWord lower d.places wanWords with
  | some word => some (.wan word)
  | none =>
    match commonWord lower d.places redundancyWords with
    | some word => some (.redundancy word)
    | none =>
      if d.kind = .sameRange ∧ sharedLineMinSites ≤ d.sites.toList.length ∧
          d.oneDevicePerSite then some .sharedLine
      else if templateMinSites ≤ d.sites.toList.length then some .template
      else none

/-- The places in sight. -/
def seen : List (SubnetKey × Place) :=
  d.places.filter fun p => sees visible p.2

/-- The inner ranges that a place in sight has. -/
def innerSeen : List SubnetKey :=
  d.inner.filter fun i => d.places.any fun p => decide (p.1 = i) && sees visible p.2

/-- Whether no place in sight has the outer range of a nested overlap. -/
def outerWithheld : Bool :=
  decide (d.kind = .nested) && !d.places.any fun p => decide (p.1 = d.subnet) && sees visible p.2

/-- The key and the range an overlap is named by. -/
def named : String × SubnetKey :=
  match covering (d.innerSeen visible), d.outerWithheld visible with
  | some cover, true => ("within:" ++ cover.text, cover)
  | _, _ => (d.key, d.subnet)

/-- The overlap as the caller sees it. -/
def finish (lower : String → String) (d : Draft) (status : OverlapStatus)
    (excludedBy : List Exclusion) (visible : Option (List NodeId)) : Overlap :=
  let hint :=
    if visible.isNone then d.hintFor lower
    else ({ d with places := d.seen visible } : Draft).hintFor lower
  let seenSites := sitesOf ((d.seen visible).map Prod.snd)
  let inner := d.innerSeen visible
  let shared := d.shared.filter fun ip =>
    d.places.any fun p => decide (p.2.ip = ip) && sees visible p.2
  let places := ((d.seen visible).map Prod.snd).insertionSort fun a b => a.rank ≤ b.rank
  { key := (d.named visible).1
    kind := d.kind
    status := status
    subnet := (d.named visible).2.text
    outerWithheld := d.outerWithheld visible
    inner := (inner.take innerMax).map SubnetKey.text
    innerCount := count inner.length
    sharedAddresses := shared.map IpAddr.text
    siteCount := count d.sites.toList.length
    hiddenSites := count (d.sites.toList.length - seenSites.toList.length)
    nodeCount := count (ofList (places.map Place.nodeId)).toList.length
    places := places.take placesMax
    placeCount := count places.length
    hint := hint
    excludedBy := excludedBy
    sites := d.sites }

end Draft

/-! ### The comparison -/

/-- What the comparison finds. -/
structure Findings where
  overlaps : List Overlap
  /-- How many ranges were compared. -/
  subnetsChecked : Nat
  /-- How many overlaps a rule excluded. -/
  ruleHits : Uuid → Nat

/-- What is left of an overlap once the rules took their places, or what excluded it. -/
def exclude (input : Input) (remaining : List Draft) (full : Draft) : Draft × List Exclusion :=
  if full.isLink then (full, [.link])
  else
    match (remaining.filter fun d => decide (d.key = full.key)).getLast? with
    | some kept => (kept, [])
    | none =>
      let matching := input.rules.filter fun r =>
        full.places.any fun p => ruleMatches input.lower r p.1 p.2
      (full, (ofList (matching.map Rule.id)).toList.map .rule)

/-- Where an overlap stands. -/
def statusOf (input : Input) (draft : Draft) (excludedBy : List Exclusion) : OverlapStatus :=
  if !excludedBy.isEmpty then .excluded
  else if (input.acks.find? fun a => decide (a.key = draft.key)).any fun a =>
      draft.sites.toList.all fun s => decide (s ∈ a.sites) then .intentional
  else .stillOpen

/-- What the list of overlaps is sorted by. -/
def Overlap.rank (o : Overlap) : Nat ×ₗ Nat ×ₗ Natᵒᵈ ×ₗ String :=
  toLex (o.status.rank, toLex (o.kind.rank, toLex (OrderDual.toDual o.siteCount, o.subnet)))

/-- The key of the `n`th row that has it. -/
def numbered (key : String) (n : Nat) : String := if 1 < n then key ++ "#" ++ n.repr else key

/-- Number the rows that would have the same key. -/
def numberKeys : List String → List Overlap → List Overlap
  | _, [] => []
  | earlier, o :: rest =>
    { o with key := numbered o.key (earlier.count o.key + 1) } :: numberKeys (o.key :: earlier) rest

/-- Compare every range the devices carry across sites. -/
def find (input : Input) : Findings :=
  let places := collectPlaces input
  let kept := places.filter fun p => !input.rules.any fun r => ruleMatches input.lower r p.1 p.2
  let decided := (overlapsOf places).map (exclude input (overlapsOf kept))
  let overlaps := (decided.map fun d =>
    d.1.finish input.lower (statusOf input d.1 d.2) d.2 input.visible).filter fun o =>
      !o.places.isEmpty
  { overlaps := numberKeys [] (overlaps.insertionSort fun a b => a.rank ≤ b.rank)
    subnetsChecked := count (rangesOf places).length
    ruleHits := fun id => (decided.filter fun d => decide (.rule id ∈ d.2)).length }

end Yagra.Inventory
