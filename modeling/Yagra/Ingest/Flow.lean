import Mathlib.Data.List.Sort
import Yagra.Common.Address

/-!
# `Yagra.Ingest.Flow`: the flows of a bucket, summed and cut

The records a device exports within a bucket are summed by their key, and the keys with the most
bytes are sent on. The number of keys is bounded, and a record of a further key is only counted.

The hash map of the source is a sorted map here. The order in which it yields its entries is an
argument of `drainTopN`.
-/

set_option autoImplicit false

namespace Yagra.Ingest

open Std (ExtTreeMap)

/-- The unsigned numbers of a width. -/
abbrev U (w : Nat) := Fin (2 ^ w)

instance neZero8 : NeZero (2 ^ 8) := ⟨by decide⟩
instance neZero16 : NeZero (2 ^ 16) := ⟨by decide⟩
instance neZero32 : NeZero (2 ^ 32) := ⟨by decide⟩
instance neZero64 : NeZero (2 ^ 64) := ⟨by decide⟩

/-- How many records are sent on by default. -/
def defaultFlowTopN : Nat := 500

/-- How many keys a bucket holds by default. -/
def maxAggKeys : Nat := 100000

/-- What tells the flows of a bucket apart. -/
structure FlowKey where
  srcIp : IpAddr
  dstIp : IpAddr
  srcPort : U 16
  dstPort : U 16
  proto : U 8
  tos : U 8
  ifIndex : U 32
deriving DecidableEq, Repr

namespace FlowKey

/-- The fields in the order in which keys are compared. -/
def fields (k : FlowKey) : IpAddr ×ₗ IpAddr ×ₗ U 16 ×ₗ U 16 ×ₗ U 8 ×ₗ U 8 ×ₗ U 32 :=
  toLex (k.srcIp, toLex (k.dstIp, toLex (k.srcPort, toLex (k.dstPort, toLex (k.proto,
    toLex (k.tos, k.ifIndex))))))

/-- Keys with the same fields are the same key. -/
theorem fields_injective : Function.Injective fields := by
  rintro ⟨⟩ ⟨⟩ h
  simpa [fields] using h

instance : LinearOrder FlowKey := LinearOrder.lift' fields fields_injective

instance : Std.TransCmp (compare : FlowKey → FlowKey → Ordering) := inferInstance

instance : Std.LawfulEqCmp (compare : FlowKey → FlowKey → Ordering) where
  eq_of_compare h := compare_eq_iff_eq.1 h

end FlowKey

/-- A decoded record. An AS number of zero is an unknown one. -/
structure RawFlow extends FlowKey where
  srcAs : U 32
  dstAs : U 32
  bytes : U 64
  packets : U 64
deriving DecidableEq, Repr

/-- The sums of a key, and the first AS numbers that were known. -/
structure Counts where
  bytes : U 64
  packets : U 64
  flows : U 32
  srcAs : U 32
  dstAs : U 32
deriving DecidableEq, Repr

/-- A record that is sent on. -/
structure AggregatedFlow extends FlowKey, Counts
deriving DecidableEq, Repr

/-- The sum, or the largest number of the width. -/
def saturatingAdd {w : Nat} (a b : U w) : U w :=
  ⟨min (a + b) (2 ^ w - 1), by have := Nat.two_pow_pos w; omega⟩

/-- Another record of a key. The first AS number that is known stays. -/
def Counts.absorb (c : Counts) (f : RawFlow) : Counts where
  bytes := saturatingAdd c.bytes f.bytes
  packets := saturatingAdd c.packets f.packets
  flows := saturatingAdd c.flows 1
  srcAs := if c.srcAs = 0 then f.srcAs else c.srcAs
  dstAs := if c.dstAs = 0 then f.dstAs else c.dstAs

/-- The counts of a key after one more record of it. -/
def Counts.including (f : RawFlow) : Option Counts → Counts
  | some c => c.absorb f
  | none =>
    { bytes := f.bytes, packets := f.packets, flows := 1, srcAs := f.srcAs, dstAs := f.dstAs }

/-- The flows of a bucket so far. -/
structure FlowAggregator where
  topN : Nat
  map : ExtTreeMap FlowKey Counts
  keyCap : Nat
  droppedOverflow : U 32

namespace FlowAggregator

/-- An empty bucket with these bounds. -/
def withCaps (topN keyCap : Nat) : FlowAggregator where
  topN := if topN = 0 then defaultFlowTopN else topN
  map := ∅
  keyCap := max keyCap 1
  droppedOverflow := 0

/-- An empty bucket with the default bound on its keys. -/
def new (topN : Nat) : FlowAggregator := withCaps topN maxAggKeys

variable (g : FlowAggregator)

/-- One more record, which is only counted when its key finds no room. -/
def add (f : RawFlow) : FlowAggregator :=
  if f.toFlowKey ∈ g.map ∨ g.map.size < g.keyCap then
    { g with map := g.map.insert f.toFlowKey (.including f g.map[f.toFlowKey]?) }
  else { g with droppedOverflow := saturatingAdd g.droppedOverflow 1 }

/-- The records of a bucket, one after the other. -/
def addAll (flows : List RawFlow) : FlowAggregator := flows.foldl add g

end FlowAggregator

/-- The record of an entry. -/
def record (e : FlowKey × Counts) : AggregatedFlow := { e.1, e.2 with }

/-- What the sort compares: bytes and packets downwards, then three fields of the key. -/
def AggregatedFlow.rank (a : AggregatedFlow) : (U 64)ᵒᵈ ×ₗ (U 64)ᵒᵈ ×ₗ IpAddr ×ₗ IpAddr ×ₗ U 16 :=
  toLex (.toDual a.bytes, toLex (.toDual a.packets, toLex (a.srcIp, toLex (a.dstIp, a.dstPort))))

/-- The records, those with the most bytes first. -/
def sortRecords (records : List AggregatedFlow) : List AggregatedFlow :=
  records.insertionSort fun a b => a.rank ≤ b.rank

/-- The records that are sent on, and how many records and keys were left out. -/
def FlowAggregator.drainTopN (g : FlowAggregator) (yielded : List (FlowKey × Counts)) :
    (List AggregatedFlow × U 32) × FlowAggregator :=
  (((sortRecords (yielded.map record)).take g.topN,
      saturatingAdd g.droppedOverflow (Fin.ofNat _ (g.map.size - g.topN))),
    { g with map := ∅, droppedOverflow := 0 })

end Yagra.Ingest
