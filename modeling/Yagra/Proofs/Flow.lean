import Mathlib.Data.List.Perm.Subperm
import Yagra.Ingest.Flow
import Yagra.Lib.SameMembers
import Yagra.Lib.TreeMap

/-!
# `Yagra.Proofs.Flow`: the cut of a bucket

The records of a bucket go into a hash map, and the sort that comes before the cut compares bytes,
packets, the two addresses and the destination port. Two keys can agree in all of these. They differ
in the source port then, for example, and the order in which the map yields them decides which one
comes first, and which one is cut off (`tie_by_hash_order`).

`drain_reproducible` says that this is the only way, and that it always shows when fewer keys than
the cut come before the two. The sums of a key do not depend on the order of its records
(`foldl_including_perm`), so without such a tie the cut is told by the records alone
(`TiesCut.take_eq`).
-/

set_option autoImplicit false

namespace Yagra.Ingest

open Std (ExtTreeMap)
open Yagra.Lib FlowAggregator Counts List

/-! ### The sums -/

/-- The loop without a bound on the keys. -/
def gather (m : ExtTreeMap FlowKey Counts) (f : RawFlow) : ExtTreeMap FlowKey Counts :=
  m.insert f.toFlowKey (.including f m[f.toFlowKey]?)

/-- With room for every key of the records, the bound plays no part. -/
theorem addAll_map {keys : List FlowKey} (l : List RawFlow) (g : FlowAggregator)
    (hl : ∀ f ∈ l, f.toFlowKey ∈ keys) (hmap : ∀ k ∈ g.map, k ∈ keys)
    (hcap : keys.length < g.keyCap) : (g.addAll l).map = l.foldl gather g.map := by
  induction l generalizing g with
  | nil => rfl
  | cons f rest ih =>
    have hsize : g.map.size < g.keyCap := by
      have hsub : g.map.keys ⊆ keys := fun k hk => hmap k (ExtTreeMap.mem_keys.1 hk)
      have := (List.Nodup.subperm ExtTreeMap.nodup_keys hsub).length_le
      rw [ExtTreeMap.length_keys] at this
      omega
    have hadd : g.add f = { g with map := gather g.map f } := if_pos (.inr hsize)
    rw [addAll, foldl_cons, hadd]
    refine ih _ (fun f' hf' => hl f' (mem_cons_of_mem f hf')) (fun k hk => ?_) hcap
    rcases ExtTreeMap.mem_insert.1 hk with hk | hk
    · rw [← compare_eq_iff_eq.1 hk]
      exact hl f mem_cons_self
    · exact hmap k hk

theorem getElem?_gather (l : List RawFlow) (k : FlowKey) :
    (l.foldl gather ∅)[k]? =
      (l.filter fun f => f.toFlowKey = k).foldl (fun o f => some (.including f o)) none := by
  have hstep : ∀ (m : ExtTreeMap FlowKey Counts) (f : RawFlow), (gather m f)[k]? =
      if f.toFlowKey = k then some (.including f m[k]?) else m[k]? := by
    intro m f
    rw [gather, ExtTreeMap.getElem?_insert]
    by_cases hk : f.toFlowKey = k <;> simp [hk]
  rw [getElem?_foldl (g := fun o f => some (.including f o)) hstep, ExtTreeMap.getElem?_empty]

/-! ### Records in another order -/

theorem saturatingAdd_right_comm {w : Nat} (a b c : U w) :
    saturatingAdd (saturatingAdd a b) c = saturatingAdd (saturatingAdd a c) b := by
  simp only [saturatingAdd, Fin.mk.injEq]
  omega

theorem saturatingAdd_comm {w : Nat} (a b : U w) : saturatingAdd a b = saturatingAdd b a := by
  rw [saturatingAdd, saturatingAdd, Fin.mk.injEq, Nat.add_comm]

/-- The counts apart from the systems. -/
def Counts.withoutAs (c : Counts) : Counts := { c with srcAs := 0, dstAs := 0 }

/-- The record apart from the systems. -/
def AggregatedFlow.withoutAs (a : AggregatedFlow) : AggregatedFlow :=
  { a with srcAs := 0, dstAs := 0 }

/-- Which AS numbers are known does not matter to the sums. -/
theorem including_withoutAs (f : RawFlow) (o : Option Counts) :
    (including f (o.map .withoutAs)).withoutAs = (including f o).withoutAs := by
  cases o <;> rfl

theorem foldl_including_withoutAs (l : List RawFlow) (o : Option Counts) :
    (l.foldl (fun o f => some (.including f o)) o).map .withoutAs =
      l.foldl (fun o f => some (including f o).withoutAs) (o.map .withoutAs) := by
  induction l generalizing o with
  | nil => rfl
  | cons f rest ih => rw [foldl_cons, foldl_cons, ih, Option.map_some, including_withoutAs]

/-- But for the AS numbers, the order of the records does not matter. -/
theorem foldl_including_perm {l l' : List RawFlow} (h : l.Perm l') :
    (l.foldl (fun o f => some (.including f o)) none).map withoutAs =
      (l'.foldl (fun o f => some (.including f o)) none).map .withoutAs := by
  rw [foldl_including_withoutAs, foldl_including_withoutAs]
  refine h.foldl_eq' (fun f _ f' _ o => ?_) _
  cases o with
  | none => simp [including, absorb, withoutAs, saturatingAdd_comm]
  | some c =>
    simp [including, absorb, withoutAs, saturatingAdd_right_comm]

theorem mem_records {m : ExtTreeMap FlowKey Counts} {a : AggregatedFlow} :
    a ∈ m.toList.map (fun e => (record e).withoutAs) ↔
      m[a.toFlowKey]?.map .withoutAs = some a.toCounts := by
  rw [mem_map, Option.map_eq_some_iff]
  constructor
  · rintro ⟨⟨k, c⟩, he, rfl⟩
    exact ⟨c, ExtTreeMap.mem_toList_iff_getElem?_eq_some.1 he, rfl⟩
  · rintro ⟨c, hc, hca⟩
    refine ⟨(a.toFlowKey, c), ExtTreeMap.mem_toList_iff_getElem?_eq_some.2 hc, ?_⟩
    cases a
    simpa [record, AggregatedFlow.withoutAs, withoutAs] using hca

theorem nodup_records (m : ExtTreeMap FlowKey Counts) :
    (m.toList.map fun e => (record e).withoutAs).Nodup := by
  refine List.Nodup.of_map AggregatedFlow.toFlowKey ?_
  rw [map_map]
  exact nodup_toList_fst m

/-! ### The cut -/

variable {m : ExtTreeMap FlowKey Counts} {n : Nat} {yielded : List (FlowKey × Counts)}

/-- Of keys that agree in all that the sort compares, so many come before them. -/
def TiesCut (m : ExtTreeMap FlowKey Counts) (n : Nat) : Prop :=
  ∀ e ∈ m.toList, ∀ e' ∈ m.toList, (record e).rank = (record e').rank → e.1 ≠ e'.1 →
    n ≤ below (fun e => (record e).rank) m.toList (record e).rank

/-- How many come before a rank is not a matter of the order. -/
theorem below_sortRecords {f : FlowKey × Counts → AggregatedFlow}
    (hf : ∀ e, (f e).rank = (record e).rank) (hy : yielded.Perm m.toList) (a : AggregatedFlow) :
    below AggregatedFlow.rank (sortRecords (yielded.map f)) a.rank
      = below (fun e => (record e).rank) m.toList a.rank := by
  rw [below, sortRecords, (perm_insertionSort _ _).countP_eq, countP_map, hy.countP_eq, below]
  simp only [Function.comp_def, hf]

/-- Where the ties come after the cut, the cut of the sort is told by the entries. -/
theorem TiesCut.take_eq (h : TiesCut m n) {f : FlowKey × Counts → AggregatedFlow}
    (hf : ∀ e, (f e).rank = (record e).rank) (hy : yielded.Perm m.toList)
    {l : List AggregatedFlow} (hl : (m.toList.map f).Perm l) :
    (sortRecords (yielded.map f)).take n = (sortRecords l).take n := by
  have hperm : (sortRecords (yielded.map f)).Perm (sortRecords l) :=
    (perm_insertionSort _ _).trans (((hy.map f).trans hl).trans (perm_insertionSort _ l).symm)
  refine take_eq_of_ties hperm (pairwise_insertionSort _ _) (pairwise_insertionSort _ _) ?_
  intro a ha b hb hrank hbelow
  rw [below_sortRecords hf hy] at hbelow
  obtain ⟨e, he, rfl⟩ := mem_map.1 ((mem_insertionSort _).1 ha)
  obtain ⟨e', he', rfl⟩ := mem_map.1 ((mem_insertionSort _).1 hb)
  have hmem := hy.subset he
  have hmem' := hy.subset he'
  rw [hf, hf] at hrank
  rw [hf] at hbelow
  -- Entries of different keys would be a tie before the cut.
  have hkey : e.1 = e'.1 := by
    by_contra hne
    exact absurd (h e hmem e' hmem' hrank hne) (Nat.not_le.2 hbelow)
  rw [ExtTreeMap.mem_toList_iff_getElem?_eq_some] at hmem hmem'
  rw [← hkey, hmem, Option.some.injEq] at hmem'
  rw [Prod.ext hkey hmem']

/-- The first of the records is sorted right after those before it. -/
theorem getElem?_sortRecords (a : AggregatedFlow) (l : List AggregatedFlow) :
    (sortRecords (a :: l))[below AggregatedFlow.rank l a.rank]? = some a := by
  have hbelow : below AggregatedFlow.rank l a.rank
      = below AggregatedFlow.rank (sortRecords l) a.rank :=
    (perm_insertionSort _ l).symm.countP_eq _
  rw [sortRecords, insertionSort_cons, hbelow]
  exact getElem?_orderedInsert a (pairwise_insertionSort _ l)

/-- A tie before the cut shows in some order. -/
theorem exists_order_of_tie (h : ¬ TiesCut m n) :
    ∃ yielded yielded' : List (FlowKey × Counts), yielded.Perm m.toList ∧
      yielded'.Perm m.toList ∧
      (sortRecords (yielded.map record)).take n ≠ (sortRecords (yielded'.map record)).take n := by
  simp only [TiesCut, not_forall, Nat.not_le] at h
  obtain ⟨e, he, e', he', hrank, hne, hbelow⟩ := h
  have hmem : e' ∈ m.toList.erase e :=
    (mem_erase_of_ne fun h => hne (congrArg Prod.fst h.symm)).2 he'
  have hperm := (perm_cons_erase he).trans ((perm_cons_erase hmem).cons e)
  generalize (m.toList.erase e).erase e' = rest at hperm
  refine ⟨e :: e' :: rest, e' :: e :: rest, hperm.symm, (Perm.swap ..).trans hperm.symm, ?_⟩
  intro heq
  -- Neither of the two is below the other, so either of them can stand in the same place.
  have hplace : ∀ x, (record x).rank = (record e).rank →
      below AggregatedFlow.rank ((x :: rest).map record) (record e).rank
        = below (fun e => (record e).rank) m.toList (record e).rank := by
    intro x hx
    simp [below, hperm.countP_eq, countP_map, Function.comp_def, hx, ← hrank]
  have hfirst := getElem?_sortRecords (record e) ((e' :: rest).map record)
  have hsecond := getElem?_sortRecords (record e') ((e :: rest).map record)
  rw [hplace e' hrank.symm] at hfirst
  rw [← hrank, hplace e rfl] at hsecond
  have hsame := congrArg (·[below (fun e => (record e).rank) m.toList (record e).rank]?) heq
  simp only [getElem?_take_of_lt hbelow, map_cons] at hsame hfirst hsecond
  rw [hfirst, hsecond] at hsame
  exact hne (congrArg AggregatedFlow.toFlowKey (Option.some.inj hsame))

/-- The sort does not look at the AS numbers. -/
theorem sortRecords_withoutAs (l : List AggregatedFlow) :
    (sortRecords l).map AggregatedFlow.withoutAs = sortRecords (l.map AggregatedFlow.withoutAs) :=
  map_insertionSort _ _ _ l fun _ _ _ _ => Iff.rfl

@[simp] theorem addAll_topN (g : FlowAggregator) (l : List RawFlow) :
    (g.addAll l).topN = g.topN := by
  induction l generalizing g with
  | nil => rfl
  | cons f rest ih =>
    refine (ih _).trans ?_
    unfold add
    split <;> rfl

/-- The cut is reproducible if and only if keys that the sort does not tell apart come after it. -/
theorem drain_reproducible {flows : List RawFlow} {topN keyCap : Nat}
    (hcap : (flows.map RawFlow.toFlowKey).dedup.length < keyCap) :
    (∀ (flows' : List RawFlow) (yielded yielded' : List (FlowKey × Counts)), flows.Perm flows' →
      yielded.Perm ((withCaps topN keyCap).addAll flows).map.toList →
      yielded'.Perm ((withCaps topN keyCap).addAll flows').map.toList →
      let drained := (((withCaps topN keyCap).addAll flows).drainTopN yielded).1.1
      let drained' := (((withCaps topN keyCap).addAll flows').drainTopN yielded').1.1
      drained.map AggregatedFlow.withoutAs = drained'.map AggregatedFlow.withoutAs ∧
        (flows = flows' → drained = drained')) ↔
    TiesCut ((withCaps topN keyCap).addAll flows).map (withCaps topN keyCap).topN := by
  simp only [drainTopN, addAll_topN, List.map_take, sortRecords_withoutAs, List.map_map]
  constructor
  · intro h
    by_contra htie
    obtain ⟨yielded, yielded', hy, hy', hne⟩ := exists_order_of_tie htie
    exact hne ((h flows yielded yielded' (.refl _) hy hy').2 rfl)
  · intro htie flows' yielded yielded' hflows hy hy'
    have hsums : ∀ {flows : List RawFlow}, (flows.map RawFlow.toFlowKey).dedup.length < keyCap →
        ((withCaps topN keyCap).addAll flows).map = flows.foldl gather ∅ :=
      fun hcap => addAll_map _ (withCaps topN keyCap)
        (fun f hf => List.mem_dedup.2 (List.mem_map_of_mem hf))
        (fun k hk => absurd hk ExtTreeMap.not_mem_empty) (lt_of_lt_of_le hcap (le_max_left _ _))
    have hcap' : (flows'.map RawFlow.toFlowKey).dedup.length < keyCap :=
      lt_of_eq_of_lt (hflows.symm.map _).dedup.length_eq hcap
    constructor
    · rw [hsums hcap] at hy htie
      rw [hsums hcap'] at hy'
      have hperm : ((flows.foldl gather ∅).toList.map fun e => (record e).withoutAs).Perm
          ((flows'.foldl gather ∅).toList.map fun e => (record e).withoutAs) := by
        refine (List.perm_ext_iff_of_nodup (nodup_records _) (nodup_records _)).2 fun a => ?_
        rw [mem_records, mem_records, getElem?_gather, getElem?_gather,
          foldl_including_perm (hflows.filter _)]
      exact htie.take_eq (f := fun e => (record e).withoutAs) (fun _ => rfl) hy
        (hperm.trans (hy'.map _).symm)
    · rintro rfl
      exact htie.take_eq (fun _ => rfl) hy (hy'.map record).symm

/-- A record of ten bytes from a port of one host to another. -/
def portFlow (srcPort : U 16) : RawFlow where
  srcIp := .v4 1
  dstIp := .v4 2
  srcPort := srcPort
  dstPort := 443
  proto := 6
  tos := 0
  ifIndex := 0
  srcAs := 0
  dstAs := 0
  bytes := 10
  packets := 1

/-- The entry of some records from a port. -/
def portEntry (srcPort : U 16) (flows : Nat) : FlowKey × Counts :=
  ((portFlow srcPort).toFlowKey,
    ⟨Fin.ofNat _ (10 * flows), Fin.ofNat _ flows, Fin.ofNat _ flows, 0, 0⟩)

/-- A port with two records is sent on, and two with one each come after the cut. -/
theorem drain_reproducible_ports :
    ((((withCaps 1 4).addAll [portFlow 1, portFlow 2, portFlow 3, portFlow 1]).drainTopN
        [portEntry 1 2, portEntry 2 1, portEntry 3 1]).1.1).map AggregatedFlow.withoutAs =
      ((((withCaps 1 4).addAll [portFlow 1, portFlow 1, portFlow 3, portFlow 2]).drainTopN
        [portEntry 3 1, portEntry 2 1, portEntry 1 2]).1.1).map AggregatedFlow.withoutAs :=
  ((drain_reproducible (by decide +kernel)).2 (by unfold TiesCut below; decide +kernel) _ _ _
    (by decide +kernel) (by decide +kernel) (by decide +kernel)).1

/-- Two ports with the same bytes and packets: the order of the hash map decides which is sent on.
-/
theorem tie_by_hash_order :
    ∃ flows yielded yielded', (flows.map RawFlow.toFlowKey).dedup.length < maxAggKeys ∧
      yielded.Perm ((new 1).addAll flows).map.toList ∧
      yielded'.Perm ((new 1).addAll flows).map.toList ∧
      (((new 1).addAll flows).drainTopN yielded).1.1
        ≠ (((new 1).addAll flows).drainTopN yielded').1.1 :=
  ⟨[portFlow 1, portFlow 2], [portEntry 1 1, portEntry 2 1], [portEntry 2 1, portEntry 1 1],
    by decide +kernel, by decide +kernel, by decide +kernel, by decide +kernel⟩

end Yagra.Ingest
