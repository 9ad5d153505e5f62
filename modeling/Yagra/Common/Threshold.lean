import Yagra.Common.State

/-!
# `Yagra.Common.Threshold`: bounds, and the threshold in force

`ThresholdBounds` is a band with up to four bounds. `evaluate` reads a value against it and
`breachingSide` says which side was crossed; both read one classification, so they cannot
disagree. `resolveEffective` merges the rules of the most specific scope into the threshold
in force: on each side the most restrictive bound, and the longest dwell.
-/

set_option autoImplicit false

namespace Yagra

/-- The name of a row, or a pattern of names: the text, and what Unicode lower-casing makes of it,
which for an ASCII text is its letters in lower case. -/
structure RowText where
  text : String
  toLowercase : List Char
  lower_ascii : text.toList.all (fun c => decide (c.toNat < 128)) →
    toLowercase = text.toList.map Char.toLower
deriving DecidableEq

/-- Whether the text is ASCII. -/
def RowText.isAscii (t : RowText) : Bool := t.text.toList.all fun c => decide (c.toNat < 128)

/-- The more restrictive of two bounds on one side. -/
def Direction.moreRestrictive : Direction → F64 → F64 → F64
  | .above, a, b => F64.min a b
  | .below, a, b => F64.max a b

/-- The bounds of a rule, each of them optional. -/
structure ThresholdBounds where
  warningBelow : Option F64
  criticalBelow : Option F64
  warningAbove : Option F64
  criticalAbove : Option F64
deriving DecidableEq

namespace ThresholdBounds

/-- No bound at all. -/
def none : ThresholdBounds := ⟨.none, .none, .none, .none⟩

/-- Bounds on the upper side only. -/
def above (warning critical : Option F64) : ThresholdBounds := ⟨.none, .none, warning, critical⟩

variable (b : ThresholdBounds) (value : F64)

/-- Whether there is a bound below. -/
def hasBelow : Bool := b.warningBelow.isSome || b.criticalBelow.isSome

/-- Whether there is a bound above. -/
def hasAbove : Bool := b.warningAbove.isSome || b.criticalAbove.isSome

/-- The primary side: above, unless only the lower side has a bound. -/
def direction : Direction :=
  if b.hasAbove || !b.hasBelow then .above else .below

/-- The warning bound of a side. -/
def warningOn : Direction → Option F64
  | .below => b.warningBelow
  | .above => b.warningAbove

/-- The critical bound of a side. -/
def criticalOn : Direction → Option F64
  | .below => b.criticalBelow
  | .above => b.criticalAbove

/-- The primary side's warning bound. -/
def warning : Option F64 := b.warningOn b.direction

/-- The primary side's critical bound. -/
def critical : Option F64 := b.criticalOn b.direction

/-- The smallest bound named on either side. -/
def lowestBound : Option F64 :=
  ([b.warningBelow, b.criticalBelow, b.warningAbove, b.criticalAbove].filterMap id).foldl
    (fun acc bound => some (acc.elim bound fun a => F64.min a bound)) .none

/-- What a value breaches and on which side: critical before warning, below before above. -/
def classify : Option (NodeState × Direction) :=
  if b.criticalBelow.any (fun c => F64.le value c) then some (.critical, .below)
  else if b.criticalAbove.any (fun c => F64.le c value) then some (.critical, .above)
  else if b.warningBelow.any (fun w => F64.le value w) then some (.warning, .below)
  else if b.warningAbove.any (fun w => F64.le w value) then some (.warning, .above)
  else .none

/-- The state a value puts the check in. -/
def evaluate : NodeState :=
  ((b.classify value).map Prod.fst).getD .ok

/-- The side a value crossed, when it crossed one. -/
def breachingSide : Option Direction :=
  (b.classify value).map Prod.snd

/-- A threshold puts a check in one of three states. -/
theorem evaluate_cases :
    b.evaluate value = .ok ∨ b.evaluate value = .warning ∨ b.evaluate value = .critical := by
  simp only [evaluate, classify]
  split_ifs <;> simp

/-- The merge of one bound of two rules. -/
def restrictive (a b : Option F64) (dir : Direction) : Option F64 :=
  match a, b with
  | some x, some y => some (dir.moreRestrictive x y)
  | some x, .none => some x
  | .none, some x => some x
  | .none, .none => .none

/-- The merge of two rules' bounds: the more restrictive bound on each side. -/
def restrictiveWith (a b : ThresholdBounds) : ThresholdBounds where
  warningBelow := restrictive a.warningBelow b.warningBelow .below
  criticalBelow := restrictive a.criticalBelow b.criticalBelow .below
  warningAbove := restrictive a.warningAbove b.warningAbove .above
  criticalAbove := restrictive a.criticalAbove b.criticalAbove .above

end ThresholdBounds

/-- How broad a rule's scope is, broadest first. -/
inductive ScopeLevel where
  | global | profile | folderGroup | node | interface
deriving DecidableEq, Repr

/-- The position of a scope level in its order, broadest first. -/
def ScopeLevel.rank : ScopeLevel → Nat
  | .global => 0
  | .profile => 1
  | .folderGroup => 2
  | .node => 3
  | .interface => 4

/-- A threshold rule: what it measures, its bounds, and how many consecutive samples a
change has to last. -/
structure ThresholdRule where
  metric : CheckName
  bounds : ThresholdBounds
  dwellSamples : Nat
deriving DecidableEq

/-- A rule with the level it was matched at. -/
structure ScopedThreshold where
  level : ScopeLevel
  rule : ThresholdRule

/-- The threshold in force on one check. -/
structure EffectiveThreshold where
  metric : CheckName
  bounds : ThresholdBounds
  dwellSamples : Nat
deriving DecidableEq

namespace EffectiveThreshold

variable (e : EffectiveThreshold)

def direction : Direction := e.bounds.direction
def warning : Option F64 := e.bounds.warning
def critical : Option F64 := e.bounds.critical

/-- The state a value puts the check in. -/
def evaluate (value : F64) : NodeState := e.bounds.evaluate value

/-- How bad a state a threshold can report is. -/
def stateRank : NodeState → Nat
  | .critical => 2
  | .warning => 1
  | .ok | .unknown | .unreachable | .maintenance => 0

/-- Whether `candidate` is worse than `incumbent`: a worse state, or the same state and
further along the primary side. -/
def isWorse (candidate incumbent : F64) : Bool :=
  let a := e.bounds.evaluate candidate
  let b := e.bounds.evaluate incumbent
  if a ≠ b then decide (stateRank b < stateRank a)
  else match e.bounds.direction with
    | .above => F64.lt incumbent candidate
    | .below => F64.lt candidate incumbent

end EffectiveThreshold

/-- The most specific level among the rules, if there is a rule. -/
def winningLevel : List ScopeLevel → Option ScopeLevel
  | [] => none
  | l :: rest =>
    some (rest.foldl (fun best l => if best.rank ≤ l.rank then l else best) l)

/-- The threshold in force: only the rules of the most specific level count, merged side by
side with the longest dwell. -/
def resolveEffective (rules : List ScopedThreshold) : Option EffectiveThreshold :=
  (winningLevel (rules.map (·.level))).map fun winning =>
    (rules.filter (fun r => r.level = winning)).foldl
      (fun acc r =>
        { metric := r.rule.metric
          bounds := acc.bounds.restrictiveWith r.rule.bounds
          dwellSamples := max acc.dwellSamples r.rule.dwellSamples })
      { metric := .metric (.series ""), bounds := .none, dwellSamples := 0 }

/-!
## Poll intervals and derived metrics

Two tables the engine reads. `dwellTicks` and `flapWindowMs` turn a node's poll interval
into how many evaluator ticks a rule's dwell spans and how far back flap detection looks.
`derivedNodeMetric` is the table of the metrics computed from two collected ones, with the
flag that says whether a metric is judged per table row.
-/

/-- The largest 32-bit count. -/
def u32Max : Nat := 4294967295

/-- How many ticks of `tickSecs` seconds a dwell of `dwell` polls spans. Never fewer than
the dwell itself, and the dwell itself while the interval is not known. -/
def dwellTicks (dwell : Nat) (interval : Option Nat) (tickSecs : Nat) : Nat :=
  match interval with
  | none => dwell
  | some secs =>
    let tick := max tickSecs 1
    let spanning := (dwell * secs + (tick - 1)) / tick
    max dwell (if spanning ≤ u32Max then spanning else u32Max)

/-- The least flap window. -/
def flapWindowFloorMs : Int := 600000

/-- How many polls a flap window spans. -/
def flapWindowPolls : Int := 20

/-- How far back flap detection looks. -/
def flapWindowMs (interval : Option Nat) : Int :=
  match interval with
  | none => flapWindowFloorMs
  | some secs => max flapWindowFloorMs ((secs : Int) * flapWindowPolls * 1000)

/-! ### Derived metrics -/

/-- A derived metric: its name, the first input its rows take their names from, and whether
it is judged per table row. -/
structure DerivedMetric where
  name : String
  input : String
  perRow : Bool

/-- The metrics derived from a node's collected ones. -/
def derivedNodeMetrics : List DerivedMetric :=
  [ ⟨"cisco_cemp_mem_used_pct", "cisco_cemp_mem_used", true⟩,
    ⟨"cisco_cpu_mem_used_pct", "cisco_cpu_mem_used", true⟩,
    ⟨"cisco_mem_used_pct", "cisco_mem_used", true⟩,
    ⟨"hr_storage_used_pct", "hr_storage_used", true⟩,
    ⟨"huawei_mem_used_pct", "huawei_mem_total", true⟩,
    ⟨"poe_power_used_pct", "poe_power_consumed_w", true⟩,
    ⟨"ucd_cpu_used_pct", "ucd_cpu_idle_pct", false⟩,
    ⟨"ucd_load_per_core", "ucd_load_1min", false⟩,
    ⟨"ucd_mem_used_pct", "ucd_mem_total_kb", false⟩,
    ⟨"ucd_swap_used_pct", "ucd_swap_total_kb", false⟩ ]

/-- The derived metric of a name, if it is one. -/
def derivedNodeMetric : CheckName → Option DerivedMetric
  | .metric (.series name) => derivedNodeMetrics.find? (fun d => d.name = name)
  | _ => none

/-- The metrics derived for each port. -/
def derivedInterfaceMetrics : List String :=
  ["if_in_util_pct", "if_out_util_pct", "if_in_bps", "if_out_bps"]

/-- The per-port derived metric of a name, if it is one. -/
def derivedInterfaceMetricName : CheckName → Option String
  | .metric (.series name) => derivedInterfaceMetrics.find? (fun d => d = name)
  | _ => none

end Yagra
