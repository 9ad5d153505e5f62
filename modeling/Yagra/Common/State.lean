import Mathlib.Algebra.Order.Ring.Unbundled.Rat

/-!
# `Yagra.Common.State`: states, severities, names and values

The small vocabulary of the monitoring model: what a node or a check can be in
(`NodeState`), how bad an alert is (`Severity`), what a check measures (`CheckName`,
`Metric`), and the numbers a sample carries (`F64`).

A metric is a string in the source. The engine compares it with a handful of reserved
names and with the prefix `event:`, and never looks at it otherwise. `Metric` keeps that
distinction as constructors: the reserved names each have their own, and `series` is every
other name. The liveness name `__liveness__` is kept apart in `CheckName`, because it is
not the name of any collected metric: the collection API refuses it as reserved.
-/

set_option autoImplicit false

namespace Yagra

/-- A 128-bit id. Only equality and order are used. -/
abbrev Uuid := Nat
/-- The id of a node. -/
abbrev NodeId := Uuid
/-- The id of a folder group. -/
abbrev GroupId := Uuid
/-- A port index. -/
abbrev IfIndex := Nat
/-- A moment, in Unix milliseconds. -/
abbrev UnixMs := Int

/-- The state of a node, or of one check on it. -/
inductive NodeState where
  | ok | warning | critical | unknown | unreachable | maintenance
deriving DecidableEq, Repr

/-- How bad an alert is, from low to high. -/
inductive Severity where
  | info | warning | critical
deriving DecidableEq, Repr

namespace NodeState

/-- Whether the state is one an alert is raised for. -/
def isProblem : NodeState → Bool
  | .warning | .critical | .unreachable => true
  | .ok | .unknown | .maintenance => false

/-- The severity of an alert in this state; `none` for a state that carries no alert. -/
def severity : NodeState → Option Severity
  | .warning => some .warning
  | .critical | .unreachable => some .critical
  | .ok | .unknown | .maintenance => none

/-- The states with a severity are exactly the problem states. -/
theorem severity_isSome (s : NodeState) : s.severity.isSome = s.isProblem := by
  cases s <;> rfl

end NodeState

/-- Which side of its band a value crossed. -/
inductive Direction where
  | above | below
deriving DecidableEq, Repr

/-- Whether a sample is a reading or a raw running count. -/
inductive MetricKind where
  | gauge | counter
deriving DecidableEq, Repr

/-- The name of what a check measures, apart from liveness. `event r` is `event:r`,
`deviceReplaced` is `device_replaced`, `configStale` is `config_backup_stale`,
`poolCoverage` is `live_pollers`, `merakiCollect` is `meraki_api_collect`, `configPush` is
`config_backup_push`, and `series` is any other name. -/
inductive Metric where
  | event (rule : String)
  | deviceReplaced
  | configStale
  | poolCoverage
  | merakiCollect
  | configPush
  | series (name : String)
deriving DecidableEq, Repr

/-- The name of a check: the liveness sentinel `__liveness__`, or a metric. -/
inductive CheckName where
  | liveness
  | metric (m : Metric)
deriving DecidableEq, Repr

namespace CheckName

/-- Whether the name has the prefix `event:`. -/
def isEvent : CheckName → Bool
  | .metric (.event _) => true
  | _ => false

end CheckName

/-! ### Values -/

/-- A floating-point value: not a number, an infinity, or a number. The engine only
compares values, so a finite one is the rational it stands for. -/
inductive F64 where
  | nan
  | negInf
  | finite (q : ℚ)
  | posInf
deriving DecidableEq

namespace F64

/-- `a <= b`. False when either side is not a number. -/
def le : F64 → F64 → Bool
  | .nan, _ | _, .nan => false
  | .negInf, _ => true
  | _, .posInf => true
  | .finite a, .finite b => decide (a ≤ b)
  | .finite _, .negInf => false
  | .posInf, _ => false

variable (a b : F64)

/-- `a < b`. False when either side is not a number. -/
def lt : Bool := le a b && !le b a

/-- The smaller of the two; the other one when a side is not a number. -/
def min : F64 :=
  match a, b with
  | .nan, b => b
  | a, .nan => a
  | a, b => if le a b then a else b

/-- The larger of the two; the other one when a side is not a number. -/
def max : F64 :=
  match a, b with
  | .nan, b => b
  | a, .nan => a
  | a, b => if le a b then b else a

end F64

/-! ## What the source's `trim` takes away -/

/-- A white-space character of Unicode. -/
def isWhiteSpace (c : Char) : Bool :=
  let n := c.toNat
  (0x09 ≤ n && n ≤ 0x0D) || n == 0x20 || n == 0x85 || n == 0xA0 || n == 0x1680 ||
    (0x2000 ≤ n && n ≤ 0x200A) || n == 0x2028 || n == 0x2029 || n == 0x202F || n == 0x205F ||
    n == 0x3000

/-- A text without the white space around it. -/
def trim (s : String) : String :=
  String.ofList (((s.toList.dropWhile isWhiteSpace).reverse.dropWhile isWhiteSpace).reverse)

end Yagra
