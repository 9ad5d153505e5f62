import Mathlib.Algebra.Order.Ring.Nat
import Yagra.Common.State

/-!
# `Yagra.Poller.StoreForward`: the result buffer of a remote poller

While the link to core is down, a poller keeps its results in a buffer with two tiers: a ring
in memory, and spill files on disk for what overflows it. Once the link is back, a drain task
publishes what is buffered on the backfill subject, oldest first.

Two tasks edit the buffer. `submit` runs to its end in one go. The drain task waits between
its steps for the disk and for the bus, so `Drain` is where it stands and `drainStep` is what
it does between two waits. A step that publishes is told whether the publish succeeds.

A segment is a file with one result per line. `files` is the spill directory, by segment
number. The writer keeps a file open: once the file has been removed from the directory, what
is written through it can no longer be read by anyone. `live` and `backfill` are what the bus
has taken, and `dropped` is what the drop counter was incremented for.

The assumptions of the model: writes and reads of existing files succeed, and a live publish
succeeds while the poller is connected. A result is only known by its time and by the length
of its line.
-/

set_option autoImplicit false

namespace Yagra.Poller

/-- What the buffer reads of a result: its time, and how long its line in a file is. -/
class Spillable (ρ : Type) where
  atUnixMs : ρ → UnixMs
  lineBytes : ρ → Nat

/-- The settings of the buffer. -/
structure SfConfig where
  enabled : Bool
  /-- Whether a spill directory is set. -/
  hasDir : Bool
  memMax : Nat
  diskMaxBytes : Nat
  maxAgeMs : Int
  freeFloorBytes : Nat
  segmentMaxBytes : Nat
deriving DecidableEq

/-- How many bytes are spilled between two looks at the free space. -/
def freeProbeEveryBytes : Nat := 8 * 1024 * 1024

/-- How many results of the ring are replayed in one go. -/
def replayBatch : Nat := 256

/-- One spill file. -/
structure Segment where
  seq : Nat
  bytes : Nat
  count : Nat
deriving DecidableEq

/-- The buffer. -/
structure BufState (ρ : Type) where
  /-- The newest results, oldest first. -/
  mem : List ρ
  /-- The spill files, oldest first. -/
  segments : List Segment
  /-- The segment the open file belongs to. -/
  writer : Option Nat
  curBytes : Nat
  diskBytes : Nat
  nextSeq : Nat
  diskBroken : Bool
  /-- What the last look at the free space said, and whether there was one. -/
  freeCached : Option Nat
  freeProbed : Bool
  sinceFreeProbe : Nat

/-- Where the drain task stands. -/
inductive Drain (ρ : Type) where
  /-- Waiting for the next tick. -/
  | idle
  /-- At the head of the loop. -/
  | top
  /-- The oldest segment was looked up, and its file is about to be read. -/
  | chosen (seq : Nat)
  /-- The file was read, `read` lines of it, and the lines `rest` are still to be published. -/
  | replaying (seq : Nat) (now : UnixMs) (read : Nat) (rest : List ρ)
  /-- The replay of a segment is complete, and the segment is about to be removed. `read` is how
  many lines the replay saw. -/
  | finished (seq : Nat) (read : Nat)
  /-- No segment was found, and a batch is about to be taken from the ring. -/
  | noSegments
  /-- A batch was taken from the ring, and the results `rest` of it are still to be
  published. -/
  | batch (now : UnixMs) (rest : List ρ)

/-- The spill files found at start-up, with their lines, in the order of their numbers. -/
structure SpillDir (ρ : Type) where
  entries : List (Nat × List ρ)
  sorted : (entries.map Prod.fst).Pairwise (· < ·)

/-- The buffer with its surroundings: the directory, the link, the drain task, what the bus
took, and the drop counter with what it was incremented for. -/
structure StoreForwardSink (ρ : Type) extends BufState ρ where
  cfg : SfConfig
  files : Nat → Option (List ρ)
  connected : Bool
  drain : Drain ρ
  live : List ρ
  backfill : List ρ
  dropped : List ρ
  droppedTotal : Nat

namespace BufState

/-- How many results are buffered. -/
def totalDepth {ρ : Type} (st : BufState ρ) : Nat := st.mem.length + (st.segments.map (·.count)).sum

end BufState

namespace StoreForwardSink

variable {ρ : Type} [Spillable ρ]

variable (s : StoreForwardSink ρ) (avail : Option Nat)

/-- Increment the drop counter for some results. -/
def countDrop (results : List ρ) (n : Nat) : StoreForwardSink ρ :=
  { s with dropped := s.dropped ++ results, droppedTotal := s.droppedTotal + n }

/-! ### Starting up -/

/-- The bytes of the lines of a file. -/
def fileBytes (lines : List ρ) : Nat := (lines.map Spillable.lineBytes).sum

/-- The segments left by a previous process. -/
def prepareDir (dir : List (Nat × List ρ)) : List Segment :=
  dir.map fun entry => ⟨entry.1, fileBytes entry.2, entry.2.length⟩

/-- The sink at start-up. -/
def new (cfg : SfConfig) (dir : SpillDir ρ) (connected : Bool) : StoreForwardSink ρ :=
  let found := if cfg.enabled && cfg.hasDir then dir.entries else []
  { mem := []
    segments := prepareDir found
    writer := none
    curBytes := 0
    diskBytes := ((prepareDir found).map (·.bytes)).sum
    nextSeq := ((found.map Prod.fst).max?.map (· + 1)).getD 0
    diskBroken := false
    freeCached := none
    freeProbed := false
    sinceFreeProbe := 0
    cfg := cfg
    files := fun seq => found.lookup seq
    connected := connected
    drain := .idle
    live := []
    backfill := []
    dropped := []
    droppedTotal := 0 }

/-! ### Spilling -/

/-- The free space as last looked up, less what was written since. `avail` is what a look now
would say. -/
def freeBytesEstimate : StoreForwardSink ρ × Option Nat :=
  let s := if !s.freeProbed || decide (freeProbeEveryBytes ≤ s.sinceFreeProbe) then
      { s with freeCached := avail, freeProbed := true, sinceFreeProbe := 0 }
    else s
  (s, s.freeCached.map (· - s.sinceFreeProbe))

/-- Open the file of a new segment. -/
def rotate : StoreForwardSink ρ :=
  { s with
      nextSeq := s.nextSeq + 1
      files := Function.update s.files s.nextSeq (some ((s.files s.nextSeq).getD []))
      writer := some s.nextSeq
      curBytes := 0
      segments := s.segments ++ [⟨s.nextSeq, 0, 0⟩] }

/-- Whether the next line goes to a new segment. -/
def rotationDue : Bool :=
  s.writer.isNone || decide (s.cfg.segmentMaxBytes ≤ s.curBytes)

/-- Append a line to the open file. A file that has been removed takes it, but no longer belongs
to the directory. -/
def appendLine (r : ρ) : StoreForwardSink ρ :=
  { s with
      files := match s.writer with
        | none => s.files
        | some k => Function.update s.files k ((s.files k).map (· ++ [r]))
      curBytes := s.curBytes + Spillable.lineBytes r }

/-- Append a line to the current segment, going to a new one when the current one is full. -/
def writeSpillLine (r : ρ) : StoreForwardSink ρ :=
  (if s.rotationDue then s.rotate else s).appendLine r

/-- Add a line to the entry of the newest segment. -/
def noteLine (bytes : Nat) : List Segment → List Segment
  | [] => []
  | [seg] => [⟨seg.seq, seg.bytes + bytes, seg.count + 1⟩]
  | seg :: rest => seg :: noteLine bytes rest

/-- Delete the oldest segment and count its results as dropped. -/
def dropOldestSegment : StoreForwardSink ρ :=
  match s.segments with
  | [] => s
  | seg :: rest =>
    { s with
        segments := rest
        diskBytes := s.diskBytes - seg.bytes
        files := Function.update s.files seg.seq none }.countDrop
      ((s.files seg.seq).getD []) seg.count

/-- Drop the oldest segments until the disk cap is met, always keeping one. -/
def enforceCap : Nat → StoreForwardSink ρ → StoreForwardSink ρ
  | 0, s => s
  | fuel + 1, s =>
    if s.cfg.diskMaxBytes < s.diskBytes ∧ 1 < s.segments.length then
      enforceCap fuel s.dropOldestSegment
    else s

/-- Move one result from the ring to the disk. -/
def spillToDisk (r : ρ) : StoreForwardSink ρ :=
  if s.diskBroken || !s.cfg.hasDir then s.countDrop [r] 1
  else
    match s.freeBytesEstimate avail with
    | (s, estimate) =>
      if estimate.any (fun free => decide (free < s.cfg.freeFloorBytes)) then s.countDrop [r] 1
      else
        let s := s.writeSpillLine r
        let s := { s with
          diskBytes := s.diskBytes + Spillable.lineBytes r
          sinceFreeProbe := s.sinceFreeProbe + Spillable.lineBytes r
          segments := noteLine (Spillable.lineBytes r) s.segments }
        enforceCap s.segments.length s

/-- Spill the oldest results of the ring while it is over its cap. -/
def spillOverflow (avail : Option Nat) : Nat → StoreForwardSink ρ → StoreForwardSink ρ
  | 0, s => s
  | fuel + 1, s =>
    match s.mem with
    | [] => s
    | old :: rest =>
      if s.cfg.memMax < s.mem.length then
        spillOverflow avail fuel ({ s with mem := rest }.spillToDisk avail old)
      else s

/-- Buffer a result. -/
def enqueue (r : ρ) : StoreForwardSink ρ :=
  let s := { s with mem := s.mem ++ [r] }
  spillOverflow avail s.mem.length s

/-- Take a result from the poll loop: buffer it while the link is down, publish it otherwise. -/
def submit (r : ρ) : StoreForwardSink ρ :=
  if s.cfg.enabled && !s.connected then s.enqueue avail r
  else if s.connected then { s with live := s.live ++ [r] }
  else s.countDrop [r] 1

/-! ### Draining -/

/-- Whether a result is too old to be replayed. -/
def tooOld (now : UnixMs) (r : ρ) : Bool :=
  decide (s.cfg.maxAgeMs < now - Spillable.atUnixMs r)

/-- Remove a segment that was replayed, if it is still the oldest one. -/
def removeReplayed (seq : Nat) : StoreForwardSink ρ :=
  match s.segments with
  | [] => s
  | seg :: rest =>
    if seg.seq = seq then
      { s with
          segments := rest
          diskBytes := s.diskBytes - seg.bytes
          files := Function.update s.files seg.seq none }
    else s

/-- What the drain task does next. `ok` says whether a publish of this step succeeds and `now`
is the time. -/
def drainStep (ok : Bool) (now : UnixMs) : StoreForwardSink ρ :=
  match s.drain with
  | .idle => if s.cfg.enabled && s.connected then { s with drain := .top } else s
  | .top =>
    if !s.connected then { s with drain := .idle }
    else
      match s.segments with
      | seg :: _ => { s with drain := .chosen seg.seq }
      | [] => { s with drain := .noSegments }
  | .chosen seq =>
    match s.files seq with
    | some lines => { s with drain := .replaying seq now lines.length lines }
    -- A segment dropped in the meantime cannot be read, and counts as replayed.
    | none => { s with drain := .finished seq 0 }
  | .replaying seq start read rest =>
    match rest with
    | [] => { s with drain := .finished seq read }
    | r :: rest =>
      if !s.connected then { s with drain := .idle }
      else if s.tooOld start r then
        { s.countDrop [r] 1 with drain := .replaying seq start read rest }
      else if ok then
        { s with backfill := s.backfill ++ [r], drain := .replaying seq start read rest }
      else { s with drain := .idle }
  | .finished seq _ => { s.removeReplayed seq with drain := .top }
  | .noSegments =>
    if s.mem.isEmpty then { s with drain := .idle }
    else { s with
      mem := s.mem.drop replayBatch
      drain := .batch now (s.mem.take replayBatch) }
  | .batch start rest =>
    match rest with
    | [] => { s with drain := .top }
    | r :: rest =>
      if s.tooOld start r then { s.countDrop [r] 1 with drain := .batch start rest }
      else if ok then
        { s with backfill := s.backfill ++ [r], drain := .batch start rest }
      -- What was not sent goes back to the front of the ring.
      else { s with mem := r :: rest ++ s.mem, drain := .idle }

/-! ### Runs -/

/-- What can happen: the poll loop submits a result, the link goes up or down, or the drain task
goes on. -/
inductive Op (ρ : Type) where
  | submit (r : ρ) (avail : Option Nat)
  | link (connected : Bool)
  | drain (ok : Bool) (now : UnixMs)

/-- One operation. -/
def step : Op ρ → StoreForwardSink ρ
  | .submit r avail => s.submit avail r
  | .link connected => { s with connected := connected }
  | .drain ok now => s.drainStep ok now

end StoreForwardSink

end Yagra.Poller
