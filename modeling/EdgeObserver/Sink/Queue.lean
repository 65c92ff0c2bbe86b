import EdgeObserver.Text
import EdgeObserver.Library.Runs
import EdgeObserver.Library.Keyed

/-!
# The sink queue

Complete lines on their way to their destinations, under one byte bound. The
callers and the one runner share a lock; each event here is one region under it,
or the runner's write between two of them. Which events come when is left open,
so a destination may block for as long as it likes, and a boundary somebody else
holds only keeps the runner's next event away.
-/

set_option autoImplicit false

namespace EdgeObserver.Sink

open Library

inductive Error where
  | closed
  | full
  | duplicate
  | unknown
  | incomplete

structure Stats where
  authorized : Int := 0
  written : Int := 0
  failed : Int := 0
  dropped : Int := 0
  pending : Int := 0
  discarded : Int := 0
  bytes : Int := 0
  pendingBytes : Int := 0
  highWaterBytes : Int := 0
  limitBytes : Int := 0

structure Line where
  place : Nat
  name : Bytes
  line : Bytes

structure Queued extends Line where
  discarded : Bool := false

structure Wrote where
  n : Int
  failed : Bool
  deriving DecidableEq

structure Destination where
  stats : Stats := {}
  dirty : Bool := false
  frozen : Option Stats := none

inductive Runner where
  | waiting
  | taken
  | checked (discarded : Bool)
  | wrote (result : Wrote)
  | returned
  deriving DecidableEq

/-- The registered names index the destinations. `admitted` and `written` are
the lines `enqueue` appended and the lines given to a sink, both in order; the
program keeps neither. -/
structure Queue where
  names : List Bytes := []
  destination : Bytes → Destination := fun _ => {}
  items : List Queued := []
  inflight : Option Queued := none
  stats : Stats
  closed : Bool := false
  closing : Bool := false
  frozen : Option Stats := none
  runner : Runner := .waiting
  admitted : List Line := []
  written : List Line := []

def newQueue (limit : Int) : Option Queue :=
  if limit ≤ 0 then none else some { stats := { limitBytes := limit } }

def Stats.authorize (v : Stats) : Stats := { v with authorized := v.authorized + 1 }

def Stats.drop (v : Stats) : Stats := { v with dropped := v.dropped + 1 }

def Stats.pend (n : Int) (v : Stats) : Stats :=
  { v with
    pending := v.pending + 1
    pendingBytes := v.pendingBytes + n
    highWaterBytes := max v.highWaterBytes (v.pendingBytes + n) }

def Stats.settle (item : Queued) (result : Wrote) (v : Stats) : Stats :=
  let v := { v with pendingBytes := v.pendingBytes - item.line.length }
  if item.discarded then v
  else
    let v := { v with pending := v.pending - 1, bytes := v.bytes + result.n }
    if result.failed then { v with failed := v.failed + 1 }
    else { v with written := v.written + 1 }

/-- What `freeze` counts of an item it discards. -/
def Stats.discard (item : Queued) (inflight : Bool) (v : Stats) : Stats :=
  let v := { v with
    pending := v.pending - 1
    dropped := v.dropped + 1
    discarded := v.discarded + 1 }
  if inflight then v else { v with pendingBytes := v.pendingBytes - item.line.length }

namespace Queue

def both (q : Queue) (name : Bytes) (change : Stats → Stats) : Queue :=
  { q with
    stats := change q.stats
    destination := Function.update q.destination name
      { q.destination name with stats := change (q.destination name).stats } }

def register (q : Queue) (name : Bytes) : Option Error × Queue :=
  if name = [] then (some .closed, q)
  else if q.closed then (some .closed, q)
  else if name ∈ q.names then (some .duplicate, q)
  else
    (none, { q with
      names := q.names ++ [name]
      destination := Function.update q.destination name
        { stats := { limitBytes := q.stats.limitBytes } } })

def append (q : Queue) (name line : Bytes) : Queue :=
  let one : Line := { place := q.admitted.length, name := name, line := line }
  { q with items := q.items ++ [{ one with }], admitted := q.admitted ++ [one] }

def enqueue (q : Queue) (name line : Bytes) : Option Error × Queue :=
  if name ∉ q.names then (some .unknown, q)
  else if line.getLast? ≠ some Text.lf then (some .incomplete, q)
  else if q.frozen.isSome then (some .closed, q)
  else
    let q := q.both name Stats.authorize
    if q.closed then (some .closed, q.both name Stats.drop)
    else if (line.length : Int) > q.stats.limitBytes - q.stats.pendingBytes then
      (some .full, q.both name Stats.drop)
    else (none, (q.append name line).both name (Stats.pend line.length))

def take (q : Queue) : Queue :=
  match q.runner, q.items with
  | .waiting, item :: rest =>
    { q with items := rest, inflight := some item, runner := .taken }
  | .waiting, [] => if q.closed then { q with runner := .returned } else q
  | _, _ => q

def check (q : Queue) : Queue :=
  match q.runner, q.inflight with
  | .taken, some item => { q with runner := .checked item.discarded }
  | _, _ => q

end Queue

/-- `repair` is the sink's answer to the newline that completes a torn line, and
`answer` its answer to the line; `expired` and `expiredAgain` are what the
context says before each. The last component says whether the line was given to
the sink at all. -/
def Destination.writeLine (d : Destination) (line : Bytes) (expired : Bool) (repair : Wrote)
    (expiredAgain : Bool) (answer : Wrote) : Wrote × Destination × Bool :=
  if expired then (⟨0, true⟩, d, false)
  else if d.dirty ∧ (repair.failed ∨ repair.n ≠ 1) then (⟨0, true⟩, d, false)
  else
    let d := { d with dirty := false }
    if expiredAgain then (⟨0, true⟩, d, false)
    else
      let answer := if answer.n < 0 ∨ answer.n > line.length then ⟨0, true⟩ else answer
      let failed := answer.failed || answer.n != line.length
      let d :=
        if answer.n > 0 then { d with dirty := (line)[answer.n.toNat - 1]? != some Text.lf } else d
      (⟨answer.n, failed⟩, d, true)

namespace Queue

def write (q : Queue) (repair answer : Wrote) : Queue :=
  match q.runner, q.inflight with
  | .checked true, some _ => { q with runner := .wrote ⟨0, false⟩ }
  | .checked false, some item =>
    let (result, d, given) := (q.destination item.name).writeLine item.line false repair false answer
    { q with
      destination := Function.update q.destination item.name d
      runner := .wrote result
      written := if given then q.written ++ [item.toLine] else q.written }
  | _, _ => q

def finish (q : Queue) : Queue :=
  match q.runner, q.inflight with
  | .wrote result, some item =>
    { q.both item.name (Stats.settle item result) with inflight := none, runner := .waiting }
  | _, _ => q

def closeAdmission (q : Queue) : Queue := { q with closed := true }

def discard (q : Queue) (item : Queued) (inflight : Bool) : Queue :=
  if item.discarded then q else q.both item.name (Stats.discard item inflight)

def discardInflight (q : Queue) : Queue :=
  match q.inflight with
  | some item =>
    { q.discard item true with inflight := some { item with discarded := true } }
  | none => q

def fix (q : Queue) : Queue :=
  { q with
    frozen := some q.stats
    destination := fun name =>
      if name ∈ q.names then
        { q.destination name with frozen := some (q.destination name).stats }
      else q.destination name }

def freeze (q : Queue) : Queue :=
  if q.frozen.isSome then q
  else
    let q := { q with closed := true }
    let q := { q.items.foldl (fun q item => q.discard item false) q with items := [] }
    q.discardInflight.fix

def reopened (q : Queue) (name : Bytes) : Queue :=
  { q with
    destination := Function.update q.destination name
      { q.destination name with dirty := false } }

/-- `Stats` for the empty name, `DestinationStats` for any other. -/
def statsOf (q : Queue) (name : Bytes) : Stats :=
  if name = [] then q.frozen.getD q.stats
  else if name ∈ q.names then (q.destination name).frozen.getD (q.destination name).stats
  else {}

/-- `drain` returns without an error only where it reads this. -/
def drained (q : Queue) : Bool := q.stats.pending == 0

end Queue

/-- `shutdown` is `closeAdmission`, some readings of `drain`, `freeze` and
`shut`. -/
inductive Event where
  | register (name : Bytes)
  | enqueue (name line : Bytes)
  | take
  | check
  | write (repair answer : Wrote)
  | finish
  | closeAdmission
  | freeze
  | shut
  | drain
  | reopened (name : Bytes)
  deriving DecidableEq

inductive Answer where
  | told (error : Option Error)
  | drained (yes : Bool)
  | done

def Queue.step (q : Queue) : Event → Answer × Queue
  | .register name => (.told (q.register name).1, (q.register name).2)
  | .enqueue name line => (.told (q.enqueue name line).1, (q.enqueue name line).2)
  | .take => (.done, q.take)
  | .check => (.done, q.check)
  | .write repair answer => (.done, q.write repair answer)
  | .finish => (.done, q.finish)
  | .closeAdmission => (.done, q.closeAdmission)
  | .freeze => (.done, q.freeze)
  | .shut => (.done, { q with closing := true })
  | .drain => (.drained q.drained, q)
  | .reopened name => (.done, q.reopened name)

namespace Queue

section Changes

variable (q : Queue) (name : Bytes) (change : Stats → Stats)

@[simp] theorem both_stats : (q.both name change).stats = change q.stats := rfl
@[simp] theorem both_names : (q.both name change).names = q.names := rfl
@[simp] theorem both_items : (q.both name change).items = q.items := rfl
@[simp] theorem both_inflight : (q.both name change).inflight = q.inflight := rfl
@[simp] theorem both_runner : (q.both name change).runner = q.runner := rfl
@[simp] theorem both_admitted : (q.both name change).admitted = q.admitted := rfl
@[simp] theorem both_written : (q.both name change).written = q.written := rfl

theorem both_destination (other : Bytes) :
    ((q.both name change).destination other).stats =
      if other = name then change (q.destination other).stats
      else (q.destination other).stats := by
  by_cases same : other = name
  · subst same; simp [both]
  · simp [both, same]

theorem both_destination_frozen (other : Bytes) :
    ((q.both name change).destination other).frozen = (q.destination other).frozen := by
  by_cases same : other = name
  · subst same; simp [both]
  · simp [both, same]

end Changes

/-- What `enqueue` can do with a line. -/
inductive Enqueueing (q : Queue) (name line : Bytes) : Option Error × Queue → Prop where
  | refused (error : Error) : Enqueueing q name line (some error, q)
  | dropped (error : Error) (known : name ∈ q.names) (live : q.frozen = none) :
      Enqueueing q name line (some error, (q.both name Stats.authorize).both name Stats.drop)
  | stored (known : name ∈ q.names) (live : q.frozen = none)
      (room : q.stats.pendingBytes + line.length ≤ q.stats.limitBytes) :
      Enqueueing q name line (none, ((q.both name Stats.authorize).append name line).both name (Stats.pend line.length))

theorem enqueue_enqueueing (q : Queue) (name line : Bytes) :
    Enqueueing q name line (q.enqueue name line) := by
  unfold enqueue
  split
  · exact .refused _
  rename_i known
  have known : name ∈ q.names := by simpa using known
  split
  · exact .refused _
  split
  · exact .refused _
  rename_i live
  have live : q.frozen = none := by simpa using live
  dsimp only
  split
  · exact .dropped _ known live
  split
  · exact .dropped _ known live
  rename_i room
  refine .stored known live ?_
  simp only [both_stats, Stats.authorize] at room
  omega

/-- What the runner's write can do. The sink's part is in `writeLine`, which
leaves the figures alone. -/
inductive Writing (q : Queue) : Queue → Prop where
  | idle : Writing q q
  | skipped (item : Queued) (result : Wrote) (phase : q.runner = .checked true)
      (flying : q.inflight = some item) : Writing q { q with runner := .wrote result }
  | tried (item : Queued) (d : Destination) (result : Wrote) (given : Bool)
      (phase : q.runner = .checked false) (flying : q.inflight = some item)
      (stats : d.stats = (q.destination item.name).stats)
      (frozen : d.frozen = (q.destination item.name).frozen) :
      Writing q
        { q with
          destination := Function.update q.destination item.name d
          runner := .wrote result
          written := if given then q.written ++ [item.toLine] else q.written }

end Queue

theorem Destination.writeLine_stats (d : Destination) (line : Bytes) (expired : Bool)
    (repair : Wrote) (expiredAgain : Bool) (answer : Wrote) :
    (d.writeLine line expired repair expiredAgain answer).2.1.stats = d.stats ∧
      (d.writeLine line expired repair expiredAgain answer).2.1.frozen = d.frozen := by
  simp only [writeLine]
  repeat' split
  all_goals exact ⟨rfl, rfl⟩

theorem Queue.write_writing (q : Queue) (repair answer : Wrote) :
    q.Writing (q.write repair answer) := by
  unfold Queue.write
  split
  · rename_i item phase flying
    exact .skipped item _ phase flying
  · rename_i item phase flying
    obtain ⟨stats, frozen⟩ := (q.destination item.name).writeLine_stats item.line false repair false answer
    exact .tried item _ _ _ phase flying stats frozen
  · exact .idle

end EdgeObserver.Sink
