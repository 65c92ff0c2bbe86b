import EdgeObserver.Text
import EdgeObserver.Library.Runs
import EdgeObserver.Library.Words
import EdgeObserver.Library.Keyed
import EdgeObserver.Extension.IdSet

/-!
# The extension supervisor

One extension's processes, one generation at a time. Every event is one region
under the supervisor's lock, with the clock's reading in it, or a goroutine's
next callback after it let the lock go. What the JSON decoder makes of a line,
what the rate bucket answers and what the operating system does come with the
events.
-/

set_option autoImplicit false

namespace EdgeObserver.Extension

open Library

/-- Nanoseconds on the supervisor's clock. -/
abbrev Time := Int

def millisecond : Time := 1000000
def second : Time := 1000 * millisecond

def protocol : Bytes := ascii "observer.extension/2"
def startupBound : Time := 5 * second
def frameBytesToExtension : Nat := 33554432
def inFlight : Nat := 4096
def healthyInterval : Time := 60 * second
def backoffMin : Time := 100 * millisecond
def backoffMax : Time := 5 * second
def derivedFloodSeconds : Nat := 10
def derivedQueueBytes : Int := 1048576
def derivedSources : Nat := 1024

inductive Cause where
  | startFailed
  | startupTimeout
  | timeout
  | crash
  | protocol
  | oversizedFrame
  | unknownID
  | flood
  deriving DecidableEq

inductive Reason where
  | cause (cause : Cause)
  | malformed
  | declined
  deriving DecidableEq

inductive Result where
  | unchanged
  | changed (changes : List (Bytes × Bytes))
  | failed (reason : Reason)
  deriving DecidableEq

/-- The reasons `submit` refuses a call for. -/
inductive Skip where
  | unavailable
  | tooLarge
  | busy

inductive DerivedRefusal where
  | malformed
  | unknownSource
  | rate
  | queueFull
  | stopped
  | writeFailed
  deriving DecidableEq

structure Call where
  id : Nat
  bytes : Int64
  message : Bytes

structure Pending where
  call : Call
  deadline : Time

inductive State where
  | starting
  | ready
  | retiring
  | stopping
  deriving DecidableEq

structure Outgoing where
  line : Bytes
  start : Bool := false

/-- `writing` is the message the writer has taken off the queue; a writer whose
write failed is gone. -/
structure Generation where
  number : Nat
  state : State := .starting
  queue : List Outgoing := []
  closing : Bool := false
  interrupt : Bool := false
  writing : Option Outgoing := none
  gone : Bool := false
  writingSince : Option Time := none
  startWritten : Option Time := none
  readyAt : Option Time := none
  outstanding : List Pending := []
  waiting : Int64 := 0
  answered : IdSet := {}
  floodSecond : Int := 0
  floodRun : Nat := 0

structure Counts where
  retiredBy : Cause → Nat := fun _ => 0
  restarts : Nat := 0
  stateResets : Nat := 0
  late : Nat := 0
  duplicate : Nat := 0
  derivedWritten : Nat := 0
  derivedBytes : Nat := 0
  derivedRefused : Nat := 0
  derivedRefusedBy : DerivedRefusal → Nat := fun _ => 0

/-- The generations are found by their number. `starting` is the number of the
one being spawned outside the lock, and `after` the callbacks put off until the
lock is let go; each goroutine of `calling` has those left that it took then.
The last four fields are what happened: the calls admitted and refused, what
each `Done` was given, and which generation answered which id. -/
structure Supervisor where
  waitingBytes : Int64
  timeout : Time
  generations : Nat → Option Generation := fun _ => none
  current : Option Nat := none
  number : Nat := 0
  ready : Bool := false
  backoff : Time := backoffMin
  restart : Option Time := none
  spawning : Bool := false
  starting : Option Nat := none
  ending : Bool := false
  closed : Bool := false
  counts : Counts := {}
  derived : List Bytes := []
  derivedBytes : Int := 0
  derivedActive : Option Bytes := none
  after : List (Nat × Result) := []
  calling : List (List (Nat × Result)) := []
  admitted : List Nat := []
  refused : List Nat := []
  done : List (Nat × Result) := []
  answers : List (Nat × Nat) := []

def start (waitingBytes : Int64) (timeout now : Time) : Supervisor :=
  { waitingBytes := waitingBytes, timeout := timeout, restart := some now }

def State.live : State → Bool
  | .starting | .ready => true
  | .retiring | .stopping => false

def Generation.send (g : Generation) (o : Outgoing) : Generation :=
  if g.closing then g else { g with queue := g.queue ++ [o] }

def Generation.flooded (g : Generation) (unix : Int) : Generation :=
  { g with
    floodSecond := unix
    floodRun :=
      if unix = g.floodSecond then g.floodRun
      else if unix = g.floodSecond + 1 then g.floodRun + 1
      else 1 }

def Generation.failures (g : Generation) (reason : Reason) : List (Nat × Result) :=
  ((g.outstanding.map (·.call.id)).insertionSort (· ≤ ·)).map (fun id => (id, .failed reason))

namespace Supervisor

def put (s : Supervisor) (g : Generation) : Supervisor :=
  { s with generations := Function.update s.generations g.number (some g) }

def running (s : Supervisor) : Option Generation := s.current.bind s.generations

def detachLocked (s : Supervisor) (g : Generation) (orderly : Bool) : Supervisor :=
  let g := { g with closing := true }
  let g := if orderly then g else { g with queue := [], interrupt := true }
  { s.put g with current := if s.current = some g.number then none else s.current }

/-- `failOutstandingLocked` with the state the generation goes to. -/
def failOutstandingLocked (s : Supervisor) (g : Generation) (reason : Reason) : Supervisor × Generation :=
  ({ s with after := s.after ++ g.failures reason }, { g with outstanding := [], waiting := 0 })

def backOff (s : Supervisor) (now : Time) (g : Generation) : Supervisor :=
  let healthy := g.readyAt.any (fun readyAt => now - readyAt ≥ healthyInterval)
  let s := if healthy then { s with backoff := backoffMin } else s
  if s.ending then s
  else { s with restart := some (now + s.backoff), backoff := min (2 * s.backoff) backoffMax }

def retireLocked (s : Supervisor) (now : Time) (g : Generation) (cause : Cause) : Supervisor :=
  if g.state = .retiring ∨ g.state = .stopping then s
  else
    let g := { g with state := .retiring }
    let s := { s with counts := { s.counts with
      retiredBy := Function.update s.counts.retiredBy cause (s.counts.retiredBy cause + 1) } }
    let (s, g) := s.failOutstandingLocked g (.cause cause)
    (s.backOff now g).detachLocked g false

def shutdown : Bytes := ascii "\x7b\"type\":\"shutdown\"\x7d\n"

def sessionEnding : Bytes := ascii "\x7b\"type\":\"session_ending\"\x7d\n"

def stopLocked (s : Supervisor) (g : Generation) : Supervisor :=
  if g.state = .retiring ∨ g.state = .stopping then s
  else
    let wasReady := g.state = .ready
    let (s, g) := s.failOutstandingLocked { g with state := .stopping } (.cause .timeout)
    let g := if wasReady ∧ ¬ s.closed then g.send { line := shutdown } else g
    s.detachLocked g (!s.closed)

def submit (s : Supervisor) (now : Time) (c : Call) : Option Skip × Supervisor :=
  let skip := fun reason => (some reason, ({ s with refused := s.refused ++ [c.id] } : Supervisor))
  match s.running with
  | none => skip .unavailable
  | some g =>
    if g.state ≠ .ready ∨ s.ending then skip .unavailable
    else if c.message.length > frameBytesToExtension then skip .tooLarge
    else if g.outstanding.length ≥ inFlight ∨ g.waiting + c.bytes > s.waitingBytes then
      skip .busy
    else
      let g : Generation := { g with
        outstanding := g.outstanding.filter (·.call.id ≠ c.id) ++
          [{ call := c, deadline := now + s.timeout }]
        waiting := g.waiting + c.bytes }
      (none, { s.put (g.send { line := c.message }) with admitted := s.admitted ++ [c.id] })

def connectionDone (s : Supervisor) (message : Bytes) : Supervisor :=
  match s.running with
  | some g =>
    if g.state = .ready ∧ ¬ s.ending then s.put (g.send { line := message }) else s
  | none => s

/-- The first region of `End`. -/
def end_ (s : Supervisor) : Supervisor :=
  if s.ending then s
  else
    let s := { s with ending := true, restart := none }
    match s.running with
    | some g =>
      match g.state with
      | .ready => s.put (g.send { line := sessionEnding })
      | .starting => s.stopLocked g
      | _ => s
    | none => s

/-- The first region of `Close`. -/
def close (s : Supervisor) : Supervisor :=
  if s.closed then s
  else
    let s := { s with closed := true, ending := true, restart := none }
    let s := match s.running with
      | some g => s.stopLocked g
      | none => s
    { s with derived := [], derivedBytes := 0 }

def dueTimes (s : Supervisor) : List Time :=
  let restart := if s.current = none ∧ ¬ s.spawning then s.restart.toList else []
  match s.running with
  | none => restart
  | some g =>
    restart ++ (if g.state = .starting then g.startWritten.toList.map (· + startupBound) else []) ++
      g.writingSince.toList.map (· + s.timeout) ++ g.outstanding.map Pending.deadline

def dueLocked (s : Supervisor) : Option Time := s.dueTimes.min?

def dueCause (s : Supervisor) (now : Time) (g : Generation) : Option Cause :=
  if g.state = .starting ∧ g.startWritten.any (fun written => now ≥ written + startupBound) then
    some .startupTimeout
  else if g.writingSince.any (fun since => now ≥ since + s.timeout) then some .timeout
  else if g.outstanding.any (fun p => now ≥ p.deadline) then some .timeout
  else none

/-- The first part of `tickLocked`: the generation is retired for what is due. -/
def expireLocked (s : Supervisor) (now : Time) : Supervisor :=
  match s.running with
  | none => s
  | some g =>
    match s.dueCause now g with
    | some cause => s.retireLocked now g cause
    | none => s

def stopIdleLocked (s : Supervisor) : Supervisor :=
  match s.running with
  | none => s
  | some g => if g.state = .ready ∧ s.ending ∧ g.outstanding = [] then s.stopLocked g else s

/-- The loop starts a generation where this sets `spawning`. -/
def tickLocked (s : Supervisor) (now : Time) : Supervisor :=
  let s := (s.expireLocked now).stopIdleLocked
  if s.current = none ∧ ¬ s.spawning ∧ ¬ s.ending ∧ s.restart.any (fun restart => now ≥ restart) then
    { s with restart := none, spawning := true }
  else s

/-- The first region of `startGeneration`. -/
def spawn (s : Supervisor) : Supervisor :=
  if s.spawning ∧ s.starting = none then
    if s.ending then { s with spawning := false }
    else { s with number := s.number + 1, starting := some (s.number + 1) }
  else s

def begin_ (s : Supervisor) (number : Nat) (start : Bytes) : Supervisor :=
  let restarts := if number > 1 then s.counts.restarts + 1 else s.counts.restarts
  { s with
    counts := { s.counts with restarts := restarts }
    generations := Function.update s.generations number
      (some { number := number, queue := [{ line := start, start := true }] })
    current := some number
    spawning := false
    starting := none }

/-- The second region, with `start` the message of that type, or `none` where
the process could not be started. -/
def spawned (s : Supervisor) (now : Time) (start : Option Bytes) : Supervisor :=
  match s.starting with
  | none => s
  | some number =>
    match start with
    | none =>
      ({ s with spawning := false, starting := none }.put { number := number }).retireLocked now
        { number := number } .startFailed
    | some line =>
      let s := s.begin_ number line
      if s.ending then
        match s.running with
        | some g => s.stopLocked g
        | none => s
      else s

def writeNext (s : Supervisor) (number : Nat) (now : Time) : Supervisor :=
  match s.generations number with
  | some g =>
    match g.writing, g.interrupt || g.gone, g.queue with
    | none, false, o :: rest =>
      s.put { g with queue := rest, writing := some o, writingSince := some now }
    | _, _, _ => s
  | none => s

def wrote (s : Supervisor) (number : Nat) (now : Time) (failed : Bool) : Supervisor :=
  match s.generations number with
  | some g =>
    match g.writing with
    | some o =>
      let g := { g with writing := none, writingSince := none }
      if failed then
        let g := { g with gone := true }
        if g.state.live then (s.put g).retireLocked now g .crash else s.put g
      else if o.start then s.put { g with startWritten := some now } else s.put g
    | none => s
  | none => s

def unreadable (s : Supervisor) (number : Nat) (now : Time) (oversized : Bool) : Supervisor :=
  match s.generations number with
  | some g =>
    if g.state.live then s.retireLocked now g (if oversized then .oversizedFrame else .crash)
    else s
  | none => s

def exited (s : Supervisor) (number : Nat) (now : Time) : Supervisor :=
  match s.generations number with
  | some g => if g.state.live then s.retireLocked now g .crash else s
  | none => s

end Supervisor

def digit? (c : UInt8) : Option Nat := if 48 ≤ c ∧ c ≤ 57 then some (c.toNat - 48) else none

def parseID (text : Bytes) : Option Nat :=
  match text with
  | [] => none
  | first :: _ =>
    if first = 48 then none
    else do
      let id ← text.foldlM (fun sum c => (digit? c).map (fun digit => 10 * sum + digit)) 0
      if id < 2 ^ 64 then some id else none

/-- A line as the decoder leaves it: a field that is missing or of another type
is `none`, and one that is null its type's zero. A derived line comes with the
ids issued so far, the rate bucket's answer and the stamped line. -/
inductive Incoming where
  | invalid
  | ready (protocol : Option Bytes)
  | result (id outcome : Option Bytes) (changes : Option (List (Bytes × Bytes))) (reason : Option Bytes)
  | derived (sources : Option (List Bytes)) (basis : Option Bytes) (record : Bytes)
      (issued : Nat) (room : Bool) (stamped : Option Bytes)
  | other

/-- An answer's shape: one of the three outcomes, a changed one with an object
of changes, a failed one with a reason. -/
def answerOf (outcome : Option Bytes) (changes : Option (List (Bytes × Bytes))) (reason : Option Bytes) : Result :=
  match outcome with
  | none => .failed .malformed
  | some outcome =>
    if outcome = ascii "unchanged" then .unchanged
    else if outcome = ascii "changed" then
      match changes with
      | some (change :: rest) => .changed (change :: rest)
      | _ => .failed .malformed
    else if outcome = ascii "failed" then
      match reason with
      | some _ => .failed .declined
      | none => .failed .malformed
    else .failed .malformed

namespace Supervisor

def resultLocked (s : Supervisor) (now : Time) (g : Generation) (id outcome : Option Bytes)
    (changes : Option (List (Bytes × Bytes))) (reason : Option Bytes) : Supervisor :=
  if g.state = .retiring ∨ g.state = .stopping then
    { s with counts := { s.counts with late := s.counts.late + 1 } }
  else
    match id.bind parseID with
    | none => s.retireLocked now g .protocol
    | some id =>
      match g.outstanding.find? (·.call.id = id) with
      | some p =>
        let g := { g with
          outstanding := g.outstanding.filter (·.call.id ≠ id)
          waiting := g.waiting - p.call.bytes
          answered := g.answered.add id }
        { s.put g with
          after := s.after ++ [(id, answerOf outcome changes reason)]
          answers := s.answers ++ [(g.number, id)] }
      | none =>
        if g.answered.contains id then
          { s with counts := { s.counts with duplicate := s.counts.duplicate + 1 } }
        else s.retireLocked now g .unknownID

def refuseDerived (s : Supervisor) (reason : DerivedRefusal) : Supervisor :=
  { s with counts := { s.counts with
    derivedRefused := s.counts.derivedRefused + 1
    derivedRefusedBy :=
      Function.update s.counts.derivedRefusedBy reason (s.counts.derivedRefusedBy reason + 1) } }

def badSource (issued : Nat) : List Bytes → Option DerivedRefusal
  | [] => none
  | source :: rest =>
    match parseID source with
    | none => some .malformed
    | some id => if id > issued then some .unknownSource else badSource issued rest

def refuseRate (s : Supervisor) (now : Time) (g : Generation) : Supervisor :=
  let s := s.refuseDerived .rate
  let g := g.flooded (now / second)
  if g.floodRun ≥ derivedFloodSeconds ∧ g.state.live then (s.put g).retireLocked now g .flood
  else s.put g

def derivedLocked (s : Supervisor) (now : Time) (g : Generation) (sources : Option (List Bytes))
    (basis : Option Bytes) (record : Bytes) (issued : Nat) (room : Bool)
    (stamped : Option Bytes) : Supervisor :=
  if g.readyAt = none then s.refuseDerived .malformed
  else
    match sources with
    | none => s.refuseDerived .malformed
    | some sources =>
      if sources = [] ∨ sources.length > derivedSources ∨
          (basis ≠ some (ascii "observed") ∧ basis ≠ some (ascii "inferred")) ∨
          record.head? ≠ some 123 then s.refuseDerived .malformed
      else
        match badSource issued sources with
        | some refusal => s.refuseDerived refusal
        | none =>
          if ¬ room then s.refuseRate now g
          else
            match stamped with
            | none => s.refuseDerived .malformed
            | some line =>
              if s.derivedBytes + line.length > derivedQueueBytes then
                s.refuseDerived .queueFull
              else
                { s with
                  derived := s.derived ++ [line]
                  derivedBytes := s.derivedBytes + line.length }

def readyLocked (s : Supervisor) (now : Time) (g : Generation) (version : Option Bytes) :
    Supervisor :=
  if ¬ g.state.live then s
  else if version ≠ some protocol ∨ g.state ≠ .starting then s.retireLocked now g .protocol
  else
    let s := s.put { g with state := .ready, readyAt := some now }
    let resets := if s.ready then s.counts.stateResets + 1 else s.counts.stateResets
    { s with counts := { s.counts with stateResets := resets }, ready := true }

def handle (s : Supervisor) (number : Nat) (now : Time) (m : Incoming) : Supervisor :=
  match s.generations number with
  | none => s
  | some g =>
    match m with
    | .ready version => s.readyLocked now g version
    | .result id outcome changes reason => s.resultLocked now g id outcome changes reason
    | .derived sources basis record issued room stamped =>
      s.derivedLocked now g sources basis record issued room stamped
    | .invalid | .other => if g.state.live then s.retireLocked now g .protocol else s

def takeDerived (s : Supervisor) : Supervisor :=
  match s.derivedActive, s.derived with
  | none, line :: rest =>
    { s with
      derived := rest
      derivedBytes := s.derivedBytes - line.length
      derivedActive := some line }
  | _, _ => s

def finishDerived (s : Supervisor) (refusal : Option DerivedRefusal) : Supervisor :=
  match s.derivedActive with
  | none => s
  | some line =>
    let s := { s with derivedActive := none }
    match refusal with
    | none =>
      { s with counts := { s.counts with
        derivedWritten := s.counts.derivedWritten + 1
        derivedBytes := s.counts.derivedBytes + line.length } }
    | some reason => s.refuseDerived reason

def unlock (s : Supervisor) : Supervisor :=
  if s.after = [] then s else { s with after := [], calling := s.calling ++ [s.after] }

def callback (s : Supervisor) (place : Nat) : Supervisor :=
  match s.calling[place]? with
  | some (one :: rest) =>
    { s with calling := s.calling.set place rest, done := s.done ++ [one] }
  | _ => s

end Supervisor

inductive Event where
  | submit (now : Time) (call : Call)
  | connectionDone (message : Bytes)
  | line (number : Nat) (now : Time) (message : Incoming)
  | unreadable (number : Nat) (now : Time) (oversized : Bool)
  | tick (now : Time)
  | writeNext (number : Nat) (now : Time)
  | wrote (number : Nat) (now : Time) (failed : Bool)
  | exited (number : Nat) (now : Time)
  | spawn
  | spawned (now : Time) (start : Option Bytes)
  | end_
  | close
  | callback (place : Nat)
  | takeDerived
  | finishDerived (refusal : Option DerivedRefusal)

def Supervisor.act (s : Supervisor) : Event → Option Skip × Supervisor
  | .submit now call => s.submit now call
  | .connectionDone message => (none, s.connectionDone message)
  | .line number now message => (none, s.handle number now message)
  | .unreadable number now oversized => (none, s.unreadable number now oversized)
  | .tick now => (none, s.tickLocked now)
  | .writeNext number now => (none, s.writeNext number now)
  | .wrote number now failed => (none, s.wrote number now failed)
  | .exited number now => (none, s.exited number now)
  | .spawn => (none, s.spawn)
  | .spawned now start => (none, s.spawned now start)
  | .end_ => (none, s.end_)
  | .close => (none, s.close)
  | .callback place => (none, s.callback place)
  | .takeDerived => (none, s.takeDerived)
  | .finishDerived refusal => (none, s.finishDerived refusal)

def Supervisor.step (s : Supervisor) (event : Event) : Option Skip × Supervisor :=
  ((s.act event).1, (s.act event).2.unlock)

end EdgeObserver.Extension
