import EdgeObserver.Capture.Stream
import EdgeObserver.Library.Runs
import EdgeObserver.Library.Keyed

/-!
# A capture session

The connections a session follows, and what each call does under its lock. A
call is one step: the calls of one connection come one at a time, and the calls
of others touch nothing of it.
-/

set_option autoImplicit false

namespace EdgeObserver.Capture

open Fragment Probe

/-!
## A stream as a record

What a stream's transfers established about its socket, folded as they arrive,
and the connection record a stream ends as.
-/

/-- Addresses arrive sixteen bytes wide and are unmapped; whether they were read
is the program's own flag, since all zero is a real address. -/
def endpointsOf (ends : Ends) : Connection.Endpoints :=
  if ends.known then
    { near := { ip := Process.unmap { bytes := ends.near }, port := ends.nearPort, known := true }
      remote := { ip := Process.unmap { bytes := ends.peer }, port := ends.peerPort, known := true }
      netns := { inode := ends.netns } }
  else { netns := { inode := ends.netns } }

def basisOf (outcome : SocketOutcome) : Connection.Basis :=
  if outcome = .noKernelIo then .continuity else .confirmedInCall

/-- The reason an unbound direction gives from its own I/O, where it says
anything narrower than the stream's. -/
def unresolved : SocketOutcome → Connection.Reason
  | .fileIo => .operationWasNotASocket
  | .operationUnresolved => .operationUnresolved
  | .routeUnsupported => .routeUnsupported
  | .evidenceUnreadable => .evidenceUnreadable
  | .frameBroken => .operationFrameBroken
  | .noKernelIo | .socketIo | .other _ => .unset

def Binding.fold (held : Binding) (t : Transfer) : Binding :=
  let held := { held with until_ := t.time, outcome := t.outcome }
  match t.bound with
  | .boundTo =>
    if held.state = .boundTo ∧ held.generation = t.binding ∧ held.descriptor = .held t.descriptor then held
    else
      { held with
        state := .boundTo
        descriptor := .held t.descriptor
        generation := t.binding
        observed := true
        since := t.time
        unbounded := true
        basis := basisOf t.outcome
        socket := .named t.socket
        endpoints := endpointsOf t.ends
        attempted := t.ends.attempted }
  | .ambiguously | .invalidated =>
    { held with
      state := t.bound
      descriptor := .held t.descriptor
      generation := t.binding
      observed := true
      unbounded := false }
  | .notBound => if held.observed then held else { held with state := .notBound }

def Way.bind (w : Way) (t : Transfer) : Way :=
  { w with
    association := some ((w.association.getD { since := t.time, until_ := t.time }).fold t) }

def joinOf (endpoints : Connection.Endpoints) (attempted : Bool) : Connection.Joinability × Connection.JoinReason :=
  if endpoints.complete then (.joins, .unset)
  else if !endpoints.near.known || !endpoints.remote.known then
    (.doesNotJoin, if attempted then .endpointUnreadable else .noEndpointProducer)
  else (.doesNotJoin, .namespaceUnestablished)

/-- What a direction that observed a binding says about it. -/
def Binding.associated (held : Binding) (lifetime : Bool) (one : Connection.Association) :
    Connection.Association :=
  let one := { one with
    descriptor := held.descriptor
    binding := held.generation
    socket := held.socket
    source := .inCallSyscall }
  match held.state with
  | .boundTo =>
    if !lifetime then
      { one with
        state := .invalidated
        reason := .handleLifetimeUnobservable
        valid := .between held.since held.until_ }
    else
      { one with
        state := .established
        basis := held.basis
        valid :=
          if held.unbounded then .from_ held.since else .between held.since held.until_
        endpoints := held.endpoints
        join := (joinOf held.endpoints held.attempted).1
        joinReason := (joinOf held.endpoints held.attempted).2 }
  | .ambiguously =>
    { one with
      state := .ambiguous
      reason := .severalDescriptors
      contended := [held.descriptor, .unheld]
      descriptor := .unheld
      binding := 0 }
  | .notBound | .invalidated =>
    { one with
      state := .invalidated
      reason := .descriptorReplaced
      valid := .between held.since held.until_ }

namespace Stream

def associated (f : Stream) (direction : Direction) : Connection.Association :=
  let one : Connection.Association :=
    { connection := f.id
      direction := direction
      join := .doesNotJoin
      joinReason := .noBindingToJoin }
  match (f.way direction).association with
  | none => { one with state := .unknown, reason := f.begun }
  | some held =>
    if held.observed then held.associated f.lifetime one
    else
      { one with
        state := .unknown
        reason := if unresolved held.outcome ≠ .unset then unresolved held.outcome else f.begun }

def placed (f : Stream) (direction : Direction) : Connection.Placement :=
  match (f.way direction).placement with
  | none =>
    { connection := f.id
      direction := direction
      positions := .established
      lost := Connection.counted 0 }
  | some held =>
    { connection := f.id
      direction := direction
      positions := if held.fromOffset = 0 then .unknownThroughout else .unknownFrom
      fromOffset := held.fromOffset
      because := held.because
      lost :=
        if held.uncounted = [] then Connection.counted held.lost
        else Connection.uncounted held.uncounted }

def carried (f : Stream) : List Direction :=
  [Direction.sent, Direction.received].filter (fun direction => (f.way direction).carried)

def how (f : Stream) (ending : Connection.Ending) : Connection.Ending :=
  if f.lifetime = false ∧ ending = .stillOpen then .unestablished else ending

def record (f : Stream) (ending : Connection.Ending) (time : Time) : Connection.Record :=
  { id := f.id
    handle := { executed := f.executed.key, address := f.endpoint, generation := f.id }
    executed := f.executed
    process := f.process
    network := f.network
    firstSeen := f.firstSeen
    opened := f.opened
    openedKnown := f.opened != 0
    ended :=
      if f.how ending ≠ .stillOpen ∧ f.how ending ≠ .unestablished then time else 0
    how := f.how ending
    associations := f.carried.map f.associated
    placements := f.carried.map f.placed
    fragments := Connection.counted (Int64.ofNat f.sequence)
    early := f.early
    earlyUnmeasured := f.earlySeen }

end Stream

/-! ## The session -/

/-- What the attachment can establish; `told` is whether anybody said. -/
structure Capability where
  told : Bool := false
  binding : Bool := false
  lifecycle : Bool := false

inductive Written where
  | accepted
  | limit
  | failed

inductive Fate where
  | stale
  | unmeasured
  | empty
  | stopped
  | handed (record : Fragment.Record) (answer : Written)

/-- One thing that happened in a session. A connection is named by its id, zero
where the call reached none; `final` is what the ending carried. -/
inductive Happened where
  | transferred (connection : Nat) (t : Transfer) (fate : Fate)
  | refused (connection : Nat) (t : Transfer)
  | ended (stream : Stream) (record : Connection.Record) (final : Option Final)

/-- A session. `streams` stands in the order of their ids; `history` is what
happened so far, the newest first, and nothing reads it. -/
structure Session where
  recording : Bool := true
  streams : List Stream := []
  next : Nat := 0
  stats : Stats := {}
  settlers : List Settler := []
  observing : Capability := {}
  history : List Happened := []

namespace Session

def find (s : Session) (handle : Handle) : Option Stream := s.streams.find? (fun f => f.handle = handle)

def keep (s : Session) (l : Locked) : Session :=
  { s with
    stats := l.stats
    streams := s.streams.map (fun f => if f.handle = l.stream.handle then l.stream else f) }

def drop (s : Session) (handle : Handle) : Session :=
  { s with streams := s.streams.filter (fun f => f.handle ≠ handle) }

def happened (s : Session) (one : Happened) : Session := { s with history := one :: s.history }

def write (s : Session) (f : Stream) (record : Connection.Record) (final : Option Final) (accepted : Bool) : Session :=
  { s with
    stats :=
      if s.recording = true ∧ accepted = false then
        { s.stats with connectionsUnrecorded := s.stats.connectionsUnrecorded + 1 }
      else s.stats }.happened (.ended f record final)

/-- `retireLocked`: ends a stream whose occupancy the producer replaced. -/
def retire (s : Session) (f : Stream) (time : Time) (accepted : Bool) : Session :=
  let l := Locked.cutBoth ⟨s.stats, f⟩ .terminalUnsettled neverEnded
  { s.drop f.handle with
    stats := { l.stats with retired := l.stats.retired + 1 } }.write
      l.stream (l.stream.record .unobserved time) none accepted

def begunOf (observing : Capability) (sequence : Sequence) : Connection.Reason :=
  if observing.told = true ∧ observing.binding = false then .bindingUnobservable
  else if sequence.beginUnlocated > 0 ∧ sequence.born = false then .observationLost
  else .noBindingObserved

def originOf (sequence : Sequence) : Origin :=
  if sequence.occupancy = 0 then .unestablished
  else if sequence.born then .birth
  else if sequence.beginUnlocated > 0 then .unestablished
  else .firstRecorded

def fresh (s : Session) (t : Transfer) : Stream :=
  { lifetime := !s.observing.told || s.observing.lifecycle
    id := s.next + 1
    process := t.process
    executed := t.executed
    network := t.network
    endpoint := t.endpoint
    firstSeen := t.time
    opened := t.ends.openedAt
    begun := begunOf s.observing t.sequence
    occupancy := t.sequence.occupancy
    unlocated := t.sequence.unlocated
    identity :=
      { connection := s.next + 1
        process := t.process
        executed := t.executed
        address := t.endpoint
        generation := s.next + 1
        networkDevice := t.network.device
        networkInode := t.network.inode
        firstSeen := t.time
        opened := t.ends.openedAt }
    origin := originOf t.sequence }

def opening (s : Session) (t : Transfer) : Locked :=
  let l : Locked :=
    { stats :=
        match t.executed.validate with
        | .error _ => { s.stats with unattributed := s.stats.unattributed + 1 }
        | .ok () => s.stats
      stream := s.fresh t }
  if t.sequence.beginUnlocated > 0 ∧ t.sequence.occupancy ≠ 0 ∧ t.sequence.born = false then
    (l.cut .sent 0 .observationLost 0 lostBefore).cut .received 0 .observationLost 0 lostBefore
  else l

def begin_ (s : Session) (t : Transfer) : Session × Stream :=
  let l := s.opening t
  ({ s with
    next := s.next + 1
    streams := s.streams ++ [l.stream]
    stats := { l.stats with connections := l.stats.connections + 1 } }, l.stream)

def joins (f : Stream) (occupancy : UInt64) : Bool := occupancy == 0 || f.occupancy == 0 || f.occupancy == occupancy

def follow (s : Session) (t : Transfer) (accepted : Bool) : Session × Stream :=
  match s.find t.handle with
  | none => s.begin_ t
  | some f =>
    if joins f t.sequence.occupancy then (s, f)
    else (s.retire f t.time accepted).begin_ t

end Session

def moved (t : Transfer) : Bool := t.sequence.occupancy == 0 || t.sequence.number != 0

namespace Locked

def unmeasured (l : Locked) (t : Transfer) : Locked :=
  let l := if t.early then
      { l with stream := { l.stream with earlySeen := l.stream.earlySeen + 1 } }
    else l
  if moved t then
    let l := (l.number t).1
    l.cut t.direction (l.stream.way t.direction).offset .lengthUnmeasured 0 []
  else l

def empty (l : Locked) (t : Transfer) (next : Bool) : Locked :=
  let w := l.stream.way t.direction
  { stats := { l.stats with empty := l.stats.empty + 1 }
    stream := l.stream.set t.direction
      (({ w with empties := w.empties + 1 } : Way).resolve t.sequence.number next) }

def fragment (l : Locked) (t : Transfer) : Fragment.Record :=
  { process := t.process
    connection := l.stream.id
    direction := t.direction
    sequence := l.stream.sequence + 1
    offset := (l.stream.way t.direction).offset
    length := t.length
    produced := t.sequence.number
    empties := (l.stream.way t.direction).empties
    payload := t.payload
    time := t.time
    slot := t.slot }

def advance (w : Way) (t : Transfer) (next : Bool) : Way :=
  ({ ({ w with empties := 0 } : Way).bind t with
    offset := w.offset + t.length.toNat
    carried := true } : Way).resolve t.sequence.number next

def place (l : Locked) (t : Transfer) (next : Bool) : Locked :=
  { l with
    stream :=
      { l.stream with
        sequence := l.stream.sequence + 1
        early :=
          if t.early then
            l.stream.early ++
              [{ direction := t.direction
                 offset := (l.stream.way t.direction).offset
                 length := t.length }]
          else l.stream.early : Stream }.set t.direction
        (advance (l.stream.way t.direction) t next) }

def answered (l : Locked) (direction : Direction) (offset : Nat) : Written → Locked
  | .accepted => { l with stats := { l.stats with records := l.stats.records + 1 } }
  | .limit =>
    { stats :=
        { l.stats with
          rejected := l.stats.rejected + 1
          intakeRefused := l.stats.intakeRefused + 1 }
      stream :=
        { l.stream with
          loss := l.stream.loss.stop "intake_exhausted" } : Locked }.cut
      direction offset .observationLost 0 Capture.intakeRefused
  | .failed =>
    { l with
      stats := { l.stats with rejected := l.stats.rejected + 1 } : Locked }.cut
      direction offset .observationLost 0 Capture.intakeRefused

def measured (l : Locked) (t : Transfer) (answer : Written) : Locked × Fate :=
  let (l, next) := l.number t
  if t.length = 0 then (l.empty t next, .empty)
  else if l.stream.loss.reason ≠ "" then
    ({ l with stats := { l.stats with rejected := l.stats.rejected + 1 } }, .stopped)
  else
    let placed := l.place t next
    let record := { l.fragment t with evidence := placed.stream.evidence }
    (placed.answered t.direction record.offset answer, .handed record answer)

def refuse (l : Locked) (t : Transfer) : Locked :=
  let w := l.stream.way t.direction
  let l := { l with
    stream := { l.stream with loss := l.stream.loss.stop "input_limit" } : Locked }.cut
      t.direction w.offset .observationLost 0 Capture.gateRefused
  let l := { l with
    stream := l.stream.set t.direction
      { l.stream.way t.direction with
        first := if w.first = 0 then t.sequence.number else w.first } }
  if t.sequence.number ≤ w.numbered then l
  else
    let l :=
      if t.sequence.number > w.numbered + 1 then
        l.cut t.direction w.offset .observationLost 0 refusedPast
      else l
    { l with
      stream := l.stream.set t.direction
        { l.stream.way t.direction with
          numbered := t.sequence.number
          droppedBelow := t.sequence.dropped } }

end Locked

namespace Session

def stale (s : Session) (t : Transfer) : Bool :=
  match s.find t.handle with
  | none => false
  | some f => t.sequence.occupancy != 0 && decide (t.sequence.occupancy < f.occupancy)

/-- Places one transfer in its stream and hands the record on. `answer` is the
sink's, `accepted` the record sink's where a stream is retired. -/
def transfer (s : Session) (t : Transfer) (answer : Written) (accepted : Bool) : Session :=
  let s := { s with stats := { s.stats with transfers := s.stats.transfers + 1 } }
  if s.stale t then
    { s with stats := { s.stats with rejected := s.stats.rejected + 1 } }.happened (.transferred 0 t .stale)
  else
    let s := if t.early then { s with stats := { s.stats with early := s.stats.early + 1 } } else s
    if t.measured = false then
      let s := { s with stats := { s.stats with unmeasured := s.stats.unmeasured + 1 } }
      if moved t = true ∨ t.early = true then
        let (s, f) := s.follow t accepted
        (s.keep (Locked.unmeasured ⟨s.stats, f⟩ t)).happened (.transferred f.id t .unmeasured)
      else s.happened (.transferred 0 t .unmeasured)
    else if t.length = 0 ∧ t.sequence.number = 0 then
      { s with stats := { s.stats with empty := s.stats.empty + 1 } }.happened (.transferred 0 t .empty)
    else
      let (s, f) := s.follow t accepted
      let (l, fate) := Locked.measured ⟨s.stats, f⟩ t answer
      (s.keep l).happened (.transferred f.id t fate)

def refused (s : Session) (t : Transfer) : Session :=
  let s := { s with stats := { s.stats with gateRefused := s.stats.gateRefused + 1 } }
  if t.sequence.number = 0 then s.happened (.refused 0 t)
  else
    match s.find t.handle with
    | none => s.happened (.refused 0 t)
    | some f =>
      if f.occupancy ≠ t.sequence.occupancy then s.happened (.refused 0 t)
      else (s.keep (Locked.refuse ⟨s.stats, f⟩ t)).happened (.refused f.id t)

def unmatched (s : Session) : Session :=
  { s with stats := { s.stats with endingsUnmatched := s.stats.endingsUnmatched + 1 } }

def settled (s : Session) (f : Stream) (c : Ending) : Locked :=
  (Locked.unlocated ⟨s.stats, f⟩ c.sequence.unlocated).settle c.final true

def closed (s : Session) (c : Ending) (accepted : Bool) : Session :=
  match s.find c.handle with
  | none => s.unmatched
  | some f =>
    if c.sequence.occupancy ≠ 0 ∧ c.sequence.occupancy < f.occupancy then s.unmatched
    else if joins f c.sequence.occupancy = false then (s.retire f c.time accepted).unmatched
    else
      let l := s.settled f c
      { s.drop f.handle with
        stats := { l.stats with closed := l.stats.closed + 1 } }.write l.stream
          { l.stream.record (if c.final.exited then .unobserved else .handleReleased) c.time with
            slot := c.slot }
          (some c.final) accepted

/-- The streams a session still follows, each settled against what its producer
holds, with the counters after them. -/
def finals (settlers : List Settler) (stats : Stats) : List Stream → Stats × List Stream
  | [] => (stats, [])
  | f :: rest =>
    let l := Locked.final ⟨stats, f⟩ settlers
    let (stats, ended) := finals settlers l.stats rest
    (stats, l.stream :: ended)

def finish (s : Session) (time : Time) (accepted : Nat → Bool) : Session :=
  let (stats, ended) := finals s.settlers s.stats s.streams
  ended.foldl (fun s f => s.write f (f.record .stillOpen time) none (accepted f.id))
    { s with stats := stats, streams := [] }

end Session

inductive Call where
  | transfer (t : Transfer) (answer : Written) (accepted : Bool)
  | refused (t : Transfer)
  | closed (c : Ending) (accepted : Bool)
  | finish (time : Time) (accepted : Nat → Bool)
  | settling (settler : Settler)
  | observing (capability : Capability)

def Session.step (s : Session) : Call → Unit × Session
  | .transfer t answer accepted => ((), s.transfer t answer accepted)
  | .refused t => ((), s.refused t)
  | .closed c accepted => ((), s.closed c accepted)
  | .finish time accepted => ((), s.finish time accepted)
  | .settling settler => ((), { s with settlers := s.settlers ++ [settler] })
  | .observing capability => ((), { s with observing := capability })

def after (recording : Bool) (calls : List Call) : Session := (Library.run Session.step { recording } calls).2

end EdgeObserver.Capture
