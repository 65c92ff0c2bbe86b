import EdgeObserver.Probe.Transfer
import EdgeObserver.Process.Rule

/-!
# One followed connection

What capture keeps of a connection while it follows it: where each direction's
bytes have reached, what the producer numbered in it, and where its positions
stopped being established.
-/

set_option autoImplicit false

namespace EdgeObserver.Capture

open Fragment Probe

/-- One direction's answer to whether its bytes can be placed: the first offset
not established and why, the transfers known missing, and why that count is not
the whole of it. -/
structure Placement where
  fromOffset : Nat
  because : Connection.Reason
  lost : Int64 := 0
  uncounted : Bytes := []

structure Binding where
  state : Bound := .notBound
  descriptor : Connection.Descriptor := {}
  generation : UInt64 := 0
  socket : Connection.Socket := {}
  endpoints : Connection.Endpoints := {}
  attempted : Bool := false
  observed : Bool := false
  since : Time
  until_ : Time
  unbounded : Bool := true
  basis : Connection.Basis := .unset
  outcome : SocketOutcome := .noKernelIo

/-- What a stream keeps of one direction. `carried` is whether the direction has
an offset at all, and no placement means fully placeable. -/
structure Way where
  offset : Nat := 0
  carried : Bool := false
  placement : Option Placement := none
  association : Option Binding := none
  numbered : UInt64 := 0
  empties : Nat := 0
  droppedBelow : UInt64 := 0
  first : UInt64 := 0
  resolved : UInt64 := 0

structure Stream where
  lifetime : Bool
  id : Nat
  process : Fragment.Process
  executed : Admission.Instance
  network : Connection.Netns
  endpoint : UInt64
  firstSeen : Time
  opened : Time
  sequence : Nat := 0
  early : List Connection.Early := []
  earlySeen : Nat := 0
  begun : Connection.Reason
  occupancy : UInt64
  loss : Held.Loss := {}
  unlocated : UInt64
  identity : Identity
  origin : Origin
  way : Direction → Way := fun _ => {}

structure Stats where
  gateRefused : Int64 := 0
  intakeRefused : Int64 := 0
  transfers : Int64 := 0
  empty : Int64 := 0
  early : Int64 := 0
  unmeasured : Int64 := 0
  records : Int64 := 0
  connections : Int64 := 0
  closed : Int64 := 0
  rejected : Int64 := 0
  unattributed : Int64 := 0
  endingsUnmatched : Int64 := 0
  lost : Int64 := 0
  cut : Int64 := 0
  retired : Int64 := 0
  unsequenced : Int64 := 0
  unlocated : Int64 := 0
  connectionsUnrecorded : Int64 := 0

def Placement.more (held : Placement) (lost : Int64) (why : Bytes) : Placement :=
  { held with
    lost := held.lost + lost
    uncounted := if held.uncounted = [] then why else held.uncounted }

def Way.cut (w : Way) (fromOffset : Nat) (because : Connection.Reason) (lost : Int64) (why : Bytes) : Way :=
  { w with
    carried := true
    placement := some ((w.placement.getD { fromOffset, because }).more lost why) }

def Way.resolve (w : Way) (number : UInt64) (next : Bool) : Way :=
  if next = true ∧ number ≠ 0 ∧ w.resolved = number - 1 then { w with resolved := number } else w

def Way.reached (w : Way) : DirectionEvidence :=
  { limit := w.offset
    cut := w.placement.isSome
    fromOffset := (w.placement.map (·.fromOffset)).getD 0
    lost := (w.placement.map (·.lost.toUInt64)).getD 0
    lostUncounted := (w.placement.map (fun held => decide (held.uncounted ≠ []))).getD false
    first := w.first
    numbered := w.numbered
    resolved := w.resolved
    empties := w.empties }

namespace Stream

def handle (f : Stream) : Handle := { executed := f.executed.key, endpoint := f.endpoint }

def set (f : Stream) (direction : Direction) (w : Way) : Stream :=
  { f with way := fun each => if each = direction then w else f.way each }

def evidence (f : Stream) : Evidence :=
  { identity := some f.identity
    occupancy := f.occupancy
    origin := f.origin
    through := f.sequence
    sent := (f.way .sent).reached
    received := (f.way .received).reached }

end Stream

structure Locked where
  stats : Stats
  stream : Stream

def noSequence : Bytes := ascii "the producer kept no sequence for the connection's handle"

def callsOverlapped : Bytes :=
  ascii "two calls in the direction overlapped, so whether any of their bytes is missing is unknown"

def arrivedBehind : Bytes := ascii "a transfer arrived behind one already seen, so whether any is missing is unknown"

def gateRefused : Bytes := ascii "the held-event bound refused a transfer"

def refusedPast : Bytes :=
  ascii "a transfer the delivery gate refused numbered past the last delivered; the transfers " ++
    ascii "between are counted as abandoned, not here"

def intakeRefused : Bytes := ascii "volatile intake refused a fragment"

def lostBefore : Bytes := ascii "the producer lost a transfer it could place in no connection before this one began"

def neverEnded : Bytes :=
  ascii "the connection's ending was never delivered, so whether its last transfers " ++ ascii "arrived is unknown"

def noOccupancy : Bytes :=
  ascii "the producer held no occupancy for the connection when it ended, so " ++
    ascii "whether its last transfers arrived is unknown"

def undelivered : Bytes :=
  ascii "the producer numbered transfers past the last delivered that the session end did not " ++
    ascii "deliver and that no refused reservation accounts for; counted as incomplete, not lost"

def behindDelivered : Bytes :=
  ascii "the producer's last number is behind one delivered, so the direction's evidence disagrees"

def stillInFlight : Bytes := ascii "a call in the direction was still in flight when the handle was released"

def unreadable : Bytes := ascii "the producer's occupancies could not be read when production stopped: "

def twoProducers : Bytes := ascii "two producers hold an occupancy for the connection's handle"

def noProducer : Bytes :=
  ascii "no producer held the connection's occupancy when production stopped, so " ++
    ascii "its ending, and whether its last transfers arrived, are unknown"

def anotherOccupancy : Bytes :=
  ascii "the producer had begun another occupancy of the handle, so the " ++
    ascii "connection's ending was never delivered"

def unlocatedUnread : Bytes := ascii "the producer's count of losses it could place nowhere could not be read: "

namespace Locked

/-- `cutLocked`: stops one direction's established positions, counting the cut
where it is the direction's first. -/
def cut (l : Locked) (direction : Direction) (fromOffset : Nat) (because : Connection.Reason)
    (lost : Int64) (why : Bytes) : Locked :=
  { stats :=
      if (l.stream.way direction).placement.isNone then { l.stats with cut := l.stats.cut + 1 }
      else l.stats
    stream := l.stream.set direction ((l.stream.way direction).cut fromOffset because lost why) }

def lose (l : Locked) (direction : Direction) (missing : Int64) : Locked :=
  { l with
    stats := { l.stats with lost := l.stats.lost + missing } }.cut
      direction (l.stream.way direction).offset .observationLost missing []

def cutBoth (l : Locked) (because : Connection.Reason) (why : Bytes) : Locked :=
  let l := l.cut .sent (l.stream.way .sent).offset because 0 why
  l.cut .received (l.stream.way .received).offset because 0 why

def unlocated (l : Locked) (unlocated : UInt64) : Locked :=
  { stats :=
      if unlocated > l.stats.unlocated.toUInt64 then
        { l.stats with unlocated := unlocated.toInt64 }
      else l.stats
    stream := { l.stream with unlocated := max l.stream.unlocated unlocated } }

def count (l : Locked) (direction : Direction) (sequence : Sequence) : Locked × Bool :=
  let w := l.stream.way direction
  let l := { l with
    stream := l.stream.set direction
      { w with first := if w.first = 0 then sequence.number else w.first } }
  let next := sequence.number == w.numbered + 1
  let l :=
    if next then l
    else if sequence.number > w.numbered + 1 then
      l.lose direction (sequence.number - w.numbered - 1).toInt64
    else l.cut direction w.offset .operationsOverlapped 0 arrivedBehind
  let l :=
    if sequence.number > w.numbered then
      { l with
        stream := l.stream.set direction
          { l.stream.way direction with
            numbered := sequence.number
            droppedBelow := sequence.dropped } }
    else l
  (l, next)

/-- `number`: a transfer's place in its occupancy, read before its bytes are
placed, and whether its number is the one after the last seen. -/
def number (l : Locked) (t : Transfer) : Locked × Bool :=
  let l := l.unlocated t.sequence.unlocated
  if t.sequence.occupancy = 0 then
    ({ l with
      stats := { l.stats with unsequenced := l.stats.unsequenced + 1 } }.cutBoth
        .sequenceUnavailable noSequence, false)
  else
    (if t.sequence.overlapped then
      l.cut t.direction (l.stream.way t.direction).offset .operationsOverlapped 0 callsOverlapped
    else l).count t.direction t.sequence

def tail (w : Way) (terminal : Terminal) (missing : Int64) : Int64 :=
  let located := terminal.dropped.toInt64 - w.droppedBelow.toInt64
  let located := if located < 0 then 0 else located
  if located > missing then missing else located

def terminalOf (terminal : Terminal) : UInt64 :=
  if terminal.inFlight = true ∧ terminal.last > 0 then terminal.last - 1 else terminal.last

def settleTail (l : Locked) (ending : Bool) (direction : Direction) (terminal : Terminal) :
    Locked :=
  let w := l.stream.way direction
  if terminalOf terminal > w.numbered then
    let missing := (terminalOf terminal - w.numbered).toInt64
    let located := if ending then missing else tail w terminal missing
    if located > 0 then l.lose direction located
    else l.cut direction w.offset .terminalUnsettled 0 undelivered
  else if terminalOf terminal < w.numbered then
    l.cut direction w.offset .terminalUnsettled 0 behindDelivered
  else l

def settleIn (l : Locked) (ending : Bool) (direction : Direction) (terminal : Terminal) : Locked :=
  if ending = true ∧ terminal.inFlight = true then
    (l.settleTail ending direction terminal).cut direction (l.stream.way direction).offset
      .terminalUnsettled 0 stillInFlight
  else l.settleTail ending direction terminal

def settle (l : Locked) (final : Final) (ending : Bool) : Locked :=
  if final.known then
    (l.settleIn ending .sent final.sent).settleIn ending .received final.received
  else l.cutBoth .terminalUnsettled noOccupancy

/-- The settlers are asked in turn for the one that holds an occupancy of the
handle; `held` is the one found so far. -/
def holder (handle : Handle) (held : Option (Settler × Settlement)) :
    List Settler → Except Bytes (Option (Settler × Settlement))
  | [] => .ok held
  | settler :: rest =>
    match settler.settled handle with
    | .error text => .error (unreadable ++ text)
    | .ok one =>
      if one.occupancy = 0 then holder handle held rest
      else if held.isSome then .error twoProducers
      else holder handle (some (settler, one)) rest

/-- `finalLocked`: settles a stream still open when production stopped. -/
def final (l : Locked) (settlers : List Settler) : Locked :=
  if l.stream.occupancy = 0 then l
  else
    match holder l.stream.handle none settlers with
    | .error why => l.cutBoth .terminalUnsettled why
    | .ok none => l.cutBoth .terminalUnsettled noProducer
    | .ok (some (settler, held)) =>
      if held.occupancy ≠ l.stream.occupancy then l.cutBoth .terminalUnsettled anotherOccupancy
      else
        match settler.unlocated with
        | .error text => l.cutBoth .terminalUnsettled (unlocatedUnread ++ text)
        | .ok unlocated => (l.unlocated unlocated).settle held.final false

end Locked

end EdgeObserver.Capture
