import EdgeObserver.Connection.Record

/-!
# What an adapter reports

One call that moved plaintext, and one handle's release, each with its place in
the producer's numbering of that handle.
-/

set_option autoImplicit false

namespace EdgeObserver.Probe

open Fragment (Direction)

/-- What is established about the socket a transfer crossed. Every code but the
other three is taken as `notBound`. -/
inductive Bound where
  | notBound
  | boundTo
  | ambiguously
  | invalidated
  deriving DecidableEq

/-- What happened to a call's own kernel I/O; `other` is any code but those
named. -/
inductive SocketOutcome where
  | noKernelIo
  | socketIo
  | fileIo
  | operationUnresolved
  | routeUnsupported
  | evidenceUnreadable
  | frameBroken
  | other (code : UInt8)
  deriving DecidableEq

structure Ends where
  near : Bytes := []
  peer : Bytes := []
  netns : UInt64 := 0
  openedAt : Time := 0
  nearPort : UInt16 := 0
  peerPort : UInt16 := 0
  known : Bool := false
  attempted : Bool := false

structure Sequence where
  occupancy : UInt64 := 0
  number : UInt64 := 0
  born : Bool := false
  overlapped : Bool := false
  unlocated : UInt64 := 0
  beginUnlocated : UInt64 := 0
  dropped : UInt64 := 0

structure Terminal where
  last : UInt64 := 0
  dropped : UInt64 := 0
  inFlight : Bool := false
  deriving DecidableEq

structure Final where
  known : Bool := false
  sent : Terminal := {}
  received : Terminal := {}
  exited : Bool := false

def Final.inDirection (final : Final) : Direction → Terminal
  | .sent => final.sent
  | .received => final.received
  | .unknown => {}

structure Handle where
  executed : Admission.Key
  endpoint : UInt64
  deriving DecidableEq

structure Settlement where
  occupancy : UInt64 := 0
  final : Final := {}

structure Settler where
  settled : Handle → Except Bytes Settlement
  unlocated : Except Bytes UInt64

structure Transfer where
  process : Fragment.Process
  executed : Admission.Instance := {}
  network : Connection.Netns := {}
  descriptor : Int := 0
  binding : UInt64 := 0
  bound : Bound := .notBound
  socket : UInt64 := 0
  ends : Ends := {}
  outcome : SocketOutcome := .noKernelIo
  sequence : Sequence := {}
  endpoint : UInt64
  direction : Direction
  length : UInt32 := 0
  payload : Bytes := []
  early : Bool := false
  measured : Bool := true
  time : Time
  slot : Option Nat := none

def Transfer.handle (t : Transfer) : Handle := { executed := t.executed.key, endpoint := t.endpoint }

structure Ending where
  executed : Admission.Instance := {}
  sequence : Sequence := {}
  final : Final := {}
  endpoint : UInt64
  time : Time
  slot : Option Nat := none

def Ending.handle (c : Ending) : Handle := { executed := c.executed.key, endpoint := c.endpoint }

end EdgeObserver.Probe
