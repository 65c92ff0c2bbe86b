import EdgeObserver.Fragment.Record

/-!
# Connection records

One captured connection, as it is handed on when it stops changing: which
connection it is, how long it lasted, what its transfers established about its
socket, and where its bytes stop being placeable.
-/

set_option autoImplicit false

namespace EdgeObserver.Connection

open Fragment

structure Count where
  value : Int64 := 0
  known : Bool := false
  why : Bytes := []
  deriving DecidableEq

def counted (value : Int64) : Count := { value, known := true }

def uncounted (why : Bytes) : Count := { why }

structure Netns where
  device : UInt64 := 0
  inode : UInt64 := 0
  deriving DecidableEq

def Netns.known (n : Netns) : Bool := n.device != 0 || n.inode != 0

structure Descriptor where
  number : Int := 0
  known : Bool := false
  deriving DecidableEq

def Descriptor.held (number : Int) : Descriptor := { number, known := true }

def Descriptor.unheld : Descriptor := {}

structure Socket where
  inode : UInt64 := 0
  known : Bool := false
  deriving DecidableEq

def Socket.named (inode : UInt64) : Socket := if inode = 0 then {} else { inode, known := true }

structure Addr where
  bytes : Bytes := []
  zone : Bytes := []
  deriving DecidableEq

structure Address where
  ip : Addr := {}
  port : UInt16 := 0
  known : Bool := false
  deriving DecidableEq

structure Endpoints where
  near : Address := {}
  remote : Address := {}
  netns : Netns := {}
  deriving DecidableEq

def Endpoints.complete (e : Endpoints) : Bool := e.near.known && e.remote.known && e.netns.known

inductive State where
  | unset
  | established
  | unknown
  | ambiguous
  | invalidated
  deriving DecidableEq

inductive Reason where
  | unset
  | noBindingObserved
  | insertionRefused
  | observationLost
  | transportUnsupported
  | bindingUnobservable
  | operationWasNotASocket
  | evidenceUnreadable
  | operationUnresolved
  | routeUnsupported
  | operationFrameBroken
  | socketEvidenceUnavailable
  | severalDescriptors
  | descriptorReplaced
  | transportReplaced
  | lifetimeEvidenceEnded
  | handleReleased
  | handleLifetimeUnobservable
  | terminalUnsettled
  | sequenceUnavailable
  | operationsOverlapped
  | lengthUnmeasured
  deriving DecidableEq

inductive Joinability where
  | unset
  | joins
  | doesNotJoin
  deriving DecidableEq

inductive JoinReason where
  | unset
  | noBindingToJoin
  | endpointUnreadable
  | noEndpointProducer
  | namespaceUnestablished
  deriving DecidableEq

inductive Source where
  | unset
  | setterArgument
  | inCallSyscall
  | socketLifetime
  deriving DecidableEq

inductive Basis where
  | unset
  | confirmedInCall
  | continuity
  deriving DecidableEq

structure Interval where
  since : Time := 0
  until_ : Time := 0
  unbounded : Bool := false
  deriving DecidableEq

def Interval.from_ (since : Time) : Interval := { since, unbounded := true }

def Interval.between (since until_ : Time) : Interval := { since, until_ }

structure Association where
  connection : Nat
  direction : Direction
  state : State := .unset
  reason : Reason := .unset
  binding : UInt64 := 0
  source : Source := .unset
  valid : Interval := {}
  descriptor : Descriptor := {}
  socket : Socket := {}
  endpoints : Endpoints := {}
  join : Joinability := .unset
  joinReason : JoinReason := .unset
  contended : List Descriptor := []
  basis : Basis := .unset
  deriving DecidableEq

inductive Positions where
  | unset
  | established
  | unknownFrom
  | unknownThroughout
  deriving DecidableEq

structure Placement where
  connection : Nat
  direction : Direction
  positions : Positions := .unset
  fromOffset : Nat := 0
  because : Reason := .unset
  lost : Count := {}
  deriving DecidableEq

def Placement.whole (p : Placement) : Bool := p.positions == .established

structure Handle where
  executed : Admission.Key
  address : UInt64
  generation : Nat
  deriving DecidableEq

structure Early where
  direction : Direction
  offset : Nat
  length : UInt32
  deriving DecidableEq

inductive Ending where
  | unset
  | stillOpen
  | handleReleased
  | socketClosed
  | unobserved
  | unestablished
  deriving DecidableEq

structure Record where
  id : Nat
  handle : Handle
  executed : Admission.Instance
  process : Process
  network : Netns
  firstSeen : Time
  opened : Time := 0
  openedKnown : Bool := false
  ended : Time := 0
  how : Ending := .unset
  associations : List Association := []
  placements : List Placement := []
  fragments : Count := {}
  early : List Early := []
  earlyUnmeasured : Nat := 0
  slot : Option Nat := none
  deriving DecidableEq

def Record.placement (r : Record) (direction : Direction) : Option Placement :=
  r.placements.find? (fun one => one.direction == direction)

end EdgeObserver.Connection
