import EdgeObserver.Held

/-!
# Fragment records

One plaintext fragment as one call transferred it, and the evidence capture
held for its connection when it placed it.
-/

set_option autoImplicit false

namespace EdgeObserver

/-- An instant, in nanoseconds from the zero time. -/
abbrev Time := Int

/-! ## Admitted executions -/

namespace Admission

structure Namespace where
  device : UInt64 := 0
  inode : UInt64 := 0
  deriving DecidableEq

def Namespace.known (n : Namespace) : Bool := n.device != 0 || n.inode != 0

structure Start where
  ticks : UInt64 := 0
  determined : Bool := false
  deriving DecidableEq

structure Instance where
  namespaces : Namespace := {}
  pid : Int := 0
  start : Start := {}
  generation : UInt64 := 0
  executable : Bytes := []
  deriving DecidableEq

structure Key where
  namespaces : Namespace
  pid : Int
  generation : UInt64
  deriving DecidableEq

def Instance.key (i : Instance) : Key := { namespaces := i.namespaces, pid := i.pid, generation := i.generation }

inductive Invalid where
  | namespaceUnknown (pid : Int)
  | noProcess (pid : Int) (namespaces : Namespace)
  | noGeneration (pid : Int) (namespaces : Namespace)

def Instance.validate (i : Instance) : Except Invalid Unit :=
  if !i.namespaces.known then .error (.namespaceUnknown i.pid)
  else if i.pid ≤ 0 then .error (.noProcess i.pid i.namespaces)
  else if i.generation = 0 then .error (.noGeneration i.pid i.namespaces)
  else .ok ()

end Admission

namespace Fragment

/-- Which way plaintext went, seen from the observed process. Every code but the
two it names is unknown, and never valid in a record. -/
inductive Direction where
  | unknown
  | sent
  | received
  deriving DecidableEq

structure Process where
  pid : Int := 0
  startTime : UInt64 := 0
  deriving DecidableEq

structure Identity where
  connection : Nat
  process : Process
  executed : Admission.Instance
  address : UInt64
  generation : Nat
  networkDevice : UInt64
  networkInode : UInt64
  firstSeen : Time
  opened : Time
  deriving DecidableEq

inductive Origin where
  | unset
  | birth
  | firstRecorded
  | unestablished
  deriving DecidableEq

/-- What an evidence says about one direction. Offsets count the bytes that
crossed one handle, and are far from the end of their type; the producer's
numbers are read off its events and wrap as the program's do. -/
structure DirectionEvidence where
  limit : Nat := 0
  cut : Bool := false
  fromOffset : Nat := 0
  lost : UInt64 := 0
  lostUncounted : Bool := false
  first : UInt64 := 0
  numbered : UInt64 := 0
  resolved : UInt64 := 0
  empties : Nat := 0
  deriving DecidableEq

def DirectionEvidence.established (d : DirectionEvidence) : Nat := if d.cut then d.fromOffset else d.limit

structure Evidence where
  identity : Option Identity := none
  occupancy : UInt64 := 0
  origin : Origin := .unset
  through : Nat := 0
  sent : DirectionEvidence := {}
  received : DirectionEvidence := {}
  deriving DecidableEq

def Evidence.taken (e : Evidence) : Bool := e.through != 0

def Evidence.inDirection (e : Evidence) : Direction → DirectionEvidence
  | .sent => e.sent
  | .received => e.received
  | .unknown => {}

inductive Invalid where
  | noProcess (pid : Int)
  | noDirection (direction : Direction)
  | nothingTransferred
  | keptPastLength (kept length : Nat)
  | noTime
  | notTaken
  | noIdentity (through : Nat)
  | connectionZero (through : Nat)
  | evidenceProcess (connection : Nat) (pid : Int)
  | noOrigin (connection : Nat)
  | originClaimed (connection : Nat) (origin : Origin)
  | inDirection (connection : Nat) (direction : Direction) (through : Nat) (why : String)
  | originNotCut (connection : Nat) (direction : Direction)
  | othersEvidence (sequence : Nat) (pid : Int) (connection : Nat)
  | othersSequence (sequence through : Nat)
  | noEvidence (sequence : Nat)
  | endsElsewhere (sequence finish limit : Nat)
  | emptiesAfter (sequence : Nat) (empties : Nat)
  | unnumbered (sequence established : Nat)
  | numberUnseen (sequence : Nat) (produced numbered : UInt64)
  | numberUnresolved (sequence : Nat) (produced resolved : UInt64)
  deriving DecidableEq

def DirectionEvidence.validate (d : DirectionEvidence) : Except String Unit :=
  if !d.cut && d.fromOffset != 0 then .error "not cut, and names an offset as the start of a cut"
  else if d.cut && decide (d.fromOffset > d.limit) then .error "cut past the bytes it reached"
  else if !d.cut && (d.lost != 0 || d.lostUncounted) then .error "not cut, and counts transfers lost"
  else if d.first > d.numbered then .error "first saw a number past the highest it saw"
  else if d.numbered ≠ 0 ∧ d.first = 0 then .error "saw a number and no first number"
  else if d.resolved > d.numbered then .error "resolved through a number past the highest it saw"
  else if d.resolved ≠ 0 ∧ d.first ≠ 1 then .error "resolved from one, and first saw another number"
  else if d.empties > d.numbered.toNat then .error "more transfers moved no bytes than the numbers it saw"
  else if !d.cut && d.resolved != d.numbered then .error "not cut, with numbers unresolved"
  else .ok ()

def Evidence.validateIn (e : Evidence) (connection : Nat) (direction : Direction) : Except Invalid Unit :=
  match (e.inDirection direction).validate with
  | .error why => .error (.inDirection connection direction e.through why)
  | .ok () =>
    if e.origin = .unestablished ∧
        ((e.inDirection direction).cut = false ∨ (e.inDirection direction).fromOffset ≠ 0) then
      .error (.originNotCut connection direction)
    else .ok ()

def Evidence.validate (e : Evidence) : Except Invalid Unit :=
  if !e.taken then .error .notTaken
  else match e.identity with
    | none => .error (.noIdentity e.through)
    | some identity =>
      if identity.connection = 0 then .error (.connectionZero e.through)
      else if identity.process.pid ≤ 0 then
        .error (.evidenceProcess identity.connection identity.process.pid)
      else if e.origin = .unset then .error (.noOrigin identity.connection)
      else if e.occupancy = 0 ∧ e.origin ≠ .unestablished then
        .error (.originClaimed identity.connection e.origin)
      else do
        e.validateIn identity.connection .sent
        e.validateIn identity.connection .received

/-- One plaintext fragment. A slot is the place of the delivery gate's slot;
the connection's loss token is kept with its connection. -/
structure Record where
  process : Process
  connection : Nat
  direction : Direction
  sequence : Nat
  offset : Nat
  length : UInt32
  produced : UInt64
  empties : Nat
  payload : Bytes
  time : Time
  slot : Option Nat := none
  evidence : Evidence := {}
  deriving DecidableEq

def Record.finish (r : Record) : Nat := r.offset + r.length.toNat

def Record.validate (r : Record) : Except Invalid Unit :=
  if r.process.pid ≤ 0 then .error (.noProcess r.process.pid)
  else if r.direction ≠ .sent ∧ r.direction ≠ .received then .error (.noDirection r.direction)
  else if r.length = 0 then .error .nothingTransferred
  else if r.payload.length > r.length.toNat then
    .error (.keptPastLength r.payload.length r.length.toNat)
  else if r.time = 0 then .error .noTime
  else if !r.evidence.taken then .ok ()
  else do
    r.evidence.validate
    match r.evidence.identity with
    | none => .error (.noIdentity r.evidence.through)
    | some identity =>
      if identity.connection ≠ r.connection ∨ identity.process ≠ r.process then
        .error (.othersEvidence r.sequence identity.process.pid identity.connection)
      else if r.evidence.through ≠ r.sequence then
        .error (.othersSequence r.sequence r.evidence.through)
      else .ok ()

def Record.evidenced (r : Record) : Except Invalid Unit := do
  r.validate
  let own := r.evidence.inDirection r.direction
  if !r.evidence.taken then .error (.noEvidence r.sequence)
  else if own.limit ≠ r.finish then .error (.endsElsewhere r.sequence r.finish own.limit)
  else if own.empties ≠ 0 then .error (.emptiesAfter r.sequence own.empties)
  else if r.produced = 0 ∧ (own.cut = false ∨ own.fromOffset > r.offset) then
    .error (.unnumbered r.sequence own.established)
  else if r.produced ≠ 0 ∧ own.numbered < r.produced then
    .error (.numberUnseen r.sequence r.produced own.numbered)
  else if r.produced ≠ 0 ∧ own.cut = false ∧ own.resolved ≠ r.produced then
    .error (.numberUnresolved r.sequence r.produced own.resolved)
  else .ok ()

end Fragment

end EdgeObserver
