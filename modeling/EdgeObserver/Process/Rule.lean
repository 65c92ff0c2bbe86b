import EdgeObserver.Connection.Record

/-!
# Rules over processes

A rule names conditions, all of which a process has to meet; a process whose
arguments could not be read leaves a rule about arguments undecided.
-/

set_option autoImplicit false

namespace EdgeObserver.Process

open Connection (Addr)

inductive ArgumentEvidence where
  | known
  | undetermined
  deriving DecidableEq

inductive Decision where
  | noMatch
  | matchFound
  | indeterminate
  deriving DecidableEq

inductive Mode where
  | unset
  | none
  | existing
  | follow
  deriving DecidableEq

def Mode.answersExisting : Mode → Bool
  | .existing | .follow => true
  | .unset | .none => false

structure PIDGuard where
  pid : Int
  start : UInt64
  boot : Bytes

structure Listener where
  inode : UInt64
  port : UInt16
  address : Addr

structure Entry where
  pid : Int
  ppid : Int
  startTime : UInt64 := 0
  executable : Bytes := []
  arguments : List Bytes := []
  argumentEvidence : ArgumentEvidence := .known
  cgroup : Bytes := []
  namespaces : Admission.Namespace := {}
  namespacePID : Int := 0
  listening : List Listener := []

/-- `Process.Instance`: everything but the generation. -/
def Entry.toInstance (p : Entry) : Admission.Instance :=
  { namespaces := p.namespaces
    pid := p.namespacePID
    start := if p.startTime = 0 then {} else { ticks := p.startTime, determined := true }
    executable := p.executable }

/-- A rule. No arguments at all are `none`, which an empty list is not;
`addresses` is what the interface resolved to, where it did. -/
structure Rule where
  executable : Bytes := []
  arguments : Option (List Bytes) := .none
  cgroup : Bytes := []
  name : Bytes := []
  pid : Option PIDGuard := .none
  port : UInt16 := 0
  interface : Bytes := []
  mode : Mode := .unset
  addresses : List Addr := []
  resolvedInterface : Bool := false

def unmap (address : Addr) : Addr :=
  if address.bytes.length = 16 ∧ address.bytes.take 12 = [0, 0, 0, 0, 0, 0, 0, 0, 0, 0, 255, 255] then
    { bytes := address.bytes.drop 12 }
  else address

def isUnspecified (address : Addr) : Bool :=
  address.zone = [] && (address.bytes = List.replicate 4 0 || address.bytes = List.replicate 16 0)

/-- `Arguments` without the empty entries a rewritten argv is padded with. -/
def unpadded (arguments : List Bytes) : List Bytes := (arguments.reverse.dropWhile (· = [])).reverse

def under (approved path : Bytes) : Bool :=
  if path = [] then false
  else
    let approved := if approved.getLast? = some 47 then approved.dropLast else approved
    path = approved || (approved ++ [47]).isPrefixOf path

namespace Rule

def conditions (r : Rule) : Bool :=
  r.pid.isSome || r.executable != [] || r.arguments.isSome || r.cgroup != [] || r.port != 0

def argumentsNamed (r : Rule) : Bool := r.arguments.isSome || r.executable != []

def bound (r : Rule) (address : Addr) : Bool :=
  if r.interface = [] then true
  else if !r.resolvedInterface then false
  else isUnspecified (unmap address) || r.addresses.any (fun one => unmap one = unmap address)

def listens (r : Rule) (p : Entry) : Bool :=
  p.listening.any (fun listener => listener.port = r.port && r.bound listener.address)

/-- The known conditions come before the arguments, so a process another
condition rules out leaves nothing undecided. -/
def decide (r : Rule) (p : Entry) : Decision :=
  if !r.conditions then .noMatch
  else if r.pid.any (fun guard => p.pid != guard.pid || p.startTime != guard.start) then .noMatch
  else if r.executable ≠ [] ∧ r.executable ≠ p.executable then .noMatch
  else if r.cgroup ≠ [] ∧ !under r.cgroup p.cgroup then .noMatch
  else if r.port ≠ 0 ∧ !r.listens p then .noMatch
  else if r.argumentsNamed then
    if p.argumentEvidence ≠ .known then .indeterminate
    else if unpadded (r.arguments.getD []) ≠ unpadded p.arguments.tail then .noMatch
    else .matchFound
  else .matchFound

/-- `Matches`. -/
def matched (r : Rule) (p : Entry) : Bool := r.decide p = .matchFound

def modeOf (r : Rule) : Mode := if r.mode = .unset then .follow else r.mode

end Rule

end EdgeObserver.Process
