import EdgeObserver.Connection.Record

/-!
# Usable connection records

What makes a connection record unusable to a consumer, and what a written
record has no way to say.
-/

set_option autoImplicit false

namespace EdgeObserver.Connection

open Fragment

/-- Why a record is unusable, with what the message names. -/
inductive Invalid where
  | noId
  | handleNamespace
  | handleProcess (pid : Int)
  | handleAdmission (pid : Int)
  | handleGeneration (address : UInt64)
  | firstSeen (id : Nat)
  | opened (id : Nat)
  | noEnding (id : Nat)
  | ended (id : Nat) (how : Ending)
  | othersAssociation (id other : Nat)
  | twoAssociations (id : Nat) (direction : Direction)
  | othersPlacement (id other : Nat)
  | twoPlacements (id : Nat) (direction : Direction)
  | direction (direction : Direction)
  | noState (id : Nat) (direction : Direction)
  | reason (id : Nat) (direction : Direction) (state : State) (reason : Reason)
  | basis (id : Nat) (direction : Direction) (state : State) (basis : Basis)
  | noJoin (id : Nat) (direction : Direction)
  | joinReason (id : Nat) (direction : Direction) (reason : JoinReason)
  | noJoinReason (id : Nat) (direction : Direction)
  | joinState (id : Nat) (direction : Direction) (state : State)
  | joinEndpoints (id : Nat) (direction : Direction)
  | joinBinding (id : Nat) (direction : Direction)
  | contended (id : Nat) (direction : Direction) (named : Nat)
  | unknownDescriptor (id : Nat) (direction : Direction) (reason : Reason)
  | noSource (id : Nat) (direction : Direction)
  | noDescriptor (id : Nat) (direction : Direction)
  | noBinding (id : Nat) (direction : Direction)
  | intervalStart
  | intervalEnd
  | intervalOrder (since until_ : Time)
  | noPositions (id : Nat) (direction : Direction)
  | wholeReason (id : Nat) (direction : Direction) (because : Reason)
  | noPlacementReason (id : Nat) (direction : Direction)
  | gapStart (id : Nat) (direction : Direction) (positions : Positions) (fromOffset : Nat)
  deriving DecidableEq

def Interval.validate (i : Interval) : Except Invalid Unit :=
  if i.since = 0 then .error .intervalStart
  else if !i.unbounded && i.until_ == 0 then .error .intervalEnd
  else if !i.unbounded && decide (i.until_ < i.since) then .error (.intervalOrder i.since i.until_)
  else .ok ()

def Handle.validate (h : Handle) : Except Invalid Unit :=
  if !h.executed.namespaces.known then .error .handleNamespace
  else if h.executed.pid ≤ 0 then .error (.handleProcess h.executed.pid)
  else if h.executed.generation = 0 then .error (.handleAdmission h.executed.pid)
  else if h.generation = 0 then .error (.handleGeneration h.address)
  else .ok ()

def Reason.holds (r : Reason) : State → Bool
  | .established => r == .unset
  | .unknown =>
    [.noBindingObserved, .insertionRefused, .observationLost, .transportUnsupported, .bindingUnobservable,
      .operationWasNotASocket, .evidenceUnreadable, .operationUnresolved, .routeUnsupported,
      .operationFrameBroken, .socketEvidenceUnavailable].contains r
  | .ambiguous => r == .severalDescriptors
  | .invalidated =>
    [.descriptorReplaced, .transportReplaced, .lifetimeEvidenceEnded, .handleReleased,
      .handleLifetimeUnobservable].contains r
  | .unset => false

def Association.validateJoin (a : Association) : Except Invalid Unit :=
  if a.join = .unset then .error (.noJoin a.connection a.direction)
  else if a.join = .joins ∧ a.joinReason ≠ .unset then .error (.joinReason a.connection a.direction a.joinReason)
  else if a.join = .doesNotJoin ∧ a.joinReason = .unset then .error (.noJoinReason a.connection a.direction)
  else if a.join = .joins ∧ a.state ≠ .established then .error (.joinState a.connection a.direction a.state)
  else if a.join = .joins ∧ a.endpoints.complete = false then .error (.joinEndpoints a.connection a.direction)
  else if a.join = .doesNotJoin ∧ a.joinReason = .noBindingToJoin ∧ a.state = .established then
    .error (.joinBinding a.connection a.direction)
  else .ok ()

def Association.validate (a : Association) : Except Invalid Unit := do
  if a.direction ≠ .sent ∧ a.direction ≠ .received then .error (.direction a.direction)
  else if a.state = .unset then .error (.noState a.connection a.direction)
  else if a.reason.holds a.state = false then .error (.reason a.connection a.direction a.state a.reason)
  else if a.state ≠ .established ∧ a.basis ≠ .unset then .error (.basis a.connection a.direction a.state a.basis)
  else .ok ()
  a.validateJoin
  if a.state = .ambiguous ∧ a.contended.length < 2 then
    .error (.contended a.connection a.direction a.contended.length)
  else if a.state ≠ .established then
    if a.state = .unknown ∧ a.descriptor.known then
      .error (.unknownDescriptor a.connection a.direction a.reason)
    else .ok ()
  else if a.source = .unset then .error (.noSource a.connection a.direction)
  else if a.descriptor.known = false then .error (.noDescriptor a.connection a.direction)
  else if a.binding = 0 then .error (.noBinding a.connection a.direction)
  else a.valid.validate

def Placement.validate (p : Placement) : Except Invalid Unit :=
  if p.direction ≠ .sent ∧ p.direction ≠ .received then .error (.direction p.direction)
  else if p.positions = .unset then .error (.noPositions p.connection p.direction)
  else if p.positions = .established ∧ p.because ≠ .unset then
    .error (.wholeReason p.connection p.direction p.because)
  else if p.positions ≠ .established ∧ p.because = .unset then
    .error (.noPlacementReason p.connection p.direction)
  else if p.positions ≠ .unknownFrom ∧ p.fromOffset ≠ 0 then
    .error (.gapStart p.connection p.direction p.positions p.fromOffset)
  else .ok ()

def Record.validateAssociations (r : Record) : List Direction → List Association → Except Invalid Unit
  | _, [] => .ok ()
  | seen, one :: rest => do
      if one.connection ≠ r.id then .error (.othersAssociation r.id one.connection)
      else if one.direction ∈ seen then .error (.twoAssociations r.id one.direction)
      else one.validate
      r.validateAssociations (one.direction :: seen) rest

def Record.validatePlacements (r : Record) : List Direction → List Placement → Except Invalid Unit
  | _, [] => .ok ()
  | placed, one :: rest => do
      if one.connection ≠ r.id then .error (.othersPlacement r.id one.connection)
      else if one.direction ∈ placed then .error (.twoPlacements r.id one.direction)
      else one.validate
      r.validatePlacements (one.direction :: placed) rest

def Record.validateOwn (r : Record) : Except Invalid Unit :=
  if r.id = 0 then .error .noId
  else match r.handle.validate with
    | .error why => .error why
    | .ok () =>
      if r.firstSeen = 0 then .error (.firstSeen r.id)
      else if r.openedKnown && r.opened == 0 then .error (.opened r.id)
      else if r.how = .unset then .error (.noEnding r.id)
      -- A time is required only where the connection is said to have ended.
      else if r.how ≠ .stillOpen ∧ r.how ≠ .unobserved ∧ r.how ≠ .unestablished ∧ r.ended = 0 then
        .error (.ended r.id r.how)
      else .ok ()

def Record.validate (r : Record) : Except Invalid Unit := do
  r.validateOwn
  r.validateAssociations [] r.associations
  r.validatePlacements [] r.placements

/-- Whether a written record can say what this one holds: identities with no
generation, an open time not known, and values that have no name are what it
cannot. -/
def Record.representable (r : Record) : Bool :=
  r.handle.generation != 0 && (r.openedKnown || r.opened == 0) && r.handle.executed.generation != 0 &&
    r.executed.generation != 0 && r.how != .unset &&
    r.associations.all (fun a => a.direction != .unknown && a.state != .unset && a.join != .unset) &&
    r.placements.all (fun p => p.direction != .unknown && p.positions != .unset) &&
    r.early.all (fun e => e.direction != .unknown)

def identityRepresentable (i : Identity) : Bool := i.generation != 0 && i.executed.generation != 0

variable {r : Record}

theorem Record.validatePlacements_distinct {placed : List Direction} {placements : List Placement}
    (accepted : r.validatePlacements placed placements = .ok ()) :
    (placements.map Placement.direction).Nodup ∧ ∀ p ∈ placements, p.direction ∉ placed := by
  induction placements generalizing placed with
  | nil => simp
  | cons one rest ih =>
    unfold validatePlacements at accepted
    split at accepted
    · cases accepted
    split at accepted
    · cases accepted
    rename_i fresh
    cases valid : one.validate with
    | error why =>
      rw [valid] at accepted
      cases accepted
    | ok =>
      rw [valid] at accepted
      obtain ⟨distinct, apart⟩ := ih accepted
      constructor
      · rw [List.map_cons, List.nodup_cons]
        refine ⟨?_, distinct⟩
        rintro member
        obtain ⟨other, inside, same⟩ := List.mem_map.mp member
        exact apart other inside (by simp [same])
      · intro p member
        rcases List.mem_cons.mp member with rfl | inside
        · exact fresh
        · exact fun was => apart p inside (List.mem_cons_of_mem _ was)

theorem Record.validate_distinct (valid : r.validate = .ok ()) :
    (r.placements.map Placement.direction).Nodup := by
  unfold validate at valid
  cases own : r.validateOwn with
  | error why =>
    rw [own] at valid
    cases valid
  | ok =>
    cases associated : r.validateAssociations [] r.associations with
    | error why =>
      rw [own, associated] at valid
      cases valid
    | ok =>
      rw [own, associated] at valid
      exact (validatePlacements_distinct valid).1

end EdgeObserver.Connection
