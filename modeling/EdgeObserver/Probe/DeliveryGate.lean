import EdgeObserver.Library.Runs
import EdgeObserver.Held

/-!
# The delivery gate

The gate bounds the decoded events held at once and orders their admission, the
release of what they became, and the one invalidation of a capture. Every
operation is one critical section of the gate's lock, so what several
goroutines do with a gate is a list of critical sections. An authorization is
two events: it enters, runs its hook with no lock held, and later takes the
lock.
-/

set_option autoImplicit false

namespace EdgeObserver.Probe

open Library Held

inductive GateReason where
  | inputLimit
  | intakeExhausted
  | unknownLength
  | unknownKind
  | unsettled
  | uninitialized
  deriving DecidableEq

/-- A decoded event's kind is a byte; `unknown` is any byte but the producer's
transfer and close kinds. -/
inductive DeliveryKind where
  | transfer
  | close
  | unknown (value : UInt8)

structure Refunds where
  unretained : UInt64 := 0
  processed : UInt64 := 0
  discarded : UInt64 := 0
  cut : UInt64 := 0
  deriving DecidableEq

def Refunds.count (refunds : Refunds) : Path → Refunds
  | .unretained => { refunds with unretained := refunds.unretained + 1 }
  | .processed => { refunds with processed := refunds.processed + 1 }
  | .cut => { refunds with cut := refunds.cut + 1 }
  | .discarded => { refunds with discarded := refunds.discarded + 1 }
  | .other _ => { refunds with discarded := refunds.discarded + 1 }

def Refunds.total (refunds : Refunds) : UInt64 :=
  refunds.unretained + refunds.processed + refunds.discarded + refunds.cut

theorem Refunds.total_count (refunds : Refunds) (path : Path) :
    (refunds.count path).total = refunds.total + 1 := by
  cases path <;> simp only [count, total] <;> grind

structure GateSnapshot where
  maxEvents : UInt64 := 0
  charged : UInt64 := 0
  held : UInt64 := 0
  refunded : Refunds := {}
  doubleRefunds : UInt64 := 0
  inputRefused : UInt64 := 0
  reason : Option GateReason := none

structure Slot where
  kept : Bool := false
  returned : Bool := false
  deriving DecidableEq

/-- The slots a gate reserved are kept in the order it reserved them, and a
slot is named by its place there. The withdrawal channel is nil on a gate
nothing constructed, and otherwise counts how often it was closed. -/
structure DeliveryGate where
  maxEvents : UInt64 := 0
  charged : UInt64 := 0
  held : UInt64 := 0
  refunded : Refunds := {}
  doubles : UInt64 := 0
  inputRefused : UInt64 := 0
  reason : Option GateReason := none
  withdrawal : Option Nat := none
  slots : List Slot := []
  deriving DecidableEq

structure AdmissionDecision where
  admitted : Bool := false
  charged : Bool := false
  slot : Option Nat := none
  state : GateSnapshot

structure ReleaseEvidence where
  inputsSettled : Bool
  lifecycleSettled : Bool

structure ReleaseDecision where
  authorized : Bool := false
  reason : Option GateReason := none

def newDeliveryGate (maxEvents : UInt64) : Except String DeliveryGate :=
  if maxEvents = 0 then .error "delivery gate requires a positive event allowance"
  else .ok { maxEvents, withdrawal := some 0 }

namespace DeliveryGate

def snapshot (g : DeliveryGate) : GateSnapshot :=
  { maxEvents := g.maxEvents, charged := g.charged, held := g.held, refunded := g.refunded,
    doubleRefunds := g.doubles, inputRefused := g.inputRefused, reason := g.reason }

def invalidate (g : DeliveryGate) (reason : GateReason) : DeliveryGate :=
  { g with reason := some reason, withdrawal := g.withdrawal.map (· + 1) }

def reserve (g : DeliveryGate) : DeliveryGate :=
  { g with charged := g.charged + 1, held := g.held + 1, slots := g.slots ++ [{}] }

def admitEvent (g : DeliveryGate) (kind : DeliveryKind) (measured : Bool) : AdmissionDecision × DeliveryGate :=
  if g.withdrawal = none then ({ state := { reason := some .uninitialized } }, g)
  else if g.reason ≠ none then ({ state := g.snapshot }, g)
  else if g.held = g.maxEvents then
    -- Unknown input remains terminal even while every slot is held.
    match kind with
    | .unknown _ =>
      let after := g.invalidate .unknownKind
      ({ state := after.snapshot }, after)
    | .transfer =>
      if measured then
        let after := { g with inputRefused := g.inputRefused + 1 }
        ({ state := { after.snapshot with reason := some .inputLimit } }, after)
      else
        let after := g.invalidate .unknownLength
        ({ state := after.snapshot }, after)
    -- A close carries control state, not payload, and passes without a slot.
    | .close => ({ admitted := true, state := g.snapshot }, g)
  else
    let after :=
      match kind with
      | .transfer => if measured then g.reserve else g.reserve.invalidate .unknownLength
      | .close => g.reserve
      | .unknown _ => g.reserve.invalidate .unknownKind
    ({ admitted := after.reason.isNone, charged := true, slot := some g.slots.length,
       state := after.snapshot }, after)

def authorizeEnqueue {Line : Type} (g : DeliveryGate) (evidence : ReleaseEvidence)
    (enqueue : Option Line) : ReleaseDecision × List Line :=
  if g.withdrawal = none then ({ reason := some .uninitialized }, [])
  else match g.reason with
    | some reason => ({ reason := some reason }, [])
    | none =>
      if !evidence.inputsSettled || !evidence.lifecycleSettled then
        ({ reason := some .unsettled }, [])
      else ({ authorized := true }, enqueue.toList)

/-- A refund returns the slot the first time, and counts a double after. A
place the gate reserved no slot at is no slot. -/
def refund (g : DeliveryGate) (place : Nat) (path : Path) : Bool × DeliveryGate :=
  match g.slots[place]? with
  | none => (false, g)
  | some one =>
    if one.returned then (false, { g with doubles := g.doubles + 1 })
    else (true, { g with
      held := g.held - 1
      refunded := g.refunded.count path
      slots := g.slots.set place { one with returned := true } })

/-- `Slot.Keep`: a store retained the event's input. -/
def keep (g : DeliveryGate) (place : Nat) : DeliveryGate :=
  match g.slots[place]? with
  | none => g
  | some one => { g with slots := g.slots.set place { one with kept := true } }

def returned (g : DeliveryGate) (place : Nat) : Bool := g.slots[place]?.any Slot.returned

/-! ## What one operation does -/

/-- The equations of a gate's counters: every slot reserved is held or was
returned along some path, the slots held are those not returned, and the
withdrawal is signalled once, by the invalidation. -/
structure Accounts (g : DeliveryGate) : Prop where
  charged : g.charged = g.held + g.refunded.total
  held : g.held.toNat = g.slots.countP (fun slot => !slot.returned)
  bound : g.held ≤ g.maxEvents
  signal : g.withdrawal = some (if g.reason.isSome then 1 else 0)

inductive Admits (g : DeliveryGate) : AdmissionDecision → DeliveryGate → Prop where
  | refused (invalid : g.reason ≠ none) : Admits g { state := g.snapshot } g
  | passed (valid : g.reason = none) (state : GateSnapshot) : Admits g { admitted := true, state } g
  | counted (valid : g.reason = none) (state : GateSnapshot) :
      Admits g { state } { g with inputRefused := g.inputRefused + 1 }
  | invalidated (valid : g.reason = none) (reason : GateReason) (state : GateSnapshot) :
      Admits g { state } (g.invalidate reason)
  | reserved (valid : g.reason = none) (room : g.held ≠ g.maxEvents) (state : GateSnapshot) :
      Admits g { admitted := true, charged := true, slot := some g.slots.length, state } g.reserve
  | spoiled (valid : g.reason = none) (room : g.held ≠ g.maxEvents) (reason : GateReason) (state : GateSnapshot) :
      Admits g { charged := true, slot := some g.slots.length, state } (g.reserve.invalidate reason)

variable {g : DeliveryGate} {place : Nat}

theorem admit_admits (made : g.withdrawal ≠ none) (kind : DeliveryKind)
    (measured : Bool) : Admits g (g.admitEvent kind measured).1 (g.admitEvent kind measured).2 := by
  unfold admitEvent
  rw [if_neg made]
  by_cases invalid : g.reason = none
  · rw [if_neg (not_not_intro invalid)]
    have valid : g.reserve.reason = none := invalid
    by_cases full : g.held = g.maxEvents
    · rw [if_pos full]
      cases kind with
      | transfer =>
        cases measured with
        | true => exact .counted invalid _
        | false => exact .invalidated invalid _ _
      | close => exact .passed invalid _
      | unknown value => exact .invalidated invalid _ _
    · rw [if_neg full]
      cases kind with
      | transfer =>
        cases measured with
        | true => simpa [valid] using Admits.reserved invalid full g.reserve.snapshot
        | false => exact .spoiled invalid full _ _
      | close => simpa [valid] using Admits.reserved invalid full g.reserve.snapshot
      | unknown value => exact .spoiled invalid full _ _
  · rw [if_pos invalid]
    exact .refused invalid

theorem Accounts.made (accounts : g.Accounts) : g.withdrawal ≠ none := by
  simp [accounts.signal]

theorem Accounts.invalidate {g : DeliveryGate} (accounts : g.Accounts) (valid : g.reason = none)
    (reason : GateReason) : (g.invalidate reason).Accounts where
  charged := accounts.charged
  held := accounts.held
  bound := accounts.bound
  signal := by simp [DeliveryGate.invalidate, accounts.signal, valid]

theorem Accounts.reserve {g : DeliveryGate} (accounts : g.Accounts)
    (room : g.held ≠ g.maxEvents) : g.reserve.Accounts := by
  have below : g.held.toNat < g.maxEvents.toNat := by
    have bound := UInt64.le_iff_toNat_le.mp accounts.bound
    have apart : g.held.toNat ≠ g.maxEvents.toNat := fun same => room (UInt64.toNat_inj.mp same)
    omega
  have grown : (g.held + 1).toNat = g.held.toNat + 1 := by
    have top := g.maxEvents.toNat_lt
    rw [UInt64.toNat_add]
    exact Nat.mod_eq_of_lt (by simp; omega)
  constructor
  · have charged := accounts.charged
    show g.charged + 1 = g.held + 1 + g.refunded.total
    grind
  · show (g.held + 1).toNat = (g.slots ++ [({} : Slot)]).countP _
    rw [grown, accounts.held]
    simp
  · show g.held + 1 ≤ g.maxEvents
    rw [UInt64.le_iff_toNat_le, grown]
    exact below
  · exact accounts.signal

theorem Accounts.admitEvent {g : DeliveryGate} (accounts : g.Accounts) (kind : DeliveryKind)
    (measured : Bool) : (g.admitEvent kind measured).2.Accounts := by
  have admits := admit_admits accounts.made kind measured
  generalize (g.admitEvent kind measured).1 = decision, (g.admitEvent kind measured).2 = after at admits
  cases admits with
  | refused | passed => exact accounts
  | counted valid => exact { accounts with }
  | invalidated valid reason => exact accounts.invalidate valid reason
  | reserved valid room => exact accounts.reserve room
  | spoiled valid room reason => exact (accounts.reserve room).invalidate valid reason

/-- What a refund can do: nothing where there is no slot, count a double where
the slot was returned before, and return it otherwise. -/
inductive Refunding (g : DeliveryGate) (place : Nat) (path : Path) : Bool → DeliveryGate → Prop where
  | nowhere (absent : g.slots[place]? = none) : Refunding g place path false g
  | again {one : Slot} (found : g.slots[place]? = some one) (gone : one.returned = true) :
      Refunding g place path false { g with doubles := g.doubles + 1 }
  | first {one : Slot} (found : g.slots[place]? = some one) (here : one.returned = false) :
      Refunding g place path true { g with
        held := g.held - 1
        refunded := g.refunded.count path
        slots := g.slots.set place { one with returned := true } }

theorem refund_refunding (g : DeliveryGate) (place : Nat) (path : Path) :
    Refunding g place path (g.refund place path).1 (g.refund place path).2 := by
  unfold DeliveryGate.refund
  split
  · rename_i absent
    exact .nowhere absent
  rename_i one found
  split
  · rename_i gone
    exact .again found gone
  · rename_i here
    exact .first found (by simpa using here)

theorem Accounts.refund {g : DeliveryGate} (accounts : g.Accounts) (place : Nat) (path : Path) :
    (g.refund place path).2.Accounts := by
  have refunding := refund_refunding g place path
  generalize (g.refund place path).1 = answer, (g.refund place path).2 = after at refunding
  cases refunding with
  | nowhere => exact accounts
  | again => exact { accounts with }
  | @first one found unreturned =>
    obtain ⟨inside, here⟩ := List.getElem?_eq_some_iff.mp found
    have some_held : 0 < g.slots.countP (fun slot => !slot.returned) :=
      List.countP_pos_iff.mpr ⟨one, List.mem_of_getElem? found, by simp [unreturned]⟩
    have positive : 1 ≤ g.held.toNat := by rw [accounts.held]; exact some_held
    have shrunk : (g.held - 1).toNat = g.held.toNat - 1 := by
      rw [UInt64.toNat_sub_of_le _ _ (by rw [UInt64.le_iff_toNat_le]; exact positive)]
      rfl
    constructor
    · have charged := accounts.charged
      show g.charged = g.held - 1 + (g.refunded.count path).total
      rw [Refunds.total_count]
      grind
    · show (g.held - 1).toNat = (g.slots.set place { one with returned := true }).countP _
      rw [shrunk, accounts.held, List.countP_set inside]
      simp [here, unreturned]
    · show g.held - 1 ≤ g.maxEvents
      have bound := UInt64.le_iff_toNat_le.mp accounts.bound
      rw [UInt64.le_iff_toNat_le, shrunk]
      omega
    · exact accounts.signal

theorem Accounts.keep {g : DeliveryGate} (accounts : g.Accounts) (place : Nat) :
    (g.keep place).Accounts := by
  unfold DeliveryGate.keep
  cases found : g.slots[place]? with
  | none => exact accounts
  | some one =>
    obtain ⟨inside, here⟩ := List.getElem?_eq_some_iff.mp found
    refine { accounts with held := ?_ }
    show g.held.toNat = (g.slots.set place { one with kept := true }).countP _
    rw [accounts.held, List.countP_set inside]
    cases gone : one.returned with
    | true => simp [here, gone]
    | false =>
      have some_held : 0 < g.slots.countP (fun slot => !slot.returned) :=
        List.countP_pos_iff.mpr ⟨one, List.mem_of_getElem? found, by simp [gone]⟩
      simp [here, gone]
      omega

structure Invalid (g : DeliveryGate) (reason : GateReason) : Prop where
  reason : g.reason = some reason
  signal : g.withdrawal = some 1

theorem Invalid.admitEvent {g : DeliveryGate} {reason : GateReason} (invalid : g.Invalid reason)
    (kind : DeliveryKind) (measured : Bool) :
    g.admitEvent kind measured = ({ state := g.snapshot }, g) := by
  simp [DeliveryGate.admitEvent, invalid.reason, invalid.signal]

theorem Invalid.authorizeEnqueue {Line : Type} {g : DeliveryGate} {reason : GateReason}
    (invalid : g.Invalid reason) (evidence : ReleaseEvidence) (enqueue : Option Line) :
    g.authorizeEnqueue evidence enqueue = ({ reason := some reason }, []) := by
  simp [DeliveryGate.authorizeEnqueue, invalid.reason, invalid.signal]

theorem Invalid.refund {g : DeliveryGate} {reason : GateReason} (invalid : g.Invalid reason)
    (place : Nat) (path : Path) : (g.refund place path).2.Invalid reason := by
  have refunding := refund_refunding g place path
  generalize (g.refund place path).1 = answer, (g.refund place path).2 = after at refunding
  cases refunding with
  | nowhere => exact invalid
  | again | first => exact { invalid with }

theorem Invalid.keep {g : DeliveryGate} {reason : GateReason} (invalid : g.Invalid reason)
    (place : Nat) : (g.keep place).Invalid reason := by
  unfold DeliveryGate.keep
  split
  · exact invalid
  · exact { invalid with }

/-! ## Which slots were returned -/

theorem returned_admitEvent (made : g.withdrawal ≠ none) (kind : DeliveryKind) (measured : Bool) (place : Nat) :
    (g.admitEvent kind measured).2.returned place = g.returned place := by
  have fresh : g.reserve.returned place = g.returned place := by
    unfold returned reserve
    by_cases inside : place < g.slots.length
    · rw [List.getElem?_append_left inside]
    · rw [List.getElem?_append_right (by omega), List.getElem?_eq_none (l := g.slots) (by omega)]
      cases place - g.slots.length <;> simp
  have admits := admit_admits made kind measured
  generalize (g.admitEvent kind measured).1 = decision, (g.admitEvent kind measured).2 = after at admits
  cases admits with
  | refused | passed | counted | invalidated => rfl
  | reserved | spoiled => exact fresh

theorem returned_keep (g : DeliveryGate) (kept place : Nat) :
    (g.keep kept).returned place = g.returned place := by
  unfold keep
  cases found : g.slots[kept]? with
  | none => rfl
  | some one =>
    by_cases same : kept = place
    · subst same
      obtain ⟨inside, here⟩ := List.getElem?_eq_some_iff.mp found
      simp [returned, inside, here]
    · simp [returned, same]

theorem returned_refund (other : Nat) (path : Path)
    (gone : g.returned place = true) : (g.refund other path).2.returned place = true := by
  have refunding := refund_refunding g other path
  generalize (g.refund other path).1 = answer, (g.refund other path).2 = after at refunding
  cases refunding with
  | nowhere => exact gone
  | again => exact gone
  | @first one found unreturned =>
    by_cases same : other = place
    · subst same
      obtain ⟨inside, -⟩ := List.getElem?_eq_some_iff.mp found
      simp [returned, inside]
    · simpa [returned, same] using gone

theorem refund_again (gone : g.returned place = true)
    (path : Path) : g.refund place path = (false, { g with doubles := g.doubles + 1 }) := by
  unfold returned at gone
  cases found : g.slots[place]? with
  | none => simp [found] at gone
  | some one =>
    have again : one.returned = true := by simpa [found] using gone
    simp [refund, found, again]

theorem refund_held (inside : place < g.slots.length) (held : g.returned place = false) (path : Path) :
    (g.refund place path).2.slots.length = g.slots.length ∧ (g.refund place path).2.doubles = g.doubles ∧
      ∀ other, (g.refund place path).2.returned other = (decide (other = place) || g.returned other) := by
  have refunding := refund_refunding g place path
  generalize (g.refund place path).1 = answer, (g.refund place path).2 = after at refunding
  cases refunding with
  | nowhere absent => simp [inside] at absent
  | @again one found gone => simp [returned, found, gone] at held
  | @first one found unreturned =>
    refine ⟨by simp, rfl, ?_⟩
    intro other
    by_cases same : other = place
    · subst same
      simp [returned, inside]
    · simp [returned, same, Ne.symm same]

theorem keep_slots (g : DeliveryGate) (place : Nat) :
    (g.keep place).slots.length = g.slots.length ∧ (g.keep place).doubles = g.doubles := by
  unfold keep
  split
  · exact ⟨rfl, rfl⟩
  · exact ⟨by simp, rfl⟩

theorem admit_slots (made : g.withdrawal ≠ none) (kind : DeliveryKind) (measured : Bool) :
    (g.admitEvent kind measured).2.doubles = g.doubles ∧
      (((g.admitEvent kind measured).1.slot = none ∧ (g.admitEvent kind measured).2.slots.length = g.slots.length) ∨
        ((g.admitEvent kind measured).1.slot = some g.slots.length ∧
          (g.admitEvent kind measured).2.slots.length = g.slots.length + 1)) := by
  have admits := admit_admits made kind measured
  generalize (g.admitEvent kind measured).1 = decision, (g.admitEvent kind measured).2 = after at admits
  cases admits with
  | refused | passed | counted | invalidated => exact ⟨rfl, .inl ⟨rfl, rfl⟩⟩
  | reserved | spoiled => exact ⟨rfl, .inr ⟨rfl, by simp [invalidate, reserve]⟩⟩

end DeliveryGate

/-! ## A gate under any schedule -/

structure Delivery (Line : Type) where
  gate : DeliveryGate
  waiting : List (ReleaseEvidence × Option Line) := []
  enqueued : List Line := []

inductive GateEvent (Line : Type) where
  | event (kind : DeliveryKind) (measured : Bool)
  | enter (evidence : ReleaseEvidence) (enqueue : Option Line)
  | authorize (place : Nat)
  | keep (slot : Nat)
  | refund (slot : Nat) (path : Path)

inductive GateAnswer where
  | admission (decision : AdmissionDecision)
  | release (decision : ReleaseDecision)
  | refunded (first : Bool)
  | nothing

namespace Delivery

variable {Line : Type}

def authorize (d : Delivery Line) (place : Nat) : GateAnswer × Delivery Line :=
  match d.waiting[place]? with
  | none => (.nothing, d)
  | some (evidence, enqueue) =>
    let (decision, lines) := d.gate.authorizeEnqueue evidence enqueue
    (.release decision, { d with
      waiting := d.waiting.eraseIdx place
      enqueued := d.enqueued ++ lines })

def step (d : Delivery Line) : GateEvent Line → GateAnswer × Delivery Line
  | .event kind measured =>
    let (decision, gate) := d.gate.admitEvent kind measured
    (.admission decision, { d with gate })
  | .enter evidence enqueue =>
    (.nothing, { d with waiting := d.waiting ++ [(evidence, enqueue)] })
  | .authorize place => d.authorize place
  | .keep slot => (.nothing, { d with gate := d.gate.keep slot })
  | .refund slot path =>
    let (first, gate) := d.gate.refund slot path
    (.refunded first, { d with gate })

theorem authorize_gate (d : Delivery Line) (place : Nat) :
    (d.authorize place).2.gate = d.gate := by
  unfold authorize
  split
  · rfl
  · rfl

variable {d : Delivery Line} {reason : GateReason}

theorem step_gate (Inv : DeliveryGate → Prop) (holds : Inv d.gate)
    (admits : ∀ kind measured, Inv (d.gate.admitEvent kind measured).2)
    (keeps : ∀ slot, Inv (d.gate.keep slot))
    (refunds : ∀ slot path, Inv (d.gate.refund slot path).2) (event : GateEvent Line) :
    Inv (d.step event).2.gate := by
  cases event with
  | event kind measured => exact admits kind measured
  | enter evidence enqueue => exact holds
  | authorize place => exact (authorize_gate d place).symm ▸ holds
  | keep slot => exact keeps slot
  | refund slot path => exact refunds slot path

theorem accounts_step (d : Delivery Line) (event : GateEvent Line) (accounts : d.gate.Accounts) :
    (d.step event).2.gate.Accounts :=
  step_gate DeliveryGate.Accounts accounts accounts.admitEvent accounts.keep accounts.refund event

theorem maxEvents_step (d : Delivery Line) (event : GateEvent Line) (accounts : d.gate.Accounts) :
    (d.step event).2.gate.maxEvents = d.gate.maxEvents := by
  refine step_gate (fun gate => gate.maxEvents = d.gate.maxEvents) rfl ?_ ?_ ?_ event
  · intro kind measured
    have admits := DeliveryGate.admit_admits accounts.made kind measured
    generalize (d.gate.admitEvent kind measured).1 = decision, (d.gate.admitEvent kind measured).2 = after at admits
    cases admits <;> rfl
  · intro slot
    unfold DeliveryGate.keep
    split <;> rfl
  · intro slot path
    have refunding := DeliveryGate.refund_refunding d.gate slot path
    generalize (d.gate.refund slot path).1 = answer, (d.gate.refund slot path).2 = after at refunding
    cases refunding <;> rfl

def returning (slot : Nat) : GateEvent Line × GateAnswer → Bool
  | (.refund place _, .refunded true) => place == slot
  | _ => false

def returns (slot : Nat) (events : List (GateEvent Line)) (answers : List GateAnswer) : Nat :=
  (events.zip answers).countP (returning slot)

def Refuses : GateAnswer → Prop
  | .admission decision =>
    decision.admitted = false ∧ decision.charged = false ∧ decision.slot = none
  | .release decision => decision.authorized = false
  | .refunded _ => True
  | .nothing => True

theorem returned_step (accounts : d.gate.Accounts) (event : GateEvent Line) (slot : Nat) :
    ((d.step event).2.gate.returned slot).toNat =
      (d.gate.returned slot).toNat + (returning slot (event, (d.step event).1)).toNat := by
  cases event with
  | event kind measured =>
    have same := DeliveryGate.returned_admitEvent accounts.made kind measured slot
    simp [step, returning, same]
  | enter evidence enqueue => simp [step, returning]
  | authorize place => simp [step, returning, authorize_gate]
  | keep kept =>
    have same := DeliveryGate.returned_keep d.gate kept slot
    simp [step, returning, same]
  | refund place path =>
    have refunding := DeliveryGate.refund_refunding d.gate place path
    show ((d.gate.refund place path).2.returned slot).toNat = (d.gate.returned slot).toNat +
      (returning slot ((GateEvent.refund place path : GateEvent Line), .refunded (d.gate.refund place path).1)).toNat
    generalize (d.gate.refund place path).1 = answer at refunding ⊢
    generalize (d.gate.refund place path).2 = after at refunding ⊢
    cases refunding with
    | nowhere => simp [returning]
    | again => simp [returning, DeliveryGate.returned]
    | @first one found unreturned =>
      obtain ⟨inside, here⟩ := List.getElem?_eq_some_iff.mp found
      by_cases same : place = slot
      · subst same
        simp [returning, DeliveryGate.returned, inside, here, unreturned]
      · simp [returning, DeliveryGate.returned, same]

theorem returns_run (accounts : d.gate.Accounts) (events : List (GateEvent Line)) (slot : Nat) :
    ((run step d events).2.gate.returned slot).toNat =
      (d.gate.returned slot).toNat + returns slot events (run step d events).1 := by
  induction events generalizing d with
  | nil => simp [returns]
  | cons event events ih =>
    have here := returned_step accounts event slot
    have later := ih (accounts_step d event accounts)
    have counted : returns slot (event :: events) (run step d (event :: events)).1 =
        returns slot events (run step (d.step event).2 events).1 +
          (returning slot (event, (d.step event).1)).toNat := by
      simp only [run_cons, returns, List.zip_cons_cons, List.countP_cons]
      cases returning slot (event, (d.step event).1) <;> rfl
    rw [counted]
    simp only [run_cons]
    omega

theorem invalid_step (invalid : d.gate.Invalid reason) (event : GateEvent Line) :
    (d.step event).2.gate.Invalid reason ∧ (d.step event).2.enqueued = d.enqueued ∧ Refuses (d.step event).1 := by
  cases event with
  | event kind measured =>
    simp only [step, invalid.admitEvent]
    exact ⟨invalid, trivial, rfl, rfl, rfl⟩
  | enter evidence enqueue => exact ⟨invalid, rfl, trivial⟩
  | authorize place =>
    simp only [step, authorize]
    split
    · exact ⟨invalid, rfl, trivial⟩
    · simp only [invalid.authorizeEnqueue]
      exact ⟨invalid, by simp, rfl⟩
  | keep slot => exact ⟨invalid.keep slot, rfl, trivial⟩
  | refund slot path => exact ⟨invalid.refund slot path, rfl, trivial⟩

theorem invalid_run (invalid : d.gate.Invalid reason) (events : List (GateEvent Line)) :
    (run step d events).2.gate.Invalid reason ∧ (run step d events).2.enqueued = d.enqueued ∧
      ∀ answer ∈ (run step d events).1, Refuses answer := by
  let Inv := fun now : Delivery Line => now.gate.Invalid reason ∧ now.enqueued = d.enqueued
  have keeps : ∀ (now : Delivery Line) (event : GateEvent Line),
      Inv now → Inv (now.step event).2 := by
    rintro now event ⟨still, same⟩
    obtain ⟨after, none_more, -⟩ := invalid_step still event
    exact ⟨after, none_more.trans same⟩
  obtain ⟨last, same⟩ := run_keeps step Inv keeps ⟨invalid, rfl⟩ events
  refine ⟨last, same, run_answers step Inv keeps ?_ ⟨invalid, rfl⟩ events⟩
  rintro now event ⟨still, -⟩
  exact (invalid_step still event).2.2

theorem accounts_new {maxEvents : UInt64} {gate : DeliveryGate} (made : newDeliveryGate maxEvents = .ok gate) :
    gate.Accounts ∧ gate.maxEvents = maxEvents ∧ gate.slots = [] := by
  unfold newDeliveryGate at made
  split at made
  · cases made
  · cases made
    exact ⟨⟨rfl, rfl, by simp [UInt64.le_iff_toNat_le], rfl⟩, rfl, rfl⟩

end Delivery

end EdgeObserver.Probe
