import EdgeObserver.Fragment.Record
import EdgeObserver.Reconstruct.Exchange

/-!
# Pairing

One connection read as its two directions arrive, one part at a time. Each
response is handed over with the request it answers once both are framed, and
whatever cannot be read yet is held. Both parsers and everything held draw on one
account.
-/

set_option autoImplicit false

namespace EdgeObserver.Reconstruct

open Library Http1 EdgeObserver.Stream Text Fragment

/-! ## What a direction begins with, as its bytes arrive -/

/-- What has been seen of a direction's first bytes: how many, whether they begin
as `HTTP/` does, where the first space is, and whether every byte before it is a
token byte. -/
structure Beginning where
  n : Nat := 0
  isVersion : Bool := false
  space : Option Nat := some 0
  token : Bool := false
  what : Opener := .opensNothing
  certain : Bool := false

namespace Beginning

def fresh : Beginning := { isVersion := true, space := none, token := true }

def close (b : Beginning) : Beginning :=
  if b.certain then b
  else if b.n ≥ 5 ∧ b.isVersion then { b with what := .opensResponse, certain := true }
  else if b.space.any (· > 0) ∧ b.token then { b with what := .opensRequest, certain := true }
  else { b with what := .opensSomethingElse, certain := true }

def see (b : Beginning) (c : UInt8) : Beginning :=
  let i := b.n
  let b := { b with n := i + 1 }
  let b := if i < 5 then { b with isVersion := b.isVersion && (ascii "HTTP/")[i]? == some c } else b
  let b := if b.space = none then
      if c = Text.space then { b with space := some i }
      else if isTokenByte c then b else { b with token := false }
    else b
  if (b.n ≥ 5 ∧ b.isVersion) ∨ b.space ≠ none ∨ (b.token = false ∧ (b.n ≥ 5 ∨ b.isVersion = false)) ∨
      b.n = openingWindow then b.close else b

def take (b : Beginning) : Bytes → Beginning
  | [] => b
  | c :: rest => if b.certain then b else (b.see c).take rest

end Beginning

/-! ## The state -/

structure Held where
  part : Part
  charge : Nat

/-- Where one direction of the connection stands: where its next part begins, what
it begins with, what is held of it, and where its last message handed over ends. -/
structure Standing where
  started : Bool := false
  next : Nat := 0
  beginning : Beginning := {}
  held : List Held := []
  settled : Nat := 0

structure Finished where
  message : Http1.Message
  charge : Charge

inductive Half where
  | requests
  | responses
  deriving DecidableEq

def Half.kind : Half → Kind
  | .requests => .request
  | .responses => .response

/-- One half as far as it has been read: its messages finished and not handed
over, whether the request in progress has had its method recorded, whether the
response in progress waits on its request, whether the half reads nothing more,
and whether its input is over. -/
structure Side where
  direction : Direction := .unknown
  parser : Parser := newParser .request {}
  done : List Finished := []
  headSeen : Bool := false
  waiting : Bool := false
  stopped : Bool := false
  ended : Bool := false

/-- What a pairing holds, its account aside. `sides` says nothing before `routed`;
`limit` is the earliest exchange at which either half stops, and `why` the stop's
result, which `stop` becomes once that exchange has been handed over. -/
structure Desk (Shape : Type) where
  limits : Limits Shape
  directions : Direction → Standing := fun _ => {}
  routed : Bool := false
  decided : Bool := false
  unread : Bool := false
  role : Role := .unknown
  sides : Half → Side := fun _ => {}
  base : Nat := 0
  methods : List Bytes := []
  limit : Option Nat := none
  why : Result := .needInput
  stop : Result := .needInput
  ending : Bool := false
  ended : Bool := false

structure Pairing (Shape : Type) extends Desk Shape where
  reserver : Ledger Charge := {}

def newPairing {Shape : Type} (limits : Limits Shape) (reserver : Ledger Charge) : Pairing Shape := { limits, reserver }

structure Step (Shape : Type) where
  consumed : Nat := 0
  exchanges : List (Exchange Shape) := []
  result : Result := .needInput

namespace Pairing

variable {Shape : Type}

def setSide (p : Pairing Shape) (h : Half) (side : Side) : Pairing Shape :=
  { p with sides := Function.update p.sides h side }

def setParser (p : Pairing Shape) (h : Half) (parser : Parser) (reserver : Ledger Charge) : Pairing Shape :=
  { p.setSide h { p.sides h with parser } with reserver }

def setDirection (p : Pairing Shape) (d : Direction) (standing : Standing) : Pairing Shape :=
  { p with directions := Function.update p.directions d standing }

def setHeld (p : Pairing Shape) (d : Direction) (held : List Held) : Pairing Shape :=
  p.setDirection d { p.directions d with held }

def isStopped (p : Pairing Shape) : Bool := p.unread || p.stop != .needInput

def result (p : Pairing Shape) : Result := if p.unread then .unsupported else p.stop

def sideOf (p : Pairing Shape) (d : Direction) : Option Half :=
  if p.routed = false then none
  else if (p.sides .requests).direction = d then some .requests
  else some .responses

def position (p : Pairing Shape) (d : Direction) : Nat :=
  let next := (p.directions d).next
  match p.sideOf d with
  | none => next
  | some h =>
    let parser := (p.sides h).parser
    if parser.started ∧ parser.next > next then parser.next else next

def readable (p : Pairing Shape) (d : Direction) : Bool := p.routed && !p.unread && (p.directions d).beginning.certain

def release (p : Pairing Shape) (c : Charge) : Pairing Shape :=
  if c = 0 then p else { p with reserver := p.reserver.release c }

def releaseAll (p : Pairing Shape) (charges : List Charge) : Pairing Shape := charges.foldl release p

@[simp] theorem release_toDesk (p : Pairing Shape) (c : Charge) : (p.release c).toDesk = p.toDesk := by
  unfold release
  split <;> rfl

@[simp] theorem releaseAll_toDesk (p : Pairing Shape) (charges : List Charge) :
    (p.releaseAll charges).toDesk = p.toDesk := by
  induction charges generalizing p with
  | nil => rfl
  | cons c charges ih => exact (ih (p.release c)).trans (p.release_toDesk c)

def hold (p : Pairing Shape) (d : Direction) (part : Part) : Pairing Shape × Bool :=
  let charge := part.bytes.length
  let keep := fun (p : Pairing Shape) => p.setHeld d ((p.directions d).held ++ [{ part, charge }])
  if charge = 0 then (keep p, true)
  else match p.reserver.reserve (.ofBytes charge) with
    | (false, reserver) => ({ p with reserver }, false)
    | (true, reserver) => (keep { p with reserver }, true)

/-! ## Stopping -/

def stopSide (p : Pairing Shape) (h : Half) : Pairing Shape :=
  let s := p.sides h
  if s.stopped then p
  else
    let p := (p.setSide h { s with stopped := true, waiting := false }).release s.parser.retained
    let held := (p.directions s.direction).held
    (p.releaseAll (held.map fun h => .ofBytes h.charge)).setHeld s.direction []

def trim (p : Pairing Shape) (i : Nat) (h : Half) : Pairing Shape :=
  let keep := i - p.base + 1
  let s := p.sides h
  let p := (p.releaseAll ((s.done.drop keep).map (·.charge))).setSide h { s with done := s.done.take keep }
  if p.base + (p.sides h).done.length > i then p.stopSide h else p

def setLimit (p : Pairing Shape) (i : Nat) (why : Result) (h : Half) : Pairing Shape :=
  if p.limit.any fun limit => i > limit || (i == limit && h == .responses) then p
  else
    let p := { p with limit := some i, why }
    let p := (p.trim i .requests).trim i .responses
    { p with methods := p.methods.take (i - p.base + 1) }

def bounds (m : Http1.Message) (h : Half) : Bool :=
  m.headers.any (fun header => equalFold header.name (ascii "upgrade")) ||
    match h with
    | .requests => equalFold m.method (ascii "CONNECT")
    | .responses => m.status < 200

def boundary (p : Pairing Shape) (i : Nat) (m : Http1.Message) (h : Half) : Pairing Shape :=
  if bounds m h then p.setLimit i .unsupported h else p

def finishSide (p : Pairing Shape) (h : Half) (why : Result) : Pairing Shape :=
  (p.setLimit (p.base + (p.sides h).done.length) why h).stopSide h

/-! ## Reading -/

def noteRequest (p : Pairing Shape) (i : Nat) (message : Http1.Message) : Pairing Shape :=
  let p := if (p.sides .requests).headSeen then p
    else { p with methods := p.methods ++ [message.method] }.boundary i message .requests
  p.setSide .requests { p.sides .requests with headSeen := false }

/-- A half that has finished its message of exchange i stopped, where the message
stopped it or nothing after that exchange is to be read. -/
def closeAt (p : Pairing Shape) (h : Half) (i : Nat) (result : Result) : Pairing Shape :=
  let p := if result.stopped then p.setLimit i result h else p
  if p.limit.any fun limit => i ≥ limit then p.stopSide h else p

def finish (p : Pairing Shape) (h : Half) (result : Result) (message : Http1.Message) (charge : Charge) :
    Pairing Shape :=
  let i := p.base + (p.sides h).done.length
  let p := p.setSide h { p.sides h with done := (p.sides h).done ++ [{ message, charge }] }
  match h with
  | .requests => (p.noteRequest i message).closeAt .requests i result
  | .responses => p.closeAt .responses i result

def settle (p : Pairing Shape) (h : Half) (r : Reading) : Pairing Shape :=
  let p := p.setParser h r.parser (p.reserver.releaseAll r.released)
  match r.event with
  | some { result, message := some message, charge, .. } => p.finish h result message charge
  | _ => p

def answering (p : Pairing Shape) : Option Bytes :=
  match p.methods[(p.sides .responses).done.length]? with
  | some method => some method
  | none => if (p.sides .requests).ended then some [] else none

/-- The response in progress framed once the request it answers is known, or, once
no request is to come, by its own fields. -/
def answer (p : Pairing Shape) : Pairing Shape :=
  let s := p.sides .responses
  if p.routed = false ∨ s.waiting = false ∨ s.stopped then p
  else match p.answering with
    | none => p
    | some method =>
      let p := p.setSide .responses { s with waiting := false }
      match s.parser.answer method with
      | .error _ => p
      | .ok answered => p.settle .responses answered

def head (p : Pairing Shape) (h : Half) (m : Http1.Message) : Pairing Shape :=
  let i := p.base + (p.sides h).done.length
  match h with
  | .requests =>
    let p := { p with methods := p.methods ++ [m.method] }
    (p.setSide .requests { p.sides .requests with headSeen := true }).boundary i m .requests
  | .responses =>
    let p := p.boundary i m .responses
    (p.setSide .responses { p.sides .responses with waiting := true }).answer

def took (p : Pairing Shape) (h : Half) (progress : Progress) : Pairing Shape :=
  match progress.result, progress.message with
  | .head, some m => p.head h m
  | .needRequest, _ => p.setSide h { p.sides h with waiting := true }
  | .framed, some m | .malformed, some m | .limit, some m | .unsupported, some m | .cut, some m =>
    p.finish h progress.result m progress.charge
  | _, _ => p

def leave (h : Half) (advance : Nat → Pairing Shape → Pairing Shape) (p : Pairing Shape) (part : Part) :
    Pairing Shape × Part × Bool :=
  if (p.sides h).stopped ∧ part.length > 0 then (advance part.length p, part.tail part.length, false)
  else (p, part, false)

/-- A part fed to a half's parser until it is used up, the half waits or stops, or
growth is refused. `advance` commits what each call consumed, and the fuel bounds
the calls. -/
def read (h : Half) (advance : Nat → Pairing Shape → Pairing Shape) :
    Nat → Pairing Shape → Part → Pairing Shape × Part × Bool
  | 0, p, part => leave h advance p part
  | fuel + 1, p, part =>
    let s := p.sides h
    if part.length > 0 ∧ s.waiting = false ∧ s.stopped = false then
      match s.parser.feed p.reserver part with
      | .error _ => leave h advance (p.finishSide h .malformed) part
      | .ok fed =>
        let p := p.setParser h fed.parser fed.ledger
        let part := part.tail fed.progress.consumed
        let p := advance fed.progress.consumed p
        if fed.progress.result = .refused then (p, part, true)
        else read h advance fuel (p.took h fed.progress) part
    else leave h advance p part

def advanceNext (d : Direction) (n : Nat) (p : Pairing Shape) : Pairing Shape :=
  p.setDirection d { p.directions d with next := (p.directions d).next + n }

def advanceHeld (d : Direction) (n : Nat) (p : Pairing Shape) : Pairing Shape :=
  match (p.directions d).held with
  | [] => p
  | first :: rest => p.setHeld d ({ first with part := first.part.tail n } :: rest)

def dropRead (p : Pairing Shape) (d : Direction) : Pairing Shape :=
  match (p.directions d).held with
  | [] => p
  | first :: rest =>
    if first.part.length = 0 then (p.release (.ofBytes first.charge)).setHeld d rest else p

def heldLength (p : Pairing Shape) (d : Direction) : Nat := ((p.directions d).held.map (·.part.length)).sum

/-- What is held of a half read as far as it can be now: whether any of it was, and
whether growth was refused. -/
def pumpSide (h : Half) : Nat → Pairing Shape → Bool → Pairing Shape × Bool × Bool
  | 0, p, moved => (p, moved, false)
  | fuel + 1, p, moved =>
    let s := p.sides h
    match (p.directions s.direction).held with
    | [] => (p, moved, false)
    | first :: _ =>
      if p.readable s.direction ∧ s.waiting = false ∧ s.stopped = false ∧ p.isStopped = false then
        let (p, _, refused) := p.read h (advanceHeld s.direction) (first.part.length + 1) first.part
        let p := p.dropRead s.direction
        if refused then (p, true, true) else pumpSide h fuel p.answer true
      else (p, moved, false)

def pumpLoop : Nat → Pairing Shape → Pairing Shape × Bool
  | 0, p => (p, false)
  | fuel + 1, p =>
    if p.routed = true ∧ p.isStopped = false then
      let p := p.answer
      let (p, moved, refused) := pumpSide .requests (p.heldLength (p.sides .requests).direction + 1) p false
      if refused then (p, true)
      else
        let (p, moved, refused) := pumpSide .responses (p.heldLength (p.sides .responses).direction + 1) p moved
        if refused then (p, true) else if moved then pumpLoop fuel p else (p, false)
    else (p, false)

def pump (p : Pairing Shape) : Pairing Shape × Bool := pumpLoop (p.heldLength .sent + p.heldLength .received + 1) p

/-! ## The side -/

def route (p : Pairing Shape) (requests : Direction) : Pairing Shape :=
  let (responses, role) := if requests = .sent then (Direction.received, Role.client) else (.sent, .server)
  { p with
    role, routed := true
    sides := fun h =>
      { direction := if h = .requests then requests else responses
        parser := newParser h.kind p.limits.http } }

def discard (p : Pairing Shape) (h : Half) : Pairing Shape :=
  let s := p.sides h
  ((p.releaseAll (s.done.map (·.charge))).setSide h { s with done := [] }).stopSide h

def dropHeld (p : Pairing Shape) (d : Direction) : Pairing Shape :=
  (p.releaseAll ((p.directions d).held.map fun h => .ofBytes h.charge)).setHeld d []

def markUnread (p : Pairing Shape) : Pairing Shape :=
  let p := { p with unread := true, decided := true, role := .unknown }
  let p := if p.routed then { (p.discard .requests).discard .responses with methods := [] } else p
  ((p.dropHeld .unknown).dropHeld .sent).dropHeld .received

def agree (p : Pairing Shape) : Pairing Shape :=
  let out := (p.directions .sent).beginning
  let inn := (p.directions .received).beginning
  if out.certain ∧ inn.certain then
    if roleFrom out.what inn.what ≠ p.role then p.markUnread else { p with decided := true }
  else p

/-- The side read off what the directions begin with. -/
protected def decide (p : Pairing Shape) : Pairing Shape :=
  let out := (p.directions .sent).beginning
  let inn := (p.directions .received).beginning
  if p.decided then p
  else if p.routed then p.agree
  else if out.certain ∧ out.what = .opensSomethingElse then p.markUnread
  else if (out.certain ∧ out.what = .opensRequest) ∨ (inn.certain ∧ inn.what = .opensResponse) then
    (p.route .sent).agree
  else if (out.certain ∧ out.what = .opensResponse) ∨ (inn.certain ∧ inn.what = .opensRequest) then
    (p.route .received).agree
  else if out.certain ∧ inn.certain then p.markUnread
  else p

/-! ## Handing over -/

def popSide (p : Pairing Shape) (h : Half) : Pairing Shape × Option Finished :=
  let s := p.sides h
  match s.done with
  | [] => (p, none)
  | f :: rest =>
    let p := p.setSide h { s with done := rest }
    (p.setDirection s.direction { p.directions s.direction with settled := f.message.endsAt }, some f)

def pop (p : Pairing Shape) : Pairing Shape × Exchange Shape :=
  let (p, requested) := p.popSide .requests
  let (p, answered) := p.popSide .responses
  let request := requested.map fun f => Reconstruct.read p.limits.json f.message
  let response := answered.map fun f => Reconstruct.read p.limits.json f.message
  ({ p with methods := p.methods.tail, base := p.base + 1 },
    { request, response
      complete := Exchange.isComplete request response
      charge := (requested.map (·.charge)).getD 0 + (answered.map (·.charge)).getD 0 })

def stopAll (p : Pairing Shape) : Pairing Shape := ({ p with stop := p.why }.stopSide .requests).stopSide .responses

/-- Each exchange both of whose messages are finished handed over, and the exchange
at the limit once both halves are done with it. -/
def handOverLoop : Nat → Pairing Shape → Pairing Shape × List (Exchange Shape)
  | 0, p => (p, [])
  | fuel + 1, p =>
    let requested := (p.sides .requests).done ≠ []
    let answered := (p.sides .responses).done ≠ []
    if p.limit = some p.base then
      if (requested ∨ (p.sides .requests).ended) ∧ (answered ∨ (p.sides .responses).ended) then
        let (p, exchange) := p.pop
        (p.stopAll, [exchange])
      else (p, [])
    else if ¬ requested ∨ ¬ answered then (p, [])
    else
      let (p, exchange) := p.pop
      let (p, exchanges) := handOverLoop fuel p
      (p, exchange :: exchanges)

def handOver (p : Pairing Shape) : Pairing Shape × List (Exchange Shape) :=
  if p.decided = false ∨ p.isStopped then (p, [])
  else handOverLoop ((p.sides .requests).done.length + 1) p

/-! ## The calls -/

inductive Refusal where
  | direction (d : Direction)
  | invalidPart (reason : InvalidPart)
  | offset (d : Direction) (begins stands : Nat)
  | ended

def admits (p : Pairing Shape) (d : Direction) (part : Part) : Except Refusal Unit :=
  if d ≠ .sent ∧ d ≠ .received then .error (.direction d)
  else if p.ending then .error .ended
  else match part.validate with
    | .error reason => .error (.invalidPart reason)
    | .ok () =>
      if (p.directions d).started ∧ part.offset ≠ p.position d then
        .error (.offset d part.offset (p.position d))
      else .ok ()

def start (p : Pairing Shape) (d : Direction) (offset : Nat) : Pairing Shape :=
  if (p.directions d).started then p
  else p.setDirection d { p.directions d with started := true, next := offset, settled := offset, beginning := .fresh }

def acceptHeld (p : Pairing Shape) (d : Direction) (part : Part) : Pairing Shape × Nat × Bool :=
  match p.hold d part with
  | (p, false) => (p, 0, true)
  | (p, true) =>
    let p := advanceNext d part.length p
    let b := (p.directions d).beginning
    if b.certain then (p, part.length, false)
    else
      let b := if part.gap ≠ .none then b.close else b.take part.bytes
      ((p.setDirection d { p.directions d with beginning := b }).decide, part.length, false)

def acceptRead (p : Pairing Shape) (d : Direction) (h : Half) (part : Part) : Pairing Shape × Nat × Bool :=
  let (p, rest, refused) := p.read h (advanceNext d) (part.length + 1) part
  if refused then (p, part.length - rest.length, true)
  else if rest.length > 0 then
    match p.hold d rest with
    | (p, false) => (p, part.length - rest.length, true)
    | (p, true) => (advanceNext d rest.length p, part.length, false)
  else (p, part.length, false)

def accept (p : Pairing Shape) (d : Direction) (part : Part) : Pairing Shape × Nat × Bool :=
  match p.sideOf d with
  | none => p.acceptHeld d part
  | some h =>
    let s := p.sides h
    if s.stopped then (advanceNext d part.length p, part.length, false)
    else if p.readable d = false ∨ (p.directions d).held ≠ [] ∨ s.waiting then p.acceptHeld d part
    else p.acceptRead d h part

/-- The next part of one direction read. Earlier held input goes first, then this
part, then whatever it unblocked. -/
def feed (p : Pairing Shape) (d : Direction) (part : Part) : Except Refusal (Pairing Shape × Step Shape) :=
  match p.admits d part with
  | .error refusal => .error refusal
  | .ok () =>
    let p := p.start d part.offset
    if p.isStopped then
      .ok (advanceNext d part.length p, { consumed := part.length, result := p.result })
    else
      let (p, refused) := p.pump
      if refused then .ok (p, { result := .refused })
      else
        let (p, consumed, refused) := p.accept d part
        if refused then .ok (p, { consumed, result := .refused })
        else
          let (p, refused) := p.pump
          if refused then .ok (p, { consumed, result := .refused })
          else
            let (p, exchanges) := p.handOver
            .ok (p, { consumed, exchanges, result := p.result })

def endSide (p : Pairing Shape) (h : Half) : Pairing Shape :=
  let s := p.sides h
  if s.ended then p
  else
    let p := p.setSide h { s with ended := true }
    if s.stopped then p else p.settle h s.parser.finish

def drain : Nat → Pairing Shape → Pairing Shape × Bool
  | 0, p => (p, false)
  | fuel + 1, p =>
    let (p, refused) := p.answer.pump
    if refused then (p, true)
    else if (p.sides .responses).waiting = false ∨ (p.sides .responses).stopped then (p, false)
    else drain fuel p

def handOverRest : Nat → Pairing Shape → Pairing Shape × List (Exchange Shape)
  | 0, p => (p, [])
  | fuel + 1, p =>
    if p.isStopped = false ∧ ((p.sides .requests).done ≠ [] ∨ (p.sides .responses).done ≠ []) then
      let last := p.limit = some p.base
      let (p, exchange) := p.pop
      let (p, exchanges) := handOverRest fuel (if last then p.stopAll else p)
      (p, exchange :: exchanges)
    else (p, [])

def closeBeginning (p : Pairing Shape) (d : Direction) : Pairing Shape :=
  let s := p.directions d
  let b := if s.started then s.beginning.close else { what := .opensNothing, certain := true }
  p.setDirection d { s with beginning := b }

/-- The input of both directions declared finished: what remains is handed over.
Where finishing needs growth that is refused, the call can be made again. -/
def finishInput (p : Pairing Shape) : Pairing Shape × Step Shape :=
  if p.ended then (p, { result := .ended })
  else
    let p := { p with ending := true }
    if p.isStopped then ({ p with ended := true }, { result := .ended })
    else
      let p := ((p.closeBeginning .sent).closeBeginning .received).decide
      if p.unread then ({ p with ended := true }, { result := .ended })
      else
        let (p, refused) := p.pump
        if refused then (p, { result := .refused })
        else
          let p := p.endSide .requests
          let (p, refused) := p.drain (p.heldLength .sent + p.heldLength .received + 2)
          if refused then (p, { result := .refused })
          else
            let p := p.endSide .responses
            let (p, exchanges) := p.handOverRest ((p.sides .requests).done.length + (p.sides .responses).done.length)
            ({ p with ended := true }, { exchanges, result := .ended })

/-! ## What a pairing says of itself -/

def roleSaid (p : Pairing Shape) : Role × Bool :=
  if p.decided then (p.role, true) else (.unknown, false)

end Pairing

end EdgeObserver.Reconstruct
