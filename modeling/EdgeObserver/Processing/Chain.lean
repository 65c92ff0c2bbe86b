import EdgeObserver.Processing.Change

/-!
# A connection's run

One connection as a worker reads it: its input is given to the pairing, each
exchange handed over goes through the extensions in turn, and its connection line
is written once nothing of it is left. What the rest of the session answers (the
allowance, the ids, the extensions) comes from outside.
-/

set_option autoImplicit false

namespace EdgeObserver.Processing

open Fragment EdgeObserver.Stream

variable {Shape Raw : Type}

/-- A connection's reading, and what it released. `pairing` is given up where the
reading is; `released` and `omitted` are per direction the end of the last message
accounted for, and why and where the first exchange not released stopped. -/
structure Parsing (Shape : Type) where
  pairing : Option (Reconstruct.Pairing Shape)
  stopped : Bool := false
  ended : Bool := false
  exchanges : Nat := 0
  good : Nat := 0
  excluded : Bool := false
  countable : Bool := true
  released : Direction → Nat := fun _ => 0
  exclusions : List Reason := []
  omitted : Direction → Option PrefixCut := fun _ => none
  failed : List Bytes := []
  identified : Bool := false
  fedBytes : Nat := 0
  skipped : Nat := 0

/-- What the session answers a connection: whether the allowance has room, whether
the reading may grow, the ids it issues (zero once it is closed), and for each
submission why an extension does not take it. -/
structure Outside where
  room : List Bool := []
  growth : List Bool := []
  ids : List Nat := []
  submits : List (Option String) := []

structure TruncationStop where
  direction : Direction
  offset : Nat
  reason : Reason
  evidenceOffset : Nat

inductive Closing where
  | withheld
  | discarded (stops : List TruncationStop)
  | read (stops : List TruncationStop)

/-- One connection. `ended` waits for its chain alone, and `unsettled` was ended by
the session; `sent` is each exchange as it was submitted to the extension it is at,
and `written` each whose lines were written. -/
structure Batch (Shape : Type) extends Input where
  parse : Option (Parsing Shape) := none
  chain : List (Dispatch Shape) := []
  calling : Bool := false
  ended : Bool := false
  unsettled : Bool := false
  outside : Outside := {}
  sent : List (Dispatch Shape) := []
  written : List (Dispatch Shape) := []
  line : Option Closing := none

def directions : Reconstruct.Role → Direction × Direction
  | .client => (.sent, .received)
  | .server => (.received, .sent)
  | .unknown => (.unknown, .unknown)

/-! ## Why an exchange is not written -/

def keptOut (source : Reconstruct.Exchange Shape) (role : Reconstruct.Role) : Direction :=
  let (request, response) :=
    if role = .server then (Direction.received, Direction.sent) else (Direction.sent, Direction.received)
  if source.request.any (supportedMessage ·.message) then response else request

def exclusionReason (source : Reconstruct.Exchange Shape) (role : Reconstruct.Role) (stops : List TruncationStop) :
    Reason :=
  match stops.find? (·.direction = keptOut source role) with
  | some stop => stop.reason
  | none => (stops.getLast?.map (·.reason)).getD .unparsedSuffix

namespace Batch

def released (b : Batch Shape) (d : Direction) : Nat := (b.parse.map (·.released d)).getD 0

def omitted (b : Batch Shape) (d : Direction) : Option PrefixCut := b.parse.bind (·.omitted d)

def settled (b : Batch Shape) (source : Reconstruct.Exchange Shape) (role : Reconstruct.Role) : Option Reason :=
  let d := keptOut source role
  match b.omitted d with
  | none => none
  | some omitted =>
    if (b.place d).stop.isSome ∨ omitted.offset ≥ (b.place d).fed then none else some omitted.reason

def stopIn (stop omitted : Option PrefixCut) (released : Nat) : PrefixCut :=
  let parsed := omitted.getD { offset := released, reason := .unparsedSuffix }
  match stop with
  | none => parsed
  | some cut => if omitted = none ∨ cut.offset ≤ parsed.offset then cut else parsed

def stopOf (b : Batch Shape) (d : Direction) : Option TruncationStop :=
  if (b.place d).stop = none ∧ (b.place d).fed ≤ b.released d then none
  else
    let cut := stopIn (b.place d).stop (b.omitted d) (b.released d)
    some { direction := d, offset := b.released d, reason := cut.reason, evidenceOffset := cut.offset }

def truncation (b : Batch Shape) : List TruncationStop := [Direction.sent, .received].filterMap b.stopOf

def decideTail (b : Batch Shape) : Batch Shape :=
  { b with
    chain := b.chain.map fun d =>
      if d.excluded && d.reason.isNone then
        { d with reason := some (
            if b.cut then .connectionCut
            else if b.lost then .positionsUnknown
            else exclusionReason d.source d.role b.truncation) }
      else d }

/-! ## Ending -/

def discarded (b : Batch Shape) (r : Connection.Record) (reason : Reason) : List TruncationStop :=
  [Direction.sent, .received].filterMap fun d =>
    if (r.placement d).isNone ∧ b.reached d = 0 then none
    else some { direction := d, offset := b.released d, reason, evidenceOffset := max (b.reached d) (b.released d) }

def closing (w : Worker Shape) (b : Batch Shape) : Closing :=
  match b.retirement with
  | none => .withheld
  | some r =>
    if b.unsettled || b.invalid || !r.representable then .withheld
    else if b.cut then .discarded (b.discarded r .connectionCut)
    else if b.lost then .discarded (b.discarded r .positionsUnknown)
    else
      let reads := (w.pipelines.filter (·.reconstructs)).length
      .read (if 0 < reads ∧ b.parse.all (fun p => decide (p.failed.length < reads)) then b.truncation else [])

def close (w : Worker Shape) (b : Batch Shape) : Batch Shape := { b with ended := true, line := some (b.closing w) }

def stopParsing (p : Parsing Shape) : Parsing Shape :=
  if p.pairing.isNone then p else { p with pairing := none, stopped := true }

def discard (b : Batch Shape) : Batch Shape := { b with unfed := fun _ => none, parse := b.parse.map stopParsing }

def cutOff (b : Batch Shape) : Batch Shape := if b.cut then b else { b.discard with cut := true }

def lose (b : Batch Shape) : Batch Shape := if b.cut || b.lost then b else { b.discard with lost := true }

/-! ## The chain -/

/-- An exchange submitted to its next extension, past each that does not take it:
whether it now waits. Each submission is logged. -/
def step (w : Worker Shape) : Nat → Dispatch Shape → Batch Shape → Bool × Dispatch Shape × Batch Shape
  | 0, d, b => (false, d, b)
  | fuel + 1, d, b =>
    if d.k < w.entries.length then
      let b := { b with sent := b.sent ++ [d], outside := { b.outside with submits := b.outside.submits.tail } }
      match b.outside.submits.head?.join with
      | none => (true, d, b)
      | some reason =>
        step w fuel { d with outcomes := d.outcomes ++ [.failed (.said reason)], k := d.k + 1 } b
    else (false, d, b)

def stepChain (w : Worker Shape) : Nat → Batch Shape → Batch Shape
  | 0, b => b
  | fuel + 1, b =>
    match b.chain with
    | [] => b
    | d :: rest =>
      if b.calling then b
      else
        let reason := if d.excluded && d.reason.isNone then b.settled d.source d.role else d.reason
        if d.excluded && reason.isNone then b
        else
          match step w (w.entries.length + 1) { d with reason } b with
          | (true, d, b) => { b with chain := d :: rest, calling := true }
          | (false, d, b) =>
            stepChain w fuel { b with chain := rest, written := if d.excluded then b.written else b.written ++ [d] }

def advanceChain (w : Worker Shape) (b : Batch Shape) : Batch Shape :=
  let b := if b.cut then b.decideTail else b
  let b := stepChain w (b.chain.length + 1) b
  if b.ended && !b.calling && b.chain.isEmpty then b.close w else b

end Batch

/-- The copies of an exchange: the first made and its slots, the pipelines that
write it, those that failed, and whether the allowance refused one. -/
structure Copying (Shape : Type) where
  first : Option (SlotRun Shape × Nat × List EffectiveSlot) := none
  names : List Bytes := []
  failed : List Bytes := []
  full : Bool := false

def Worker.copyAll (w : Worker Shape) (source : Exchange Shape) : List Pipeline → Copying Shape → List Bool →
    Copying Shape × List Bool
  | [], c, room => (c, room)
  | p :: rest, c, room =>
    if p.reconstructs = false ∨ p.name ∈ c.failed then w.copyAll source rest c room
    else match w.policyCopy source p.slots room with
      | (.full, room) => ({ c with full := true }, room)
      | (.failed, room) => w.copyAll source rest { c with failed := c.failed ++ [p.name] } room
      | (.made run units, room) =>
        w.copyAll source rest
          { c with first := c.first.or (some (run, units, p.slots)), names := c.names ++ [p.name] } room

namespace Parsing

def excludeAlone (p : Parsing Shape) (x : Reconstruct.Exchange Shape) (role : Reconstruct.Role)
    (reason : Option Reason) : Parsing Shape :=
  let (request, response) := directions role
  let past := fun (d side : Direction) (m : Option (Reconstruct.Message Shape)) (at_ : Nat) =>
    if d = side ∧ d ≠ .unknown then max at_ ((m.map (·.message.endsAt)).getD 0) else at_
  { p with
    exclusions := p.exclusions ++ reason.toList
    released := fun d => past d response x.response (past d request x.request (p.released d)) }

def stopAt (p : Parsing Shape) (x : Reconstruct.Exchange Shape) (role : Reconstruct.Role) : Parsing Shape :=
  if p.excluded then p
  else
    let (request, response) := directions role
    let at_ := fun (d side : Direction) (m : Option (Reconstruct.Message Shape)) (was : Option PrefixCut) =>
      if d = side ∧ d ≠ .unknown then (m.map fun m => messageStop m.message).or was else was
    { p with
      excluded := true
      omitted := fun d => at_ d response x.response (at_ d request x.request (p.omitted d)) }

def release (p : Parsing Shape) (x : Reconstruct.Exchange Shape) (role : Reconstruct.Role) : Parsing Shape :=
  let (request, response) := directions role
  { p with
    good := p.good + 1
    released := fun d =>
      if d = response then (x.response.map (·.message.endsAt)).getD 0
      else if d = request then (x.request.map (·.message.endsAt)).getD 0
      else p.released d }

end Parsing

namespace Batch

def identifies (b : Batch Shape) : Bool :=
  if b.evidence.taken then b.evidence.identity.any Connection.identityRepresentable
  else b.retirement.any Connection.Record.representable

def link (b : Batch Shape) (p : Parsing Shape) (known : Bool) (verdict : Verdict) (d : Dispatch Shape) : Batch Shape :=
  match verdict with
  | .exclude => { b with parse := some (p.excludeAlone d.source d.role d.reason), chain := b.chain ++ [d] }
  | .stop =>
    let b := { b with parse := some (p.stopAt d.source d.role), invalid := b.invalid || !known }
    { b with chain := b.chain ++ [{ d with reason := b.settled d.source d.role }] }
  | .write | .cut => { b with parse := some (p.release d.source d.role), chain := b.chain ++ [d] }

def enchain (w : Worker Shape) (b : Batch Shape) (p : Parsing Shape) (x : Reconstruct.Exchange Shape)
    (role : Reconstruct.Role) : Batch Shape :=
  let known := p.identified || b.identifies
  let p := { p with
    identified := known
    countable := p.countable && x.complete && x.request.any (countableMessage ·.message) &&
      x.response.any (countableMessage ·.message) }
  let prep := if known then w.prepare p.excluded p.exchanges (.handed x) else { verdict := .stop, exchange := .handed x }
  if prep.verdict = .cut then { b with parse := some p }.cutOff
  else
    let excluded := prep.verdict ≠ .write
    let copied := if excluded then undecoded prep.exchange else (prep.exchange, fun _ => false)
    let (c, room) := w.copyAll copied.1 w.pipelines { failed := p.failed } b.outside.room
    let p := { p with failed := c.failed }
    let b := { b with parse := some p, outside := { b.outside with room } }
    if c.full then b.cutOff
    else match c.first with
      | none => b
      | some (run, policy, slots) =>
        let id := b.outside.ids.headD 0
        let b := { b with outside := { b.outside with ids := b.outside.ids.tail } }
        let index := p.exchanges
        let p := { p with exchanges := p.exchanges + 1 }
        if id = 0 then { b with parse := some p }
        else
          (b.link p known prep.verdict
            { id, index, role, excluded, reason := prep.reason, omitted := copied.2, source := x, slots, run, policy
              pipelines := c.names }).advanceChain w

def handOver (w : Worker Shape) (b : Batch Shape) (x : Reconstruct.Exchange Shape) : Batch Shape :=
  match b.parse with
  | none => b
  | some p =>
    match p.pairing with
    | none => b
    | some pairing => b.enchain w p x pairing.roleSaid.1

def handOverAll (w : Worker Shape) (xs : List (Reconstruct.Exchange Shape)) (b : Batch Shape) : Batch Shape :=
  xs.foldl (fun b x => if b.cut then b else b.handOver w x) b

/-! ## Reading -/

/-- One part of a direction given to the pairing. A part it cannot place refuses the
connection, and a growth refused cuts it. -/
def read (w : Worker Shape) (d : Direction) : Nat → Part → Batch Shape → Batch Shape
  | 0, _, b => b
  | fuel + 1, part, b =>
    match b.parse with
    | none => b
    | some p =>
      match p.pairing with
      | none => b
      | some pairing =>
        match pairing.feed d part with
        | .error _ => { b with invalid := true, parse := some (stopParsing p) }
        | .ok (pairing, step) =>
          let p := { p with pairing := some pairing, fedBytes := p.fedBytes + step.consumed }
          let b := handOverAll w step.exchanges { b with parse := some p }
          if b.cut then b
          else if step.result = .refused then b.cutOff
          else
            let b :=
              if step.result.stopped then
                { b with parse := b.parse.map fun p => { p with stopped := true } }
              else b
            if step.consumed ≥ part.length then b
            else
              read w d fuel
                { offset := part.offset + step.consumed, length := part.length - step.consumed
                  bytes := part.bytes.drop step.consumed } b

def begin (w : Worker Shape) (b : Batch Shape) : Batch Shape :=
  if b.parse.isSome || !w.pipelines.any (·.reconstructs) then b
  else
    let (room, rest) := reserve b.outside.room
    let b := { b with outside := { b.outside with room := rest } }
    if room then
      { b with parse := some { pairing := some (Reconstruct.newPairing w.limits { answers := b.outside.growth }) } }
    else b.cutOff

def readPlaced (w : Worker Shape) (b : Batch Shape) (placed : Record × Bytes) : Batch Shape :=
  if b.cut then b
  else
    let (f, kept) := placed
    let b := b.begin w
    match b.parse with
    | none => b
    | some p =>
      if b.cut then b
      else if p.stopped then { b with parse := some { p with skipped := p.skipped + kept.length } }
      else if kept = [] then b
      else read w f.direction kept.length { offset := f.offset, length := kept.length, bytes := kept } b

def takeAll (retired : Bool) : Nat → Input → Input × List (Record × Bytes)
  | 0, b => (b, [])
  | fuel + 1, b =>
    match b.take retired with
    | (b, none) => (b, [])
    | (b, some placed) =>
      let (b, rest) := takeAll retired fuel b
      (b, placed :: rest)

def feed (w : Worker Shape) (b : Batch Shape) (retired : Bool) : Batch Shape :=
  let (input, placed) := takeAll retired (b.certifiedThrough retired - b.toInput.fed) b.toInput
  let b := { b with toInput := input }
  if b.invalid then b else placed.foldl (readPlaced w) b

def finishReading (w : Worker Shape) (b : Batch Shape) : Batch Shape :=
  match b.parse with
  | none => b
  | some p =>
    match p.pairing with
    | none => b
    | some pairing =>
      if p.ended then b
      else
        let (pairing, step) := pairing.finishInput
        let b := handOverAll w step.exchanges { b with parse := some { p with pairing := some pairing } }
        if b.cut then b
        else if step.result = .refused then b.cutOff
        else { b with parse := b.parse.map fun p => { p with ended := true } }

/-! ## The run -/

def advance (w : Worker Shape) (b : Batch Shape) : Batch Shape :=
  if b.cut || b.lost || b.invalid then b else b.feed w false

def readRetired (w : Worker Shape) (b : Batch Shape) : Batch Shape :=
  if b.invalid || b.cut || b.lost then b
  else if b.evidence.taken && b.retirement.any (fun r => decide (r.agrees b.evidence ≠ .ok ())) then
    { b with invalid := true }
  else
    let b := { b with toInput := b.certify }.feed w true
    if b.invalid || b.cut then b else b.finishReading w

def processBatch (w : Worker Shape) (b : Batch Shape) : Batch Shape :=
  let b := b.readRetired w
  if b.chain ≠ [] ∨ b.calling = true then ({ b with ended := true }.decideTail).advanceChain w else b.close w

def answer (w : Worker Shape) (read : Field → Raw → Except Failure Replacement) (b : Batch Shape) (said : Answer Raw) :
    Batch Shape :=
  match b.chain with
  | [] => b
  | d :: rest =>
    if b.calling then
      let (d, cuts, room) := w.resolve read d said b.outside.room
      let b := { b with chain := d :: rest, calling := false, outside := { b.outside with room } }
      (if cuts then b.cutOff else b).advanceChain w
    else b

end Batch

/-- What happens to a connection. `turn` is the worker coming to it, once its input
settled or not; `sweep` looks only for its retirement; `bound` is the bound on what
one connection may hold reached, and `unsettle` the session ending before it. Each
`lost` says whether its capture was lost by then. -/
inductive Event (Raw : Type) where
  | fragment (f : Record)
  | retirement (r : Connection.Record)
  | turn (final settled lost : Bool)
  | sweep (final lost : Bool)
  | answer (said : Answer Raw)
  | bound
  | unsettle

namespace Batch

def retire (w : Worker Shape) (b : Batch Shape) (final lost : Bool) : Batch Shape × Bool :=
  let (input, ready) := b.ready final lost
  let b := { b with toInput := input }
  if ready then ({ b with final }.processBatch w, true) else (b, false)

def next (w : Worker Shape) (read : Field → Raw → Except Failure Replacement) (b : Batch Shape) :
    Event Raw → Batch Shape
  | .answer said => b.answer w read said
  | event =>
    -- A connection that ended takes no more input and is no longer looked at.
    if b.ended then b
    else match event with
      | .fragment f => { b with toInput := b.acceptFragment f }
      | .retirement r => { b with toInput := b.acceptRetirement r }
      | .turn final settled lost =>
        let b := if lost then b.lose else b
        match if settled then b.retire w final lost else (b, false) with
        | (b, true) => b
        | (b, false) => (b.advance w).advanceChain w
      | .sweep final lost => ((if lost then b.lose else b).retire w final lost).1
      | .bound => b.cutOff
      | .unsettle =>
        if b.parse.any (fun p => decide (p.exchanges ≠ 0)) then
          ({ b with ended := true, unsettled := true }.decideTail).advanceChain w
        else b
      | .answer _ => b

def run (w : Worker Shape) (read : Field → Raw → Except Failure Replacement) (b : Batch Shape)
    (events : List (Event Raw)) : Batch Shape :=
  events.foldl (next w read) b

end Batch

end EdgeObserver.Processing
