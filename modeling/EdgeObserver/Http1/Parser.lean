import EdgeObserver.Library.Ledger
import EdgeObserver.Http1.Message
import EdgeObserver.Stream.Part

/-!
# The incremental parser

One direction of one connection read as it arrives, a part at a time, resuming
where the previous part left off. Before it retains anything the parser asks its
account, and what the account refuses leaves it as it was.
-/

set_option autoImplicit false

namespace EdgeObserver.Http1

open Library EdgeObserver.Stream Text

/-!
## Charges

What a parser or a pairing retains: the captured bytes it has copied and keeps,
and the messages it has begun and not handed over.
-/

@[ext] structure Charge where
  bytes : Int := 0
  messages : Int := 0
  deriving DecidableEq

namespace Charge

instance : Zero Charge := ⟨{}⟩
instance : Add Charge := ⟨fun a b => { bytes := a.bytes + b.bytes, messages := a.messages + b.messages }⟩
instance : Neg Charge := ⟨fun a => { bytes := -a.bytes, messages := -a.messages }⟩
instance : Sub Charge := ⟨fun a b => { bytes := a.bytes - b.bytes, messages := a.messages - b.messages }⟩

@[simp] theorem zero_bytes : (0 : Charge).bytes = 0 := rfl
@[simp] theorem zero_messages : (0 : Charge).messages = 0 := rfl
@[simp] theorem add_bytes (a b : Charge) : (a + b).bytes = a.bytes + b.bytes := rfl
@[simp] theorem add_messages (a b : Charge) : (a + b).messages = a.messages + b.messages := rfl
@[simp] theorem neg_bytes (a : Charge) : (-a).bytes = -a.bytes := rfl
@[simp] theorem neg_messages (a : Charge) : (-a).messages = -a.messages := rfl
@[simp] theorem sub_bytes (a b : Charge) : (a - b).bytes = a.bytes - b.bytes := rfl
@[simp] theorem sub_messages (a b : Charge) : (a - b).messages = a.messages - b.messages := rfl

instance : AddCommGroup Charge where
  add_assoc a b c := by ext <;> simp <;> omega
  zero_add a := by ext <;> simp
  add_zero a := by ext <;> simp
  add_comm a b := by ext <;> simp <;> omega
  neg_add_cancel a := by ext <;> simp <;> omega
  sub_eq_add_neg a b := by ext <;> simp <;> omega
  nsmul := nsmulRec
  zsmul := zsmulRec

def ofBytes (n : Nat) : Charge := { bytes := n }

@[simp] theorem ofBytes_bytes (n : Nat) : (ofBytes n).bytes = n := rfl
@[simp] theorem ofBytes_messages (n : Nat) : (ofBytes n).messages = 0 := rfl

def oneMessage : Charge := { messages := 1 }

@[simp] theorem oneMessage_bytes : oneMessage.bytes = 0 := rfl
@[simp] theorem oneMessage_messages : oneMessage.messages = 1 := rfl

def Nonneg (charge : Charge) : Prop := 0 ≤ charge.bytes ∧ 0 ≤ charge.messages

instance (charge : Charge) : Decidable charge.Nonneg := inferInstanceAs (Decidable (_ ∧ _))

theorem nonneg_zero : (0 : Charge).Nonneg := by decide

end Charge

/-! ## The parser -/

inductive Result where
  | needInput
  | head
  | needRequest
  | framed
  | malformed
  | limit
  | unsupported
  | cut
  | ended
  | refused
  deriving DecidableEq

def Result.stopped : Result → Bool
  | .malformed | .limit | .unsupported | .cut => true
  | _ => false

/-- What one call did: the offsets of the part it accounted for, and the message
it concerns with what was retained for it. -/
structure Progress where
  consumed : Nat := 0
  result : Result := .needInput
  message : Option Message := none
  charge : Charge := 0

inductive Phase where
  | betweenMessages
  | inStartLine
  | inFields
  | awaitingAnswer
  | inDeclaredBody
  | inChunkSize
  | inChunkData
  | inChunkEnd
  | inTrailers
  deriving DecidableEq

/-- The parser's state. `message` and `charge` belong to the message in progress,
and are empty between messages; `line` is a line not yet ended, and `sawCR` a
carriage return at its end that waits on the byte after it. -/
structure Parser where
  kind : Kind
  limits : Limits
  started : Bool := false
  next : Nat := 0
  ended : Bool := false
  stop : Result := .needInput
  settled : Nat := 0
  phase : Phase := .betweenMessages
  message : Message := {}
  charge : Charge := 0
  line : Bytes := []
  sawCR : Bool := false
  headerBytes : Nat := 0
  remaining : Nat := 0
  chunks : Nat := 0
  chunkStart : Nat := 0
  chunkSize : Nat := 0
  chunkKept : Nat := 0
  chunkHoled : Nat := 0
  chunkElided : Nat := 0
  endSeen : Nat := 0
  endFirst : UInt8 := 0
  deriving DecidableEq

def newParser (kind : Kind) (limits : Limits) : Parser := { kind, limits := limits.orDefaults }

/-- One step of reading: what it asks to retain before it changes anything, and,
once that is granted, the parser it leaves, what it gives back, and the event it
returns to the caller, where it has one. -/
structure Reading where
  asks : Charge := 0
  parser : Parser
  released : List Charge := []
  event : Option Progress := none

def givenBack (n : Nat) : List Charge := if n = 0 then [] else [.ofBytes n]

namespace Parser

def release (p : Parser) (n : Nat) : Parser := { p with charge := p.charge - .ofBytes n }

def dropLine (p : Parser) : Parser := { p.release p.line.length with line := [], sawCR := false }

def takeLine (p : Parser) : Bytes × Parser := (p.line, { p with line := [], sawCR := false })

def handOver (p : Parser) (result : Result) : Reading where
  parser := { p with
    message := {}, charge := 0, phase := .betweenMessages
    line := [], sawCR := false, settled := p.next }
  event := some { result, message := some { p.message with endsAt := p.next }, charge := p.charge }

def stopFor : Defect → Result
  | .hole => .cut
  | .limit => .limit
  | _ => .malformed

def refuse (p : Parser) (defect : Defect) (detail : String) : Reading :=
  { p with message := { p.message with defect, detail }, stop := stopFor defect }.handOver (stopFor defect)

def refuseLine (p : Parser) (line : Bytes) (defect : Defect) (detail : String) : Reading :=
  { (p.release line.length).refuse defect detail with released := givenBack line.length }

def begin (p : Parser) : Reading where
  asks := .oneMessage
  parser := { p with
    message := { kind := p.kind, offset := p.next }, charge := .oneMessage
    phase := .inStartLine, headerBytes := 0, chunks := 0 }

/-! ## Lines -/

/-- What a scan of the input found of the line in progress: how many bytes the
line took, whether it ended or outgrew its bound, whether the held carriage
return joins it, and up to where the input does. -/
structure Scanned where
  consumed : Nat := 0
  done : Bool := false
  tooLong : Bool := false
  prependCR : Bool := false
  upTo : Nat := 0
  sawCR : Bool := false

def scanFrom (max : Int) : Bytes → Nat → Nat → Bool → Bool → Scanned
  | [], i, _, sawCR, prependCR =>
    { consumed := i, prependCR, upTo := if sawCR then i - 1 else i, sawCR }
  | b :: rest, i, length, sawCR, prependCR =>
    if sawCR && b == lf then
      { consumed := i + 1, done := true, prependCR, upTo := i - 1 }
    else
      -- A carriage return without a line feed is an ordinary byte of the line.
      let length := if sawCR then length + 1 else length
      let prependCR := prependCR || (sawCR && i == 0)
      if sawCR && (length : Int) > max then { consumed := i + 1, tooLong := true, prependCR }
      else if b == cr then scanFrom max rest (i + 1) length true prependCR
      else if ((length + 1 : Nat) : Int) > max then { consumed := i + 1, tooLong := true, prependCR }
      else scanFrom max rest (i + 1) (length + 1) false prependCR

def scanLine (input : Bytes) (length : Nat) (sawCR : Bool) (max : Int) : Scanned :=
  scanFrom max input 0 length sawCR false

/-- A line read as far as the input goes: only a carriage return and a line feed
end it, and it is refused the moment it outgrows its bound. -/
structure LineRead where
  done : Bool
  reading : Reading

def lineTooLong (p : Parser) (consumed : Nat) (context : String) : Reading :=
  { ({ p with next := p.next + consumed }.dropLine).refuse .limit
      (context ++ ": the read reached its bound") with
    released := givenBack p.line.length }

def lineGrown (p : Parser) (line : Bytes) (grow : Nat) (sawCR : Bool) (consumed : Nat) : Reading where
  asks := .ofBytes grow
  parser := { p with line, charge := p.charge + .ofBytes grow, sawCR, next := p.next + consumed }

def readLine (p : Parser) (input : Bytes) (max : Int) (context : String) : LineRead :=
  let s := scanLine input p.line.length p.sawCR max
  let held : Bytes := if s.prependCR then [cr] else []
  if s.tooLong then { done := false, reading := p.lineTooLong s.consumed context }
  else
    { done := s.done
      reading := p.lineGrown (p.line ++ held ++ input.take s.upTo) (held.length + s.upTo) s.sawCR s.consumed }

def LineRead.ended (line : LineRead) (take : Parser → Reading) : Reading :=
  if line.reading.event.isSome || !line.done then line.reading
  else { take line.reading.parser with asks := line.reading.asks }

def startLine (p : Parser) : Reading :=
  let (line, p) := p.takeLine
  match p.kind with
  | .request =>
    match p.message.readRequestLine line with
    | some message => { parser := { p with message, phase := .inFields } }
    | none => p.refuseLine line .malformed "the first line is not a request line"
  | .response =>
    match p.message.readStatusLine line with
    | some message => { parser := { p with message, phase := .inFields } }
    | none => p.refuseLine line .malformed "the first line is not a status line"
  | .unknown => p.refuseLine line .malformed "no kind of message was asked for"

/-! ## Framing -/

def headEvent (p : Parser) : Progress := { result := .head, message := some p.message }

def chunkSizeNext (p : Parser) : Reading :=
  if (p.chunks : Int) ≥ p.limits.maxChunks then
    p.refuse .limit ("more than " ++ toString p.limits.maxChunks ++ " chunks")
  else { parser := { p with phase := .inChunkSize } }

def framedWhole (m : Message) : Message :=
  if m.bodyHoled > 0 then
    -- The declared length still says where the message ends.
    { m with
      framed := true, defect := .hole
      detail := toString m.bodyHoled ++ " of the body's " ++ toString m.bodyLength ++
        " bytes were never captured" }
  else { m with framed := true, complete := true }

def bodyStep (p : Parser) : Reading :=
  if p.remaining ≠ 0 then { parser := p }
  else if p.phase = .inChunkData then
    { parser := { p with
        message := { p.message with
          bodyLength := p.message.bodyLength + p.chunkSize
          bodyHoled := p.message.bodyHoled + p.chunkHoled
          bodyElided := p.message.bodyElided + p.chunkElided }
        phase := .inChunkEnd, endSeen := 0 } }
  else { p with message := framedWhole p.message }.handOver .framed

/-- How the message's body ends, decided once its fields are in. It returns the
message where that ends it, its head for a request whose body follows, and
nothing but itself for a response whose body follows. -/
def frame (p : Parser) (noBody : Bool) : Reading :=
  let (framing, length, detail) := p.message.frame p.kind noBody
  let p := { p with message := { p.message with framing } }
  let follows := fun (p : Parser) =>
    ({ parser := p
       event := some (if p.kind = .response then { result := .needInput } else p.headEvent) } : Reading)
  match framing with
  | .ambiguous => p.refuse .ambiguousFraming detail
  | .none =>
    if detail ≠ "" then p.refuse .malformed detail
    else { p with message := { p.message with framed := true, complete := true } }.handOver .framed
  | .contentLength =>
    let p := { p with
      message := { p.message with bodyLength := length }
      remaining := length, phase := .inDeclaredBody }
    if length = 0 then p.bodyStep else follows p
  | .chunked =>
    let sized := p.chunkSizeNext
    if sized.event.isSome then sized else follows sized.parser
  | .untilClose =>
    -- A reader of an open connection never sees that body end.
    { p with
      message := { p.message with
        defect := .streamEnded
        detail := "the body ends with the connection, and a fragment carries no close" }
      stop := .unsupported }.handOver .unsupported

def fieldsEnded (p : Parser) : Reading :=
  if p.kind = .response then
    { parser := { p with phase := .awaitingAnswer }, event := some p.headEvent }
  else p.frame false

def fieldLine (p : Parser) : Reading :=
  let (line, p) := p.takeLine
  if line = [] then p.fieldsEnded
  else if (p.message.headers.length : Int) ≥ p.limits.maxHeaders then
    p.refuseLine line .limit ("more than " ++ toString p.limits.maxHeaders ++ " field lines")
  else
    let p := { p with headerBytes := p.headerBytes + line.length }
    if (p.headerBytes : Int) > p.limits.maxHeaderBytes then
      p.refuseLine line .limit ("more than " ++ toString p.limits.maxHeaderBytes ++ " bytes of field lines")
    else match readHeader line with
      | none => p.refuseLine line .malformed "a field line no strict endpoint would accept"
      | some header =>
        { parser := { p with
            message := { p.message with headers := p.message.headers ++ [header] } } }

def trailerLine (p : Parser) : Reading :=
  let (line, p) := p.takeLine
  if line = [] then { p with message := framedWhole p.message }.handOver .framed
  else if (p.message.trailers.length : Int) ≥ p.limits.maxTrailers then
    p.refuseLine line .limit ("more than " ++ toString p.limits.maxTrailers ++ " trailer fields")
  else match readHeader line with
    | none => p.refuseLine line .malformed "a trailer field no strict endpoint would accept"
    | some trailer =>
      { parser := { p with
          message := { p.message with trailers := p.message.trailers ++ [trailer] } } }

/-! ## Bodies -/

def room (p : Parser) : Nat := (p.limits.maxBodyBytes - p.message.body.length).toNat

def takeBody (p : Parser) (input : Bytes) (take keep : Nat) : Parser :=
  { p with
    message := { p.message with
      body := p.message.body ++ input.take keep
      bodyElided :=
        if p.phase = .inDeclaredBody then p.message.bodyElided + (take - keep)
        else p.message.bodyElided }
    charge := p.charge + .ofBytes keep
    next := p.next + take
    remaining := p.remaining - take
    chunkKept := if p.phase = .inDeclaredBody then p.chunkKept else p.chunkKept + keep
    chunkElided :=
      if p.phase = .inDeclaredBody then p.chunkElided else p.chunkElided + (take - keep) }

def body (p : Parser) (input : Bytes) : Reading :=
  let take := min input.length p.remaining
  let keep := min take p.room
  { (p.takeBody input take keep).bodyStep with asks := .ofBytes keep }

def chunkSizeLine (p : Parser) : Reading :=
  let size := Http1.chunkSize p.line
  let given := givenBack p.line.length
  let p := p.dropLine
  match size with
  | none => { p.refuse .malformed "a chunk size no decoder would accept" with released := given }
  | some 0 => { parser := { p with phase := .inTrailers }, released := given }
  | some size =>
    { parser := { p with
        phase := .inChunkData, remaining := size, chunkStart := p.next, chunkSize := size
        chunkKept := 0, chunkHoled := 0, chunkElided := 0 }
      released := given }

def chunkEnd (p : Parser) (b : UInt8) : Reading :=
  let p := { p with next := p.next + 1 }
  if p.endSeen = 0 then { parser := { p with endSeen := 1, endFirst := b } }
  else
    let p := { p with endSeen := 0 }
    if p.endFirst ≠ cr ∨ b ≠ lf then p.refuse .malformed "a chunk not followed by CRLF"
    else { p with chunks := p.chunks + 1 }.chunkSizeNext

def holeContext : Phase → String
  | .inStartLine => "reading the start line"
  | .inFields => "reading a field line"
  | .inChunkSize => "reading a chunk size"
  | .inChunkEnd => "reading the end of a chunk"
  | .inTrailers => "reading a trailer field"
  | _ => ""

def takeHole (p : Parser) (take : Nat) : Parser :=
  { p with
    next := p.next + take
    remaining := p.remaining - take
    message := { p.message with
      bodyHoled := if p.phase = .inDeclaredBody then p.message.bodyHoled + take else p.message.bodyHoled }
    chunkHoled := if p.phase = .inDeclaredBody then p.chunkHoled else p.chunkHoled + take }

/-- A hole of n offsets where the parser stands: counted inside a body of known
length, a cut anywhere else. -/
def hole (p : Parser) (gap : GapReason) (n : Nat) : Reading :=
  match p.phase with
  | .betweenMessages => p.begin
  | .inDeclaredBody | .inChunkData => (p.takeHole (min n p.remaining)).bodyStep
  | phase =>
    { p.dropLine.refuse .hole (holeContext phase ++ ": the read crosses a hole in the stream: " ++
        gap.text ++ " at offset " ++ toString p.next) with
      released := givenBack p.line.length }

def bytes (p : Parser) (input : Bytes) : Reading :=
  match p.phase with
  | .betweenMessages => p.begin
  | .inStartLine =>
    (p.readLine input p.limits.maxStartLine "reading the start line").ended startLine
  | .inFields => (p.readLine input p.limits.maxHeaderLine "reading a field line").ended fieldLine
  | .inDeclaredBody | .inChunkData => p.body input
  | .inChunkSize =>
    (p.readLine input p.limits.maxHeaderLine "reading a chunk size").ended chunkSizeLine
  | .inChunkEnd => p.chunkEnd (input.headD 0)
  | .inTrailers =>
    (p.readLine input p.limits.maxHeaderLine "reading a trailer field").ended trailerLine
  | .awaitingAnswer => { parser := p, event := some { result := .needRequest } }

def step (p : Parser) (rest : Part) : Reading :=
  if rest.gap = .none then p.bytes rest.bytes else p.hole rest.gap rest.length

/-! ## Calls -/

structure Fed where
  parser : Parser
  ledger : Ledger Charge
  progress : Progress

def settle (p : Parser) (ledger : Ledger Charge) (r : Reading) : Parser × Ledger Charge × Option Progress :=
  if r.asks = 0 then (r.parser, ledger.releaseAll r.released, r.event)
  else match ledger.reserve r.asks with
    | (true, ledger) => (r.parser, ledger.releaseAll r.released, r.event)
    | (false, ledger) => (p, ledger, some { result := .refused })

/-- The loop of `feed`, stepping until the part is used up or a step has an event.
The fuel bounds its steps. -/
def feedLoop (part : Part) : Nat → Parser → Ledger Charge → Fed
  | 0, p, ledger => ⟨p, ledger, { consumed := p.next - part.offset }⟩
  | fuel + 1, p, ledger =>
    if p.next < part.offset + part.length then
      match p.settle ledger (p.step (part.tail (p.next - part.offset))) with
      | (p, ledger, none) => feedLoop part fuel p ledger
      | (p, ledger, some progress) =>
        -- What follows a stop in the part is unplaced.
        let p := if progress.result.stopped then { p with next := part.offset + part.length } else p
        ⟨p, ledger, { progress with consumed := p.next - part.offset }⟩
    else ⟨p, ledger, { consumed := part.length }⟩

inductive Refusal where
  | invalidPart (reason : InvalidPart)
  | offset (begins stands : Nat)
  | ended
  | answer

def admits (p : Parser) (part : Part) : Except Refusal Unit :=
  if p.ended then .error .ended
  else match part.validate with
    | .error reason => .error (.invalidPart reason)
    | .ok () =>
      if p.started && part.offset != p.next then .error (.offset part.offset p.next) else .ok ()

/-- A part read from where the parser stands. After the direction stopped every
part is consumed as unplaced. -/
def feed (p : Parser) (ledger : Ledger Charge) (part : Part) : Except Refusal Fed :=
  match p.admits part with
  | .error refusal => .error refusal
  | .ok () =>
    let p := if p.started then p
      else { p with started := true, next := part.offset, settled := part.offset }
    if p.stop ≠ .needInput then
      .ok ⟨{ p with next := p.next + part.length }, ledger, { consumed := part.length, result := p.stop }⟩
    else if p.phase = .awaitingAnswer then .ok ⟨p, ledger, { result := .needRequest }⟩
    else .ok (feedLoop part (2 * part.length + 1) p ledger)

/-- The method of the request a response answers, given once its head was read:
the body is then framed. It consumes nothing and asks for nothing. -/
def answer (p : Parser) (method : Bytes) : Except Refusal Reading :=
  if p.phase ≠ .awaitingAnswer ∨ p.ended then .error .answer
  else .ok (p.frame (equalFold method (ascii "HEAD")))

def endedInside (p : Parser) : Parser × List Charge :=
  let short := "the stream ends inside the read"
  let p := { p with message := { p.message with defect := .streamEnded, endsAt := p.next } }
  let detailed := fun (p : Parser) (detail : String) => { p with message := { p.message with detail } }
  match p.phase with
  | .inStartLine =>
    (detailed p.dropLine ("reading the start line: " ++ short), givenBack p.line.length)
  | .inFields => (detailed p.dropLine ("reading a field line: " ++ short), givenBack p.line.length)
  | .inChunkSize => (detailed p.dropLine ("reading a chunk size: " ++ short), givenBack p.line.length)
  | .inTrailers => (detailed p.dropLine ("reading a trailer field: " ++ short), givenBack p.line.length)
  | .inDeclaredBody =>
    (detailed p ("the stream ends " ++ toString (p.message.bodyLength - p.remaining) ++
      " bytes into a body of " ++ toString p.message.bodyLength), [])
  | .inChunkData =>
    -- A chunk the stream ends inside is not taken.
    (detailed { p.release p.chunkKept with
        message := { p.message with
          body := p.message.body.take (p.message.body.length - p.chunkKept)
          endsAt := p.chunkStart } }
      ("the stream ends inside a chunk of " ++ toString p.chunkSize ++ " bytes"),
      givenBack p.chunkKept)
  | .inChunkEnd =>
    (detailed { p with message := { p.message with endsAt := p.next - p.endSeen } }
      ("reading the end of a chunk: " ++ short), [])
  | _ => (p, [])

def endMessage (p : Parser) : Reading :=
  if p.phase = .betweenMessages then { parser := p, event := some { result := .ended } }
  else
    let (p, released) := p.endedInside
    { parser := { p with
        message := {}, charge := 0, phase := .betweenMessages, settled := p.message.endsAt }
      released
      event := some { result := .ended, message := some p.message, charge := p.charge } }

def finish (p : Parser) : Reading :=
  if p.ended then { parser := p, event := some { result := .ended } }
  else match p.answer [] with
    | .error _ => { p with ended := true }.endMessage
    | .ok answered =>
      match answered.event with
      | some { message := some message, charge, .. } =>
        { answered with
          parser := { answered.parser with ended := true }
          event := some { result := .ended, message := some message, charge } }
      | _ => { answered.parser with ended := true }.endMessage

def retained (p : Parser) : Charge := p.charge

def unplaced (p : Parser) : Nat :=
  if p.stop = .needInput ∧ p.ended = false then 0 else p.next - p.settled

end Parser

end EdgeObserver.Http1
