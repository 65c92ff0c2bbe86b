import EdgeObserver.ContentCoding.List
import EdgeObserver.Processing.Input
import EdgeObserver.Reconstruct.Exchange
import EdgeObserver.Config.Plan
import EdgeObserver.Json.Editor

/-!
# A pipeline's pass over an exchange

Each operation of a pipeline edits a copy of the exchange. Body operations read
header facts from the message as parsed, so no header operation earlier in the
route changes what they admit.
-/

set_option autoImplicit false

namespace EdgeObserver.Processing

open Text Http1

/-!
## Messages as processing reads them

Which messages are written, where one that is not stops its direction, and what
a body whose coding was not undone leaves of its message.
-/

def isHttp1 (m : Http1.Message) : Bool := m.protocol == ascii "HTTP/1.0" || m.protocol == ascii "HTTP/1.1"

def switches (m : Http1.Message) : Bool :=
  equalFold m.method (ascii "CONNECT") || (m.kind == .response && decide (m.status < 200))

def unstopped (m : Http1.Message) : Bool :=
  let codings := m.headers.filter fun h => toLower h.name == ascii "transfer-encoding"
  m.complete && m.framed && m.defect == .none && m.bodyHoled == 0 && m.bodyElided == 0 && isHttp1 m &&
    !switches m && !m.headers.any (fun h => toLower h.name == ascii "upgrade") &&
    decide (codings.length ≤ 1) && codings.all (fun h => equalFold (trimSpace h.value) (ascii "chunked"))

def supportedMessage (m : Http1.Message) : Bool :=
  unstopped m && m.headers.all fun h => !h.named "content-encoding" || equalFold (trimSpace h.value) (ascii "identity")

def countableMessage (m : Http1.Message) : Bool :=
  m.complete && m.framed && m.defect == .none && m.bodyHoled == 0 && isHttp1 m && !switches m &&
    !m.headers.any (·.named "upgrade")

def messageStop (m : Http1.Message) : PrefixCut :=
  match m.defect with
  | .streamEnded => { offset := m.endsAt, reason := .incompleteMessage }
  | .hole => { offset := m.endsAt, reason := .captureHole }
  | .malformed => { offset := m.endsAt, reason := .malformedMessage }
  | .ambiguousFraming => { offset := m.endsAt, reason := .ambiguousFraming }
  | .limit => { offset := m.endsAt, reason := .processingLimit }
  | .none =>
    if m.bodyElided ≠ 0 then { offset := m.endsAt, reason := .processingLimit }
    else if m.complete = false ∨ m.framed = false then { offset := m.endsAt, reason := .incompleteMessage }
    else if supportedMessage m = false then { offset := m.offset, reason := .unsupportedMessage }
    else { offset := m.offset, reason := .unpairedExchange }

theorem messageStop_within (m : Http1.Message) (extent : m.offset ≤ m.endsAt) :
    m.offset ≤ (messageStop m).offset := by
  unfold messageStop
  split
  all_goals try exact extent
  split
  · exact extent
  split
  · exact extent
  split
  · exact Nat.le_refl _
  · exact Nat.le_refl _

def contentEncodings (m : Http1.Message) : List Bytes :=
  (m.headers.filter (·.named "content-encoding")).map Header.value

def encoded (m : Http1.Message) : Bool := ContentCoding.parseList (contentEncodings m) != (none, .supported)

def eligibleMessage (m : Http1.Message) : Bool :=
  unstopped m && (ContentCoding.parseList (contentEncodings m)).2 != .malformed

/-! ## Messages with their decoded content -/

structure Content where
  codings : List ContentCoding.Coding
  fields : List Bytes
  length : Nat
  deriving DecidableEq

structure Message (Shape : Type) extends Reconstruct.Message Shape where
  content : Option Content := none
  deriving DecidableEq

structure Exchange (Shape : Type) where
  request : Option (Message Shape) := none
  response : Option (Message Shape) := none
  complete : Bool := false

variable {Shape : Type}

def Exchange.handed (x : Reconstruct.Exchange Shape) : Exchange Shape :=
  { request := x.request.map fun m => { toMessage := m }
    response := x.response.map fun m => { toMessage := m }
    complete := x.complete }

def Exchange.side (e : Exchange Shape) : Config.Message → Option (Message Shape)
  | .request => e.request
  | .response => e.response

def Exchange.put (e : Exchange Shape) (side : Config.Message) (m : Message Shape) : Exchange Shape :=
  match side with
  | .request => { e with request := some m }
  | .response => { e with response := some m }

def Message.edit (m : Message Shape) (f : Http1.Message → Http1.Message) : Message Shape :=
  { m with message := f m.message }

def copyMessage (m : Message Shape) : Message Shape :=
  { m.edit fun h => { h with detail := "" } with
    shapeRefused := if m.shapeRefused ≠ "" then "body structure unavailable" else "" }

def copyExchange (e : Exchange Shape) : Exchange Shape :=
  { e with request := e.request.map copyMessage, response := e.response.map copyMessage }

/-! ## What a pass records -/

inductive Disposition where
  | removed
  | valuesRemoved
  | removedUndecidable
  deriving DecidableEq

inductive Section where
  | headers
  | trailers
  deriving DecidableEq

structure PolicyExclusion where
  message : Config.Message
  inSection : Option Section := none
  field : Bytes
  disposition : Disposition := .removed
  deriving DecidableEq

structure SlotRun (Shape : Type) where
  source : Exchange Shape
  exchange : Exchange Shape
  evidence : List PolicyExclusion := []
  bodies : Config.Message → Option Disposition := fun _ => none

structure Reads (Shape : Type) where
  json : Bytes → Except String Shape
  fold : Bytes → Bytes

/-! ## Parameters -/

def isHex (b : UInt8) : Bool := isDigit b || (97 ≤ b && b ≤ 102) || (65 ≤ b && b ≤ 70)

def hexValue (c : UInt8) : UInt8 :=
  if c ≥ 97 then c - 97 + 10 else if c ≥ 65 then c - 65 + 10 else c - 48

def malformedEscape : Bytes → Bool
  | [] => false
  | c :: rest =>
    (c == 37 && !(match rest with
      | a :: b :: _ => isHex a && isHex b
      | _ => false)) || malformedEscape rest

def percentDecode : Bytes → Bytes
  | [] => []
  | 37 :: a :: b :: rest => (hexValue a <<< 4 ||| hexValue b) :: percentDecode rest
  | c :: rest => (if c = 43 then space else c) :: percentDecode rest

def parameters (start : Nat) : List Bytes → List (Nat × Nat)
  | [] => []
  | p :: rest => (start, start + p.length) :: parameters (start + p.length + 1) rest

/-- What is written of a text: each removed run goes with the & after it, or the
one before it where it is last. `spans` are the parameters from place i on. -/
def cutRuns (text : Bytes) : Nat → (i before at_ : Nat) → List ((Nat × Nat) × Bool) → Bytes
  | 0, _, _, at_, _ => text.drop at_
  | _ + 1, _, _, at_, [] => text.drop at_
  | fuel + 1, i, _, at_, ((_, ends), false) :: rest => cutRuns text fuel (i + 1) ends at_ rest
  | fuel + 1, i, before, at_, ((starts, ends), true) :: rest =>
    let run := rest.takeWhile (·.2)
    let last := (run.getLast?.map (·.1.2)).getD ends
    match rest.dropWhile (·.2) with
    | ((next, ends), removed) :: later =>
      (text.drop at_).take (starts - at_) ++
        cutRuns text fuel (i + run.length + 1) last next (((next, ends), removed) :: later)
    | [] =>
      let first := if i > 0 then before else starts
      (text.drop at_).take (first - at_) ++ text.drop last

/-- A text without the parameters whose decoded name is listed, and the names
found; nothing where an escape in it cannot be read. -/
def removeParameters (text : Bytes) (names : List Bytes) : Option (Bytes × List Bytes) :=
  if malformedEscape text then none
  else
    let pieces := split 38 text
    let decoded := pieces.map fun p => percentDecode (cut 61 p).1
    let matched := (decoded.flatMap fun d => names.filter (· = d)).foldl
      (fun out name => if name ∈ out then out else out ++ [name]) []
    if matched = [] then some (text, [])
    else some (cutRuns text (pieces.length + 1) 0 0 0
      ((parameters 0 pieces).zip (decoded.map fun d => decide (d ∈ names))), matched)

def contentTypes (m : Http1.Message) : List Bytes :=
  ((m.headers ++ m.trailers).filter (·.named "content-type")).map Header.value

def admittedForm (m : Http1.Message) : Bool :=
  match contentTypes m with
  | [value] => equalFold (trimBlanks (cut 59 value).1) (ascii "application/x-www-form-urlencoded")
  | _ => false

/-- `strings.Contains`. -/
def containsText (part : Bytes) : Bytes → Bool
  | [] => part.isEmpty
  | c :: rest => part.isPrefixOf (c :: rest) || containsText part rest

def namesFormMediaType (m : Http1.Message) : Bool :=
  (contentTypes m).any fun value =>
    containsText (ascii "application/x-www-form-urlencoded") (toLower value) ||
      containsText (ascii "multipart/form-data") (toLower value)

namespace SlotRun

variable (reads : Reads Shape)

def add (r : SlotRun Shape) (entry : PolicyExclusion) : SlotRun Shape :=
  if entry ∈ r.evidence then r else { r with evidence := r.evidence ++ [entry] }

def put (r : SlotRun Shape) (side : Config.Message) (m : Message Shape) : SlotRun Shape :=
  { r with exchange := r.exchange.put side m }

def removeBody (r : SlotRun Shape) (side : Config.Message) (m : Message Shape) (disposition : Disposition) :
    SlotRun Shape :=
  let m := { m.edit fun h => { h with body := [] } with shape := none, shapeRefused := "" }
  { r.put side m with bodies := Function.update r.bodies side (some .removed) }.add
    { message := side, field := Config.bodyField, disposition }

/-- A body whose other bytes are unchanged kept, with a removal for each selector
that matched, and its structure derived again from what is kept. -/
def spliced (r : SlotRun Shape) (side : Config.Message) (m : Message Shape) (body : Bytes) (matched : List Bytes)
    (before : Bytes) : SlotRun Shape :=
  let r := matched.foldl (fun r selector => r.add { message := side, field := before ++ selector }) r
  if body = m.message.body then r
  else
    let m := m.edit fun h => { h with body }
    r.put side (match reads.json body with
      | .ok shape => { m with shape := some shape, shapeRefused := "" }
      | .error _ => { m with shape := none, shapeRefused := "body structure unavailable" })

def hitOf (pointers : List Bytes) (hits : List Bool) : List Bytes := ((pointers.zip hits).filter (·.2)).map (·.1)

def editBody (r : SlotRun Shape) (side : Config.Message) (m : Message Shape) (pointers : List Bytes)
    (replacement : Option Bytes) : SlotRun Shape :=
  match Json.editJSON reads.fold m.message.body pointers replacement with
  | none => r.removeBody side m .removedUndecidable
  | some (body, hits) =>
    r.spliced reads side m body (if replacement.isSome then [] else hitOf pointers hits) Config.jsonFieldPrefix

def editForm (r : SlotRun Shape) (side : Config.Message) (m : Message Shape) (names : List Bytes) : SlotRun Shape :=
  match removeParameters m.message.body names with
  | none => r.removeBody side m .removedUndecidable
  | some (body, matched) => r.spliced reads side m body matched Config.formFieldPrefix

def maskBody (side : Config.Message) : List Config.NamedValue → SlotRun Shape → SlotRun Shape
  | [], r => r
  | mask :: rest, r =>
    match r.exchange.side side with
    | none => r
    | some m =>
      match Json.editJSON reads.fold m.message.body [mask.name] (some (Json.jsonString mask.value)) with
      | none => r.removeBody side m .removedUndecidable
      | some (body, _) => maskBody side rest (r.spliced reads side m body [] Config.jsonFieldPrefix)

def requestJSON (r : SlotRun Shape) (m : Message Shape) (a : Config.Arguments) : SlotRun Shape :=
  if a.pointers = [] then r.maskBody reads .request a.masks
  else match Json.editJSON reads.fold m.message.body a.pointers none with
    | none => r.removeBody .request m .removedUndecidable
    | some (body, hits) =>
      (r.spliced reads .request m body (hitOf a.pointers hits) Config.jsonFieldPrefix).maskBody reads .request a.masks

/-- The grammar is chosen from the bytes and from the message as parsed; where the
two could disagree the body is removed whole. -/
def requestBody (r : SlotRun Shape) (m : Message Shape) (parsed : Http1.Message) (a : Config.Arguments) :
    SlotRun Shape :=
  let valid := (Json.editJSON reads.fold m.message.body [] none).isSome
  if valid ∧ namesFormMediaType parsed = false then r.requestJSON reads m a
  else if valid = false ∧ admittedForm parsed then r.editForm reads .request m a.names
  else r.removeBody .request m .removedUndecidable

def transformFields (implementation : Config.Implementation) (a : Config.Arguments) (fields : List Header) :
    List Header :=
  fields.filterMap fun h =>
    if toLower h.name ∈ a.headers then
      match implementation with
      | .removeHeaders => none
      | .replaceHeaderValues => some { h with value := a.value }
      | .truncateHeaderValues => some { h with value := h.value.take a.length }
      | _ => some h
    else some h

def recordFields (implementation : Config.Implementation) (a : Config.Arguments) (side : Config.Message)
    (inSection : Section) (fields : List Header) (r : SlotRun Shape) : SlotRun Shape :=
  if implementation = .removeHeaders then
    (fields.filter fun h => toLower h.name ∈ a.headers).foldl (fun r h =>
      r.add { message := side, inSection := some inSection, field := Config.headerFieldPrefix ++ toLower h.name }) r
  else r

def editFields (r : SlotRun Shape) (side : Config.Message) (m : Message Shape)
    (implementation : Config.Implementation) (a : Config.Arguments) : SlotRun Shape :=
  ((r.recordFields implementation a side .headers m.message.headers).recordFields implementation a side .trailers
    m.message.trailers).put side (m.edit fun h =>
      { h with
        headers := transformFields implementation a h.headers
        trailers := transformFields implementation a h.trailers })

def editTarget (r : SlotRun Shape) (m : Message Shape) (target : Bytes) : SlotRun Shape :=
  r.put .request (m.edit fun h => { h with target })

/-- One operation on one side of the exchange. -/
def applySide (r : SlotRun Shape) (implementation : Config.Implementation) (a : Config.Arguments)
    (side : Config.Message) : SlotRun Shape :=
  match r.exchange.side side with
  | none => r
  | some m =>
    match implementation with
    | .removeHeaders | .replaceHeaderValues | .truncateHeaderValues => r.editFields side m implementation a
    | .removeBody =>
      if side ∈ a.messages ∧ (m.message.body ≠ [] ∨ r.bodies side = some .valuesRemoved) then
        r.removeBody side m .removed
      else r
    | .reduceBodyToStructure =>
      if side ∈ a.messages ∧ m.message.body ≠ [] then
        if m.shape.isNone then r.removeBody side m .removed
        else
          ({ r.put side (m.edit fun h => { h with body := [] }) with
            bodies := Function.update r.bodies side (some .valuesRemoved) }).add
            { message := side, field := Config.bodyValuesField, disposition := .valuesRemoved }
      else r
    | .removeJSONFields =>
      if side ∈ a.messages ∧ m.message.body ≠ [] then r.editBody reads side m a.pointers none else r
    | .replaceJSONValues =>
      if side ∈ a.messages ∧ m.message.body ≠ [] then
        r.editBody reads side m a.pointers (some (Json.jsonString a.value))
      else r
    | .removeFormFields =>
      if side = .request ∧ m.message.body ≠ [] then
        if (r.source.request.map (admittedForm ·.message)).getD false then r.editForm reads side m a.names
        else r.removeBody side m .removedUndecidable
      else r
    | .requestBodyFields =>
      if side = .request ∧ m.message.body ≠ [] then
        match r.source.request with
        | none => r
        | some parsed => r.requestBody reads m parsed.message a
      else r
    | .removeQuery =>
      if side = .request ∧ (cut 63 m.message.target).2.2 then
        (r.editTarget m (cut 63 m.message.target).1).add { message := side, field := Config.targetQueryField }
      else r
    | .removeQueryParameters =>
      if side = .request ∧ (cut 63 m.message.target).2.2 then
        let (path, query, _) := cut 63 m.message.target
        match removeParameters query a.names with
        | none =>
          (r.editTarget m path).add
            { message := side, field := Config.targetQueryField, disposition := .removedUndecidable }
        | some (kept, matched) =>
          matched.foldl (fun r name => r.add { message := side, field := Config.queryFieldPrefix ++ name })
            (r.editTarget m (path ++ [63] ++ kept))
      else r

end SlotRun

structure EffectiveSlot where
  implementation : Option Config.Implementation
  arguments : Option Config.Arguments

def SlotRun.apply (reads : Reads Shape) (r : SlotRun Shape) (slot : EffectiveSlot) : Option (SlotRun Shape) :=
  match slot.arguments, slot.implementation with
  | some a, some implementation =>
    some ((r.applySide reads implementation a .request).applySide reads implementation a .response)
  | _, _ => none

end EdgeObserver.Processing
