import EdgeObserver.Text

/-!
# HTTP/1 messages

What a message is read as, the bounds it is read within, and the rules that
read its lines and decide how its body ends. Text is refused wherever two
endpoints could read it differently.
-/

set_option autoImplicit false

namespace EdgeObserver.Http1

open Text

inductive Kind where
  | unknown
  | request
  | response
  deriving DecidableEq

inductive Framing where
  | none
  | contentLength
  | chunked
  | untilClose
  | ambiguous
  deriving DecidableEq

inductive Defect where
  | none
  | streamEnded
  | hole
  | malformed
  | ambiguousFraming
  | limit
  deriving DecidableEq

structure Header where
  name : Bytes
  value : Bytes
  deriving DecidableEq

/-- One message as far as it could be read. `endsAt` is one past the last offset
it accounts for. -/
structure Message where
  kind : Kind := .unknown
  method : Bytes := []
  target : Bytes := []
  protocol : Bytes := []
  status : Nat := 0
  reason : Bytes := []
  headers : List Header := []
  framing : Framing := .none
  body : Bytes := []
  bodyLength : Nat := 0
  bodyHoled : Nat := 0
  bodyElided : Nat := 0
  trailers : List Header := []
  complete : Bool := false
  framed : Bool := false
  defect : Defect := .none
  detail : String := ""
  offset : Nat := 0
  endsAt : Nat := 0
  deriving DecidableEq

structure Limits where
  maxStartLine : Int := 0
  maxHeaderLine : Int := 0
  maxHeaders : Int := 0
  maxHeaderBytes : Int := 0
  maxBodyBytes : Int := 0
  maxChunks : Int := 0
  maxTrailers : Int := 0
  deriving DecidableEq

def defaultLimits : Limits where
  maxStartLine := 8192
  maxHeaderLine := 8192
  maxHeaders := 128
  maxHeaderBytes := 65536
  maxBodyBytes := 8388608
  maxChunks := 16384
  maxTrailers := 32

def Limits.orDefaults (limits : Limits) : Limits :=
  let bound := fun (given default : Int) => if given ≤ 0 then default else given
  { maxStartLine := bound limits.maxStartLine defaultLimits.maxStartLine
    maxHeaderLine := bound limits.maxHeaderLine defaultLimits.maxHeaderLine
    maxHeaders := bound limits.maxHeaders defaultLimits.maxHeaders
    maxHeaderBytes := bound limits.maxHeaderBytes defaultLimits.maxHeaderBytes
    maxBodyBytes := bound limits.maxBodyBytes defaultLimits.maxBodyBytes
    maxChunks := bound limits.maxChunks defaultLimits.maxChunks
    maxTrailers := bound limits.maxTrailers defaultLimits.maxTrailers }

/-! ## Lines -/

def isToken (text : Bytes) : Bool := text ≠ [] && text.all isTokenByte

def isVisibleText (text : Bytes) : Bool := text.all fun b => !((b < 32 && b != tab) || b == 127)

def isDigits (text : Bytes) : Bool := text ≠ [] && text.all isDigit

def isHex (text : Bytes) : Bool := text.all fun b => (digitValue b).isSome

def isVersion : Bytes → Bool
  | [h, t, u, p, slash, major, dot, minor] =>
    [h, t, u, p, slash] == ascii "HTTP/" && isDigit major && dot == 46 && isDigit minor
  | _ => false

def Message.readRequestLine (m : Message) (line : Bytes) : Option Message :=
  match split space line with
  | [method, target, protocol] =>
    if isToken method && target ≠ [] && isVisibleText target && isVersion protocol then
      some { m with method, target, protocol }
    else none
  | _ => none

def Message.readStatusLine (m : Message) (line : Bytes) : Option Message :=
  if line.length < 12 || !isVersion (line.take 8) || (line)[8]? != some space ||
      !isDigits ((line.drop 9).take 3) then none
  else
    let reason? := match (line)[12]? with
      | none => some []
      | some b => if b == space then some (line.drop 13) else none
    match reason?, parseUint 10 63 ((line.drop 9).take 3) with
    | some reason, some status =>
      if isVisibleText reason then some { m with protocol := line.take 8, status, reason } else none
    | _, _ => none

def readHeader (line : Bytes) : Option Header :=
  match cut 58 line with
  | (name, rest, true) =>
    if isToken name && isVisibleText (trimBlanks rest) then
      some { name, value := trimBlanks rest }
    else none
  | _ => none

def chunkSize (line : Bytes) : Option Nat :=
  let size := (cut 59 line).1
  if size = [] || size.length > 16 || !isHex size then none else parseUint 16 63 size

/-! ## Framing -/

def splitList (value : Bytes) : List Bytes := (split 44 value).map trimBlanks

def statusForbidsBody (status : Nat) : Bool := (100 ≤ status && status < 200) || status == 204 || status == 304

def Header.named (header : Header) (name : String) : Bool := equalFold header.name (ascii name)

def Message.lengths (m : Message) : List Bytes :=
  (m.headers.filter (·.named "content-length")).flatMap fun h => splitList h.value

def Message.encodings (m : Message) : List Header :=
  m.headers.filter fun h => !h.named "content-length" && h.named "transfer-encoding"

def Message.codings (m : Message) : List Bytes := m.encodings.flatMap fun h => (splitList h.value).map toLower

/-- How the end of this message's body is known, from its fields alone: the
framing, the declared length, and what is wrong. Something wrong without a
framing is a refusal. -/
def Message.frame (m : Message) (kind : Kind) (noBody : Bool) : Framing × Nat × String :=
  let declaresEncoding := m.encodings ≠ []
  if declaresEncoding ∧ m.lengths ≠ [] then
    -- One endpoint frames by the length, the other by the chunks.
    (.ambiguous, 0, "the message declares both a length and a transfer encoding")
  else if kind = .response ∧ (noBody || statusForbidsBody m.status) then (.none, 0, "")
  else if declaresEncoding then
    match m.codings.getLast? with
    | none => (.none, 0, "an empty transfer encoding")
    | some last =>
      if last = ascii "chunked" then
        if m.codings.dropLast.contains (ascii "chunked") then
          (.none, 0, "chunked applied more than once")
        else (.chunked, 0, "")
      else if m.codings.contains (ascii "chunked") then
        (.none, 0, "a transfer coding applied after chunked")
      else if kind = .request then
        (.none, 0, "a request whose transfer encoding is not chunked")
      else (.untilClose, 0, "")
  else match m.lengths with
    | [] => if kind = .response then (.untilClose, 0, "") else (.none, 0, "")
    | first :: others =>
      if others.any (· ≠ first) then (.none, 0, "two content lengths that disagree")
      else match parseUint 10 63 first with
        | some length =>
          if isDigits first then (.contentLength, length, "")
          else (.none, 0, "a content length that is not a decimal number")
        | none => (.none, 0, "a content length that is not a decimal number")

end EdgeObserver.Http1
