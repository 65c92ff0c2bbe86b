import EdgeObserver.Http1.Parse

/-!
# Exchanges

A request and the response to it, each with the shape of its body. How a shape
is read off bytes is the JSON layer's; here it is whatever function of the bytes
that layer is, within its own bounds.
-/

set_option autoImplicit false

namespace EdgeObserver.Reconstruct

open Http1 EdgeObserver.Stream Text

inductive Role where
  | unknown
  | server
  | client
  deriving DecidableEq

structure Limits (Shape : Type) where
  http : Http1.Limits := {}
  json : Bytes → Except String Shape

structure Message (Shape : Type) where
  message : Http1.Message
  shape : Option Shape := none
  shapeRefused : String := ""
  deriving DecidableEq

structure Exchange (Shape : Type) where
  request : Option (Message Shape) := none
  response : Option (Message Shape) := none
  complete : Bool := false
  charge : Charge := 0
  deriving DecidableEq

variable {Shape : Type}

def read (json : Bytes → Except String Shape) (m : Http1.Message) : Message Shape :=
  if m.bodyLength = 0 ∧ m.body = [] then { message := m }
  else if m.body = [] then { message := m, shapeRefused := "none of the body's bytes were captured" }
  else if m.bodyHoled > 0 then
    { message := m, shapeRefused := toString m.bodyHoled ++ " of the body's bytes were never captured" }
  else if m.bodyElided > 0 then
    { message := m
      shapeRefused := "the body is longer than the bound by " ++ toString m.bodyElided ++ " bytes" }
  else match json m.body with
    | .error refused => { message := m, shapeRefused := refused }
    | .ok shape => { message := m, shape := some shape }

def Exchange.isComplete (request response : Option (Message Shape)) : Bool :=
  request.any (·.message.complete) && response.any (·.message.complete)

/-! ## What a direction begins with -/

inductive Opener where
  | opensNothing
  | opensRequest
  | opensResponse
  | opensSomethingElse
  deriving DecidableEq

def roleFrom (outbound inbound : Opener) : Role :=
  if (outbound = .opensResponse ∧ inbound ≠ .opensResponse) ∨
      (outbound = .opensNothing ∧ inbound = .opensRequest) then .server
  else if (outbound = .opensRequest ∧ inbound ≠ .opensRequest) ∨
      (outbound = .opensNothing ∧ inbound = .opensResponse) then .client
  else .unknown

def openingWindow : Nat := 32

/-- What a direction's first bytes start: a status line, by its version, a request
line, by a method and a space, or neither. -/
def opening (s : WholeStream) : Opener :=
  if s.endsAt = s.start then .opensNothing
  else
    let head := (newCursor s).peek openingWindow
    if head.take 5 = ascii "HTTP/" then .opensResponse
    else
      let method := head.takeWhile (· ≠ space)
      if method ≠ head ∧ method ≠ [] ∧ method.all isTokenByte then .opensRequest else .opensSomethingElse

end EdgeObserver.Reconstruct
