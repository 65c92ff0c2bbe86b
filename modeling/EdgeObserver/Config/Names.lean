import EdgeObserver.Text

/-!
# What a rule may name

Header names, parameter names, JSON pointers and values as a configuration
writes them, and the checks on each.
-/

set_option autoImplicit false

namespace EdgeObserver.Config

open Text

/-- The messages of an exchange, `request` and `response` where written. -/
inductive Message where
  | request
  | response
  deriving DecidableEq

def Message.text : Message → Bytes
  | .request => ascii "request"
  | .response => ascii "response"

def maxHeaderNames : Nat := 32
def maxHeaderValueBytes : Nat := 4096
def maxFieldSelectors : Nat := 32
def maxPointerBytes : Nat := 1024
def maxPointerTokens : Nat := 32
def maxParameterNameBytes : Nat := 128
def maxJSONValueBytes : Nat := 4096

def maxRemovedHeaders : Nat := maxHeaderNames
def maxMaskedHeaders : Nat := maxHeaderNames
def maxTruncatedHeaders : Nat := maxHeaderNames
def maxRuleNames : Nat := maxFieldSelectors
def maxRulePointers : Nat := maxFieldSelectors

inductive Unfit where
  | headerName (name : Bytes)
  | parameterLength
  | parameterByte
  | pointerEmpty
  | pointerBegins
  | pointerLength
  | pointerEncoding
  | pointerEscape
  | pointerTokens
  deriving DecidableEq

def continues (low high b : UInt8) : Bool := decide (low ≤ b) && decide (b ≤ high)

/-- What the first byte of a character of several bytes asks of the second, and
how many bytes follow that one. -/
def leads (b : UInt8) : Option (UInt8 × UInt8 × Nat) :=
  if 0xC2 ≤ b ∧ b ≤ 0xDF then some (0x80, 0xBF, 0)
  else if b = 0xE0 then some (0xA0, 0xBF, 1)
  else if b = 0xED then some (0x80, 0x9F, 1)
  else if 0xE1 ≤ b ∧ b ≤ 0xEF then some (0x80, 0xBF, 1)
  else if b = 0xF0 then some (0x90, 0xBF, 2)
  else if 0xF1 ≤ b ∧ b ≤ 0xF3 then some (0x80, 0xBF, 2)
  else if b = 0xF4 then some (0x80, 0x8F, 2)
  else none

def validFrom (due : Option (UInt8 × UInt8 × Nat)) : Bytes → Bool
  | [] => due.isNone
  | b :: rest =>
    match due with
    | some (low, high, more) =>
      continues low high b && validFrom (if more = 0 then none else some (0x80, 0xBF, more - 1)) rest
    | none =>
      if b < 0x80 then validFrom none rest
      else
        match leads b with
        | none => false
        | some next => validFrom (some next) rest

/-- `utf8.Valid`. -/
def validUtf8 (text : Bytes) : Bool := validFrom none text

def decimalBefore : Nat → Nat → Bytes → Bytes
  | 0, _, text => text
  | fuel + 1, n, text =>
    if n < 10 then UInt8.ofNat (48 + n) :: text
    else decimalBefore fuel (n / 10) (UInt8.ofNat (48 + n % 10) :: text)

/-- `strconv.Itoa` of a count. -/
def decimal (n : Nat) : Bytes := decimalBefore (n + 1) n []

theorem decimalBefore_digits {fuel n : Nat} {text : Bytes} (digits : text.all isDigit = true) :
    (decimalBefore fuel n text).all isDigit = true := by
  have digit : ∀ d, d < 10 → isDigit (UInt8.ofNat (48 + d)) = true := by decide
  induction fuel generalizing n text with
  | zero => exact digits
  | succ fuel ih =>
    unfold decimalBefore
    split
    · rename_i small
      rw [List.all_cons, digit n small, digits]
      rfl
    · refine ih ?_
      rw [List.all_cons, digit (n % 10) (Nat.mod_lt _ (by decide)), digits]
      rfl

theorem decimalBefore_ne_nil {fuel n : Nat} {text : Bytes} (some_ : text ≠ []) :
    decimalBefore fuel n text ≠ [] := by
  induction fuel generalizing n text with
  | zero => exact some_
  | succ fuel ih =>
    unfold decimalBefore
    split
    · exact List.cons_ne_nil _ _
    · exact ih (List.cons_ne_nil _ _)

def isNumeral (text : Bytes) : Bool := text ≠ [] && text.all isDigit

theorem decimal_isNumeral (n : Nat) : isNumeral (decimal n) = true := by
  have digits : (decimal n).all isDigit = true := decimalBefore_digits rfl
  have some_ : decimal n ≠ [] := by
    unfold decimal decimalBefore
    split
    · exact List.cons_ne_nil _ _
    · exact decimalBefore_ne_nil (List.cons_ne_nil _ _)
  simp [isNumeral, digits, some_]

def headerName (name : Bytes) : Bool := name ≠ [] && name.all isTokenByte

def printable (value : Bytes) : Bool := value.all (fun b => decide (32 ≤ b) && decide (b ≤ 126))

def headerRule (name : Bytes) : Except Unfit Unit :=
  if headerName name then .ok () else .error (.headerName name)

def validParameterName (name : Bytes) : Except Unfit Unit :=
  if name = [] ∨ name.length > maxParameterNameBytes then .error .parameterLength
  else if name.all (fun b => decide (33 ≤ b) && decide (b ≤ 126)) then .ok ()
  else .error .parameterByte

def escaped : Bytes → Bool
  | [] => true
  | b :: rest =>
    (b != 126 || (match rest with
      | next :: _ => next == 48 || next == 49
      | [] => false)) && escaped rest

def validPointer (pointer : Bytes) : Except Unfit Unit :=
  match pointer with
  | [] => .error .pointerEmpty
  | first :: _ =>
    if first ≠ 47 then .error .pointerBegins
    else if pointer.length > maxPointerBytes then .error .pointerLength
    else if validUtf8 pointer = false then .error .pointerEncoding
    else if escaped pointer = false then .error .pointerEscape
    else if pointer.count 47 > maxPointerTokens then .error .pointerTokens
    else .ok ()

/-- `strings.ReplaceAll` of a text of two bytes by one. -/
def replaceTwo (first second with_ : UInt8) : Bytes → Bytes
  | [] => []
  | [b] => [b]
  | b :: c :: rest =>
    if b = first ∧ c = second then with_ :: replaceTwo first second with_ rest
    else b :: replaceTwo first second with_ (c :: rest)

/-- The reference tokens of a pointer, with `~1` read as a slash and `~0` as a
tilde. -/
def pointerTokens (pointer : Bytes) : List Bytes :=
  ((split 47 pointer).drop 1).map (fun part => replaceTwo 126 48 126 (replaceTwo 126 49 47 part))

def wildcard : Bytes := ascii "*"

/-!
## The rules of a configuration

What a configuration asks to be removed, masked and truncated, as read, and what
a refusal says about it.
-/

structure NamedValue where
  name : Bytes
  value : Bytes

structure NamedLength where
  name : Bytes
  length : Nat

structure Remove where
  headers : List Bytes := []
  query : List Bytes := []
  queryString : Bool := false
  form : List Bytes := []
  json : Message → List Bytes := fun _ => []
  bodies : List Message := []
  bodyValues : List Message := []

structure Mask where
  headers : List NamedValue := []
  json : Message → List NamedValue := fun _ => []

structure Rules where
  remove : Remove := {}
  mask : Mask := {}
  truncate : List NamedLength := []

structure Document where
  name : Bytes
  rules : Rules

structure Origin where
  document : Bytes
  key : Bytes
  deriving DecidableEq

inductive Implementation where
  | removeHeaders
  | replaceHeaderValues
  | truncateHeaderValues
  | removeBody
  | reduceBodyToStructure
  | removeQuery
  | removeJSONFields
  | replaceJSONValues
  | removeFormFields
  | removeQueryParameters
  | requestBodyFields
  deriving DecidableEq

inductive Argument where
  | headers
  | value
  | length
  | messages
  | pointers
  | names
  | masks
  deriving DecidableEq

inductive ArgumentFault where
  | undefined (argument : Argument)
  | required (argument : Argument)
  | headerCount
  | headerName
  | headerTwice
  | noMessages
  | otherMessage
  | messageTwice
  | pointerCount (least : Nat)
  | pointer (i : Nat) (why : Unfit)
  | pointerTwice
  | nameCount
  | name (i : Nat) (why : Unfit)
  | nameTwice
  | maskCount
  | maskPointer (i : Nat) (why : Unfit)
  | maskTwice
  | maskValueMissing (i : Nat)
  | maskValueLength (i : Nat)
  | maskValueByte (i : Nat)
  | noRule
  | valueMissing
  | valueLength (most : Nat)
  | valueByte
  | lengthMissing
  | lengthRange
  deriving DecidableEq

inductive Reason where
  | unknownKey
  | wrongType
  | missingKey
  | invalidValue
  | duplicateName
  | limitExceeded
  | ruleConflict
  | internalDefect

inductive Detail where
  | unfit (why : Unfit)
  | found (kind wanted : String)
  | maskedLength (most : Nat)
  | maskedByte
  | neitherMessage (value : Bytes)
  | writtenTwice (value : Bytes)
  | otherKey (key : Bytes) (allowed : List Bytes)
  | otherCase (key exactly : Bytes)
  | wholeNumber (number : Bytes) (least most : Nat)
  | moreThan (most : Nat) (what : Bytes)
  | masksOtherwise (name value : Bytes) (first : Origin) (firstValue : Bytes)
  | truncatesOtherwise (name : Bytes) (length : Nat) (first : Origin) (firstLength : Nat)
  | masksTruncated (name : Bytes) (mask : Origin)
  | masksMayMatch (name value : Bytes) (first : Origin) (firstName firstValue : Bytes)
  | argumentsRefused (implementation : Implementation) (documents : List Bytes) (why : ArgumentFault)
  | slotsPast (slots most : Nat)
  | noField
  | noExclusion (field : Bytes) (message : Message)
  | nothingRemoves (pipeline : Bytes) (field : Bytes) (message : Message)

structure Finding where
  document : Bytes
  subject : Bytes
  reason : Reason
  detail : Detail

end EdgeObserver.Config
