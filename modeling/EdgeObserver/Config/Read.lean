import EdgeObserver.Config.Names

/-!
# Reading rules

The rules of a configuration read from its parsed document. Reading is strict:
what is not as it should be is refused, by its path, and is no part of what is
read.
-/

set_option autoImplicit false

namespace EdgeObserver.Config

inductive Node where
  | object (members : List (Bytes × Node))
  | array (items : List Node)
  | string (text : Bytes)
  | number (text : Bytes)
  | boolean (value : Bool)
  | null

def Node.kind : Node → String
  | .object _ => "an object"
  | .array _ => "a list"
  | .string _ => "a string"
  | .number _ => "a number"
  | .boolean _ => "true or false"
  | .null => "null"

def Node.member (n : Node) (key : Bytes) : Option Node :=
  match n with
  | .object members => (members.find? (fun member => member.1 = key)).map Prod.snd
  | _ => none

/-- What reading yields, with what it refuses. -/
abbrev Reading (α : Type) := α × List Finding

def refuseAt (path : Bytes) (reason : Reason) (detail : Detail) : Finding :=
  { document := ascii "configuration", subject := path, reason, detail }

def wrongType (n : Node) (path : Bytes) (wanted : String) : Finding := refuseAt path .wrongType (.found n.kind wanted)

def join (path key : Bytes) : Bytes := if path = [] then key else path ++ ascii "." ++ key

def readObject (n : Node) (path : Bytes) : Reading (List (Bytes × Node)) :=
  match n with
  | .object members => (members, [])
  | _ => ([], [wrongType n path "an object"])

def readArray (n : Node) (path : Bytes) : Reading (List Node) :=
  match n with
  | .array items => (items, [])
  | _ => ([], [wrongType n path "a list"])

def readText (n : Node) (path : Bytes) : Reading (Option Bytes) :=
  match n with
  | .string text => (some text, [])
  | _ => (none, [wrongType n path "a string"])

def readBoolean (n : Node) (path : Bytes) : Reading Bool :=
  match n with
  | .boolean value => (value, [])
  | _ => (false, [wrongType n path "true or false"])

/-- `strconv.ParseInt` of a number that is not negative: a minus sign before a
zero reads as zero, and anything else after one is below every bound. -/
def wholeNumber (text : Bytes) : Option Nat :=
  match text with
  | 45 :: rest => (Text.parseUint 10 63 rest).bind (fun value => if value = 0 then some 0 else none)
  | _ => Text.parseUint 10 63 text

def readInteger (n : Node) (path : Bytes) (least most : Nat) : Reading (Option Nat) :=
  match n with
  | .number text =>
    match wholeNumber text with
    | some value =>
      if least ≤ value ∧ value ≤ most then (some value, [])
      else (none, [refuseAt path .invalidValue (.wholeNumber text least most)])
    | none => (none, [refuseAt path .invalidValue (.wholeNumber text least most)])
  | _ => (none, [wrongType n path "a whole number"])

/-- Refuses every key of an object that is not one of those allowed, naming the
last of them that it is in another case. -/
def readKeys (members : List (Bytes × Node)) (path : Bytes) (allowed : List Bytes) : List Finding :=
  members.filterMap (fun member =>
    if member.1 ∈ allowed then none
    else
      let detail := match allowed.reverse.find? (fun one => Text.equalFold one member.1) with
        | some one => Detail.otherCase member.1 one
        | none => Detail.otherKey member.1 allowed
      some (refuseAt (join path member.1) .unknownKey detail))

def readNames (path : Bytes) (valid : Bytes → Except Unfit Unit) : Nat → List Node → Reading (List Bytes)
  | _, [] => ([], [])
  | i, item :: rest =>
    let at_ := path ++ ascii "[" ++ decimal i ++ ascii "]"
    let (text, findings) := readText item at_
    let (others, more) := readNames path valid (i + 1) rest
    match text with
    | none => (others, findings ++ more)
    | some value =>
      match valid value with
      | .ok () => (value :: others, findings ++ more)
      | .error why => (others, findings ++ refuseAt at_ .invalidValue (.unfit why) :: more)

/-- `names`: a list of names or pointers, where the key is written. -/
def names (n : Option Node) (path : Bytes) (valid : Bytes → Except Unfit Unit) : Reading (List Bytes) :=
  match n with
  | none => ([], [])
  | some n =>
    let (items, findings) := readArray n path
    let (list, more) := readNames path valid 0 items
    (list, findings ++ more)

def readValues (path : Bytes) (valid : Bytes → Except Unfit Unit) (maxBytes : Nat) :
    List (Bytes × Node) → Reading (List NamedValue)
  | [] => ([], [])
  | (key, n) :: rest =>
    let at_ := path ++ ascii "." ++ key
    let (others, more) := readValues path valid maxBytes rest
    match valid key with
    | .error why => (others, refuseAt at_ .invalidValue (.unfit why) :: more)
    | .ok () =>
      let (text, findings) := readText n at_
      match text with
      | none => (others, findings ++ more)
      | some value =>
        if value.length > maxBytes then
          (others, refuseAt at_ .invalidValue (.maskedLength maxBytes) :: more)
        else if printable value = false then
          (others, refuseAt at_ .invalidValue .maskedByte :: more)
        else ({ name := key, value } :: others, more)

def values (n : Option Node) (path : Bytes) (valid : Bytes → Except Unfit Unit)
    (maxBytes : Nat) : Reading (List NamedValue) :=
  match n with
  | none => ([], [])
  | some n =>
    let (members, findings) := readObject n path
    let (list, more) := readValues path valid maxBytes members
    (list, findings ++ more)

def messageOf (text : Bytes) : Option Message :=
  if text = ascii "request" then some .request
  else if text = ascii "response" then some .response
  else none

/-- Messages from the i'th on, each at most once; `list` is those before it. -/
def readMessages (path : Bytes) : Nat → List Message → List Node → Reading (List Message)
  | _, list, [] => (list, [])
  | i, list, item :: rest =>
    let at_ := path ++ ascii "[" ++ decimal i ++ ascii "]"
    let (text, findings) := readText item at_
    match text with
    | none =>
      let (all, more) := readMessages path (i + 1) list rest
      (all, findings ++ more)
    | some value =>
      match messageOf value with
      | none =>
        let (all, more) := readMessages path (i + 1) list rest
        (all, refuseAt at_ .invalidValue (.neitherMessage value) :: more)
      | some message =>
        if message ∈ list then
          let (all, more) := readMessages path (i + 1) list rest
          (all, refuseAt at_ .duplicateName (.writtenTwice value) :: more)
        else readMessages path (i + 1) (list ++ [message]) rest

def messages (n : Option Node) (path : Bytes) : Reading (List Message) :=
  match n with
  | none => ([], [])
  | some n =>
    let (items, findings) := readArray n path
    let (list, more) := readMessages path 0 [] items
    (list, findings ++ more)

def readLengths (path : Bytes) : List (Bytes × Node) → Reading (List NamedLength)
  | [] => ([], [])
  | (key, n) :: rest =>
    let at_ := path ++ ascii "." ++ key
    let (others, more) := readLengths path rest
    match headerRule key with
    | .error why => (others, refuseAt at_ .invalidValue (.unfit why) :: more)
    | .ok () =>
      let (length, findings) := readInteger n at_ 0 maxHeaderValueBytes
      match length with
      | none => (others, findings ++ more)
      | some length => ({ name := key, length } :: others, findings ++ more)

def section_ (root : Node) (key path : Bytes) (allowed : List Bytes) : Reading Node :=
  match root.member key with
  | none => (.null, [])
  | some n =>
    let (members, findings) := readObject n path
    (n, findings ++ readKeys members path allowed)

def readRemove (root : Node) : Reading Remove :=
  let base := ascii "remove"
  let (remove, found) := section_ root base base
    [ascii "headers", ascii "query", ascii "query_string", ascii "form", ascii "json",
      ascii "bodies", ascii "body_values"]
  let (headers, f₁) := names (remove.member (ascii "headers")) (base ++ ascii ".headers") headerRule
  let (query, f₂) := names (remove.member (ascii "query")) (base ++ ascii ".query") validParameterName
  let (queryString, f₃) := match remove.member (ascii "query_string") with
    | none => (false, [])
    | some n => readBoolean n (base ++ ascii ".query_string")
  let (form, f₄) := names (remove.member (ascii "form")) (base ++ ascii ".form") validParameterName
  let (json, f₅) := section_ remove (ascii "json") (base ++ ascii ".json") [Message.request.text, Message.response.text]
  let (request, f₆) := names (json.member Message.request.text) (base ++ ascii ".json.request") validPointer
  let (response, f₇) := names (json.member Message.response.text) (base ++ ascii ".json.response") validPointer
  let (bodies, f₈) := messages (remove.member (ascii "bodies")) (base ++ ascii ".bodies")
  let (bodyValues, f₉) := messages (remove.member (ascii "body_values")) (base ++ ascii ".body_values")
  ({ headers, query, queryString, form, bodies, bodyValues,
     json := fun message => match message with
      | .request => request
      | .response => response },
    found ++ f₁ ++ f₂ ++ f₃ ++ f₄ ++ f₅ ++ f₆ ++ f₇ ++ f₈ ++ f₉)

def readMask (root : Node) : Reading Mask :=
  let base := ascii "mask"
  let (mask, found) := section_ root base base [ascii "headers", ascii "json"]
  let (headers, f₁) := values (mask.member (ascii "headers")) (base ++ ascii ".headers") headerRule maxHeaderValueBytes
  let (json, f₂) := section_ mask (ascii "json") (base ++ ascii ".json") [Message.request.text, Message.response.text]
  let (request, f₃) := values (json.member Message.request.text) (base ++ ascii ".json.request")
    validPointer maxJSONValueBytes
  let (response, f₄) := values (json.member Message.response.text) (base ++ ascii ".json.response")
    validPointer maxJSONValueBytes
  ({ headers,
     json := fun message => match message with
      | .request => request
      | .response => response },
    found ++ f₁ ++ f₂ ++ f₃ ++ f₄)

def readTruncate (root : Node) : Reading (List NamedLength) :=
  let base := ascii "truncate"
  let (truncate, found) := section_ root base base [ascii "headers"]
  match truncate.member (ascii "headers") with
  | none => ([], found)
  | some n =>
    let (members, f₁) := readObject n (base ++ ascii ".headers")
    let (lengths, f₂) := readLengths (base ++ ascii ".headers") members
    (lengths, found ++ f₁ ++ f₂)

/-- `rules`: remove, mask and truncate. -/
def readRules (root : Node) : Reading Rules :=
  let (remove, f₁) := readRemove root
  let (mask, f₂) := readMask root
  let (truncate, f₃) := readTruncate root
  ({ remove, mask, truncate }, f₁ ++ f₂ ++ f₃)

structure Rules.Valid (rules : Rules) : Prop where
  headers : ∀ name ∈ rules.remove.headers, headerName name = true
  query : ∀ name ∈ rules.remove.query, validParameterName name = .ok ()
  form : ∀ name ∈ rules.remove.form, validParameterName name = .ok ()
  json : ∀ message, ∀ pointer ∈ rules.remove.json message, validPointer pointer = .ok ()
  maskHeaders : ∀ one ∈ rules.mask.headers, headerName one.name = true ∧
    one.value.length ≤ maxHeaderValueBytes ∧ printable one.value = true
  maskJSON : ∀ message, ∀ one ∈ rules.mask.json message, validPointer one.name = .ok () ∧
    one.value.length ≤ maxJSONValueBytes ∧ printable one.value = true
  truncate : ∀ one ∈ rules.truncate, headerName one.name = true ∧ one.length ≤ maxHeaderValueBytes

section Valid

variable {path : Bytes} {valid : Bytes → Except Unfit Unit}

theorem readNames_valid (i : Nat) (items : List Node) :
    ∀ name ∈ (readNames path valid i items).1, valid name = .ok () := by
  induction items generalizing i with
  | nil => exact fun name member => absurd member List.not_mem_nil
  | cons item rest ih =>
    intro name member
    simp only [readNames] at member
    split at member
    · exact ih _ name member
    split at member
    · rename_i passes
      rcases List.mem_cons.mp member with rfl | member
      · exact passes
      · exact ih _ name member
    · exact ih _ name member

theorem names_valid (n : Option Node) : ∀ name ∈ (names n path valid).1, valid name = .ok () := by
  cases n with
  | none => exact fun name member => absurd member List.not_mem_nil
  | some n => exact readNames_valid 0 _

theorem readValues_valid {maxBytes : Nat} (members : List (Bytes × Node)) :
    ∀ one ∈ (readValues path valid maxBytes members).1, valid one.name = .ok () ∧
      one.value.length ≤ maxBytes ∧ printable one.value = true := by
  induction members with
  | nil => exact fun one member => absurd member List.not_mem_nil
  | cons first rest ih =>
    obtain ⟨key, n⟩ := first
    intro one member
    simp only [readValues] at member
    split at member
    · exact ih one member
    rename_i passes
    split at member
    · exact ih one member
    split at member
    · exact ih one member
    rename_i short
    split at member
    · exact ih one member
    rename_i prints
    rcases List.mem_cons.mp member with rfl | member
    · exact ⟨passes, Nat.not_lt.mp short, by simpa using prints⟩
    · exact ih one member

theorem values_valid {maxBytes : Nat} (n : Option Node) :
    ∀ one ∈ (values n path valid maxBytes).1, valid one.name = .ok () ∧
      one.value.length ≤ maxBytes ∧ printable one.value = true := by
  cases n with
  | none => exact fun one member => absurd member List.not_mem_nil
  | some n => exact readValues_valid _

theorem headerRule_ok {name : Bytes} (passes : headerRule name = .ok ()) :
    headerName name = true := by
  unfold headerRule at passes
  split at passes
  · assumption
  · cases passes

theorem readInteger_some {n : Node} {least most value : Nat}
    (read : (readInteger n path least most).1 = some value) : least ≤ value ∧ value ≤ most := by
  unfold readInteger at read
  split at read
  · split at read
    · split at read
      · cases read
        assumption
      · cases read
    · cases read
  · cases read

theorem readLengths_valid (members : List (Bytes × Node)) :
    ∀ one ∈ (readLengths path members).1, headerName one.name = true ∧ one.length ≤ maxHeaderValueBytes := by
  induction members with
  | nil => exact fun one member => absurd member List.not_mem_nil
  | cons first rest ih =>
    obtain ⟨key, n⟩ := first
    intro one member
    simp only [readLengths] at member
    split at member
    · exact ih one member
    rename_i passes
    split at member
    · exact ih one member
    rename_i length read
    rcases List.mem_cons.mp member with rfl | member
    · exact ⟨headerRule_ok passes, (readInteger_some read).2⟩
    · exact ih one member

theorem readRules_valid (root : Node) : (readRules root).1.Valid where
  headers name member := headerRule_ok (names_valid _ name member)
  query := names_valid _
  form := names_valid _
  json message := by
    cases message
    · exact names_valid _
    · exact names_valid _
  maskHeaders one member := by
    obtain ⟨passes, rest⟩ := values_valid _ one member
    exact ⟨headerRule_ok passes, rest⟩
  maskJSON message := by
    cases message
    · exact values_valid _
    · exact values_valid _
  truncate := by
    simp only [readRules, readTruncate]
    split
    · exact fun one member => absurd member List.not_mem_nil
    · exact readLengths_valid _

end Valid

end EdgeObserver.Config
