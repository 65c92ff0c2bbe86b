import EdgeObserver.Config.Merge
import EdgeObserver.Config.Read

/-!
# Compiling rules into operations

The merged rules become one list of operations in a fixed order, each checked
again by the layer that runs it, and the plan is held to the removals of the
documents as they were read.
-/

set_option autoImplicit false

namespace EdgeObserver.Config

/-- An argument object. Its strings are those of a configuration, valid UTF-8, so
that it reads back as it was written; a member not written is none. -/
structure Given where
  headers : Option (List Bytes) := none
  value : Option Bytes := none
  length : Option Nat := none
  messages : Option (List Bytes) := none
  pointers : Option (List Bytes) := none
  names : Option (List Bytes) := none
  masks : Option (List (Bytes × Option Bytes)) := none

def Given.has (given : Given) : Argument → Bool
  | .headers => given.headers.isSome
  | .value => given.value.isSome
  | .length => given.length.isSome
  | .messages => given.messages.isSome
  | .pointers => given.pointers.isSome
  | .names => given.names.isSome
  | .masks => given.masks.isSome

structure Arguments where
  headers : List Bytes := []
  value : Bytes := []
  length : Nat := 0
  messages : List Message := []
  pointers : List Bytes := []
  names : List Bytes := []
  masks : List NamedValue := []

def argumentMembers : Implementation → List Argument
  | .removeHeaders => [.headers]
  | .replaceHeaderValues => [.headers, .value]
  | .truncateHeaderValues => [.headers, .length]
  | .removeBody => [.messages]
  | .reduceBodyToStructure => [.messages]
  | .removeQuery => []
  | .removeJSONFields => [.messages, .pointers]
  | .replaceJSONValues => [.messages, .pointers, .value]
  | .removeFormFields => [.names]
  | .removeQueryParameters => [.names]
  | .requestBodyFields => [.names, .pointers, .masks]

def allArguments : List Argument := [.headers, .value, .length, .messages, .pointers, .names, .masks]

def checkMembers (implementation : Implementation) (given : Given) : Except ArgumentFault Unit :=
  match allArguments.find? (fun one =>
      given.has one && decide (one ∉ argumentMembers implementation)) with
  | some one => .error (.undefined one)
  | none =>
    match (argumentMembers implementation).find? (fun one => !given.has one) with
    | some one => .error (.required one)
    | none => .ok ()

/-- Header names, lowercased, from where `seen` were before them. -/
def compileHeaders (seen : List Bytes) : List Bytes → Except ArgumentFault (List Bytes)
  | [] => .ok seen
  | name :: rest =>
    if headerName name = false then .error .headerName
    else if Text.toLower name ∈ seen then .error .headerTwice
    else compileHeaders (seen ++ [Text.toLower name]) rest

def compileMessages (given : List Bytes) : Except ArgumentFault (List Message) :=
  if given = [] then .error .noMessages
  else if given.any (fun text => (messageOf text).isNone) then .error .otherMessage
  else if given.count (ascii "request") > 1 ∨ given.count (ascii "response") > 1 then
    .error .messageTwice
  else
    .ok ((if given.count (ascii "request") = 1 then [.request] else []) ++
      (if given.count (ascii "response") = 1 then [.response] else []))

def compileSelectors (valid : Bytes → Except Unfit Unit) (fault : Nat → Unfit → ArgumentFault)
    (twice : ArgumentFault) (i : Nat) (seen : List Bytes) :
    List Bytes → Except ArgumentFault (List Bytes)
  | [] => .ok seen
  | one :: rest =>
    match valid one with
    | .error why => .error (fault i why)
    | .ok () =>
      if one ∈ seen then .error twice
      else compileSelectors valid fault twice (i + 1) (seen ++ [one]) rest

def compileMasks (i : Nat) (seen : List NamedValue) :
    List (Bytes × Option Bytes) → Except ArgumentFault (List NamedValue)
  | [] => .ok seen
  | (pointer, value) :: rest =>
    match validPointer pointer with
    | .error why => .error (.maskPointer i why)
    | .ok () =>
      if pointer ∈ seen.map NamedValue.name then .error .maskTwice
      else
        match value with
        | none => .error (.maskValueMissing i)
        | some value =>
          if value.length > maxJSONValueBytes then .error (.maskValueLength i)
          else if printable value = false then .error (.maskValueByte i)
          else compileMasks (i + 1) (seen ++ [{ name := pointer, value }]) rest

def compileValue (most : Nat) : Option Bytes → Except ArgumentFault Bytes
  | none => .error .valueMissing
  | some value =>
    if value.length > most then .error (.valueLength most)
    else if printable value = false then .error .valueByte
    else .ok value

def compileLength : Option Nat → Except ArgumentFault Nat
  | none => .error .lengthMissing
  | some length => if length > maxHeaderValueBytes then .error .lengthRange else .ok length

def argumentHeaders (implementation : Implementation) (list : List Bytes) : Except ArgumentFault (List Bytes) :=
  if Argument.headers ∈ argumentMembers implementation then
    if list = [] ∨ list.length > maxHeaderNames then .error .headerCount
    else compileHeaders [] list
  else .ok []

def argumentMessages (implementation : Implementation) (list : List Bytes) : Except ArgumentFault (List Message) :=
  if Argument.messages ∈ argumentMembers implementation then compileMessages list else .ok []

def leastPointers (implementation : Implementation) : Nat :=
  if implementation = .requestBodyFields then 0 else 1

def argumentPointers (implementation : Implementation) (list : List Bytes) : Except ArgumentFault (List Bytes) :=
  if Argument.pointers ∈ argumentMembers implementation then
    if list.length < leastPointers implementation ∨ list.length > maxFieldSelectors then
      .error (.pointerCount (leastPointers implementation))
    else compileSelectors validPointer .pointer .pointerTwice 0 [] list
  else .ok []

def argumentNames (implementation : Implementation) (list : List Bytes) : Except ArgumentFault (List Bytes) :=
  if Argument.names ∈ argumentMembers implementation then
    if list = [] ∨ list.length > maxFieldSelectors then .error .nameCount
    else compileSelectors validParameterName .name .nameTwice 0 [] list
  else .ok []

def argumentMasks (implementation : Implementation) (list : List (Bytes × Option Bytes)) :
    Except ArgumentFault (List NamedValue) :=
  if Argument.masks ∈ argumentMembers implementation then
    if list.length > maxFieldSelectors then .error .maskCount else compileMasks 0 [] list
  else .ok []

def completeArguments (implementation : Implementation) (given : Given) (arguments : Arguments) :
    Except ArgumentFault Arguments :=
  match implementation with
  | .requestBodyFields =>
    if arguments.pointers.length + arguments.masks.length = 0 then .error .noRule
    else .ok arguments
  | .replaceHeaderValues =>
    (compileValue maxHeaderValueBytes given.value).map (fun value => { arguments with value })
  | .replaceJSONValues =>
    (compileValue maxJSONValueBytes given.value).map (fun value => { arguments with value })
  | .truncateHeaderValues =>
    (compileLength given.length).map (fun length => { arguments with length })
  | _ => .ok arguments

def compileArguments (implementation : Implementation) (given : Given) :
    Except ArgumentFault Arguments := do
  checkMembers implementation given
  let headers ← argumentHeaders implementation (given.headers.getD [])
  let messages ← argumentMessages implementation (given.messages.getD [])
  let pointers ← argumentPointers implementation (given.pointers.getD [])
  let names ← argumentNames implementation (given.names.getD [])
  let masks ← argumentMasks implementation (given.masks.getD [])
  completeArguments implementation given { headers, messages, pointers, names, masks }

structure Operation where
  name : Bytes
  implementation : Implementation
  given : Given
  documents : List Bytes

structure Slot where
  name : Bytes
  implementation : Implementation
  arguments : Arguments
  selectedBy : List Bytes

structure Group (α : Type) where
  keeps : α
  names : List Bytes
  documents : List Bytes

def Group.include {α : Type} (group : Group α) (one : Entry) : Group α :=
  { group with
    names := group.names ++ [one.name]
    documents := one.documents.foldl (fun out d => if d ∈ out then out else out ++ [d])
      group.documents }

def groupInto {α : Type} [DecidableEq α] (keeps : Entry → α) (groups : List (Group α)) (one : Entry) : List (Group α) :=
  if keeps one ∈ groups.map Group.keeps then
    groups.map (fun group => if group.keeps = keeps one then group.include one else group)
  else groups ++ [Group.include { keeps := keeps one, names := [], documents := [] } one]

def groupBy {α : Type} [DecidableEq α] (keeps : Entry → α) (entries : List Entry) :
    List (Group α) := entries.foldl (groupInto keeps) []

def operationsOf {α : Type} (name : Bytes) (implementation : Implementation)
    (given : Group α → Given) : Nat → List (Group α) → List Operation
  | _, [] => []
  | i, group :: rest =>
    { name := name ++ ascii "." ++ decimal i
      implementation
      given := given group
      documents := group.documents } :: operationsOf name implementation given (i + 1) rest

def documentsOf (origins : List Origin) : List Bytes :=
  origins.foldl (fun out at_ => if at_.document ∈ out then out else out ++ [at_.document]) []

def removal (name : Bytes) (implementation : Implementation) (given : List Bytes → Given)
    (l : EntryList) : List Operation :=
  if l.entries = [] then []
  else [{ name, implementation, given := given l.names, documents := l.documents }]

def bodyOperation (name : Bytes) (implementation : Implementation) (set : Message → List Origin) : List Operation :=
  let selected := [Message.request, Message.response].filter (fun message => set message ≠ [])
  if selected = [] then []
  else
    [{ name
       implementation
       given := { messages := some (selected.map Message.text) }
       documents := documentsOf (selected.flatMap set) }]

namespace Merged

def combined (m : Merged) : Bool :=
  decide (m.form.entries ≠ []) &&
    (decide ((m.removeJSON .request).entries ≠ []) || decide ((m.maskJSON .request).entries ≠ []))

def requestFields (m : Merged) : List Operation :=
  if m.combined then
    [{ name := ascii "remove.form+json.request"
       implementation := .requestBodyFields
       given :=
        { names := some m.form.names
          pointers := some (m.removeJSON .request).names
          masks := some ((m.maskJSON .request).entries.map (fun one => (one.name, some one.value))) }
       documents := ((m.removeJSON .request).documents ++ (m.maskJSON .request).documents).foldl
        (fun out d => if d ∈ out then out else out ++ [d]) m.form.documents }]
  else
    removal (ascii "remove.form") .removeFormFields (fun names => { names := some names }) m.form ++
      removal (ascii "remove.json.request") .removeJSONFields
        (fun names => { messages := some [Message.request.text], pointers := some names })
        (m.removeJSON .request)

def removeOperations (m : Merged) : List Operation :=
  removal (ascii "remove.headers") .removeHeaders (fun names => { headers := some names }) m.removeHeaders ++
    (if m.queryString = [] then []
      else
        [{ name := ascii "remove.query_string"
           implementation := .removeQuery
           given := {}
           documents := documentsOf m.queryString }]) ++
    removal (ascii "remove.query") .removeQueryParameters (fun names => { names := some names }) m.query ++
    bodyOperation (ascii "remove.bodies") .removeBody m.bodies ++
    m.requestFields ++
    removal (ascii "remove.json.response") .removeJSONFields
      (fun names => { messages := some [Message.response.text], pointers := some names })
      (m.removeJSON .response)

def maskJSONOperations (m : Merged) (message : Message) : List Operation :=
  if message = .request ∧ m.combined = true then []
  else
    operationsOf (ascii "mask.json." ++ message.text) .replaceJSONValues
      (fun group =>
        { messages := some [message.text], pointers := some group.names,
          value := some group.keeps }) 1
      (groupBy Entry.value (m.maskJSON message).entries)

def maskOperations (m : Merged) : List Operation :=
  operationsOf (ascii "mask.headers") .replaceHeaderValues
      (fun group => { headers := some group.names, value := some group.keeps }) 1
      (groupBy Entry.value m.maskHeaders.entries) ++
    m.maskJSONOperations .request ++ m.maskJSONOperations .response

def truncateOperations (m : Merged) : List Operation :=
  operationsOf (ascii "truncate.headers") .truncateHeaderValues
    (fun group => { headers := some group.names, length := some group.keeps }) 1
    (groupBy Entry.number m.truncate.entries)

def operations (m : Merged) : List Operation :=
  m.removeOperations ++ m.maskOperations ++ m.truncateOperations ++
    bodyOperation (ascii "remove.body_values") .reduceBodyToStructure m.bodyValues

end Merged

def Operation.slot (one : Operation) : Except ArgumentFault Slot :=
  (compileArguments one.implementation one.given).map (fun arguments =>
    { name := one.name, implementation := one.implementation, arguments,
      selectedBy := one.documents })

def Operation.failure (one : Operation) : Option Finding :=
  match one.slot with
  | .ok _ => none
  | .error why =>
    some (refuseAt one.name .internalDefect (.argumentsRefused one.implementation one.documents why))

structure Exclusion where
  declaration : Origin
  field : Bytes
  header : Bytes
  messages : List Message

def headerFieldPrefix : Bytes := ascii "message.headers."
def bodyField : Bytes := ascii "message.body"
def bodyValuesField : Bytes := ascii "message.body.values"
def targetQueryField : Bytes := ascii "message.target.query"
def queryFieldPrefix : Bytes := ascii "message.query."
def formFieldPrefix : Bytes := ascii "message.form."
def jsonFieldPrefix : Bytes := ascii "message.body.json"

def exclusionsOf (m : Merged) : List Exclusion :=
  let messages := [Message.request, Message.response]
  m.removeHeaders.entries.map (fun one =>
      { declaration := one.origin, field := headerFieldPrefix ++ one.name, header := one.name,
        messages := [.request] }) ++
    m.queryString.head?.toList.map (fun at_ =>
      { declaration := at_, field := targetQueryField, header := [], messages := [.request] }) ++
    m.query.entries.map (fun one =>
      { declaration := one.origin, field := queryFieldPrefix ++ one.name, header := [],
        messages := [.request] }) ++
    m.form.entries.map (fun one =>
      { declaration := one.origin, field := formFieldPrefix ++ one.name, header := [],
        messages := [.request] }) ++
    messages.flatMap (fun message => (m.removeJSON message).entries.map (fun one =>
      { declaration := one.origin, field := jsonFieldPrefix ++ one.name, header := [],
        messages := [message] })) ++
    messages.flatMap (fun message => (m.bodies message).head?.toList.map (fun at_ =>
      { declaration := at_, field := bodyField, header := [], messages := [message] })) ++
    messages.flatMap (fun message => (m.bodyValues message).head?.toList.map (fun at_ =>
      { declaration := at_, field := bodyValuesField, header := [], messages := [message] }))

inductive Input where
  | reconstruction
  | connection
  deriving DecidableEq

structure Pipeline where
  name : Bytes
  input : Input
  slots : List Slot
  sinks : List Bytes

structure Plan where
  pipelines : List Pipeline
  exclusions : List Exclusion

def maxCompiledSlots : Nat := 7 + maxMaskedHeaders + 2 * maxRulePointers + maxTruncatedHeaders + 1

def generate (writeContent : Bool) (m : Merged) : Except (List Finding) Plan :=
  let failures := m.operations.filterMap Operation.failure
  let slots := m.operations.filterMap (fun one => one.slot.toOption)
  if failures ≠ [] then .error failures
  else if slots.length > maxCompiledSlots then
    .error [refuseAt [] .internalDefect (.slotsPast slots.length maxCompiledSlots)]
  else
    .ok
      { pipelines :=
          (if writeContent then
            [{ name := ascii "exchanges", input := .reconstruction, slots,
               sinks := [ascii "account"] }]
          else []) ++
          [{ name := ascii "connections", input := .connection, slots := [],
             sinks := [ascii "account"] }]
        exclusions := exclusionsOf m }

inductive ExclusionField where
  | body
  | bodyValues
  | targetQuery
  | header (name : Bytes)
  | query (name : Bytes)
  | form (name : Bytes)
  | json (pointer : Bytes)

/-- `strings.CutPrefix`. -/
def cutFront : Bytes → Bytes → Option Bytes
  | [], text => some text
  | b :: rest, c :: text => if b = c then cutFront rest text else none
  | _ :: _, [] => none

def parseExclusionField (field : Bytes) : Option ExclusionField :=
  if field = bodyField then some .body
  else if field = bodyValuesField then some .bodyValues
  else if field = targetQueryField then some .targetQuery
  else
    match cutFront headerFieldPrefix field with
    | some header =>
      if headerName header = false ∨ Text.toLower header ≠ header then none
      else some (.header header)
    | none =>
      match cutFront queryFieldPrefix field with
      | some name => if validParameterName name = .ok () then some (.query name) else none
      | none =>
        match cutFront formFieldPrefix field with
        | some name => if validParameterName name = .ok () then some (.form name) else none
        | none =>
          match cutFront jsonFieldPrefix field with
          | some pointer => if validPointer pointer = .ok () then some (.json pointer) else none
          | none => none

/-- The messages for which one slot satisfies an exclusion field. Replacement
and truncation satisfy nothing. -/
def covers (slot : Slot) (field : ExclusionField) : List Message :=
  let a := slot.arguments
  match field with
  | .header name =>
    if slot.implementation = .removeHeaders ∧ name ∈ a.headers then [.request] else []
  | .body => if slot.implementation = .removeBody then a.messages else []
  | .bodyValues =>
    if slot.implementation = .removeBody ∨ slot.implementation = .reduceBodyToStructure then
      a.messages
    else []
  | .form name =>
    if (slot.implementation = .removeBody ∧ Message.request ∈ a.messages) ∨
        ((slot.implementation = .removeFormFields ∨ slot.implementation = .requestBodyFields) ∧
          name ∈ a.names) then [.request]
    else []
  | .targetQuery => if slot.implementation = .removeQuery then [.request] else []
  | .query name =>
    if slot.implementation = .removeQuery ∨
        (slot.implementation = .removeQueryParameters ∧ name ∈ a.names) then [.request]
    else []
  | .json pointer =>
    if slot.implementation = .removeBody ∨ slot.implementation = .reduceBodyToStructure then
      a.messages
    else if slot.implementation = .removeJSONFields ∨ slot.implementation = .requestBodyFields then
      if a.pointers.any (fun one =>
          decide (pointerTokens one = (pointerTokens pointer).take (pointerTokens one).length)) then
        if slot.implementation = .requestBodyFields then [.request] else a.messages
      else []
    else []

def removalsOf (d : Document) : List (Bytes × Bytes × Message) :=
  let r := d.rules.remove
  let at_ (key : Bytes) (i : Nat) := key ++ ascii "[" ++ decimal i ++ ascii "]"
  r.headers.zipIdx.map (fun one =>
      (at_ (ascii "remove.headers") one.2, headerFieldPrefix ++ Text.toLower one.1, .request)) ++
    (if r.queryString then [(ascii "remove.query_string", targetQueryField, .request)] else []) ++
    r.query.zipIdx.map (fun one =>
      (at_ (ascii "remove.query") one.2, queryFieldPrefix ++ one.1, .request)) ++
    r.form.zipIdx.map (fun one =>
      (at_ (ascii "remove.form") one.2, formFieldPrefix ++ one.1, .request)) ++
    (r.json .request).zipIdx.map (fun one =>
      (at_ (ascii "remove.json.request") one.2, jsonFieldPrefix ++ one.1, .request)) ++
    (r.json .response).zipIdx.map (fun one =>
      (at_ (ascii "remove.json.response") one.2, jsonFieldPrefix ++ one.1, .response)) ++
    r.bodies.zipIdx.map (fun one => (at_ (ascii "remove.bodies") one.2, bodyField, one.1)) ++
    r.bodyValues.zipIdx.map (fun one =>
      (at_ (ascii "remove.body_values") one.2, bodyValuesField, one.1))

def checkRemoval (plan : Plan) (d : Document) (removal : Bytes × Bytes × Message) : List Finding :=
  let (key, field, message) := removal
  let defect (detail : Detail) : Finding := { document := d.name, subject := key, reason := .internalDefect, detail }
  match parseExclusionField field with
  | none => [defect .noField]
  | some parsed =>
    (if plan.exclusions.any (fun e => decide (e.field = field ∧ message ∈ e.messages)) then []
      else [defect (.noExclusion field message)]) ++
    (plan.pipelines.filter (fun p => p.input = .reconstruction)).flatMap (fun p =>
      if p.slots.any (fun slot => decide (message ∈ covers slot parsed)) then []
      else [defect (.nothingRemoves p.name field message)])

def assertCoverage (documents : List Document) (plan : Plan) : List Finding :=
  documents.flatMap (fun d => (removalsOf d).flatMap (checkRemoval plan d))

end EdgeObserver.Config
