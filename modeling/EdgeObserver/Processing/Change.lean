import EdgeObserver.ContentCoding.Output
import EdgeObserver.Processing.Slots
import EdgeObserver.Reconstruct.Pairing

/-!
# What an extension's answer does to an exchange

An exchange on its way through the extensions, and the changes an answer names.
A replacement goes through the pipeline's slots as a new representation of its
component.
-/

set_option autoImplicit false

namespace EdgeObserver.Processing

open Http1

/-!
## What release makes of an exchange

An exchange the pairing handed over is classified and its bodies decoded, and a
pipeline's copy of it is made within the shared allowance.
-/

section

/-- One pipeline of the plan. `reconstructs` is one that reads content, rather than
connections alone. -/
structure Pipeline where
  name : Bytes
  reconstructs : Bool
  slots : List EffectiveSlot

inductive Field where
  | line (of : Config.Message)
  | headers (of : Config.Message)
  | body (of : Config.Message)
  | connection
  deriving DecidableEq

def extensionFields : List Field :=
  [.line .request, .headers .request, .body .request, .line .response, .headers .response, .body .response, .connection]

/-- What a worker runs with. Decoding is whatever the decoder and the allowance make
of a body, for each exchange and side; sizes are those the program charges. -/
structure Worker (Shape : Type) where
  limits : Reconstruct.Limits Shape
  fold : Bytes → Bytes := id
  pipelines : List Pipeline
  entries : List (List Field) := []
  decoder : Nat → Config.Message → ContentCoding.Coding → Bytes → ContentCoding.Outcome × Bytes
  messageCharge : Nat := 1
  fieldCharge : Nat := 1

variable {Shape : Type}

def Worker.reads (w : Worker Shape) : Reads Shape := { json := w.limits.json, fold := w.fold }

/-! ## Decoding -/

def decoded (json : Bytes → Except String Shape) (m : Message Shape) (content : Content) (body : Bytes) :
    Message Shape :=
  let whole : Message Shape := { message := { m.message with body }, content := some content }
  if body = [] then whole
  else match json body with
    | .error refused => { whole with shapeRefused := refused }
    | .ok shape => { whole with shape := some shape }

inductive Undone (Shape : Type) where
  | kept (m : Message Shape)
  | failed (reason : Reason)
  | refused

def Worker.undo (w : Worker Shape) (index : Nat) (side : Config.Message) (m : Message Shape)
    (coding : Option ContentCoding.Coding) : Undone Shape :=
  match coding with
  | none => .kept m
  | some coding =>
    match w.decoder index side coding m.message.body with
    | (.decoded, body) =>
      .kept (decoded w.limits.json m
        { codings := [coding], fields := contentEncodings m.message, length := body.length } body)
    | (.refused, _) => .refused
    | (.decodedTooLarge, _) => .failed .contentDecodedTooLarge
    | (.decodingTooCostly, _) => .failed .contentDecodingTooCostly
    | (.decodingFailed, _) | (.identity, _) => .failed .contentDecodingFailed

def ranked (reasons : List Reason) : Option Reason :=
  [Reason.contentDecodingFailed, .contentDecodedTooLarge, .contentDecodingTooCostly].find? (· ∈ reasons)

inductive Verdict where
  | write
  | stop
  | exclude
  | cut
  deriving DecidableEq

structure Prepared (Shape : Type) where
  verdict : Verdict
  reason : Option Reason := none
  exchange : Exchange Shape

def codingOf (m : Http1.Message) : Option ContentCoding.Coding × ContentCoding.Verdict :=
  if m.bodyLength = 0 then (none, .supported) else ContentCoding.parseList (contentEncodings m)

/-- An exchange classified and decoded. `excluded` is a connection that already
stopped. -/
def Worker.prepare (w : Worker Shape) (excluded : Bool) (index : Nat) (x : Exchange Shape) : Prepared Shape :=
  match x.request, x.response with
  | some request, some response =>
    if excluded || !x.complete || !eligibleMessage request.message || !eligibleMessage response.message then
      { verdict := .stop, exchange := x }
    else if (codingOf request.message).2 = .unsupported ∨ (codingOf response.message).2 = .unsupported then
      { verdict := .exclude, reason := some .contentCodingUnsupported, exchange := x }
    else match w.undo index .request request (codingOf request.message).1 with
      | .refused => { verdict := .cut, exchange := x }
      | .kept request =>
        (match w.undo index .response response (codingOf response.message).1 with
        | .refused => { verdict := .cut, exchange := x }
        | .kept response =>
          { verdict := .write, exchange := { x with request := some request, response := some response } }
        | .failed reason =>
          { verdict := .exclude, reason := ranked [reason], exchange := { x with request := some request } })
      | .failed first =>
        (match w.undo index .response response (codingOf response.message).1 with
        | .refused => { verdict := .cut, exchange := x }
        | .kept response =>
          { verdict := .exclude, reason := ranked [first], exchange := { x with response := some response } }
        | .failed reason => { verdict := .exclude, reason := ranked [first, reason], exchange := x })
  | _, _ => { verdict := .stop, exchange := x }

/-! ## What is left of a body that was not decoded -/

def Message.isUndecoded (m : Message Shape) : Bool := m.content.isNone && m.message.bodyLength != 0 && encoded m.message

def Message.bare (m : Message Shape) : Message Shape :=
  { m.edit fun h => { h with body := [] } with shape := none, shapeRefused := "" }

def undecoded (x : Exchange Shape) : Exchange Shape × (Config.Message → Bool) :=
  let bare := fun m : Message Shape => if m.isUndecoded then m.bare else m
  ({ x with request := x.request.map bare, response := x.response.map bare },
    fun side => (x.side side).any Message.isUndecoded)

/-! ## The copy policy makes -/

def Worker.messageUnits (w : Worker Shape) : Option (Message Shape) → Nat
  | none => 0
  | some m =>
    w.messageCharge + (m.message.method.length + m.message.target.length + m.message.protocol.length +
      m.message.reason.length + m.message.body.length) +
    ((m.message.headers ++ m.message.trailers).map fun h =>
      w.fieldCharge + (h.name.length + h.value.length)).sum

def Worker.copyUnits (w : Worker Shape) (e : Exchange Shape) : Nat :=
  w.messageUnits e.request + w.messageUnits e.response

def reserve : List Bool → Bool × List Bool
  | [] => (true, [])
  | answer :: rest => (answer, rest)

inductive Copied (Shape : Type) where
  | full
  | failed
  | made (run : SlotRun Shape) (units : Nat)

def Worker.applySlots (w : Worker Shape) : List EffectiveSlot → SlotRun Shape → Nat → List Bool →
    Copied Shape × List Bool
  | [], run, units, room => (.made run units, room)
  | slot :: rest, run, units, room =>
    match run.apply w.reads slot with
    | none => (.failed, room)
    | some run =>
      let now := w.copyUnits run.exchange
      if now > units then
        match reserve room with
        | (false, room) => (.full, room)
        | (true, room) => w.applySlots rest run now room
      else w.applySlots rest run units room

def Worker.policyCopy (w : Worker Shape) (source : Exchange Shape) (slots : List EffectiveSlot) (room : List Bool) :
    Copied Shape × List Bool :=
  match reserve room with
  | (false, room) => (.full, room)
  | (true, room) => w.applySlots slots { source, exchange := copyExchange source } (w.copyUnits source) room

end

/-! ## The changes -/

variable {Shape Raw : Type}

inductive Failure where
  | malformed
  | notGiven
  | readOnly
  | removedContent
  | excluded
  | noRoom
  | said (reason : String)
  deriving DecidableEq

inductive Outcome where
  | changed (fields overwritten : List Field)
  | unchanged
  | failed (why : Failure)

/-- One exchange on its way through the extensions. `source` is the exchange as
handed over; `run` is the first pipeline's pass over its copy, whose slots are
`slots`, charged `policy`; `pipelines` are those that write it, and `k` is the
extension it is at. -/
structure Dispatch (Shape : Type) where
  id : Nat
  index : Nat
  role : Reconstruct.Role
  excluded : Bool
  reason : Option Reason
  omitted : Config.Message → Bool
  source : Reconstruct.Exchange Shape
  slots : List EffectiveSlot
  run : SlotRun Shape
  policy : Nat
  pipelines : List Bytes
  outcomes : List Outcome := []
  replaced : List (PolicyExclusion × Nat) := []
  k : Nat := 0

structure Replacement where
  method : Bytes := []
  target : Bytes := []
  protocol : Bytes := []
  status : Nat := 0
  reason : Bytes := []
  headers : List Header := []
  trailers : List Header := []
  body : Bytes := []

def scratchOf (json : Bytes → Except String Shape) (m : Message Shape) (field : Field) (r : Replacement) :
    Message Shape :=
  let bare : Http1.Message :=
    { kind := m.message.kind, complete := m.message.complete, framed := m.message.framed, defect := m.message.defect }
  match field with
  | .line _ =>
    { message := { bare with
        method := r.method, target := r.target, protocol := r.protocol, status := r.status, reason := r.reason } }
  | .headers _ => { message := { bare with headers := r.headers, trailers := r.trailers } }
  | .body _ =>
    let m : Message Shape := { message := { bare with
      body := r.body, bodyLength := m.message.bodyLength, bodyHoled := m.message.bodyHoled
      bodyElided := m.message.bodyElided } }
    (match json r.body with
    | .ok shape => { m with shape := some shape }
    | .error _ => if r.body ≠ [] then { m with shapeRefused := "body structure unavailable" } else m)
  | .connection => { message := bare }

def Message.adopt (m scratch : Message Shape) : Field → Message Shape
  | .line _ => m.edit fun h =>
    { h with
      method := scratch.message.method, target := scratch.message.target, protocol := scratch.message.protocol
      status := scratch.message.status, reason := scratch.message.reason }
  | .headers _ => m.edit fun h =>
    { h with headers := scratch.message.headers, trailers := scratch.message.trailers }
  | .body _ =>
    { m.edit fun h => { h with body := scratch.message.body } with
      shape := scratch.shape, shapeRefused := scratch.shapeRefused }
  | .connection => m

def Exchange.alone (side : Config.Message) (m : Option (Message Shape)) : Exchange Shape :=
  match side with
  | .request => { request := m }
  | .response => { response := m }

def Field.side : Field → Option Config.Message
  | .line side | .headers side | .body side => some side
  | .connection => none

/-- One replacement applied: its component alone goes through the slots once, and
what they remove from it is recorded apart. -/
def Worker.rechain (w : Worker Shape) (k : Nat) (d : Dispatch Shape) (change : Field × Replacement) : Dispatch Shape :=
  let (field, r) := change
  match field.side with
  | none => d
  | some side =>
    match d.run.exchange.side side with
    | none => d
    | some m =>
      let scratch := scratchOf w.limits.json m field r
      let parsed := (Exchange.handed d.source).side side
      let start : SlotRun Shape := { source := .alone side parsed, exchange := .alone side (some scratch) }
      let run := d.slots.foldl (fun run slot => (run.apply w.reads slot).getD run) start
      let recorded := run.evidence.foldl (fun out entry =>
        if (entry, k) ∈ out then out else out ++ [(entry, k)]) d.replaced
      let adopted := m.adopt ((run.exchange.side side).getD scratch) field
      { d with
        replaced := recorded
        run := { d.run with
          exchange := d.run.exchange.put side adopted
          bodies := match field with
            | .body _ => Function.update d.run.bodies side (run.bodies side)
            | _ => d.run.bodies } }

def Dispatch.undo (saved d : Dispatch Shape) : Dispatch Shape :=
  { d with
    replaced := d.replaced.take saved.replaced.length
    run := { d.run with
      exchange := { d.run.exchange with request := saved.run.exchange.request, response := saved.run.exchange.response }
      bodies := saved.run.bodies } }

def Dispatch.refuses (d : Dispatch Shape) (entry : List Field) (field : Field) : Option Failure :=
  if field ∉ entry then some .notGiven
  else match field.side with
    | none => some .notGiven
    | some side =>
      if (d.run.exchange.side side).isNone then some .notGiven
      else match field with
        | .body _ => if (d.run.bodies side).any (· ≠ .removedUndecidable) then some .removedContent else none
        | _ => none

def Dispatch.readChanges (read : Field → Raw → Except Failure Replacement) (d : Dispatch Shape) (entry : List Field) :
    List (Field × Raw) → Except Failure (List (Field × Replacement))
  | [] => .ok []
  | (field, raw) :: rest =>
    match d.refuses entry field with
    | some why => .error why
    | none =>
      match read field raw with
      | .error why => .error why
      | .ok r =>
        match d.readChanges read entry rest with
        | .error why => .error why
        | .ok others => .ok ((field, r) :: others)

/-- The names of an answer checked: the first that cannot be changed, by the names'
order, decides. A name that is no field is `none`. -/
def refusesNames : List (Option Field × Raw) → Option Failure
  | [] => none
  | (some .connection, _) :: _ => some .readOnly
  | (none, _) :: _ => some .malformed
  | _ :: rest => refusesNames rest

def ordered (changes : List (Option Field × Raw)) : List (Field × Raw) :=
  extensionFields.filterMap fun field =>
    (changes.find? fun change => decide (change.1 = some field)).map fun change => (field, change.2)

def Worker.change (w : Worker Shape) (read : Field → Raw → Except Failure Replacement) (d : Dispatch Shape) (k : Nat)
    (changes : List (Option Field × Raw)) (room : List Bool) :
    Dispatch Shape × Except Failure (List Field) × List Bool :=
  if d.excluded then (d, .error .excluded, room)
  else match refusesNames changes with
    | some why => (d, .error why, room)
    | none =>
      match d.readChanges read (w.entries.getD k []) (ordered changes) with
      | .error why => (d, .error why, room)
      | .ok replacements =>
        let after := replacements.foldl (w.rechain k) d
        let now := w.copyUnits after.run.exchange
        if now > d.policy then
          match reserve room with
          | (false, room) => (d.undo after, .error .noRoom, room)
          | (true, room) => ({ after with policy := now }, .ok (replacements.map (·.1)), room)
        else (after, .ok (replacements.map (·.1)), room)

inductive Answer (Raw : Type) where
  | changed (changes : List (Option Field × Raw))
  | unchanged
  | failed (reason : String)

def overwrite (outcomes : List Outcome) (fields : List Field) : List Outcome :=
  fields.foldl (fun outcomes field =>
    match outcomes.reverse.findIdx? (fun | .changed fields _ => decide (field ∈ fields) | _ => false) with
    | none => outcomes
    | some back => outcomes.modify (outcomes.length - 1 - back) fun
        | .changed fields overwritten => .changed fields (overwritten ++ [field])
        | other => other) outcomes

def Worker.resolve (w : Worker Shape) (read : Field → Raw → Except Failure Replacement) (d : Dispatch Shape)
    (answer : Answer Raw) (room : List Bool) : Dispatch Shape × Bool × List Bool :=
  match answer with
  | .changed changes =>
    match w.change read d d.k changes room with
    | (d, .error why, room) => ({ d with outcomes := d.outcomes ++ [.failed why], k := d.k + 1 }, why = .noRoom, room)
    | (d, .ok fields, room) =>
      ({ d with outcomes := overwrite d.outcomes fields ++ [.changed fields []], k := d.k + 1 }, false, room)
  | .unchanged => ({ d with outcomes := d.outcomes ++ [.unchanged], k := d.k + 1 }, false, room)
  | .failed reason => ({ d with outcomes := d.outcomes ++ [.failed (.said reason)], k := d.k + 1 }, false, room)

/-! ## An answer is taken whole or not at all -/

/-- All that replacements touch: both messages, what became of their bodies, and the
end of what was replaced. -/
def Edited (d e : Dispatch Shape) : Prop :=
  ∃ replaced request response bodies, d.replaced <+: replaced ∧
    e = { d with replaced, run := { d.run with exchange := { d.run.exchange with request, response }, bodies } }

theorem Edited.rechain {w : Worker Shape} {d e : Dispatch Shape} (edited : Edited d e) (k : Nat)
    (change : Field × Replacement) : Edited d (w.rechain k e change) := by
  have whole := edited
  obtain ⟨replaced, request, response, bodies, longer, rfl⟩ := edited
  obtain ⟨field, r⟩ := change
  simp only [Worker.rechain]
  generalize field.side = found
  cases found with
  | none => exact whole
  | some side =>
    dsimp only
    split
    · exact whole
    have more : ∀ entries : List PolicyExclusion, d.replaced <+:
        entries.foldl (fun out entry => if (entry, k) ∈ out then out else out ++ [(entry, k)]) replaced := by
      refine fun entries => List.foldlRecOn _ _ longer fun out so entry _ => ?_
      split
      · exact so
      · exact so.trans (List.prefix_append _ _)
    cases side <;> exact ⟨_, _, _, _, more _, rfl⟩

theorem rechains_edited (w : Worker Shape) (k : Nat) (changes : List (Field × Replacement)) (d : Dispatch Shape) :
    Edited d (changes.foldl (w.rechain k) d) :=
  List.foldlRecOn _ _ ⟨_, _, _, _, List.prefix_rfl, rfl⟩ fun _ edited change _ => edited.rechain k change

theorem Edited.undo {d e : Dispatch Shape} (edited : Edited d e) : d.undo e = d := by
  obtain ⟨replaced, request, response, bodies, longer, rfl⟩ := edited
  rw [Dispatch.undo, ← List.prefix_iff_eq_take.mp longer]

theorem readChanges_fields {read : Field → Raw → Except Failure Replacement} {d : Dispatch Shape} {entry : List Field}
    {changes : List (Field × Raw)} {replacements : List (Field × Replacement)}
    (taken : d.readChanges read entry changes = .ok replacements) :
    replacements.map (some ·.1) = changes.map (some ·.1) := by
  fun_induction Dispatch.readChanges generalizing replacements with
  | case1 => cases taken; rfl
  | case2 | case3 | case4 => cases taken
  | case5 _ _ _ _ _ _ _ _ ih =>
    cases taken
    rw [List.map_cons, ih ‹_›, List.map_cons]

theorem named_field {changes : List (Option Field × Raw)} (fit : refusesNames changes = none) :
    ∀ change ∈ changes, change.1 ∈ extensionFields.map some := by
  fun_induction refusesNames changes with
  | case1 => nofun
  | case2 | case3 => cases fit
  | case4 change rest writable known ih =>
    refine List.forall_mem_cons.mpr ⟨?_, ih fit⟩
    obtain ⟨_ | field, raw⟩ := change
    · exact absurd rfl (known raw)
    refine List.mem_map_of_mem ?_
    cases field with
    | connection => exact absurd rfl (writable raw)
    | line side | headers side | body side => cases side <;> decide

theorem ordered_all {changes : List (Option Field × Raw)} (fit : refusesNames changes = none) :
    ∀ change ∈ changes, change.1 ∈ (ordered changes).map (some ·.1) := by
  intro change listed
  obtain ⟨field, among, named⟩ := List.mem_map.mp (named_field fit change listed)
  refine List.mem_map.mpr ?_
  cases found : changes.find? fun change => decide (change.1 = some field) with
  | none => exact absurd named.symm (by simpa using List.find?_eq_none.mp found _ listed)
  | some one => exact ⟨(field, one.2), List.mem_filterMap.mpr ⟨field, among, by rw [found]; rfl⟩, named⟩

/-- What an answer that names changes comes to: a failure that leaves the exchange
and its charge as they were, or every change it names read, applied and charged. -/
inductive Resolves (w : Worker Shape) (read : Field → Raw → Except Failure Replacement) (d : Dispatch Shape)
    (changes : List (Option Field × Raw)) : Dispatch Shape × Bool × List Bool → Prop
  | failed (why : Failure) (left : List Bool) : Resolves w read d changes
      ({ d with outcomes := d.outcomes ++ [.failed why], k := d.k + 1 }, why = .noRoom, left)
  | changed {replacements : List (Field × Replacement)} (left : List Bool)
      (all : ∀ change ∈ changes, change.1 ∈ replacements.map (some ·.1))
      (taken : d.readChanges read (w.entries.getD d.k []) (ordered changes) = .ok replacements) :
      Resolves w read d changes
        (let after := replacements.foldl (w.rechain d.k) d
        let fields := replacements.map (·.1)
        { after with
          policy := max d.policy (w.copyUnits after.run.exchange)
          outcomes := overwrite d.outcomes fields ++ [.changed fields []], k := d.k + 1 }, false, left)

theorem resolve_resolves (w : Worker Shape) (read : Field → Raw → Except Failure Replacement) (d : Dispatch Shape)
    (changes : List (Option Field × Raw)) (room : List Bool) :
    Resolves w read d changes (w.resolve read d (.changed changes) room) := by
  unfold Worker.resolve Worker.change
  dsimp only
  by_cases out : d.excluded = true
  · rw [if_pos out]
    exact .failed _ _
  rw [if_neg out]
  cases named : refusesNames changes with
  | some why => exact .failed _ _
  | none =>
    cases taken : d.readChanges read (w.entries.getD d.k []) (ordered changes) with
    | error why => exact .failed _ _
    | ok replacements =>
      have whole := fun left => Resolves.changed (w := w) left (readChanges_fields taken ▸ ordered_all named) taken
      have edited := rechains_edited w d.k replacements d
      have back := edited.undo
      obtain ⟨_, _, _, _, _, is⟩ := edited
      dsimp only at whole ⊢
      by_cases grows : w.copyUnits (replacements.foldl (w.rechain d.k) d).run.exchange > d.policy
      · rw [if_pos grows, back]
        rw [Nat.max_eq_right (Nat.le_of_lt grows), is] at whole
        rw [is]
        rcases reserve room with ⟨_ | _, left⟩
        · exact .failed _ _
        · exact whole left
      · rw [if_neg grows, is]
        rw [Nat.max_eq_left (Nat.le_of_not_lt grows), is] at whole
        exact whole room

end EdgeObserver.Processing
