import EdgeObserver.Config.Names

/-!
# Merging rules

Every document's rules together, each distinct once. Removal wins over every
other rule, and two rules that would keep different values for one field are
refused.
-/

set_option autoImplicit false

namespace EdgeObserver.Config

/-- One distinct rule: the name or pointer it is about, the value or length it
keeps where it keeps one, where it was first written, and every document that
wrote it. -/
structure Entry where
  name : Bytes
  value : Bytes
  number : Nat
  origin : Origin
  documents : List Bytes
  deriving DecidableEq

structure EntryList where
  entries : List Entry := []
  distinct : (entries.map Entry.name).Nodup := by exact List.nodup_nil

namespace EntryList

def find (l : EntryList) (name : Bytes) : Option Entry := l.entries.find? (fun one => one.name = name)

def has (l : EntryList) (name : Bytes) : Bool := (l.find name).isSome

def noted (document : Bytes) (one : Entry) : Entry :=
  if document ∈ one.documents then one
  else { one with documents := one.documents ++ [document] }

theorem noted_name (document : Bytes) (one : Entry) : (noted document one).name = one.name := by
  unfold noted
  split <;> rfl

def note (l : EntryList) (name document : Bytes) : EntryList where
  entries := l.entries.map (fun one => if one.name = name then noted document one else one)
  distinct := by
    have same : (Entry.name ∘ fun one => if one.name = name then noted document one else one) =
        Entry.name := by
      funext one
      simp only [Function.comp]
      split
      · exact noted_name document one
      · rfl
    rw [List.map_map, same]
    exact l.distinct

theorem find_none {l : EntryList} {name : Bytes} (absent : l.find name = none) :
    name ∉ l.entries.map Entry.name := by
  intro listed
  obtain ⟨one, member, is⟩ := List.mem_map.mp listed
  simpa [is] using List.find?_eq_none.mp absent one member

def push (l : EntryList) (one : Entry) (absent : l.find one.name = none) : EntryList where
  entries := l.entries ++ [one]
  distinct := by
    rw [List.map_append, List.nodup_append]
    refine ⟨l.distinct, List.nodup_singleton _, ?_⟩
    rintro _ listed _ new rfl
    exact find_none absent (List.mem_singleton.mp new ▸ listed)

def add (l : EntryList) (name value : Bytes) (number : Nat) (origin : Origin) : EntryList × Entry × Bool :=
  match found : l.find name with
  | some one => (l.note name origin.document, noted origin.document one, false)
  | none =>
    let one : Entry := { name, value, number, origin, documents := [origin.document] }
    (l.push one found, one, true)

def names (l : EntryList) : List Bytes := l.entries.map Entry.name

def documents (l : EntryList) : List Bytes :=
  l.entries.foldl (fun out one =>
    one.documents.foldl (fun out d => if d ∈ out then out else out ++ [d]) out) []

end EntryList

structure Merged where
  removeHeaders : EntryList := {}
  query : EntryList := {}
  form : EntryList := {}
  queryString : List Origin := []
  removeJSON : Message → EntryList := fun _ => {}
  bodies : Message → List Origin := fun _ => []
  bodyValues : Message → List Origin := fun _ => []
  maskHeaders : EntryList := {}
  maskJSON : Message → EntryList := fun _ => {}
  truncate : EntryList := {}
  findings : List Finding := []

def place (document key : Bytes) (i : Nat) : Origin := { document, key := key ++ ascii "[" ++ decimal i ++ ascii "]" }

def refusal (origin : Origin) (reason : Reason) (detail : Detail) : Finding :=
  { document := origin.document, subject := origin.key, reason, detail }

def limit (fresh : Bool) (l : EntryList) (most : Nat) (origin : Origin) (what : Bytes) : List Finding :=
  if fresh = true ∧ l.entries.length = most + 1 then
    [refusal origin .limitExceeded (.moreThan most what)]
  else []

def addNames (document key : Bytes) (most : Nat) (what : Bytes) :
    Nat → List Bytes → EntryList → EntryList × List Finding
  | _, [], l => (l, [])
  | i, name :: rest, l =>
    let (l, _, fresh) := l.add name name 0 (place document key i)
    let (merged, findings) := addNames document key most what (i + 1) rest l
    (merged, limit fresh l most (place document key i) what ++ findings)

structure Keeping where
  written : Bytes
  name : Bytes
  value : Bytes
  number : Nat

/-- Adds the rules of one key that keep something, refusing one that keeps
another value of a field that no removal takes away. -/
def addKept (document key : Bytes) (most : Nat) (what : Bytes) (removed : Bytes → Bool)
    (detail : Keeping → Entry → Detail) :
    List Keeping → EntryList → EntryList × List Finding
  | [], l => (l, [])
  | one :: rest, l =>
    let origin : Origin := { document, key := key ++ ascii "." ++ one.written }
    let (l, first, fresh) := l.add one.name one.value one.number origin
    let (merged, findings) := addKept document key most what removed detail rest l
    let conflict :=
      if fresh = false ∧ (first.value ≠ one.value ∨ first.number ≠ one.number) ∧ removed one.name = false then
        [refusal origin .ruleConflict (detail one first)]
      else []
    (merged, limit fresh l most origin what ++ conflict ++ findings)

/-- The static overlap of two pointers: one token list begins the other, and
each pair of tokens is equal under case folding or one of them is a wildcard. -/
def mayMatch (fold : Bytes → Bytes) : List Bytes → List Bytes → Bool
  | a :: rest, b :: rest' =>
    (a == wildcard || b == wildcard || fold a == fold b) && mayMatch fold rest rest'
  | _, _ => true

namespace Merged

def removedPointer (fold : Bytes → Bytes) (m : Merged) (message : Message) (pointer : Bytes) :
    Bool :=
  (m.removeJSON message).entries.any (fun removal =>
    let tokens := pointerTokens removal.name
    let want := pointerTokens pointer
    decide (tokens.length ≤ want.length) && mayMatch fold tokens (want.take tokens.length))

def removedHeader (m : Merged) (name : Bytes) : Bool := m.removeHeaders.has name

def addRemoveHeaders (m : Merged) (d : Document) : Merged :=
  let added := addNames d.name (ascii "remove.headers") maxRemovedHeaders
    (ascii "removed headers") 0 (d.rules.remove.headers.map Text.toLower) m.removeHeaders
  { m with removeHeaders := added.1, findings := m.findings ++ added.2 }

def addQuery (m : Merged) (d : Document) : Merged :=
  let added := addNames d.name (ascii "remove.query") maxRuleNames
    (ascii "removed query parameters") 0 d.rules.remove.query m.query
  { m with query := added.1, findings := m.findings ++ added.2 }

def addQueryString (m : Merged) (d : Document) : Merged :=
  if d.rules.remove.queryString then
    { m with
      queryString := m.queryString ++ [{ document := d.name, key := ascii "remove.query_string" }] }
  else m

def addForm (m : Merged) (d : Document) : Merged :=
  let added := addNames d.name (ascii "remove.form") maxRuleNames
    (ascii "removed form parameters") 0 d.rules.remove.form m.form
  { m with form := added.1, findings := m.findings ++ added.2 }

def addRemoveJSON (m : Merged) (d : Document) (message : Message) : Merged :=
  let added := addNames d.name (ascii "remove.json." ++ message.text) maxRulePointers
    (ascii "removed " ++ message.text ++ ascii " JSON pointers") 0 (d.rules.remove.json message)
    (m.removeJSON message)
  { m with
    removeJSON := fun each => if each = message then added.1 else m.removeJSON each
    findings := m.findings ++ added.2 }

def places (document key : Bytes) (message : Message) (i : Nat) : List Message → List Origin
  | [] => []
  | each :: rest =>
    (if each = message then [place document key i] else []) ++ places document key message (i + 1) rest

def addBodies (m : Merged) (d : Document) : Merged :=
  { m with
    bodies := fun message => m.bodies message ++
      places d.name (ascii "remove.bodies") message 0 d.rules.remove.bodies
    bodyValues := fun message => m.bodyValues message ++
      places d.name (ascii "remove.body_values") message 0 d.rules.remove.bodyValues }

def addRemovals (m : Merged) (d : Document) : Merged :=
  (((((((m.addRemoveHeaders d).addQuery d).addQueryString d).addForm d).addRemoveJSON d
    .request).addRemoveJSON d .response).addBodies d)

def addMaskHeaders (m : Merged) (d : Document) : Merged :=
  let added := addKept d.name (ascii "mask.headers") maxMaskedHeaders (ascii "masked headers") m.removedHeader
    (fun one first => .masksOtherwise one.name one.value first.origin first.value)
    (d.rules.mask.headers.map (fun one =>
      { written := one.name, name := Text.toLower one.name, value := one.value, number := 0 }))
    m.maskHeaders
  { m with maskHeaders := added.1, findings := m.findings ++ added.2 }

def addTruncate (m : Merged) (d : Document) : Merged :=
  let added := addKept d.name (ascii "truncate.headers") maxTruncatedHeaders (ascii "truncated headers") m.removedHeader
    (fun one first => .truncatesOtherwise one.name one.number first.origin first.number)
    (d.rules.truncate.map (fun one =>
      { written := one.name, name := Text.toLower one.name, value := Text.toLower one.name,
        number := one.length }))
    m.truncate
  { m with truncate := added.1, findings := m.findings ++ added.2 }

def addMaskJSON (fold : Bytes → Bytes) (m : Merged) (d : Document) (message : Message) : Merged :=
  let added := addKept d.name (ascii "mask.json." ++ message.text) maxRulePointers
    (message.text ++ ascii " JSON masks") (m.removedPointer fold message)
    (fun one first => .masksOtherwise one.name one.value first.origin first.value)
    ((d.rules.mask.json message).map (fun one =>
      { written := one.name, name := one.name, value := one.value, number := 0 }))
    (m.maskJSON message)
  { m with
    maskJSON := fun each => if each = message then added.1 else m.maskJSON each
    findings := m.findings ++ added.2 }

def addKeeping (fold : Bytes → Bytes) (m : Merged) (d : Document) : Merged :=
  ((((m.addMaskHeaders d).addTruncate d).addMaskJSON fold d .request).addMaskJSON fold d .response)

def maskedTruncations (m : Merged) : List Finding :=
  m.truncate.entries.flatMap (fun truncated =>
    match m.maskHeaders.find truncated.name with
    | some mask =>
      if m.removedHeader truncated.name = false then
        [refusal truncated.origin .ruleConflict (.masksTruncated truncated.name mask.origin)]
      else []
    | none => [])

def overlaps (fold : Bytes → Bytes) (m : Merged) (message : Message) : List Entry → List Finding
  | [] => []
  | a :: rest =>
    rest.flatMap (fun b =>
      if a.value = b.value ∨ mayMatch fold (pointerTokens a.name) (pointerTokens b.name) = false then []
      else if m.removedPointer fold message a.name = true ∨ m.removedPointer fold message b.name = true then []
      else
        [refusal b.origin .ruleConflict (.masksMayMatch b.name b.value a.origin a.name a.value)]) ++
      overlaps fold m message rest

end Merged

def merge (fold : Bytes → Bytes) (documents : List Document) : Merged :=
  let m := documents.foldl Merged.addRemovals {}
  let m := documents.foldl (Merged.addKeeping fold) m
  { m with
    findings := m.findings ++ m.maskedTruncations ++
      m.overlaps fold .request (m.maskJSON .request).entries ++
      m.overlaps fold .response (m.maskJSON .response).entries }

end EdgeObserver.Config
