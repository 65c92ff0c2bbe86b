import EdgeObserver.Config.Covered

/-!
# The plan of accepted rules

Rules that reading and merging accept compile to a plan that passes the check
against the documents as they were read.
-/

set_option autoImplicit false

namespace EdgeObserver.Config

def Overlaps (fold : Bytes → Bytes) (removal mask : Bytes) : Prop :=
  (pointerTokens removal).length ≤ (pointerTokens mask).length ∧
    mayMatch fold (pointerTokens removal) ((pointerTokens mask).take (pointerTokens removal).length) = true

def Slot.RemovesPointer (slot : Slot) (message : Message) (pointer : Bytes) : Prop :=
  ((slot.implementation = .removeJSONFields ∧ message ∈ slot.arguments.messages) ∨
    (slot.implementation = .requestBodyFields ∧ message = .request)) ∧
    pointer ∈ slot.arguments.pointers

def Slot.MasksPointer (slot : Slot) (message : Message) (rule : NamedValue) : Prop :=
  (slot.implementation = .replaceJSONValues ∧ message ∈ slot.arguments.messages ∧
    rule.name ∈ slot.arguments.pointers ∧ slot.arguments.value = rule.value) ∨
  (slot.implementation = .requestBodyFields ∧ message = .request ∧ rule ∈ slot.arguments.masks)

/-- The slots do what every document asks: each removal is made, each mask and
each truncation that no removal overlaps is made, and in order. -/
structure Covers (fold : Bytes → Bytes) (documents : List Document) (slots : List Slot) : Prop where
  headers : ∀ d ∈ documents, ∀ name ∈ d.rules.remove.headers, ∃ slot ∈ slots,
    slot.implementation = .removeHeaders ∧ Text.toLower name ∈ slot.arguments.headers
  queryString : ∀ d ∈ documents, d.rules.remove.queryString = true → ∃ slot ∈ slots, slot.implementation = .removeQuery
  query : ∀ d ∈ documents, ∀ name ∈ d.rules.remove.query, ∃ slot ∈ slots,
    slot.implementation = .removeQueryParameters ∧ name ∈ slot.arguments.names
  form : ∀ d ∈ documents, ∀ name ∈ d.rules.remove.form, ∃ slot ∈ slots,
    (slot.implementation = .removeFormFields ∨ slot.implementation = .requestBodyFields) ∧ name ∈ slot.arguments.names
  json : ∀ d ∈ documents, ∀ message, ∀ pointer ∈ d.rules.remove.json message,
    ∃ slot ∈ slots, slot.RemovesPointer message pointer
  bodies : ∀ d ∈ documents, ∀ message ∈ d.rules.remove.bodies, ∃ slot ∈ slots,
    slot.implementation = .removeBody ∧ message ∈ slot.arguments.messages
  bodyValues : ∀ d ∈ documents, ∀ message ∈ d.rules.remove.bodyValues, ∃ slot ∈ slots,
    slot.implementation = .reduceBodyToStructure ∧ message ∈ slot.arguments.messages
  maskHeaders : ∀ d ∈ documents, ∀ rule ∈ d.rules.mask.headers,
    (∀ d ∈ documents, ∀ name ∈ d.rules.remove.headers, Text.toLower name ≠ Text.toLower rule.name) →
    ∃ slot ∈ slots, slot.implementation = .replaceHeaderValues ∧
      Text.toLower rule.name ∈ slot.arguments.headers ∧ slot.arguments.value = rule.value
  maskJSON : ∀ d ∈ documents, ∀ message, ∀ rule ∈ d.rules.mask.json message,
    (∀ d ∈ documents, ∀ removal ∈ d.rules.remove.json message, ¬ Overlaps fold removal rule.name) →
    ∃ slot ∈ slots, slot.MasksPointer message rule
  truncate : ∀ d ∈ documents, ∀ rule ∈ d.rules.truncate,
    (∀ d ∈ documents, ∀ name ∈ d.rules.remove.headers, Text.toLower name ≠ Text.toLower rule.name) →
    ∃ slot ∈ slots, slot.implementation = .truncateHeaderValues ∧
      Text.toLower rule.name ∈ slot.arguments.headers ∧ slot.arguments.length = rule.length
  ordered : slots.Pairwise (fun a b => a.implementation.Before b.implementation)

section Covering

variable {fold : Bytes → Bytes} {m : Merged} {documents : List Document}

variable {name pointer : Bytes} {one : Entry} {l : EntryList} {message : Message}

theorem entries_of_name (listed : name ∈ l.names) : l.entries ≠ [] := names_ne_nil.mp (List.ne_nil_of_mem listed)

theorem combined_or (m : Merged) (message : Message) :
    (message = .request ∧ m.combined = true) ∨ (message = .request → m.combined = false) := by
  cases m.combined <;> simp [em]

theorem pointer_slot (ready : m.Ready) (listed : pointer ∈ (m.removeJSON message).names) :
    ∃ slot ∈ m.slots, slot.RemovesPointer message pointer := by
  rcases combined_or m message with ⟨rfl, both⟩ | apart
  · obtain ⟨slot, member, is, has⟩ := (Merged.Asks.requestFields both).slot ready
    exact ⟨slot, member, .inr ⟨is, rfl⟩, has ▸ listed⟩
  · obtain ⟨slot, member, is, has⟩ := (Merged.Asks.json message apart (entries_of_name listed)).slot ready
    exact ⟨slot, member, .inl ⟨is, has ▸ List.mem_singleton.mpr rfl⟩, has ▸ listed⟩

theorem form_slot (ready : m.Ready) (listed : name ∈ m.form.names) :
    ∃ slot ∈ m.slots,
      (slot.implementation = .removeFormFields ∨ slot.implementation = .requestBodyFields) ∧
        name ∈ slot.arguments.names := by
  cases both : m.combined with
  | true =>
    obtain ⟨slot, member, is, has⟩ := (Merged.Asks.requestFields both).slot ready
    exact ⟨slot, member, .inr is, has ▸ listed⟩
  | false =>
    obtain ⟨slot, member, is, has⟩ := (Merged.Asks.form both (entries_of_name listed)).slot ready
    exact ⟨slot, member, .inl is, has ▸ listed⟩

theorem group_of {α : Type} [DecidableEq α] (keeps : Entry → α) (listed : one ∈ l.entries) :
    ∃ group ∈ groupBy keeps l.entries, one.name ∈ group.names ∧ group.keeps = keeps one := by
  have grouped := groupBy_grouped keeps l.entries
  obtain ⟨group, member, is⟩ := grouped.all one listed
  exact ⟨group, member, (grouped.mem_names member).mpr ⟨one, listed, is.symm, rfl⟩, is⟩

theorem mask_slot (ready : m.Ready) (listed : one ∈ (m.maskJSON message).entries) :
    ∃ slot ∈ m.slots, slot.MasksPointer message (maskRule one) := by
  rcases combined_or m message with ⟨rfl, both⟩ | apart
  · obtain ⟨slot, member, is, has⟩ := (Merged.Asks.requestFields both).slot ready
    exact ⟨slot, member, .inr ⟨is, rfl, has ▸ List.mem_map_of_mem listed⟩⟩
  · obtain ⟨group, among, named, keeps⟩ := group_of Entry.value listed
    obtain ⟨slot, member, is, has⟩ := (Merged.Asks.maskJSON message apart group among).slot ready
    refine ⟨slot, member, .inl ⟨is, ?_, ?_, ?_⟩⟩
    · exact has ▸ List.mem_singleton.mpr rfl
    · exact has ▸ named
    · exact has ▸ keeps

theorem removedPointer_iff :
    m.removedPointer fold message pointer = true ↔
      ∃ removal ∈ (m.removeJSON message).names, Overlaps fold removal pointer := by
  simp [Merged.removedPointer, EntryList.names, Overlaps]

theorem removedHeader_iff :
    m.removedHeader name = true ↔ name ∈ m.removeHeaders.names := by
  simp [Merged.removedHeader, EntryList.has, EntryList.find, EntryList.names]

theorem merge_kept (accepted : (merge fold documents).findings = []) {d : Document}
    (member : d ∈ documents) : (merge fold documents).Kept d := by
  obtain ⟨_, _, kept⟩ := keeping_kept documents _ (merge_accepted accepted)
  exact { kept d member with }

theorem unremoved_header (free : ∀ d ∈ documents, ∀ header ∈ d.rules.remove.headers, Text.toLower header ≠ name) :
    ¬ (merge fold documents).removedHeader name = true := by
  intro removed
  obtain ⟨d, member, written⟩ := ((merge_gathered fold documents).headers name).mp (removedHeader_iff.mp removed)
  obtain ⟨header, listed, is⟩ := List.mem_map.mp written
  exact free d member header listed is

theorem slots_cover (valid : ∀ d ∈ documents, d.rules.Valid) (accepted : (merge fold documents).findings = []) :
    Covers fold documents (merge fold documents).slots := by
  have ready := merge_ready valid accepted
  have gathered := merge_gathered fold documents
  obtain ⟨_, _, masked⟩ := keeping_masked documents _ (merge_accepted accepted)
  refine ⟨?_, ?_, ?_, ?_, ?_, ?_, ?_, ?_, ?_, ?_, slots_ordered ready⟩
  · intro d member name written
    have listed := (gathered.headers _).mpr ⟨d, member, List.mem_map_of_mem written⟩
    obtain ⟨slot, among, is, has⟩ := (Merged.Asks.headers (entries_of_name listed)).slot ready
    exact ⟨slot, among, is, has ▸ listed⟩
  · intro d member written
    have some_ := gathered.queryString.mpr ⟨d, member, written⟩
    obtain ⟨slot, among, is, _⟩ := (Merged.Asks.queryString some_).slot ready
    exact ⟨slot, among, is⟩
  · intro d member name written
    have listed := (gathered.query name).mpr ⟨d, member, written⟩
    obtain ⟨slot, among, is, has⟩ := (Merged.Asks.query (entries_of_name listed)).slot ready
    exact ⟨slot, among, is, has ▸ listed⟩
  · intro d member name written
    exact form_slot ready ((gathered.form name).mpr ⟨d, member, written⟩)
  · intro d member message pointer written
    exact pointer_slot ready ((gathered.json message pointer).mpr ⟨d, member, written⟩)
  · intro d member message written
    have selected := mem_selectedBy.mpr ((gathered.bodies message).mpr ⟨d, member, written⟩)
    obtain ⟨slot, among, is, has⟩ := (Merged.Asks.bodies (List.ne_nil_of_mem selected)).slot ready
    exact ⟨slot, among, is, has ▸ selected⟩
  · intro d member message written
    have selected := mem_selectedBy.mpr ((gathered.bodyValues message).mpr ⟨d, member, written⟩)
    obtain ⟨slot, among, is, has⟩ := (Merged.Asks.bodyValues (List.ne_nil_of_mem selected)).slot ready
    exact ⟨slot, among, is, has ▸ selected⟩
  · intro d member rule written free
    obtain ⟨one, listed, own, keeps | removed⟩ := (merge_kept accepted member).mask rule written
    · obtain ⟨group, among, named, has⟩ := group_of Entry.value listed
      obtain ⟨slot, within, is, carries⟩ := (Merged.Asks.maskHeaders group among).slot ready
      refine ⟨slot, within, is, ?_, ?_⟩
      · exact carries ▸ own ▸ named
      · exact carries ▸ has.trans keeps.1
    · exact absurd removed (unremoved_header free)
  · intro d member message rule written free
    obtain ⟨one, listed, own, keeps | removed⟩ := masked message d member rule written
    · obtain ⟨slot, within, masks⟩ := mask_slot ready listed
      have same : maskRule one = rule := by
        cases rule
        cases own
        cases keeps
        rfl
      exact ⟨slot, within, same ▸ masks⟩
    · obtain ⟨removal, among, overlaps⟩ := removedPointer_iff.mp removed
      obtain ⟨other, listed', has⟩ := (gathered.json message removal).mp among
      exact absurd overlaps (free other listed' removal has)
  · intro d member rule written free
    obtain ⟨one, listed, own, keeps | removed⟩ := (merge_kept accepted member).truncate rule written
    · obtain ⟨group, among, named, has⟩ := group_of Entry.number listed
      obtain ⟨slot, within, is, carries⟩ := (Merged.Asks.truncate group among).slot ready
      refine ⟨slot, within, is, ?_, ?_⟩
      · exact carries ▸ own ▸ named
      · exact carries ▸ has.trans keeps.2
    · exact absurd removed (unremoved_header free)

end Covering

section Fields

theorem cutFront_append (front rest : Bytes) : cutFront front (front ++ rest) = some rest := by
  induction front with
  | nil => rfl
  | cons b front ih => simpa [cutFront] using ih

theorem apart_at {a b : Bytes} (i : Nat) (differ : a[i]? ≠ b[i]?) : a ≠ b := by
  rintro rfl
  exact differ rfl

theorem parse_header {name : Bytes} (headed : Headed name) :
    parseExclusionField (headerFieldPrefix ++ name) = some (.header name) := by
  unfold parseExclusionField
  rw [if_neg (apart_at 8 (by rintro ⟨⟩)), if_neg (apart_at 8 (by rintro ⟨⟩)),
    if_neg (apart_at 8 (by rintro ⟨⟩)), cutFront_append]
  simp [headed.1, headed.2]

theorem parse_query {name : Bytes} (valid : validParameterName name = .ok ()) :
    parseExclusionField (queryFieldPrefix ++ name) = some (.query name) := by
  have header : cutFront headerFieldPrefix (queryFieldPrefix ++ name) = none := rfl
  unfold parseExclusionField
  rw [if_neg (apart_at 8 (by rintro ⟨⟩)), if_neg (apart_at 8 (by rintro ⟨⟩)),
    if_neg (apart_at 8 (by rintro ⟨⟩)), header, cutFront_append]
  simp [valid]

theorem parse_form {name : Bytes} (valid : validParameterName name = .ok ()) :
    parseExclusionField (formFieldPrefix ++ name) = some (.form name) := by
  have header : cutFront headerFieldPrefix (formFieldPrefix ++ name) = none := rfl
  have query : cutFront queryFieldPrefix (formFieldPrefix ++ name) = none := rfl
  unfold parseExclusionField
  rw [if_neg (apart_at 8 (by rintro ⟨⟩)), if_neg (apart_at 8 (by rintro ⟨⟩)),
    if_neg (apart_at 8 (by rintro ⟨⟩)), header, query, cutFront_append]
  simp [valid]

theorem parse_json {pointer : Bytes} (valid : validPointer pointer = .ok ()) :
    parseExclusionField (jsonFieldPrefix ++ pointer) = some (.json pointer) := by
  have header : cutFront headerFieldPrefix (jsonFieldPrefix ++ pointer) = none := rfl
  have query : cutFront queryFieldPrefix (jsonFieldPrefix ++ pointer) = none := rfl
  have form : cutFront formFieldPrefix (jsonFieldPrefix ++ pointer) = none := rfl
  unfold parseExclusionField
  rw [if_neg (apart_at 12 (by rintro ⟨⟩)), if_neg (apart_at 13 (by rintro ⟨⟩)),
    if_neg (apart_at 8 (by rintro ⟨⟩)), header, query, form, cutFront_append]
  simp [valid]

end Fields

def Recorded (m : Merged) (field : Bytes) (message : Message) : Prop :=
  ∃ e ∈ exclusionsOf m, e.field = field ∧ message ∈ e.messages

section Exclusions

variable {m : Merged} {name : Bytes} {message : Message}

theorem header_recorded (listed : name ∈ m.removeHeaders.names) :
    Recorded m (headerFieldPrefix ++ name) .request := by
  obtain ⟨one, member, rfl⟩ := List.mem_map.mp listed
  exact ⟨_, List.mem_append_left _ (List.mem_append_left _ (List.mem_append_left _
    (List.mem_append_left _ (List.mem_append_left _ (List.mem_append_left _
      (List.mem_map_of_mem member)))))), rfl, List.mem_singleton.mpr rfl⟩

theorem queryString_recorded (some_ : m.queryString ≠ []) :
    Recorded m targetQueryField .request := by
  obtain ⟨first, rest, is⟩ := List.exists_cons_of_ne_nil some_
  have member : first ∈ m.queryString.head?.toList := by simp [is]
  exact ⟨_, List.mem_append_left _ (List.mem_append_left _ (List.mem_append_left _
    (List.mem_append_left _ (List.mem_append_left _ (List.mem_append_right _
      (List.mem_map_of_mem member)))))), rfl, List.mem_singleton.mpr rfl⟩

theorem query_recorded (listed : name ∈ m.query.names) :
    Recorded m (queryFieldPrefix ++ name) .request := by
  obtain ⟨one, member, rfl⟩ := List.mem_map.mp listed
  exact ⟨_, List.mem_append_left _ (List.mem_append_left _ (List.mem_append_left _
    (List.mem_append_left _ (List.mem_append_right _ (List.mem_map_of_mem member))))), rfl, List.mem_singleton.mpr rfl⟩

theorem form_recorded (listed : name ∈ m.form.names) :
    Recorded m (formFieldPrefix ++ name) .request := by
  obtain ⟨one, member, rfl⟩ := List.mem_map.mp listed
  exact ⟨_, List.mem_append_left _ (List.mem_append_left _ (List.mem_append_left _
    (List.mem_append_right _ (List.mem_map_of_mem member)))), rfl, List.mem_singleton.mpr rfl⟩

theorem message_listed (message : Message) : message ∈ [Message.request, Message.response] := by
  cases message <;> decide

theorem json_recorded (listed : name ∈ (m.removeJSON message).names) :
    Recorded m (jsonFieldPrefix ++ name) message := by
  obtain ⟨one, member, rfl⟩ := List.mem_map.mp listed
  exact ⟨_, List.mem_append_left _ (List.mem_append_left _ (List.mem_append_right _
    (List.mem_flatMap.mpr ⟨message, message_listed message, List.mem_map_of_mem member⟩))), rfl,
      List.mem_singleton.mpr rfl⟩

theorem bodies_recorded (some_ : m.bodies message ≠ []) : Recorded m bodyField message := by
  obtain ⟨first, rest, is⟩ := List.exists_cons_of_ne_nil some_
  have member : first ∈ (m.bodies message).head?.toList := by simp [is]
  exact ⟨_, List.mem_append_left _ (List.mem_append_right _
    (List.mem_flatMap.mpr ⟨message, message_listed message, List.mem_map_of_mem member⟩)), rfl,
      List.mem_singleton.mpr rfl⟩

theorem bodyValues_recorded (some_ : m.bodyValues message ≠ []) :
    Recorded m bodyValuesField message := by
  obtain ⟨first, rest, is⟩ := List.exists_cons_of_ne_nil some_
  have member : first ∈ (m.bodyValues message).head?.toList := by simp [is]
  exact ⟨_, List.mem_append_right _
    (List.mem_flatMap.mpr ⟨message, message_listed message, List.mem_map_of_mem member⟩), rfl,
      List.mem_singleton.mpr rfl⟩

end Exclusions

structure Enforced (m : Merged) (field : Bytes) (message : Message) : Prop where
  recorded : Recorded m field message
  removed : ∃ parsed, parseExclusionField field = some parsed ∧ ∃ slot ∈ m.slots, message ∈ covers slot parsed

section Enforcing

variable {fold : Bytes → Bytes} {documents : List Document}

theorem pointer_covered {slot : Slot} {message : Message} {pointer : Bytes}
    (removes : slot.RemovesPointer message pointer) : message ∈ covers slot (.json pointer) := by
  obtain ⟨kind, listed⟩ := removes
  have found : slot.arguments.pointers.any (fun one =>
      decide (pointerTokens one = (pointerTokens pointer).take (pointerTokens one).length)) = true := by
    rw [List.any_eq_true]
    exact ⟨pointer, listed, by simp⟩
  rcases kind with ⟨is, among⟩ | ⟨is, rfl⟩
  · simp [covers, is, found, among]
  · simp [covers, is, found]

theorem removals_enforced (valid : ∀ d ∈ documents, d.rules.Valid)
    (accepted : (merge fold documents).findings = []) {d : Document} (member : d ∈ documents)
    {key field : Bytes} {message : Message} (removal : (key, field, message) ∈ removalsOf d) :
    Enforced (merge fold documents) field message := by
  have cover := slots_cover valid accepted
  have gathered := merge_gathered fold documents
  have rules := valid d member
  have json : ∀ message, ∀ pointer ∈ d.rules.remove.json message,
      Enforced (merge fold documents) (jsonFieldPrefix ++ pointer) message := by
    intro message pointer written
    obtain ⟨slot, within, removes⟩ := cover.json d member message pointer written
    exact ⟨json_recorded ((gathered.json message pointer).mpr ⟨d, member, written⟩), _,
      parse_json (rules.json message pointer written), slot, within, pointer_covered removes⟩
  simp only [removalsOf, List.mem_append, List.mem_map, Prod.mk.injEq] at removal
  rcases removal with ((((((headers | queryString) | query) | form) | request) | response) | bodies) | bodyValues
  · obtain ⟨⟨name, i⟩, among, _, rfl, rfl⟩ := headers
    have written := List.fst_mem_of_mem_zipIdx among
    obtain ⟨slot, within, is, has⟩ := cover.headers d member name written
    refine ⟨header_recorded ((gathered.headers _).mpr ⟨d, member, List.mem_map_of_mem written⟩),
      _, parse_header (toLower_headed (rules.headers name written)), slot, within, ?_⟩
    simp [covers, is, has]
  · split at queryString
    · rename_i written
      cases List.mem_singleton.mp queryString
      obtain ⟨slot, within, is⟩ := cover.queryString d member written
      refine ⟨queryString_recorded (gathered.queryString.mpr ⟨d, member, written⟩), .targetQuery, rfl, slot, within, ?_⟩
      simp [covers, is]
    · cases queryString
  · obtain ⟨⟨name, i⟩, among, _, rfl, rfl⟩ := query
    have written := List.fst_mem_of_mem_zipIdx among
    obtain ⟨slot, within, is, has⟩ := cover.query d member name written
    refine ⟨query_recorded ((gathered.query name).mpr ⟨d, member, written⟩), _,
      parse_query (rules.query name written), slot, within, ?_⟩
    simp [covers, is, has]
  · obtain ⟨⟨name, i⟩, among, _, rfl, rfl⟩ := form
    have written := List.fst_mem_of_mem_zipIdx among
    obtain ⟨slot, within, is, has⟩ := cover.form d member name written
    refine ⟨form_recorded ((gathered.form name).mpr ⟨d, member, written⟩), _,
      parse_form (rules.form name written), slot, within, ?_⟩
    rcases is with is | is <;> simp [covers, is, has]
  · obtain ⟨⟨pointer, i⟩, among, _, rfl, rfl⟩ := request
    exact json .request pointer (List.fst_mem_of_mem_zipIdx among)
  · obtain ⟨⟨pointer, i⟩, among, _, rfl, rfl⟩ := response
    exact json .response pointer (List.fst_mem_of_mem_zipIdx among)
  · obtain ⟨⟨message, i⟩, among, _, rfl, rfl⟩ := bodies
    have written := List.fst_mem_of_mem_zipIdx among
    obtain ⟨slot, within, is, has⟩ := cover.bodies d member message written
    refine ⟨bodies_recorded ((gathered.bodies message).mpr ⟨d, member, written⟩), .body, rfl, slot, within, ?_⟩
    simp [covers, is, has]
  · obtain ⟨⟨message, i⟩, among, _, rfl, rfl⟩ := bodyValues
    have written := List.fst_mem_of_mem_zipIdx among
    obtain ⟨slot, within, is, has⟩ := cover.bodyValues d member message written
    refine ⟨bodyValues_recorded ((gathered.bodyValues message).mpr ⟨d, member, written⟩),
      .bodyValues, rfl, slot, within, ?_⟩
    simp [covers, is, has]

end Enforcing

section Plans

variable {fold : Bytes → Bytes} {documents : List Document} {m : Merged}

theorem slots_compiled (ready : m.Ready) :
    m.operations.map Operation.slot = m.slots.map Except.ok := by
  have each : ∀ one ∈ m.operations, ∃ slot, one.slot = .ok slot ∧
      slot.implementation = one.implementation := fun one member => operations_slot ready member
  unfold Merged.slots
  generalize m.operations = operations at each ⊢
  induction operations with
  | nil => rfl
  | cons one rest ih =>
    obtain ⟨slot, ok, _⟩ := each one List.mem_cons_self
    have later := ih fun other member => each other (List.mem_cons_of_mem _ member)
    rw [List.map_cons, later, List.filterMap_cons, ok]
    rfl

theorem no_failures (ready : m.Ready) :
    m.operations.filterMap Operation.failure = [] := by
  refine List.filterMap_eq_nil_iff.mpr fun one member => ?_
  obtain ⟨slot, ok, _⟩ := operations_slot ready member
  rw [Operation.failure, ok]

def planOf (writeContent : Bool) (m : Merged) : Plan :=
  { pipelines :=
      (if writeContent then
        [{ name := ascii "exchanges", input := .reconstruction, slots := m.slots,
           sinks := [ascii "account"] }]
      else []) ++
      [{ name := ascii "connections", input := .connection, slots := [],
         sinks := [ascii "account"] }]
    exclusions := exclusionsOf m }

theorem generate_ok (writeContent : Bool) (ready : m.Ready) :
    generate writeContent m = .ok (planOf writeContent m) := by
  have few := slots_length ready.bounded
  unfold Merged.slots at few
  unfold generate
  dsimp only
  rw [no_failures ready, if_neg (fun other => other rfl), if_neg (Nat.not_lt.mpr few)]
  rfl

theorem pipeline_slots {writeContent : Bool} {pipeline : Pipeline}
    (listed : pipeline ∈ (planOf writeContent m).pipelines)
    (reads : pipeline.input = .reconstruction) : pipeline.slots = m.slots := by
  simp only [planOf, List.mem_append] at listed
  rcases listed with exchanges | connections
  · split at exchanges
    · cases List.mem_singleton.mp exchanges
      rfl
    · cases exchanges
  · cases List.mem_singleton.mp connections
    cases reads

theorem checkRemoval_ok {writeContent : Bool} {d : Document} {key field : Bytes}
    {message : Message} (enforced : Enforced m field message) :
    checkRemoval (planOf writeContent m) d (key, field, message) = [] := by
  obtain ⟨⟨e, listed, same, among⟩, parsed, is, slot, within, covered⟩ := enforced
  have recorded : (planOf writeContent m).exclusions.any
      (fun e => decide (e.field = field ∧ message ∈ e.messages)) = true :=
    List.any_eq_true.mpr ⟨e, listed, by simp [same, among]⟩
  simp only [checkRemoval, is, recorded, if_true, List.nil_append]
  refine List.flatMap_eq_nil_iff.mpr fun pipeline member => ?_
  obtain ⟨member, reads⟩ := List.mem_filter.mp member
  have removed : pipeline.slots.any (fun slot => decide (message ∈ covers slot parsed)) = true := by
    rw [pipeline_slots member (by simpa using reads)]
    exact List.any_eq_true.mpr ⟨slot, within, by simp [covered]⟩
  rw [if_pos removed]

/-- Whatever reading and merging accept compiles to a plan that passes the check
against the documents, and whose slots cover them where content is written. -/
theorem generate_covers (fold : Bytes → Bytes) (writeContent : Bool) (documents : List Document)
    (read : ∀ d ∈ documents, ∃ root, readRules root = (d.rules, []))
    (accepted : (merge fold documents).findings = []) :
    ∃ plan slots, generate writeContent (merge fold documents) = .ok plan ∧ assertCoverage documents plan = [] ∧
      (merge fold documents).operations.map Operation.slot = slots.map Except.ok ∧
      slots.length ≤ maxCompiledSlots ∧
      (∀ pipeline ∈ plan.pipelines, pipeline.input = .reconstruction → pipeline.slots = slots) ∧
      (writeContent = true → ∃ pipeline ∈ plan.pipelines, pipeline.input = .reconstruction) ∧
      Covers fold documents slots := by
  have valid : ∀ d ∈ documents, d.rules.Valid := by
    intro d member
    obtain ⟨root, is⟩ := read d member
    have rules := readRules_valid root
    rw [is] at rules
    exact rules
  have ready := merge_ready valid accepted
  refine ⟨planOf writeContent (merge fold documents), (merge fold documents).slots,
    generate_ok writeContent ready, ?_, slots_compiled ready, slots_length ready.bounded,
    fun pipeline listed reads => pipeline_slots listed reads, ?_, slots_cover valid accepted⟩
  · refine List.flatMap_eq_nil_iff.mpr fun d member => ?_
    refine List.flatMap_eq_nil_iff.mpr fun removal listed => ?_
    exact checkRemoval_ok (removals_enforced valid accepted member listed)
  · rintro rfl
    exact ⟨_, List.mem_append_left _ List.mem_cons_self, rfl⟩

/-- A header and a form parameter removed, a request field removed and another
masked, which together make the operation on both grammars. -/
def sampleNode : Node :=
  .object
    [(ascii "remove", .object
      [(ascii "headers", .array [.string (ascii "Cookie")]), (ascii "form", .array [.string (ascii "card")]),
       (ascii "json", .object [(ascii "request", .array [.string (ascii "/card")])])]),
     (ascii "mask", .object
      [(ascii "json", .object [(ascii "request", .object [(ascii "/name", .string (ascii "-"))])])])]

def sampleDocument : Document := { name := ascii "configuration", rules := (readRules sampleNode).1 }

theorem generate_covers_sample :
    sampleDocument.rules.remove.headers = [ascii "Cookie"] ∧
      ∃ plan slots, generate true (merge id [sampleDocument]) = .ok plan ∧ assertCoverage [sampleDocument] plan = [] ∧
        (merge id [sampleDocument]).operations.map Operation.slot = slots.map Except.ok ∧
        slots.length ≤ maxCompiledSlots ∧
        (∀ pipeline ∈ plan.pipelines, pipeline.input = .reconstruction → pipeline.slots = slots) ∧
        (true = true → ∃ pipeline ∈ plan.pipelines, pipeline.input = .reconstruction) ∧
        Covers id [sampleDocument] slots :=
  ⟨by decide, generate_covers id true [sampleDocument]
    (fun d member => by
      cases List.mem_singleton.mp member
      exact ⟨sampleNode, Prod.ext rfl (by decide)⟩) (by decide)⟩

end Plans

end EdgeObserver.Config
