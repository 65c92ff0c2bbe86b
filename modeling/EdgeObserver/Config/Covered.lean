import EdgeObserver.Config.Grouped

/-!
# Accepted rules compile and cover

The rules that reading and merging accept compile without a refusal, every
removal, mask and truncation has its slot, and the slots stand in the order that
lets a removal act before what keeps a value.
-/

set_option autoImplicit false

namespace EdgeObserver.Config

structure Merged.Ready (m : Merged) : Prop where
  bounded : m.Bounded
  keeps : m.Keeps
  headers : ∀ name ∈ m.removeHeaders.names, Headed name
  query : ∀ name ∈ m.query.names, validParameterName name = .ok ()
  form : ∀ name ∈ m.form.names, validParameterName name = .ok ()
  json : ∀ message, ∀ name ∈ (m.removeJSON message).names, validPointer name = .ok ()

theorem merge_ready {fold : Bytes → Bytes} {documents : List Document}
    (valid : ∀ d ∈ documents, d.rules.Valid) (accepted : (merge fold documents).findings = []) :
    (merge fold documents).Ready := by
  have gathered := merge_gathered fold documents
  refine ⟨merge_bounded accepted, merge_keeps valid, ?_, ?_, ?_, ?_⟩
  · intro name listed
    obtain ⟨d, member, written⟩ := (gathered.headers name).mp listed
    obtain ⟨header, among, rfl⟩ := List.mem_map.mp written
    exact toLower_headed ((valid d member).headers header among)
  · intro name listed
    obtain ⟨d, member, written⟩ := (gathered.query name).mp listed
    exact (valid d member).query name written
  · intro name listed
    obtain ⟨d, member, written⟩ := (gathered.form name).mp listed
    exact (valid d member).form name written
  · intro message name listed
    obtain ⟨d, member, written⟩ := (gathered.json message name).mp listed
    exact (valid d member).json message name written

def selectedBy (set : Message → List Origin) : List Message :=
  [Message.request, Message.response].filter (fun message => set message ≠ [])

theorem mem_selectedBy {set : Message → List Origin} {message : Message} :
    message ∈ selectedBy set ↔ set message ≠ [] := by
  unfold selectedBy
  cases message <;> simp

theorem selectedBy_selections {set : Message → List Origin} (some_ : selectedBy set ≠ []) :
    selectedBy set ∈ selections := by
  unfold selectedBy at some_ ⊢
  by_cases request : set .request = [] <;> by_cases response : set .response = [] <;> simp_all [selections]

def maskRule (one : Entry) : NamedValue := { name := one.name, value := one.value }

/-- The operations merged rules ask for: each kind, the object it is given and
what that object compiles to. -/
inductive Merged.Asks (m : Merged) : Implementation → Given → Arguments → Prop where
  | headers (some_ : m.removeHeaders.entries ≠ []) :
      Asks m .removeHeaders { headers := some m.removeHeaders.names } { headers := m.removeHeaders.names }
  | queryString (some_ : m.queryString ≠ []) : Asks m .removeQuery {} {}
  | query (some_ : m.query.entries ≠ []) :
      Asks m .removeQueryParameters { names := some m.query.names } { names := m.query.names }
  | bodies (some_ : selectedBy m.bodies ≠ []) :
      Asks m .removeBody { messages := some ((selectedBy m.bodies).map Message.text) }
        { messages := selectedBy m.bodies }
  | requestFields (both : m.combined = true) :
      Asks m .requestBodyFields
        { names := some m.form.names
          pointers := some (m.removeJSON .request).names
          masks := some ((m.maskJSON .request).entries.map (fun one => (one.name, some one.value))) }
        { names := m.form.names, pointers := (m.removeJSON .request).names,
          masks := (m.maskJSON .request).entries.map maskRule }
  | form (apart : m.combined = false) (some_ : m.form.entries ≠ []) :
      Asks m .removeFormFields { names := some m.form.names } { names := m.form.names }
  | json (message : Message) (apart : message = .request → m.combined = false)
      (some_ : (m.removeJSON message).entries ≠ []) :
      Asks m .removeJSONFields { messages := some [message.text], pointers := some (m.removeJSON message).names }
        { messages := [message], pointers := (m.removeJSON message).names }
  | maskHeaders (group : Group Bytes) (listed : group ∈ groupBy Entry.value m.maskHeaders.entries) :
      Asks m .replaceHeaderValues { headers := some group.names, value := some group.keeps }
        { headers := group.names, value := group.keeps }
  | maskJSON (message : Message) (apart : message = .request → m.combined = false)
      (group : Group Bytes) (listed : group ∈ groupBy Entry.value (m.maskJSON message).entries) :
      Asks m .replaceJSONValues
        { messages := some [message.text], pointers := some group.names,
          value := some group.keeps }
        { messages := [message], pointers := group.names, value := group.keeps }
  | truncate (group : Group Nat) (listed : group ∈ groupBy Entry.number m.truncate.entries) :
      Asks m .truncateHeaderValues { headers := some group.names, length := some group.keeps }
        { headers := group.names, length := group.keeps }
  | bodyValues (some_ : selectedBy m.bodyValues ≠ []) :
      Asks m .reduceBodyToStructure { messages := some ((selectedBy m.bodyValues).map Message.text) }
        { messages := selectedBy m.bodyValues }

section Asked

variable {m : Merged} {implementation : Implementation} {given : Given} {arguments : Arguments}

theorem Merged.Asks.fits (asks : m.Asks implementation given arguments) :
    Fits implementation given arguments := by
  cases asks <;>
    refine ⟨fun one => by cases one <;> rfl, rfl, rfl, rfl, ?_, rfl, rfl, ?_⟩ <;>
    simp [givenMask, maskRule, Function.comp_def]

variable {l : EntryList} {names : List Bytes} {α : Type}

theorem names_ne_nil : l.names ≠ [] ↔ l.entries ≠ [] := by
  unfold EntryList.names
  simp

theorem headerNames_of (within : names.Sublist l.names) (some_ : names ≠ []) (few : l.entries.length ≤ maxHeaderNames)
    (headed : ∀ name ∈ l.names, Headed name) : HeaderNames names where
  nonempty := some_
  few := by
    have short := within.length_le
    rw [EntryList.names, List.length_map] at short
    exact Nat.le_trans short few
  headed name member := headed name (within.subset member)
  apart := within.nodup l.distinct

theorem selectors_of {valid : Bytes → Except Unfit Unit} (within : names.Sublist l.names) (some_ : names ≠ [])
    (few : l.entries.length ≤ maxFieldSelectors) (passes : ∀ name ∈ l.names, valid name = .ok ()) :
    Selectors valid names where
  nonempty := some_
  few := by
    have short := within.length_le
    rw [EntryList.names, List.length_map] at short
    exact Nat.le_trans short few
  passes name member := passes name (within.subset member)
  apart := within.nodup l.distinct

theorem all_names {P : Bytes → Bytes → Nat → Prop} {Q : Bytes → Prop}
    (all : l.All P) (gives : ∀ name value number, P name value number → Q name) :
    ∀ name ∈ l.names, Q name := by
  intro name listed
  obtain ⟨one, member, rfl⟩ := List.mem_map.mp listed
  exact gives _ _ _ (all one member)

theorem group_kept [DecidableEq α] {keeps : Entry → α} {group : Group α} (listed : group ∈ groupBy keeps l.entries) :
    ∃ one ∈ l.entries, keeps one = group.keeps :=
  (groupBy_grouped keeps l.entries).kept group listed

theorem group_names [DecidableEq α] {keeps : Entry → α} {group : Group α} (listed : group ∈ groupBy keeps l.entries) :
    group.names.Sublist l.names ∧ group.names ≠ [] :=
  ⟨(groupBy_grouped keeps l.entries).sublist listed, (groupBy_grouped keeps l.entries).nonempty listed⟩

theorem masks_ruled (ready : m.Ready) : MaskRules ((m.maskJSON .request).entries.map maskRule) where
  few := by
    rw [List.length_map]
    exact ready.bounded.maskJSON .request
  passes one member := by
    obtain ⟨entry, listed, rfl⟩ := List.mem_map.mp member
    exact ready.keeps.maskJSON .request entry listed
  apart := by
    rw [List.map_map]
    exact (m.maskJSON .request).distinct

theorem Merged.Asks.sound (ready : m.Ready) (asks : m.Asks implementation given arguments) :
    arguments.Sound implementation := by
  have bounded := ready.bounded
  cases asks with
  | headers some_ =>
    exact removeHeaders_sound (headerNames_of (.refl _) (names_ne_nil.mpr some_) bounded.removeHeaders ready.headers)
  | queryString some_ => exact removeQuery_sound
  | query some_ =>
    exact names_sound rfl (selectors_of (.refl _) (names_ne_nil.mpr some_) bounded.query ready.query)
  | bodies some_ => exact bodies_sound rfl (selectedBy_selections some_)
  | requestFields both =>
    unfold Merged.combined at both
    rw [Bool.and_eq_true, Bool.or_eq_true, decide_eq_true_iff, decide_eq_true_iff, decide_eq_true_iff] at both
    obtain ⟨form, either⟩ := both
    refine requestBodyFields_sound (selectors_of (.refl _) (names_ne_nil.mpr form) bounded.form ready.form) ?_
      (ready.json .request) (m.removeJSON .request).distinct (masks_ruled ready) ?_
    · rw [EntryList.names, List.length_map]
      exact bounded.removeJSON .request
    · rcases either with removals | masks
      · exact .inl (names_ne_nil.mpr removals)
      · exact .inr (by simpa using masks)
  | form apart some_ =>
    exact names_sound rfl (selectors_of (.refl _) (names_ne_nil.mpr some_) bounded.form ready.form)
  | json message apart some_ =>
    exact removeJSONFields_sound message (selectors_of (.refl _) (names_ne_nil.mpr some_)
      (bounded.removeJSON message) (ready.json message))
  | maskHeaders group listed =>
    obtain ⟨within, some_⟩ := group_names listed
    obtain ⟨one, member, is⟩ := group_kept listed
    obtain ⟨_, writable⟩ := ready.keeps.maskHeaders one member
    exact replaceHeaderValues_sound (headerNames_of within some_ bounded.maskHeaders
      (all_names ready.keeps.maskHeaders fun _ _ _ mask => mask.1)) (is ▸ writable)
  | maskJSON message apart group listed =>
    obtain ⟨within, some_⟩ := group_names listed
    obtain ⟨one, member, is⟩ := group_kept listed
    obtain ⟨_, writable⟩ := ready.keeps.maskJSON message one member
    exact replaceJSONValues_sound message (selectors_of within some_ (bounded.maskJSON message)
      (all_names (ready.keeps.maskJSON message) fun _ _ _ mask => mask.1)) (is ▸ writable)
  | truncate group listed =>
    obtain ⟨within, some_⟩ := group_names listed
    obtain ⟨one, member, is⟩ := group_kept listed
    obtain ⟨_, short⟩ := ready.keeps.truncate one member
    exact truncateHeaderValues_sound (headerNames_of within some_ bounded.truncate
      (all_names ready.keeps.truncate fun _ _ _ cut => cut.1)) (is ▸ short)
  | bodyValues some_ => exact bodies_sound rfl (selectedBy_selections some_)

end Asked

def Operation.Of (m : Merged) (one : Operation) : Prop := ∃ arguments, m.Asks one.implementation one.given arguments

def Implementation.removes : Implementation → Bool
  | .removeHeaders | .removeBody | .removeQuery | .removeJSONFields | .removeFormFields
  | .removeQueryParameters | .requestBodyFields => true
  | _ => false

def Implementation.keeps : Implementation → Bool
  | .replaceHeaderValues | .replaceJSONValues | .truncateHeaderValues => true
  | _ => false

section Operations

variable {m : Merged}

variable {name : Bytes} {implementation : Implementation} {message : Message} {one : Operation}

theorem removal_mem {given : List Bytes → Given} {l : EntryList} :
    one ∈ removal name implementation given l ↔ l.entries ≠ [] ∧
      one = { name, implementation, given := given l.names, documents := l.documents } := by
  unfold removal
  split
  · simp [*]
  · simp [*]

theorem bodyOperation_mem {set : Message → List Origin} :
    one ∈ bodyOperation name implementation set ↔ selectedBy set ≠ [] ∧
      one = { name, implementation,
              given := { messages := some ((selectedBy set).map Message.text) },
              documents := documentsOf ((selectedBy set).flatMap set) } := by
  by_cases none_ : selectedBy set = []
  · have empty : bodyOperation name implementation set = [] := if_pos none_
    simp [empty, none_]
  have single : bodyOperation name implementation set =
      [{ name, implementation,
         given := { messages := some ((selectedBy set).map Message.text) },
         documents := documentsOf ((selectedBy set).flatMap set) }] := if_neg none_
  rw [single, List.mem_singleton]
  exact ⟨fun is => ⟨none_, is⟩, And.right⟩

theorem requestFields_of (member : one ∈ m.requestFields) : one.Of m ∧ one.implementation.removes = true := by
  unfold Merged.requestFields at member
  split at member
  · rename_i both
    cases List.mem_singleton.mp member
    exact ⟨⟨_, .requestFields both⟩, rfl⟩
  · rename_i apart
    rcases List.mem_append.mp member with form | json
    · obtain ⟨some_, rfl⟩ := removal_mem.mp form
      exact ⟨⟨_, .form (by simpa using apart) some_⟩, rfl⟩
    · obtain ⟨some_, rfl⟩ := removal_mem.mp json
      exact ⟨⟨_, .json .request (fun _ => by simpa using apart) some_⟩, rfl⟩

theorem removeOperations_of (member : one ∈ m.removeOperations) :
    one.Of m ∧ one.implementation.removes = true := by
  simp only [Merged.removeOperations, List.mem_append] at member
  rcases member with ((((headers | queryString) | query) | bodies) | request) | response
  · obtain ⟨some_, rfl⟩ := removal_mem.mp headers
    exact ⟨⟨_, .headers some_⟩, rfl⟩
  · split at queryString
    · cases queryString
    · cases List.mem_singleton.mp queryString
      exact ⟨⟨_, .queryString ‹_›⟩, rfl⟩
  · obtain ⟨some_, rfl⟩ := removal_mem.mp query
    exact ⟨⟨_, .query some_⟩, rfl⟩
  · obtain ⟨some_, rfl⟩ := bodyOperation_mem.mp bodies
    exact ⟨⟨_, .bodies some_⟩, rfl⟩
  · exact requestFields_of request
  · obtain ⟨some_, rfl⟩ := removal_mem.mp response
    exact ⟨⟨_, .json .response (fun is => by cases is) some_⟩, rfl⟩

theorem maskJSONOperations_of (member : one ∈ m.maskJSONOperations message) :
    one.Of m ∧ one.implementation.keeps = true := by
  unfold Merged.maskJSONOperations at member
  split at member
  · cases member
  rename_i apart
  obtain ⟨is, group, listed, has⟩ := operationsOf_mem member
  rw [Operation.Of, is, has]
  exact ⟨⟨_, .maskJSON message (fun own => by simpa [own] using apart) group listed⟩, rfl⟩

theorem maskOperations_of (member : one ∈ m.maskOperations ++ m.truncateOperations) :
    one.Of m ∧ one.implementation.keeps = true := by
  simp only [Merged.maskOperations, Merged.truncateOperations, List.mem_append] at member
  rcases member with ((headers | request) | response) | truncate
  · obtain ⟨is, group, listed, has⟩ := operationsOf_mem headers
    rw [Operation.Of, is, has]
    exact ⟨⟨_, .maskHeaders group listed⟩, rfl⟩
  · exact maskJSONOperations_of request
  · exact maskJSONOperations_of response
  · obtain ⟨is, group, listed, has⟩ := operationsOf_mem truncate
    rw [Operation.Of, is, has]
    exact ⟨⟨_, .truncate group listed⟩, rfl⟩

theorem operations_of (member : one ∈ m.operations) : one.Of m := by
  rw [Merged.operations, List.append_assoc m.removeOperations, List.mem_append, List.mem_append] at member
  rcases member with (removes | masks) | bodyValues
  · exact (removeOperations_of removes).1
  · exact (maskOperations_of masks).1
  · obtain ⟨some_, rfl⟩ := bodyOperation_mem.mp bodyValues
    exact ⟨_, .bodyValues some_⟩

theorem mem_removeOperations (member : one ∈ m.removeOperations) :
    one ∈ m.operations := by
  simp [Merged.operations, member]

theorem mem_requestFields (member : one ∈ m.requestFields) : one ∈ m.operations :=
  mem_removeOperations (List.mem_append_left _ (List.mem_append_right _ member))

theorem mem_maskOperations (member : one ∈ m.maskOperations) :
    one ∈ m.operations := by
  simp [Merged.operations, member]

theorem mem_maskJSONOperations
    (member : one ∈ m.maskJSONOperations message) : one ∈ m.operations := by
  cases message with
  | request =>
    exact mem_maskOperations (List.mem_append_left _ (List.mem_append_right _ member))
  | response => exact mem_maskOperations (List.mem_append_right _ member)

theorem Merged.Asks.operation {given : Given} {arguments : Arguments} (asks : m.Asks implementation given arguments) :
    ∃ one ∈ m.operations, one.implementation = implementation ∧ one.given = given := by
  cases asks with
  | headers some_ =>
    exact ⟨_, mem_removeOperations (List.mem_append_left _ (List.mem_append_left _
      (List.mem_append_left _ (List.mem_append_left _ (List.mem_append_left _
        (removal_mem.mpr ⟨some_, rfl⟩)))))), rfl, rfl⟩
  | queryString some_ =>
    refine ⟨{ name := ascii "remove.query_string", implementation := .removeQuery, given := {},
              documents := documentsOf m.queryString }, mem_removeOperations ?_, rfl, rfl⟩
    simp [Merged.removeOperations, some_]
  | query some_ =>
    exact ⟨_, mem_removeOperations (List.mem_append_left _ (List.mem_append_left _
      (List.mem_append_left _ (List.mem_append_right _ (removal_mem.mpr ⟨some_, rfl⟩))))),
      rfl, rfl⟩
  | bodies some_ =>
    exact ⟨_, mem_removeOperations (List.mem_append_left _ (List.mem_append_left _
      (List.mem_append_right _ (bodyOperation_mem.mpr ⟨some_, rfl⟩)))), rfl, rfl⟩
  | requestFields both =>
    have single : m.requestFields = _ := if_pos both
    exact ⟨_, mem_requestFields (single ▸ List.mem_cons_self), rfl, rfl⟩
  | form apart some_ =>
    have split_ : m.requestFields = _ := if_neg (by simp [apart])
    exact ⟨_, mem_requestFields (split_ ▸ List.mem_append_left _ (removal_mem.mpr ⟨some_, rfl⟩)), rfl, rfl⟩
  | json message apart some_ =>
    cases message with
    | request =>
      have split_ : m.requestFields = _ := if_neg (by simp [apart rfl])
      exact ⟨_, mem_requestFields (split_ ▸ List.mem_append_right _ (removal_mem.mpr ⟨some_, rfl⟩)), rfl, rfl⟩
    | response =>
      exact ⟨_, mem_removeOperations (List.mem_append_right _ (removal_mem.mpr ⟨some_, rfl⟩)), rfl, rfl⟩
  | maskHeaders group listed =>
    obtain ⟨one, member, is, has⟩ := mem_operationsOf 1 listed
    exact ⟨one, mem_maskOperations (List.mem_append_left _ (List.mem_append_left _ member)), is, has⟩
  | maskJSON message apart group listed =>
    obtain ⟨one, member, is, has⟩ := mem_operationsOf 1 listed
    have separate : m.maskJSONOperations message = _ := if_neg fun both => by simp [apart both.1] at both
    exact ⟨one, mem_maskJSONOperations (separate ▸ member), is, has⟩
  | truncate group listed =>
    obtain ⟨one, member, is, has⟩ := mem_operationsOf 1 listed
    exact ⟨one, List.mem_append_left _ (List.mem_append_right _ member), is, has⟩
  | bodyValues some_ =>
    exact ⟨_, List.mem_append_right _ (bodyOperation_mem.mpr ⟨some_, rfl⟩), rfl, rfl⟩

end Operations

def Implementation.Before (a b : Implementation) : Prop :=
  a ≠ .reduceBodyToStructure ∧ ¬ (a.keeps = true ∧ b.removes = true)

def Merged.slots (m : Merged) : List Slot := m.operations.filterMap (fun one => one.slot.toOption)

section Slots

variable {m : Merged}

variable {a b : Implementation} {one : Operation}

theorem operations_slot (ready : m.Ready) (member : one ∈ m.operations) :
    ∃ slot, one.slot = .ok slot ∧ slot.implementation = one.implementation := by
  obtain ⟨arguments, asks⟩ := operations_of member
  have carries : one.Carries arguments := ⟨asks.fits, asks.sound ready⟩
  exact ⟨_, carries.slot, rfl⟩

theorem Merged.Asks.slot (ready : m.Ready) {implementation : Implementation} {given : Given}
    {arguments : Arguments} (asks : m.Asks implementation given arguments) :
    ∃ slot ∈ m.slots, slot.implementation = implementation ∧ slot.arguments = arguments := by
  obtain ⟨one, member, rfl, rfl⟩ := asks.operation
  have carries : one.Carries arguments := ⟨asks.fits, asks.sound ready⟩
  refine ⟨one.compiled arguments, List.mem_filterMap.mpr ⟨one, member, ?_⟩, rfl, rfl⟩
  rw [carries.slot]
  rfl

theorem removal_length (name : Bytes) (implementation : Implementation) (given : List Bytes → Given) (l : EntryList) :
    (removal name implementation given l).length ≤ 1 := by
  unfold removal
  split <;> simp

theorem bodyOperation_length (name : Bytes) (implementation : Implementation)
    (set : Message → List Origin) : (bodyOperation name implementation set).length ≤ 1 := by
  unfold bodyOperation
  dsimp only
  split <;> simp

theorem requestFields_length : m.requestFields.length ≤ 2 := by
  unfold Merged.requestFields
  split
  · simp
  · rw [List.length_append]
    exact Nat.add_le_add (removal_length _ _ _ _) (removal_length _ _ _ _)

theorem removeOperations_length : m.removeOperations.length ≤ 7 := by
  have headers := removal_length (ascii "remove.headers") .removeHeaders
    (fun names => { headers := some names }) m.removeHeaders
  have query := removal_length (ascii "remove.query") .removeQueryParameters
    (fun names => { names := some names }) m.query
  have bodies := bodyOperation_length (ascii "remove.bodies") .removeBody m.bodies
  have request := requestFields_length (m := m)
  have response := removal_length (ascii "remove.json.response") .removeJSONFields
    (fun names => { messages := some [Message.response.text], pointers := some names })
    (m.removeJSON .response)
  unfold Merged.removeOperations
  simp only [List.length_append]
  split
  · simp only [List.length_nil]
    omega
  · simp only [List.length_singleton]
    omega

theorem groups_length {α : Type} [DecidableEq α] (name : Bytes) (implementation : Implementation)
    (given : Group α → Given) (keeps : Entry → α) (entries : List Entry) :
    (operationsOf name implementation given 1 (groupBy keeps entries)).length ≤ entries.length := by
  rw [operationsOf_length]
  exact (groupBy_grouped keeps entries).few

theorem maskJSONOperations_length (bounded : m.Bounded) (message : Message) :
    (m.maskJSONOperations message).length ≤ maxRulePointers := by
  unfold Merged.maskJSONOperations
  split
  · exact Nat.zero_le _
  · exact Nat.le_trans (groups_length _ _ _ _ _) (bounded.maskJSON message)

theorem slots_length (bounded : m.Bounded) : m.slots.length ≤ maxCompiledSlots := by
  have removes := removeOperations_length (m := m)
  have headers := Nat.le_trans (groups_length (ascii "mask.headers") .replaceHeaderValues
    (fun group => { headers := some group.names, value := some group.keeps }) Entry.value
    m.maskHeaders.entries) bounded.maskHeaders
  have request := maskJSONOperations_length bounded .request
  have response := maskJSONOperations_length bounded .response
  have truncate := Nat.le_trans (groups_length (ascii "truncate.headers") .truncateHeaderValues
    (fun group => { headers := some group.names, length := some group.keeps }) Entry.number
    m.truncate.entries) bounded.truncate
  have bodyValues := bodyOperation_length (ascii "remove.body_values") .reduceBodyToStructure m.bodyValues
  refine Nat.le_trans (List.length_filterMap_le _ _) ?_
  simp only [Merged.operations, Merged.maskOperations, Merged.truncateOperations, List.length_append, maxCompiledSlots]
  omega

theorem Implementation.keeps_apart (keeps : a.keeps = true) :
    a.removes = false := by
  cases a <;> first | rfl | cases keeps

theorem Implementation.before_of_removes (removes : a.removes = true) :
    a.Before b := by
  refine ⟨?_, fun both => ?_⟩
  · rintro rfl
    cases removes
  · have apart := keeps_apart both.1
    rw [removes] at apart
    cases apart

theorem Implementation.before_of_keeps (keeps : a.keeps = true)
    (other : b.removes = false) : a.Before b := by
  refine ⟨?_, fun both => ?_⟩
  · rintro rfl
    cases keeps
  · rw [other] at both
    cases both.2

theorem operations_ordered :
    m.operations.Pairwise (fun a b => a.implementation.Before b.implementation) := by
  unfold Merged.operations
  rw [List.append_assoc m.removeOperations, List.pairwise_append, List.pairwise_append]
  refine ⟨⟨?_, ?_, ?_⟩, ?_, ?_⟩
  · refine List.pairwise_of_forall_mem_list fun a member b _ => ?_
    exact Implementation.before_of_removes (removeOperations_of member).2
  · refine List.pairwise_of_forall_mem_list fun a member b other => ?_
    exact Implementation.before_of_keeps (maskOperations_of member).2
      (Implementation.keeps_apart (maskOperations_of other).2)
  · intro a member b _
    exact Implementation.before_of_removes (removeOperations_of member).2
  · unfold bodyOperation
    dsimp only
    split
    · exact .nil
    · exact List.pairwise_singleton _ _
  · intro a member b last
    obtain ⟨_, rfl⟩ := bodyOperation_mem.mp last
    rcases List.mem_append.mp member with removes | keeps
    · exact Implementation.before_of_removes (removeOperations_of removes).2
    · exact Implementation.before_of_keeps (maskOperations_of keeps).2 rfl

theorem slots_ordered (ready : m.Ready) :
    m.slots.Pairwise (fun a b => a.implementation.Before b.implementation) := by
  have ordered := operations_ordered (m := m)
  unfold Merged.slots
  rw [List.pairwise_filterMap]
  refine (List.Pairwise.and_mem.mp ordered).imp ?_
  rintro a b ⟨former, latter, before⟩ slot is slot' is'
  obtain ⟨compiled, ok, same⟩ := operations_slot ready former
  obtain ⟨compiled', ok', same'⟩ := operations_slot ready latter
  rw [ok] at is
  rw [ok'] at is'
  cases is
  cases is'
  rw [same, same']
  exact before

end Slots

end EdgeObserver.Config
