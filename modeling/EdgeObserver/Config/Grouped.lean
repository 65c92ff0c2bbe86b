import EdgeObserver.Config.Plan
import EdgeObserver.Config.Merged

/-!
# The operations of merged rules

Entries that keep the same are carried by one operation, and every operation the
merged rules ask for has arguments that compile.
-/

set_option autoImplicit false

namespace EdgeObserver.Config

/-!
## Arguments that compile

What the layer below asks of an operation's arguments, and that arguments which
have it are taken as they are.
-/

section Lists

variable {seen : List Bytes}

theorem compileHeaders_ok {headers : List Bytes}
    (named : ∀ name ∈ headers, headerName name = true ∧ Text.toLower name = name)
    (distinct : (seen ++ headers).Nodup) : compileHeaders seen headers = .ok (seen ++ headers) := by
  induction headers generalizing seen with
  | nil => simp [compileHeaders]
  | cons name rest ih =>
    obtain ⟨token, lower⟩ := named name List.mem_cons_self
    have fresh : name ∉ seen := by
      intro listed
      exact (List.nodup_append.mp distinct).2.2 name listed name List.mem_cons_self rfl
    rw [List.append_cons] at distinct ⊢
    simp only [compileHeaders, token, lower, fresh, Bool.true_eq_false, if_false]
    exact ih (fun other member => named other (List.mem_cons_of_mem _ member)) distinct

theorem compileSelectors_ok {valid : Bytes → Except Unfit Unit}
    {fault : Nat → Unfit → ArgumentFault} {twice : ArgumentFault} {selectors : List Bytes}
    (i : Nat) (passes : ∀ one ∈ selectors, valid one = .ok ())
    (distinct : (seen ++ selectors).Nodup) :
    compileSelectors valid fault twice i seen selectors = .ok (seen ++ selectors) := by
  induction selectors generalizing seen i with
  | nil => simp [compileSelectors]
  | cons one rest ih =>
    have fresh : one ∉ seen := by
      intro listed
      exact (List.nodup_append.mp distinct).2.2 one listed one List.mem_cons_self rfl
    rw [List.append_cons] at distinct ⊢
    simp only [compileSelectors, passes one List.mem_cons_self, fresh, if_false]
    exact ih (i + 1) (fun other member => passes other (List.mem_cons_of_mem _ member)) distinct

def givenMask (one : NamedValue) : Bytes × Option Bytes := (one.name, some one.value)

theorem compileMasks_ok {seen masks : List NamedValue} (i : Nat)
    (passes : ∀ one ∈ masks, validPointer one.name = .ok () ∧
      one.value.length ≤ maxJSONValueBytes ∧ printable one.value = true)
    (distinct : ((seen ++ masks).map NamedValue.name).Nodup) :
    compileMasks i seen (masks.map givenMask) = .ok (seen ++ masks) := by
  induction masks generalizing seen i with
  | nil => simp [compileMasks]
  | cons one rest ih =>
    obtain ⟨valid, short, prints⟩ := passes one List.mem_cons_self
    have fresh : one.name ∉ seen.map NamedValue.name := by
      intro listed
      rw [List.map_append] at distinct
      exact (List.nodup_append.mp distinct).2.2 one.name listed one.name List.mem_cons_self rfl
    rw [List.append_cons] at distinct ⊢
    simp only [List.map_cons, givenMask, compileMasks, valid, fresh, Nat.not_lt.mpr short, prints,
      Bool.true_eq_false, if_false]
    exact ih (i + 1) (fun other member => passes other (List.mem_cons_of_mem _ member)) distinct

end Lists

def selections : List (List Message) := [[.request], [.response], [.request, .response]]

theorem compileMessages_ok {selected : List Message} (listed : selected ∈ selections) :
    compileMessages (selected.map Message.text) = .ok selected := by
  have all : ∀ selected ∈ selections, compileMessages (selected.map Message.text) = .ok selected := by
    decide
  exact all selected listed

structure Fits (implementation : Implementation) (given : Given) (arguments : Arguments) : Prop where
  members : ∀ one, given.has one = decide (one ∈ argumentMembers implementation)
  headers : given.headers.getD [] = arguments.headers
  value : given.value.getD [] = arguments.value
  length : given.length.getD 0 = arguments.length
  messages : given.messages.getD [] = arguments.messages.map Message.text
  pointers : given.pointers.getD [] = arguments.pointers
  names : given.names.getD [] = arguments.names
  masks : given.masks.getD [] = arguments.masks.map givenMask

/-- What the layer below asks of the arguments of an operation. -/
structure Arguments.Sound (implementation : Implementation) (arguments : Arguments) : Prop where
  headers : Argument.headers ∈ argumentMembers implementation →
    arguments.headers ≠ [] ∧ arguments.headers.length ≤ maxHeaderNames
  header : ∀ name ∈ arguments.headers, headerName name = true ∧ Text.toLower name = name
  headersApart : arguments.headers.Nodup
  value : arguments.value.length ≤ maxHeaderValueBytes ∧ printable arguments.value = true
  length : arguments.length ≤ maxHeaderValueBytes
  messages : Argument.messages ∈ argumentMembers implementation → arguments.messages ∈ selections
  pointers : Argument.pointers ∈ argumentMembers implementation →
    (implementation ≠ .requestBodyFields → arguments.pointers ≠ []) ∧ arguments.pointers.length ≤ maxFieldSelectors
  pointer : ∀ one ∈ arguments.pointers, validPointer one = .ok ()
  pointersApart : arguments.pointers.Nodup
  names : Argument.names ∈ argumentMembers implementation →
    arguments.names ≠ [] ∧ arguments.names.length ≤ maxFieldSelectors
  name : ∀ one ∈ arguments.names, validParameterName one = .ok ()
  namesApart : arguments.names.Nodup
  masks : arguments.masks.length ≤ maxFieldSelectors
  mask : ∀ one ∈ arguments.masks, validPointer one.name = .ok () ∧
    one.value.length ≤ maxJSONValueBytes ∧ printable one.value = true
  masksApart : (arguments.masks.map NamedValue.name).Nodup
  rule : implementation = .requestBodyFields → arguments.pointers ≠ [] ∨ arguments.masks ≠ []
  absent : ∀ one, one ∉ argumentMembers implementation →
    match one with
    | .headers => arguments.headers = []
    | .value => arguments.value = []
    | .length => arguments.length = 0
    | .messages => arguments.messages = []
    | .pointers => arguments.pointers = []
    | .names => arguments.names = []
    | .masks => arguments.masks = []

section Compile

variable {implementation : Implementation} {given : Given} {arguments : Arguments}

theorem checkMembers_ok (fits : Fits implementation given arguments) :
    checkMembers implementation given = .ok () := by
  have defined : allArguments.find? (fun one =>
      given.has one && decide (one ∉ argumentMembers implementation)) = none := by
    refine List.find?_eq_none.mpr fun one _ => ?_
    rw [fits.members one]
    by_cases among : one ∈ argumentMembers implementation <;> simp [among]
  have present : (argumentMembers implementation).find? (fun one => !given.has one) = none := by
    refine List.find?_eq_none.mpr fun one among => ?_
    rw [fits.members one]
    simp [among]
  simp only [checkMembers, defined, present]

theorem argumentHeaders_ok (sound : arguments.Sound implementation) :
    argumentHeaders implementation arguments.headers = .ok arguments.headers := by
  unfold argumentHeaders
  split
  · rename_i defined
    obtain ⟨some_, few⟩ := sound.headers defined
    rw [if_neg (by simp [some_, few])]
    exact compileHeaders_ok sound.header sound.headersApart
  · rename_i undefined
    rw [sound.absent .headers undefined]

theorem argumentMessages_ok (sound : arguments.Sound implementation) :
    argumentMessages implementation (arguments.messages.map Message.text) = .ok arguments.messages := by
  unfold argumentMessages
  split
  · rename_i defined
    exact compileMessages_ok (sound.messages defined)
  · rename_i undefined
    rw [sound.absent .messages undefined]

theorem argumentPointers_ok (sound : arguments.Sound implementation) :
    argumentPointers implementation arguments.pointers = .ok arguments.pointers := by
  unfold argumentPointers
  split
  · rename_i defined
    obtain ⟨some_, few⟩ := sound.pointers defined
    have enough : ¬ (arguments.pointers.length < leastPointers implementation ∨
        arguments.pointers.length > maxFieldSelectors) := by
      rintro (short | long)
      · unfold leastPointers at short
        split at short
        · exact absurd short (Nat.not_lt_zero _)
        · rename_i other
          exact some_ other (List.length_eq_zero_iff.mp (Nat.lt_one_iff.mp short))
      · exact absurd few (Nat.not_le_of_lt long)
    rw [if_neg enough]
    exact compileSelectors_ok 0 sound.pointer sound.pointersApart
  · rename_i undefined
    rw [sound.absent .pointers undefined]

theorem argumentNames_ok (sound : arguments.Sound implementation) :
    argumentNames implementation arguments.names = .ok arguments.names := by
  unfold argumentNames
  split
  · rename_i defined
    obtain ⟨some_, few⟩ := sound.names defined
    rw [if_neg (by simp [some_, few])]
    exact compileSelectors_ok 0 sound.name sound.namesApart
  · rename_i undefined
    rw [sound.absent .names undefined]

theorem argumentMasks_ok (sound : arguments.Sound implementation) :
    argumentMasks implementation (arguments.masks.map givenMask) = .ok arguments.masks := by
  unfold argumentMasks
  split
  · rw [if_neg (by simpa using sound.masks)]
    exact compileMasks_ok 0 sound.mask sound.masksApart
  · rename_i undefined
    rw [sound.absent .masks undefined]

theorem compileValue_ok {most : Nat} (enough : maxHeaderValueBytes ≤ most)
    (fits : Fits implementation given arguments) (sound : arguments.Sound implementation)
    (defined : Argument.value ∈ argumentMembers implementation) :
    compileValue most given.value = .ok arguments.value := by
  have present : given.value.isSome = true := by
    simpa [Given.has, defined] using fits.members .value
  obtain ⟨value, is⟩ := Option.isSome_iff_exists.mp present
  have same : value = arguments.value := by simpa [is] using fits.value
  obtain ⟨short, prints⟩ := sound.value
  rw [is, same]
  simp [compileValue, Nat.not_lt.mpr (Nat.le_trans short enough), prints]

theorem compileLength_ok (fits : Fits implementation given arguments) (sound : arguments.Sound implementation)
    (defined : Argument.length ∈ argumentMembers implementation) :
    compileLength given.length = .ok arguments.length := by
  have present : given.length.isSome = true := by
    simpa [Given.has, defined] using fits.members .length
  obtain ⟨length, is⟩ := Option.isSome_iff_exists.mp present
  have same : length = arguments.length := by simpa [is] using fits.length
  rw [is, same]
  simp [compileLength, Nat.not_lt.mpr sound.length]

theorem completeArguments_ok (fits : Fits implementation given arguments) (sound : arguments.Sound implementation) :
    completeArguments implementation given
      { headers := arguments.headers, messages := arguments.messages,
        pointers := arguments.pointers, names := arguments.names, masks := arguments.masks } =
      .ok arguments := by
  have plain : Argument.value ∉ argumentMembers implementation → Argument.length ∉ argumentMembers implementation →
      ({ headers := arguments.headers, messages := arguments.messages,
         pointers := arguments.pointers, names := arguments.names,
         masks := arguments.masks } : Arguments) = arguments := by
    intro valueless lengthless
    have value : arguments.value = [] := sound.absent .value valueless
    have length : arguments.length = 0 := sound.absent .length lengthless
    cases arguments
    cases value
    cases length
    rfl
  have lengthless : Argument.length ∉ argumentMembers implementation → arguments.length = 0 := sound.absent .length
  have valueless : Argument.value ∉ argumentMembers implementation → arguments.value = [] := sound.absent .value
  cases implementation with
  | requestBodyFields =>
    have some_ : arguments.pointers.length + arguments.masks.length ≠ 0 := by
      rcases sound.rule rfl with pointers | masks
      · have := List.length_pos_of_ne_nil pointers
        omega
      · have := List.length_pos_of_ne_nil masks
        omega
    simp only [completeArguments, some_, if_false]
    rw [plain (by decide) (by decide)]
  | replaceHeaderValues =>
    rw [completeArguments, compileValue_ok (Nat.le_refl _) fits sound (by decide)]
    rw [Except.map, ← lengthless (by decide)]
  | replaceJSONValues =>
    rw [completeArguments, compileValue_ok (by decide : maxHeaderValueBytes ≤ maxJSONValueBytes) fits sound (by decide)]
    rw [Except.map, ← lengthless (by decide)]
  | truncateHeaderValues =>
    rw [completeArguments, compileLength_ok fits sound (by decide)]
    rw [Except.map, ← valueless (by decide)]
  | removeHeaders | removeBody | reduceBodyToStructure | removeQuery | removeJSONFields | removeFormFields
  | removeQueryParameters => exact congrArg _ (plain (by decide) (by decide))

theorem compileArguments_ok (fits : Fits implementation given arguments) (sound : arguments.Sound implementation) :
    compileArguments implementation given = .ok arguments := by
  unfold compileArguments
  rw [checkMembers_ok fits, fits.headers, fits.messages, fits.pointers, fits.names, fits.masks,
    argumentHeaders_ok sound, argumentMessages_ok sound, argumentPointers_ok sound,
    argumentNames_ok sound, argumentMasks_ok sound]
  exact completeArguments_ok fits sound

end Compile

/-! ## Groups -/

structure Grouped {α : Type} [DecidableEq α] (keeps : Entry → α) (entries : List Entry)
    (groups : List (Group α)) : Prop where
  apart : (groups.map Group.keeps).Nodup
  names : ∀ group ∈ groups, group.names = (entries.filter (fun one => decide (keeps one = group.keeps))).map Entry.name
  kept : ∀ group ∈ groups, ∃ one ∈ entries, keeps one = group.keeps
  all : ∀ one ∈ entries, ∃ group ∈ groups, group.keeps = keeps one
  few : groups.length ≤ entries.length

section Groups

variable {α : Type} [DecidableEq α] {keeps : Entry → α} {entries : List Entry}
variable {groups : List (Group α)}

theorem Grouped.old (grouped : Grouped keeps entries groups) {one : Entry}
    (among : keeps one ∈ groups.map Group.keeps) :
    Grouped keeps (entries ++ [one])
      (groups.map (fun group => if group.keeps = keeps one then group.include one else group)) := by
  have same : ∀ group : Group α,
      (if group.keeps = keeps one then group.include one else group).keeps = group.keeps := by
    intro group
    split <;> rfl
  refine ⟨?_, ?_, ?_, ?_, ?_⟩
  · rw [List.map_map]
    have : Group.keeps ∘ (fun group => if group.keeps = keeps one then group.include one else group) =
        Group.keeps := funext same
    rw [this]
    exact grouped.apart
  · intro group member
    obtain ⟨before, listed, rfl⟩ := List.mem_map.mp member
    have names := grouped.names before listed
    rw [same, List.filter_append, List.map_append, ← names]
    by_cases own : before.keeps = keeps one
    · simp [own, Group.include]
    · simp [own, Ne.symm own]
  · intro group member
    obtain ⟨before, listed, rfl⟩ := List.mem_map.mp member
    obtain ⟨entry, within, is⟩ := grouped.kept before listed
    exact ⟨entry, List.mem_append_left _ within, is.trans (same before).symm⟩
  · intro entry member
    have found : ∃ group ∈ groups, group.keeps = keeps entry := by
      rcases List.mem_append.mp member with within | last
      · exact grouped.all entry within
      · cases List.mem_singleton.mp last
        exact List.mem_map.mp among
    obtain ⟨group, listed, is⟩ := found
    exact ⟨_, List.mem_map_of_mem listed, (same group).trans is⟩
  · rw [List.length_map, List.length_append]
    exact Nat.le_succ_of_le grouped.few

theorem Grouped.new (grouped : Grouped keeps entries groups) {one : Entry}
    (fresh : keeps one ∉ groups.map Group.keeps) :
    Grouped keeps (entries ++ [one])
      (groups ++ [Group.include { keeps := keeps one, names := [], documents := [] } one]) := by
  have unlike : ∀ entry ∈ entries, keeps entry ≠ keeps one := by
    intro entry member same
    obtain ⟨group, listed, is⟩ := grouped.all entry member
    exact fresh (List.mem_map.mpr ⟨group, listed, is.trans same⟩)
  refine ⟨?_, ?_, ?_, ?_, ?_⟩
  · rw [List.map_append, List.nodup_append]
    refine ⟨grouped.apart, List.nodup_singleton _, ?_⟩
    rintro each listed _ last rfl
    have is : each = keeps one := List.mem_singleton.mp last
    exact fresh (is ▸ listed)
  · intro group member
    rcases List.mem_append.mp member with listed | last
    · have other : keeps one ≠ group.keeps := by
        intro same
        exact fresh (same ▸ List.mem_map_of_mem listed)
      rw [List.filter_append, List.map_append, ← grouped.names group listed]
      simp [other]
    · cases List.mem_singleton.mp last
      have none_ : entries.filter (fun entry => decide (keeps entry = keeps one)) = [] := by
        refine List.filter_eq_nil_iff.mpr fun entry member => ?_
        simpa using unlike entry member
      rw [List.filter_append, Group.include]
      simp [none_]
  · intro group member
    rcases List.mem_append.mp member with listed | last
    · obtain ⟨entry, within, is⟩ := grouped.kept group listed
      exact ⟨entry, List.mem_append_left _ within, is⟩
    · cases List.mem_singleton.mp last
      exact ⟨one, List.mem_append_right _ List.mem_cons_self, rfl⟩
  · intro entry member
    rcases List.mem_append.mp member with within | last
    · obtain ⟨group, listed, is⟩ := grouped.all entry within
      exact ⟨group, List.mem_append_left _ listed, is⟩
    · cases List.mem_singleton.mp last
      exact ⟨_, List.mem_append_right _ List.mem_cons_self, rfl⟩
  · simpa using grouped.few

theorem groupInto_grouped (grouped : Grouped keeps entries groups) (one : Entry) :
    Grouped keeps (entries ++ [one]) (groupInto keeps groups one) := by
  unfold groupInto
  split
  · exact grouped.old ‹_›
  · exact grouped.new ‹_›

theorem foldl_grouped (grouped : Grouped keeps entries groups) (rest : List Entry) :
    Grouped keeps (entries ++ rest) (rest.foldl (groupInto keeps) groups) := by
  induction rest generalizing entries groups with
  | nil => simpa using grouped
  | cons one rest ih =>
    rw [List.append_cons]
    exact ih (groupInto_grouped grouped one)

theorem groupBy_grouped (keeps : Entry → α) (entries : List Entry) :
    Grouped keeps entries (groupBy keeps entries) := by
  have none_ : Grouped keeps [] ([] : List (Group α)) := ⟨List.nodup_nil, by simp, by simp, by simp, Nat.le_refl _⟩
  exact foldl_grouped none_ entries

theorem Grouped.sublist (grouped : Grouped keeps entries groups) {group : Group α}
    (listed : group ∈ groups) : group.names.Sublist (entries.map Entry.name) := by
  rw [grouped.names group listed]
  exact List.filter_sublist.map _

theorem Grouped.mem_names (grouped : Grouped keeps entries groups) {group : Group α}
    (listed : group ∈ groups) {name : Bytes} :
    name ∈ group.names ↔ ∃ one ∈ entries, keeps one = group.keeps ∧ one.name = name := by
  rw [grouped.names group listed]
  simp [and_assoc]

theorem Grouped.nonempty (grouped : Grouped keeps entries groups) {group : Group α}
    (listed : group ∈ groups) : group.names ≠ [] := by
  obtain ⟨one, member, is⟩ := grouped.kept group listed
  have named : one.name ∈ group.names := (grouped.mem_names listed).mpr ⟨one, member, is, rfl⟩
  exact List.ne_nil_of_mem named

end Groups

section Numbered

variable {α : Type} {name : Bytes} {implementation : Implementation} {given : Group α → Given}

theorem operationsOf_length (i : Nat) (groups : List (Group α)) :
    (operationsOf name implementation given i groups).length = groups.length := by
  induction groups generalizing i with
  | nil => rfl
  | cons group rest ih => simp [operationsOf, ih]

theorem operationsOf_mem {i : Nat} {groups : List (Group α)} {one : Operation}
    (member : one ∈ operationsOf name implementation given i groups) :
    one.implementation = implementation ∧ ∃ group ∈ groups, one.given = given group := by
  induction groups generalizing i with
  | nil => cases member
  | cons group rest ih =>
    rcases List.mem_cons.mp member with rfl | later
    · exact ⟨rfl, group, List.mem_cons_self, rfl⟩
    · obtain ⟨is, other, listed, has⟩ := ih later
      exact ⟨is, other, List.mem_cons_of_mem _ listed, has⟩

theorem mem_operationsOf (i : Nat) {groups : List (Group α)} {group : Group α} (listed : group ∈ groups) :
    ∃ one ∈ operationsOf name implementation given i groups,
      one.implementation = implementation ∧ one.given = given group := by
  induction groups generalizing i with
  | nil => cases listed
  | cons first rest ih =>
    rcases List.mem_cons.mp listed with rfl | later
    · exact ⟨_, List.mem_cons_self, rfl, rfl⟩
    · obtain ⟨one, member, is, has⟩ := ih (i + 1) later
      exact ⟨one, List.mem_cons_of_mem _ member, is, has⟩

end Numbered

structure Operation.Carries (one : Operation) (arguments : Arguments) : Prop where
  fits : Fits one.implementation one.given arguments
  sound : arguments.Sound one.implementation

def Operation.compiled (one : Operation) (arguments : Arguments) : Slot :=
  { name := one.name, implementation := one.implementation, arguments,
    selectedBy := one.documents }

theorem Operation.Carries.slot {one : Operation} {arguments : Arguments}
    (carries : one.Carries arguments) : one.slot = .ok (one.compiled arguments) := by
  unfold Operation.slot
  rw [compileArguments_ok carries.fits carries.sound]
  rfl

section Sound

variable {names : List Bytes} {value : Bytes} {length : Nat} {selected : List Message}

structure HeaderNames (names : List Bytes) : Prop where
  nonempty : names ≠ []
  few : names.length ≤ maxHeaderNames
  headed : ∀ name ∈ names, Headed name
  apart : names.Nodup

structure Selectors (valid : Bytes → Except Unfit Unit) (names : List Bytes) : Prop where
  nonempty : names ≠ []
  few : names.length ≤ maxFieldSelectors
  passes : ∀ name ∈ names, valid name = .ok ()
  apart : names.Nodup

def Writable (value : Bytes) : Prop := value.length ≤ maxHeaderValueBytes ∧ printable value = true

theorem removeHeaders_sound (headers : HeaderNames names) :
    Arguments.Sound .removeHeaders { headers := names } := by
  constructor
  case headers => exact fun _ => ⟨headers.nonempty, headers.few⟩
  case header => exact headers.headed
  case headersApart => exact headers.apart
  case absent => intro one; cases one <;> simp [argumentMembers]
  all_goals simp [argumentMembers, printable]

theorem replaceHeaderValues_sound (headers : HeaderNames names) (writable : Writable value) :
    Arguments.Sound .replaceHeaderValues { headers := names, value } := by
  constructor
  case headers => exact fun _ => ⟨headers.nonempty, headers.few⟩
  case header => exact headers.headed
  case headersApart => exact headers.apart
  case value => exact writable
  case absent => intro one; cases one <;> simp [argumentMembers]
  all_goals simp [argumentMembers, printable]

theorem truncateHeaderValues_sound (headers : HeaderNames names) (short : length ≤ maxHeaderValueBytes) :
    Arguments.Sound .truncateHeaderValues { headers := names, length } := by
  constructor
  case headers => exact fun _ => ⟨headers.nonempty, headers.few⟩
  case header => exact headers.headed
  case headersApart => exact headers.apart
  case length => exact short
  case absent => intro one; cases one <;> simp [argumentMembers]
  all_goals simp [argumentMembers, printable]

theorem bodies_sound {implementation : Implementation}
    (is : argumentMembers implementation = [.messages]) (listed : selected ∈ selections) :
    Arguments.Sound implementation { messages := selected } := by
  have other : implementation ≠ .requestBodyFields := by rintro rfl; cases is
  constructor
  case messages => exact fun _ => listed
  case absent => intro one; cases one <;> simp [is]
  all_goals simp [is, other, printable]

theorem removeQuery_sound : Arguments.Sound .removeQuery {} := by
  constructor
  case absent => intro one; cases one <;> simp
  all_goals simp [argumentMembers, printable]

theorem names_sound {implementation : Implementation} (is : argumentMembers implementation = [.names])
    (selectors : Selectors validParameterName names) :
    Arguments.Sound implementation { names } := by
  have other : implementation ≠ .requestBodyFields := by rintro rfl; cases is
  constructor
  case names => exact fun _ => ⟨selectors.nonempty, selectors.few⟩
  case name => exact selectors.passes
  case namesApart => exact selectors.apart
  case absent => intro one; cases one <;> simp [is]
  all_goals simp [is, other, printable]

theorem singleton_selected (message : Message) : [message] ∈ selections := by
  cases message <;> decide

theorem removeJSONFields_sound (message : Message) (selectors : Selectors validPointer names) :
    Arguments.Sound .removeJSONFields { messages := [message], pointers := names } := by
  constructor
  case messages => exact fun _ => singleton_selected message
  case pointers => exact fun _ => ⟨fun _ => selectors.nonempty, selectors.few⟩
  case pointer => exact selectors.passes
  case pointersApart => exact selectors.apart
  case absent => intro one; cases one <;> simp [argumentMembers]
  all_goals simp [argumentMembers, printable]

theorem replaceJSONValues_sound (message : Message) (selectors : Selectors validPointer names)
    (writable : Writable value) :
    Arguments.Sound .replaceJSONValues { messages := [message], pointers := names, value } := by
  constructor
  case messages => exact fun _ => singleton_selected message
  case pointers => exact fun _ => ⟨fun _ => selectors.nonempty, selectors.few⟩
  case pointer => exact selectors.passes
  case pointersApart => exact selectors.apart
  case value => exact writable
  case absent => intro one; cases one <;> simp [argumentMembers]
  all_goals simp [argumentMembers, printable]

structure MaskRules (masks : List NamedValue) : Prop where
  few : masks.length ≤ maxFieldSelectors
  passes : ∀ one ∈ masks, validPointer one.name = .ok () ∧
    one.value.length ≤ maxJSONValueBytes ∧ printable one.value = true
  apart : (masks.map NamedValue.name).Nodup

theorem requestBodyFields_sound {pointers : List Bytes} {masks : List NamedValue}
    (selectors : Selectors validParameterName names) (few : pointers.length ≤ maxFieldSelectors)
    (passes : ∀ one ∈ pointers, validPointer one = .ok ()) (apart : pointers.Nodup)
    (rules : MaskRules masks) (some_ : pointers ≠ [] ∨ masks ≠ []) :
    Arguments.Sound .requestBodyFields { names, pointers, masks } := by
  constructor
  case names => exact fun _ => ⟨selectors.nonempty, selectors.few⟩
  case name => exact selectors.passes
  case namesApart => exact selectors.apart
  case pointers => exact fun _ => ⟨fun other => absurd rfl other, few⟩
  case pointer => exact passes
  case pointersApart => exact apart
  case masks => exact rules.few
  case mask => exact rules.passes
  case masksApart => exact rules.apart
  case rule => exact fun _ => some_
  case absent => intro one; cases one <;> simp [argumentMembers]
  all_goals simp [argumentMembers, printable]

end Sound

end EdgeObserver.Config
