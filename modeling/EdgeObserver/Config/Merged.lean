import EdgeObserver.Config.Conflict
import EdgeObserver.Config.Read

/-!
# What merging leaves

The merged rules are those the documents write, no more of them than one
operation takes, and what each keeps is what some document says.
-/

set_option autoImplicit false

namespace EdgeObserver.Config

open EntryList

section Adds

variable {document key what name value : Bytes} {most number : Nat} {l : EntryList} {origin : Origin}
  {result : EntryList × Entry × Bool}

theorem EntryList.Adding.length (adding : Adding l name value number origin result) :
    result.1.entries.length = l.entries.length + result.2.2.toNat := by
  cases adding with
  | old one found => simp [note]
  | new one absent own keeps => simp [push]

theorem EntryList.Adding.bounded
    (adding : Adding l name value number origin result) (few : l.entries.length ≤ most)
    (accepted : limit result.2.2 result.1 most origin what = []) :
    result.1.entries.length ≤ most := by
  have length := adding.length
  by_contra more
  have one : result.2.2.toNat ≤ 1 := Bool.toNat_le _
  have past : result.2.2 = true ∧ result.1.entries.length = most + 1 := by
    refine ⟨?_, by omega⟩
    cases fresh : result.2.2 with
    | true => rfl
    | false =>
      rw [fresh] at length
      simp at length
      omega
  rw [limit, if_pos past] at accepted
  cases accepted

theorem addNames_bounded (names : List Bytes) (i : Nat) (l : EntryList) (few : l.entries.length ≤ most)
    (accepted : (addNames document key most what i names l).2 = []) :
    (addNames document key most what i names l).1.entries.length ≤ most := by
  induction names generalizing i l with
  | nil => exact few
  | cons name rest ih =>
    simp only [addNames] at accepted ⊢
    obtain ⟨within, later⟩ := List.append_eq_nil_iff.mp accepted
    exact ih _ _ ((add_adding l name name 0 _).bounded few within) later

theorem addKept_bounded {removed : Bytes → Bool} {detail : Keeping → Entry → Detail}
    (rules : List Keeping) (l : EntryList) (few : l.entries.length ≤ most)
    (accepted : (addKept document key most what removed detail rules l).2 = []) :
    (addKept document key most what removed detail rules l).1.entries.length ≤ most := by
  induction rules generalizing l with
  | nil => exact few
  | cons first rest ih =>
    simp only [addKept] at accepted ⊢
    obtain ⟨before, later⟩ := List.append_eq_nil_iff.mp accepted
    obtain ⟨within, _⟩ := List.append_eq_nil_iff.mp before
    exact ih _ ((add_adding l _ _ _ _).bounded few within) later

def EntryList.All (l : EntryList) (P : Bytes → Bytes → Nat → Prop) : Prop :=
  ∀ one ∈ l.entries, P one.name one.value one.number

theorem EntryList.empty_all (P : Bytes → Bytes → Nat → Prop) : ({} : EntryList).All P :=
  fun _ listed => absurd listed List.not_mem_nil

theorem EntryList.Adding.all {P : Bytes → Bytes → Nat → Prop}
    (adding : Adding l name value number origin result) (all : l.All P)
    (new : P name value number) : result.1.All P := by
  cases adding with
  | old one found =>
    intro each member
    obtain ⟨before, listed, rfl⟩ := List.mem_map.mp member
    split
    · obtain ⟨name, value, number⟩ := noted_same origin.document before
      rw [name, value, number]
      exact all before listed
    · exact all before listed
  | new one absent own keeps =>
    intro each member
    rcases List.mem_append.mp member with old | last
    · exact all each old
    · cases List.mem_singleton.mp last
      rw [own, keeps.1, keeps.2]
      exact new

theorem addKept_all {removed : Bytes → Bool} {detail : Keeping → Entry → Detail}
    {P : Bytes → Bytes → Nat → Prop} (rules : List Keeping) (l : EntryList) (all : l.All P)
    (each : ∀ rule ∈ rules, P rule.name rule.value rule.number) :
    (addKept document key most what removed detail rules l).1.All P := by
  induction rules generalizing l with
  | nil => exact all
  | cons first rest ih =>
    simp only [addKept]
    refine ih _ ((add_adding l _ _ _ _).all all (each first List.mem_cons_self)) ?_
    exact fun rule member => each rule (List.mem_cons_of_mem _ member)

end Adds

structure Gathered (documents : List Document) (m : Merged) : Prop where
  headers : ∀ each, each ∈ m.removeHeaders.names ↔ ∃ d ∈ documents, each ∈ d.rules.remove.headers.map Text.toLower
  query : ∀ each, each ∈ m.query.names ↔ ∃ d ∈ documents, each ∈ d.rules.remove.query
  form : ∀ each, each ∈ m.form.names ↔ ∃ d ∈ documents, each ∈ d.rules.remove.form
  json : ∀ message each, each ∈ (m.removeJSON message).names ↔ ∃ d ∈ documents, each ∈ d.rules.remove.json message
  queryString : m.queryString ≠ [] ↔ ∃ d ∈ documents, d.rules.remove.queryString = true
  bodies : ∀ message, m.bodies message ≠ [] ↔ ∃ d ∈ documents, message ∈ d.rules.remove.bodies
  bodyValues : ∀ message, m.bodyValues message ≠ [] ↔ ∃ d ∈ documents, message ∈ d.rules.remove.bodyValues

section Gathering

variable {fold : Bytes → Bytes} {documents : List Document}

theorem places_ne_nil (document key : Bytes) (message : Message) (i : Nat)
    (list : List Message) : Merged.places document key message i list ≠ [] ↔ message ∈ list := by
  induction list generalizing i with
  | nil => simp [Merged.places]
  | cons first rest ih =>
    by_cases own : first = message
    · simp [Merged.places, own]
    · simp [Merged.places, own, ih, Ne.symm own]

theorem append_ne_nil {α : Type} (these those : List α) :
    these ++ those ≠ [] ↔ these ≠ [] ∨ those ≠ [] := by
  cases these <;> simp

/-- Each key of a document's removals adds to a part of its own. -/
theorem addRemovals_eq (m : Merged) (d : Document) :
    m.addRemovals d = { m with
      removeHeaders := (m.addRemoveHeaders d).removeHeaders, query := (m.addQuery d).query, form := (m.addForm d).form
      queryString := (m.addQueryString d).queryString, removeJSON := (m.addRemovals d).removeJSON
      bodies := (m.addBodies d).bodies, bodyValues := (m.addBodies d).bodyValues
      findings := (m.addRemovals d).findings } := by
  unfold Merged.addRemovals Merged.addQueryString
  split <;> rfl

theorem removals_gathered (documents : List Document) :
    Gathered documents (documents.foldl Merged.addRemovals {}) where
  headers each :=
    removals_gather (fun m => each ∈ m.removeHeaders.names)
      (fun d => each ∈ d.rules.remove.headers.map Text.toLower) (by simp [EntryList.names])
      (fun m d => by rw [addRemovals_eq]; exact addNames_names _ _ _ each) documents
  query each :=
    removals_gather (fun m => each ∈ m.query.names) (fun d => each ∈ d.rules.remove.query) (by simp [EntryList.names])
      (fun m d => by rw [addRemovals_eq]; exact addNames_names _ _ _ each) documents
  form each :=
    removals_gather (fun m => each ∈ m.form.names) (fun d => each ∈ d.rules.remove.form) (by simp [EntryList.names])
      (fun m d => by rw [addRemovals_eq]; exact addNames_names _ _ _ each) documents
  json message each :=
    removals_gather (fun m => each ∈ (m.removeJSON message).names)
      (fun d => each ∈ d.rules.remove.json message) (by simp [EntryList.names])
      (fun m d => addRemovals_removeJSON m d message each) documents
  queryString :=
    removals_gather (fun m => m.queryString ≠ []) (fun d => d.rules.remove.queryString = true) (by simp)
      (fun m d => by
        rw [addRemovals_eq]
        by_cases written : d.rules.remove.queryString = true <;> simp [Merged.addQueryString, written]) documents
  bodies message :=
    removals_gather (fun m => m.bodies message ≠ []) (fun d => message ∈ d.rules.remove.bodies) (by simp)
      (fun m d => by rw [addRemovals_eq]; simp only [Merged.addBodies, append_ne_nil, places_ne_nil]) documents
  bodyValues message :=
    removals_gather (fun m => m.bodyValues message ≠ []) (fun d => message ∈ d.rules.remove.bodyValues) (by simp)
      (fun m d => by rw [addRemovals_eq]; simp only [Merged.addBodies, append_ne_nil, places_ne_nil]) documents

theorem addKeeping_gathered {m : Merged} (gathered : Gathered documents m) (d : Document) :
    Gathered documents (m.addKeeping fold d) := { gathered with }

theorem merge_gathered (fold : Bytes → Bytes) (documents : List Document) : Gathered documents (merge fold documents) :=
  { List.foldlRecOn documents (Merged.addKeeping fold) (motive := Gathered documents) (removals_gathered documents)
      fun _ gathered d _ => addKeeping_gathered gathered d with }

end Gathering

structure Merged.Bounded (m : Merged) : Prop where
  removeHeaders : m.removeHeaders.entries.length ≤ maxRemovedHeaders
  query : m.query.entries.length ≤ maxRuleNames
  form : m.form.entries.length ≤ maxRuleNames
  removeJSON : ∀ message, (m.removeJSON message).entries.length ≤ maxRulePointers
  maskHeaders : m.maskHeaders.entries.length ≤ maxMaskedHeaders
  maskJSON : ∀ message, (m.maskJSON message).entries.length ≤ maxRulePointers
  truncate : m.truncate.entries.length ≤ maxTruncatedHeaders

def Merged.Within (m m' : Merged) : Prop := m'.findings = [] → m.findings = [] ∧ (m.Bounded → m'.Bounded)

section Bounds

variable {fold : Bytes → Bytes} {m m' m'' : Merged} {d : Document}

theorem Merged.Within.trans (first : m.Within m') (second : m'.Within m'') : m.Within m'' := by
  intro accepted
  obtain ⟨between, later⟩ := second accepted
  obtain ⟨before, earlier⟩ := first between
  exact ⟨before, fun bounded => later (earlier bounded)⟩

/-- What adds its own findings passes where it stays within its bound. -/
theorem Merged.Within.of_added {added : List Finding} (findings : m'.findings = m.findings ++ added)
    (bounded : added = [] → m.Bounded → m'.Bounded) : m.Within m' := by
  intro accepted
  rw [findings] at accepted
  obtain ⟨before, none_⟩ := List.append_eq_nil_iff.mp accepted
  exact ⟨before, bounded none_⟩

theorem addRemoveHeaders_within : m.Within (m.addRemoveHeaders d) :=
  .of_added rfl fun added bounded => { bounded with removeHeaders := addNames_bounded _ _ _ bounded.removeHeaders added }

theorem addQuery_within : m.Within (m.addQuery d) :=
  .of_added rfl fun added bounded => { bounded with query := addNames_bounded _ _ _ bounded.query added }

theorem addQueryString_within : m.Within (m.addQueryString d) := by
  unfold Merged.addQueryString
  split
  · exact fun accepted => ⟨accepted, fun bounded => { bounded with }⟩
  · exact fun accepted => ⟨accepted, id⟩

theorem addForm_within : m.Within (m.addForm d) :=
  .of_added rfl fun added bounded => { bounded with form := addNames_bounded _ _ _ bounded.form added }

theorem addRemoveJSON_within (message : Message) : m.Within (m.addRemoveJSON d message) :=
  .of_added rfl fun added bounded => { bounded with
    removeJSON := fun each => by
      simp only [Merged.addRemoveJSON]
      split
      · exact addNames_bounded _ _ _ (bounded.removeJSON message) added
      · exact bounded.removeJSON each }

theorem addBodies_within : m.Within (m.addBodies d) := fun accepted => ⟨accepted, fun bounded => { bounded with }⟩

theorem addRemovals_within : m.Within (m.addRemovals d) :=
  (((((addRemoveHeaders_within.trans addQuery_within).trans addQueryString_within).trans
    addForm_within).trans (addRemoveJSON_within .request)).trans
    (addRemoveJSON_within .response)).trans addBodies_within

theorem addMaskHeaders_within : m.Within (m.addMaskHeaders d) :=
  .of_added rfl fun added bounded => { bounded with maskHeaders := addKept_bounded _ _ bounded.maskHeaders added }

theorem addTruncate_within : m.Within (m.addTruncate d) :=
  .of_added rfl fun added bounded => { bounded with truncate := addKept_bounded _ _ bounded.truncate added }

theorem addMaskJSON_within (message : Message) : m.Within (m.addMaskJSON fold d message) :=
  .of_added rfl fun added bounded => { bounded with
    maskJSON := fun each => by
      simp only [Merged.addMaskJSON]
      split
      · exact addKept_bounded _ _ (bounded.maskJSON message) added
      · exact bounded.maskJSON each }

theorem addKeeping_within : m.Within (m.addKeeping fold d) :=
  ((addMaskHeaders_within.trans addTruncate_within).trans (addMaskJSON_within .request)).trans
    (addMaskJSON_within .response)

theorem foldl_within {step : Merged → Document → Merged}
    (each : ∀ (m : Merged) (d : Document), m.Within (step m d)) (documents : List Document) (m : Merged) : m.Within (documents.foldl step m) := by
  induction documents generalizing m with
  | nil => exact fun accepted => ⟨accepted, fun bounded => bounded⟩
  | cons d rest ih => exact (each m d).trans (ih _)

theorem merge_accepted {documents : List Document} (accepted : (merge fold documents).findings = []) :
    (documents.foldl (Merged.addKeeping fold) (documents.foldl Merged.addRemovals {})).findings = [] := by
  obtain ⟨rest, _⟩ := List.append_eq_nil_iff.mp accepted
  obtain ⟨rest, _⟩ := List.append_eq_nil_iff.mp rest
  exact (List.append_eq_nil_iff.mp rest).1

theorem merge_bounded {documents : List Document}
    (accepted : (merge fold documents).findings = []) : (merge fold documents).Bounded := by
  have empty : ({} : Merged).Bounded :=
    ⟨Nat.zero_le _, Nat.zero_le _, Nat.zero_le _, fun _ => Nat.zero_le _, Nat.zero_le _,
      fun _ => Nat.zero_le _, Nat.zero_le _⟩
  have removals : Merged.Within {} (documents.foldl Merged.addRemovals {}) :=
    foldl_within (fun m d => addRemovals_within) documents {}
  have keeping := foldl_within (fun (m : Merged) d => @addKeeping_within fold m d) documents
  exact { (removals.trans (keeping _) (merge_accepted accepted)).2 empty with }

end Bounds

def Headed (name : Bytes) : Prop := headerName name = true ∧ Text.toLower name = name

def HeaderMask (name value : Bytes) (_ : Nat) : Prop :=
  Headed name ∧ value.length ≤ maxHeaderValueBytes ∧ printable value = true

def PointerMask (name value : Bytes) (_ : Nat) : Prop :=
  validPointer name = .ok () ∧ value.length ≤ maxJSONValueBytes ∧ printable value = true

def Truncation (name _ : Bytes) (number : Nat) : Prop := Headed name ∧ number ≤ maxHeaderValueBytes

section Lower

theorem lowerByte_token {b : UInt8} (token : Text.isTokenByte b = true) :
    Text.isTokenByte (Text.lowerByte b) = true ∧
      Text.lowerByte (Text.lowerByte b) = Text.lowerByte b ∧ b < 0x80 ∧ Text.lowerByte b < 0x80 := by
  have all : ∀ n : Fin 256, Text.isTokenByte (UInt8.ofFin n) = true →
      Text.isTokenByte (Text.lowerByte (UInt8.ofFin n)) = true ∧
        Text.lowerByte (Text.lowerByte (UInt8.ofFin n)) = Text.lowerByte (UInt8.ofFin n) ∧
        UInt8.ofFin n < 0x80 ∧ Text.lowerByte (UInt8.ofFin n) < 0x80 := by
    decide +kernel
  exact all b.toFin token

theorem toLower_headed {name : Bytes} (token : headerName name = true) :
    Headed (Text.toLower name) := by
  unfold headerName at token
  rw [Bool.and_eq_true, List.all_eq_true] at token
  obtain ⟨some_, bytes⟩ := token
  have lower := Text.toLower_ascii fun b member => (lowerByte_token (bytes b member)).2.2.1
  rw [lower]
  constructor
  · unfold headerName
    rw [Bool.and_eq_true, List.all_eq_true]
    refine ⟨by simpa using some_, fun b member => ?_⟩
    obtain ⟨c, listed, rfl⟩ := List.mem_map.mp member
    exact (lowerByte_token (bytes c listed)).1
  · rw [Text.toLower_ascii]
    · rw [List.map_map]
      exact List.map_congr_left fun c listed => (lowerByte_token (bytes c listed)).2.1
    · intro b member
      obtain ⟨c, listed, rfl⟩ := List.mem_map.mp member
      exact (lowerByte_token (bytes c listed)).2.2.2

end Lower

structure Merged.Keeps (m : Merged) : Prop where
  maskHeaders : m.maskHeaders.All HeaderMask
  maskJSON : ∀ message, (m.maskJSON message).All PointerMask
  truncate : m.truncate.All Truncation

section Keeps

variable {fold : Bytes → Bytes} {m : Merged} {d : Document}

theorem addMaskHeaders_keeps (valid : d.rules.Valid) (keeps : m.Keeps) :
    (m.addMaskHeaders d).Keeps := by
  refine { keeps with maskHeaders := addKept_all _ _ keeps.maskHeaders fun rule member => ?_ }
  obtain ⟨one, listed, rfl⟩ := List.mem_map.mp member
  obtain ⟨token, rest⟩ := valid.maskHeaders one listed
  exact ⟨toLower_headed token, rest⟩

theorem addTruncate_keeps (valid : d.rules.Valid) (keeps : m.Keeps) : (m.addTruncate d).Keeps := by
  refine { keeps with truncate := addKept_all _ _ keeps.truncate fun rule member => ?_ }
  obtain ⟨one, listed, rfl⟩ := List.mem_map.mp member
  obtain ⟨token, short⟩ := valid.truncate one listed
  exact ⟨toLower_headed token, short⟩

theorem addMaskJSON_keeps (message : Message) (valid : d.rules.Valid) (keeps : m.Keeps) :
    (m.addMaskJSON fold d message).Keeps := by
  refine { keeps with maskJSON := fun each => ?_ }
  simp only [Merged.addMaskJSON]
  split
  · refine addKept_all _ _ (keeps.maskJSON message) fun rule member => ?_
    obtain ⟨one, listed, rfl⟩ := List.mem_map.mp member
    exact valid.maskJSON message one listed
  · exact keeps.maskJSON each

theorem addKeeping_keeps (valid : d.rules.Valid) (keeps : m.Keeps) : (m.addKeeping fold d).Keeps :=
  addMaskJSON_keeps .response valid (addMaskJSON_keeps .request valid
    (addTruncate_keeps valid (addMaskHeaders_keeps valid keeps)))

theorem addRemovals_keeps (keeps : m.Keeps) (d : Document) : (m.addRemovals d).Keeps := by
  rw [addRemovals_eq]
  exact { keeps with }

theorem merge_keeps {documents : List Document} (valid : ∀ d ∈ documents, d.rules.Valid) :
    (merge fold documents).Keeps := by
  have removals : (documents.foldl Merged.addRemovals {}).Keeps :=
    List.foldlRecOn documents _ (motive := Merged.Keeps) ⟨empty_all _, fun _ => empty_all _, empty_all _⟩
      fun _ keeps d _ => addRemovals_keeps keeps d
  exact { List.foldlRecOn documents (Merged.addKeeping fold) (motive := Merged.Keeps) removals
    fun _ keeps d member => addKeeping_keeps (valid d member) keeps with }

end Keeps

def KeptBy (l : EntryList) (m : Merged) (name value : Bytes) (number : Nat) : Prop :=
  ∃ one ∈ l.entries, one.name = name ∧ ((one.value = value ∧ one.number = number) ∨ m.removedHeader name = true)

structure Merged.Kept (m : Merged) (d : Document) : Prop where
  mask : ∀ rule ∈ d.rules.mask.headers, KeptBy m.maskHeaders m (Text.toLower rule.name) rule.value 0
  truncate : ∀ rule ∈ d.rules.truncate,
    KeptBy m.truncate m (Text.toLower rule.name) (Text.toLower rule.name) rule.length

structure Merged.Onward (m m' : Merged) : Prop where
  mask : Extends m.maskHeaders m'.maskHeaders
  truncate : Extends m.truncate m'.truncate
  removed : m'.removeHeaders = m.removeHeaders

section Headers

variable {fold : Bytes → Bytes} {m m' : Merged} {d : Document}

theorem KeptBy.later {l l' : EntryList} {name value : Bytes} {number : Nat}
    (kept : KeptBy l m name value number) (extends' : Extends l l')
    (removed : m'.removeHeaders = m.removeHeaders) : KeptBy l' m' name value number := by
  obtain ⟨one, listed, own, keeps⟩ := kept
  obtain ⟨later, listed', name', value', number'⟩ := extends' one listed
  refine ⟨later, listed', name'.trans own, ?_⟩
  unfold Merged.removedHeader at keeps ⊢
  rw [value', number', removed]
  exact keeps

theorem Merged.Kept.later (kept : m.Kept d) (onward : m.Onward m') : m'.Kept d where
  mask rule member := (kept.mask rule member).later onward.mask onward.removed
  truncate rule member := (kept.truncate rule member).later onward.truncate onward.removed

theorem addKeeping_kept (accepted : (m.addKeeping fold d).findings = []) :
    m.findings = [] ∧ m.Onward (m.addKeeping fold d) ∧ (m.addKeeping fold d).Kept d := by
  obtain ⟨accepted, _⟩ := List.append_eq_nil_iff.mp accepted
  obtain ⟨accepted, _⟩ := List.append_eq_nil_iff.mp accepted
  obtain ⟨accepted, truncated⟩ := List.append_eq_nil_iff.mp accepted
  obtain ⟨before, masked⟩ := List.append_eq_nil_iff.mp accepted
  obtain ⟨masks, keepsMask⟩ := addKept_kept _ _ masked
  obtain ⟨truncations, keepsLength⟩ := addKept_kept _ _ truncated
  refine ⟨before, ⟨masks, truncations, rfl⟩, ?_, ?_⟩
  · intro rule member
    exact keepsMask _ (List.mem_map_of_mem member)
  · intro rule member
    exact keepsLength _ (List.mem_map_of_mem member)

theorem keeping_kept (documents : List Document) (m : Merged)
    (accepted : (documents.foldl (Merged.addKeeping fold) m).findings = []) :
    m.findings = [] ∧ m.Onward (documents.foldl (Merged.addKeeping fold) m) ∧
      ∀ d ∈ documents, (documents.foldl (Merged.addKeeping fold) m).Kept d := by
  induction documents generalizing m with
  | nil =>
    exact ⟨accepted, ⟨.refl _, .refl _, rfl⟩, fun d member => absurd member List.not_mem_nil⟩
  | cons first rest ih =>
    obtain ⟨between, later, kept⟩ := ih _ accepted
    obtain ⟨before, onward, own⟩ := addKeeping_kept between
    refine ⟨before, ⟨onward.mask.trans later.mask, onward.truncate.trans later.truncate,
      later.removed.trans onward.removed⟩, ?_⟩
    intro d member
    rcases List.mem_cons.mp member with rfl | member
    · exact own.later later
    · exact kept d member

end Headers

end EdgeObserver.Config
