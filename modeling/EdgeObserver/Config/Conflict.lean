import EdgeObserver.Config.Merge
import EdgeObserver.Json.Tree

/-!
# Masks that disagree

Two masks of different values that may match one node are refused, unless a
removal may match one of them. So where a removal that may match a mask takes
away everything the mask can match, no node left is given two values.
-/

set_option autoImplicit false

namespace EdgeObserver.Config

open Json

namespace EntryList

def Extends (l l' : EntryList) : Prop :=
  ∀ one ∈ l.entries, ∃ later ∈ l'.entries,
    later.name = one.name ∧ later.value = one.value ∧ later.number = one.number

variable {l l' l'' : EntryList} {name value document : Bytes} {number : Nat} {origin : Origin}

theorem Extends.refl (l : EntryList) : Extends l l := fun one member => ⟨one, member, rfl, rfl, rfl⟩

theorem Extends.trans (first : Extends l l') (second : Extends l' l'') : Extends l l'' := by
  intro one member
  obtain ⟨later, listed, name, value, number⟩ := first one member
  obtain ⟨last, listed', name', value', number'⟩ := second later listed
  exact ⟨last, listed', name'.trans name, value'.trans value, number'.trans number⟩

theorem noted_same (document : Bytes) (one : Entry) : (noted document one).name = one.name ∧
    (noted document one).value = one.value ∧ (noted document one).number = one.number := by
  unfold noted
  split <;> exact ⟨rfl, rfl, rfl⟩

theorem note_extends : Extends l (l.note name document) := by
  intro one member
  refine ⟨_, List.mem_map_of_mem member, ?_⟩
  split
  · exact noted_same document one
  · exact ⟨rfl, rfl, rfl⟩

theorem note_names : (l.note name document).names = l.names := by
  simp only [names, note, List.map_map]
  refine List.map_congr_left fun one _ => ?_
  simp only [Function.comp]
  split
  · exact noted_name document one
  · rfl

/-- What adding a rule does: the entry of its name is the one there was, or one
that keeps what the rule says. -/
inductive Adding (l : EntryList) (name value : Bytes) (number : Nat) (origin : Origin) :
    EntryList × Entry × Bool → Prop where
  | old (one : Entry) (found : l.find name = some one) :
      Adding l name value number origin (l.note name origin.document, noted origin.document one, false)
  | new (one : Entry) (absent : l.find one.name = none) (own : one.name = name)
      (keeps : one.value = value ∧ one.number = number) :
      Adding l name value number origin (l.push one absent, one, true)

theorem add_adding (l : EntryList) (name value : Bytes) (number : Nat) (origin : Origin) :
    Adding l name value number origin (l.add name value number origin) := by
  unfold add
  split
  · exact .old _ ‹_›
  · exact .new _ _ rfl ⟨rfl, rfl⟩

variable {one : Entry} {result : EntryList × Entry × Bool}

theorem find_some (found : l.find name = some one) : one ∈ l.entries ∧ one.name = name :=
  ⟨List.mem_of_find?_eq_some found, by simpa using List.find?_some found⟩

theorem mem_names (member : one ∈ l.entries) : one.name ∈ l.names := List.mem_map_of_mem member

theorem Adding.extends
    (adding : Adding l name value number origin result) : Extends l result.1 := by
  cases adding with
  | old one found => exact note_extends
  | new one absent own keeps =>
    exact fun each member => ⟨each, List.mem_append_left _ member, rfl, rfl, rfl⟩

theorem Adding.entry (adding : Adding l name value number origin result) :
    result.2.1 ∈ result.1.entries ∧ result.2.1.name = name ∧
      (result.2.2 = true → result.2.1.value = value ∧ result.2.1.number = number) := by
  cases adding with
  | old one found =>
    obtain ⟨member, own⟩ := find_some found
    refine ⟨?_, (noted_name _ one).trans own, fun fresh => by cases fresh⟩
    exact List.mem_map.mpr ⟨one, member, if_pos own⟩
  | new one absent own keeps =>
    exact ⟨List.mem_append_right _ (List.mem_singleton.mpr rfl), own, fun _ => keeps⟩

theorem Adding.names_iff (adding : Adding l name value number origin result) (each : Bytes) :
    each ∈ result.1.names ↔ each ∈ l.names ∨ each = name := by
  cases adding with
  | old one found =>
    rw [note_names]
    refine ⟨.inl, ?_⟩
    rintro (listed | rfl)
    · exact listed
    · obtain ⟨member, own⟩ := find_some found
      exact own ▸ mem_names member
  | new one absent own keeps => simp [names, push, own]

end EntryList

section Adds

open EntryList

variable {document key what : Bytes} {most : Nat} {l : EntryList}

theorem addNames_names (names : List Bytes) (i : Nat) (l : EntryList) (each : Bytes) :
    each ∈ (addNames document key most what i names l).1.names ↔ each ∈ l.names ∨ each ∈ names := by
  induction names generalizing i l with
  | nil => simp [addNames]
  | cons name rest ih =>
    simp only [addNames]
    rw [ih, (add_adding l name name 0 (place document key i)).names_iff each, List.mem_cons, or_assoc]

theorem addKept_kept {removed : Bytes → Bool} {detail : Keeping → Entry → Detail} (rules : List Keeping) (l : EntryList)
    (accepted : (addKept document key most what removed detail rules l).2 = []) :
    Extends l (addKept document key most what removed detail rules l).1 ∧
      ∀ rule ∈ rules,
        ∃ one ∈ (addKept document key most what removed detail rules l).1.entries,
          one.name = rule.name ∧ ((one.value = rule.value ∧ one.number = rule.number) ∨ removed rule.name = true) := by
  induction rules generalizing l with
  | nil => exact ⟨.refl l, fun rule member => absurd member List.not_mem_nil⟩
  | cons first rest ih =>
    simp only [addKept] at accepted ⊢
    have adding := add_adding l first.name first.value first.number
      { document := document, key := key ++ ascii "." ++ first.written }
    obtain ⟨before, later⟩ := List.append_eq_nil_iff.mp accepted
    obtain ⟨_, agreed⟩ := List.append_eq_nil_iff.mp before
    obtain ⟨extends', kept⟩ := ih _ later
    refine ⟨adding.extends.trans extends', ?_⟩
    intro rule member
    rcases List.mem_cons.mp member with rfl | member
    · obtain ⟨listed, own, keeps⟩ := adding.entry
      obtain ⟨last, listed', name, value, number⟩ := extends' _ listed
      refine ⟨last, listed', name.trans own, ?_⟩
      by_cases gone : removed rule.name = true
      · exact .inr gone
      refine .inl ?_
      rw [value, number]
      by_contra differs
      rw [if_pos ⟨by simpa using mt keeps differs, not_and_or.mp differs, by simpa using gone⟩] at agreed
      cases agreed
    · exact kept rule member

end Adds

section Merging

open EntryList

variable {fold : Bytes → Bytes} {m : Merged} {d : Document} {documents : List Document}
variable {message : Message}

theorem foldl_keeps {α β γ : Type} (project : β → γ) {step : β → α → β}
    (same : ∀ b a, project (step b a) = project b) (items : List α) (b : β) :
    project (items.foldl step b) = project b := by
  induction items generalizing b with
  | nil => rfl
  | cons first rest ih => exact (ih _).trans (same b first)

theorem addRemovals_removeJSON (m : Merged) (d : Document) (message : Message) (each : Bytes) :
    each ∈ ((m.addRemovals d).removeJSON message).names ↔
      each ∈ (m.removeJSON message).names ∨ each ∈ d.rules.remove.json message := by
  cases message <;>
    simp [Merged.addRemovals, Merged.addBodies, Merged.addRemoveJSON, Merged.addForm,
      Merged.addQueryString, Merged.addQuery, Merged.addRemoveHeaders, addNames_names,
      apply_ite Merged.removeJSON]

theorem removals_gather (has : Merged → Prop) (adds : Document → Prop) (none_ : ¬ has {})
    (step : ∀ m d, has (m.addRemovals d) ↔ has m ∨ adds d) (documents : List Document) :
    has (documents.foldl Merged.addRemovals {}) ↔ ∃ d ∈ documents, adds d := by
  have from_ : ∀ m, has (documents.foldl Merged.addRemovals m) ↔
      has m ∨ ∃ d ∈ documents, adds d := by
    induction documents with
    | nil => simp
    | cons d rest ih =>
      intro m
      rw [List.foldl_cons, ih, step, or_assoc]
      simp
  rw [from_, or_iff_right none_]

theorem addKeeping_removeJSON (m : Merged) (d : Document) : (m.addKeeping fold d).removeJSON = m.removeJSON := rfl

theorem merge_removeJSON : (merge fold documents).removeJSON = (documents.foldl Merged.addRemovals {}).removeJSON :=
  foldl_keeps Merged.removeJSON addKeeping_removeJSON documents _

theorem merge_removed (each : Bytes) :
    each ∈ ((merge fold documents).removeJSON message).names ↔ ∃ d ∈ documents, each ∈ d.rules.remove.json message := by
  rw [merge_removeJSON]
  exact removals_gather (fun m => each ∈ (m.removeJSON message).names)
    (fun d => each ∈ d.rules.remove.json message) (by simp [EntryList.names])
    (fun m d => addRemovals_removeJSON m d message each) documents

theorem removedPointer_eq {m' : Merged} (same : m'.removeJSON = m.removeJSON) (pointer : Bytes) :
    m'.removedPointer fold message pointer = m.removedPointer fold message pointer := by
  unfold Merged.removedPointer
  rw [same]

def Masked (fold : Bytes → Bytes) (m : Merged) (message : Message) (rule : NamedValue) : Prop :=
  ∃ one ∈ (m.maskJSON message).entries, one.name = rule.name ∧
    (one.value = rule.value ∨ m.removedPointer fold message rule.name = true)

theorem Masked.later {m' : Merged} {rule : NamedValue} (masked : Masked fold m message rule)
    (extends' : Extends (m.maskJSON message) (m'.maskJSON message))
    (same : m'.removeJSON = m.removeJSON) : Masked fold m' message rule := by
  obtain ⟨one, listed, own, keeps⟩ := masked
  obtain ⟨later, listed', name, value, _⟩ := extends' one listed
  refine ⟨later, listed', name.trans own, ?_⟩
  rw [value, removedPointer_eq same]
  exact keeps

theorem addMaskJSON_masked (message : Message) (accepted : (m.addMaskJSON fold d message).findings = []) :
    m.findings = [] ∧ (∀ each, Extends (m.maskJSON each) ((m.addMaskJSON fold d message).maskJSON each)) ∧
      ∀ rule ∈ d.rules.mask.json message, Masked fold (m.addMaskJSON fold d message) message rule := by
  simp only [Merged.addMaskJSON] at accepted ⊢
  obtain ⟨before, kept⟩ := List.append_eq_nil_iff.mp accepted
  obtain ⟨extends', keeps⟩ := addKept_kept _ _ kept
  refine ⟨before, fun each => ?_, fun rule member => ?_⟩
  · by_cases own : each = message
    · subst own
      simpa using extends'
    · simpa [own] using Extends.refl _
  · obtain ⟨one, listed, own, value⟩ := keeps
      { written := rule.name, name := rule.name, value := rule.value, number := 0 }
      (List.mem_map_of_mem member)
    refine ⟨one, by simpa using listed, own, value.imp_left And.left⟩

theorem addKeeping_masked (accepted : (m.addKeeping fold d).findings = []) :
    m.findings = [] ∧ (∀ each, Extends (m.maskJSON each) ((m.addKeeping fold d).maskJSON each)) ∧
      ∀ message, ∀ rule ∈ d.rules.mask.json message, Masked fold (m.addKeeping fold d) message rule := by
  unfold Merged.addKeeping at accepted ⊢
  obtain ⟨before, extends₂, masked₂⟩ := addMaskJSON_masked _ accepted
  obtain ⟨before', extends₁, masked₁⟩ := addMaskJSON_masked _ before
  have empty : m.findings = [] := by
    simp only [Merged.addTruncate, Merged.addMaskHeaders] at before'
    exact (List.append_eq_nil_iff.mp (List.append_eq_nil_iff.mp before').1).1
  refine ⟨empty, fun each => (extends₁ each).trans (extends₂ each), fun message rule member => ?_⟩
  cases message with
  | request => exact (masked₁ rule member).later (extends₂ .request) rfl
  | response => exact masked₂ rule member

theorem keeping_masked (documents : List Document) (m : Merged)
    (accepted : (documents.foldl (Merged.addKeeping fold) m).findings = []) :
    m.findings = [] ∧ (∀ each, Extends (m.maskJSON each) ((documents.foldl (Merged.addKeeping fold) m).maskJSON each)) ∧
      ∀ message, ∀ d ∈ documents, ∀ rule ∈ d.rules.mask.json message,
        Masked fold (documents.foldl (Merged.addKeeping fold) m) message rule := by
  induction documents generalizing m with
  | nil => exact ⟨accepted, fun each => .refl _, fun _ d member => absurd member List.not_mem_nil⟩
  | cons first rest ih =>
    rw [List.foldl_cons] at accepted ⊢
    obtain ⟨between, later, masked⟩ := ih _ accepted
    obtain ⟨before, extends', own⟩ := addKeeping_masked between
    refine ⟨before, fun each => (extends' each).trans (later each), ?_⟩
    intro message d member rule listed
    rcases List.mem_cons.mp member with rfl | member
    · exact (own message rule listed).later (later message) (foldl_keeps Merged.removeJSON addKeeping_removeJSON rest _)
    · exact masked message d member rule listed

end Merging

section Pointers

variable {fold : Bytes → Bytes}

theorem mayMatch_comm (a b : List Bytes) : mayMatch fold a b = mayMatch fold b a := by
  induction a generalizing b with
  | nil => cases b <;> rfl
  | cons first rest ih =>
    cases b with
    | nil => rfl
    | cons other others =>
      have swap : (fold first == fold other) = (fold other == fold first) := BEq.comm
      rw [mayMatch, mayMatch, ih others, swap, Bool.or_comm (first == wildcard)]

theorem member_named {token name : Bytes} (is : (Step.member name).named fold token = true) :
    token = wildcard ∨ fold name = fold token := by
  simp only [Step.named, Bool.or_eq_true, beq_iff_eq] at is
  rcases is with (wild | same) | same
  · exact .inl wild
  · exact .inr (congrArg fold same)
  · exact .inr same

theorem mayMatch_of_named {a b : List Bytes} {path : List Step}
    (one : named fold a path = true) (other : named fold b path = true) :
    mayMatch fold a b = true := by
  induction path generalizing a b with
  | nil =>
    cases a with
    | nil => cases b <;> rfl
    | cons token tokens => cases one
  | cons step path ih =>
    cases a with
    | nil => cases one
    | cons token tokens =>
      cases b with
      | nil => cases other
      | cons token' tokens' =>
        rw [named, Bool.and_eq_true] at one other
        rw [mayMatch, ih one.2 other.2, Bool.and_true]
        cases step with
        | member name =>
          have first := member_named one.1
          have second := member_named other.1
          rcases first with wild | first
          · simp [wild]
          · rcases second with wild | second
            · simp [wild]
            · simp [← first, ← second]
        | element index =>
          have first := one.1
          have second := other.1
          simp only [Step.named, Bool.or_eq_true, beq_iff_eq] at first second
          rcases first with wild | first
          · simp [wild]
          · rcases second with wild | second
            · simp [wild]
            · simp [first, second]

/-- Whether a removal's tokens match whatever the tokens of a mask do, as far as
they go, and name no element by number. -/
def takesAll (fold : Bytes → Bytes) : List Bytes → List Bytes → Bool
  | [], _ => true
  | _ :: _, [] => false
  | token :: tokens, want :: wants =>
    (token == wildcard || (want != wildcard && !isNumeral token && !isNumeral want && fold token == fold want)) &&
      takesAll fold tokens wants

theorem takesAll_plain {tokens wants : List Bytes} (takes : takesAll fold tokens wants = true) :
    ∀ token ∈ tokens, isNumeral token = false := by
  induction tokens generalizing wants with
  | nil => exact fun token member => absurd member List.not_mem_nil
  | cons first rest ih =>
    cases wants with
    | nil => cases takes
    | cons want wants =>
      rw [takesAll, Bool.and_eq_true] at takes
      intro token member
      rcases List.mem_cons.mp member with rfl | member
      · rcases Bool.or_eq_true _ _ |>.mp takes.1 with wild | names
        · rw [beq_iff_eq.mp wild]
          decide
        · simp only [Bool.and_eq_true, Bool.not_eq_true'] at names
          exact names.1.1.2
      · exact ih takes.2 token member

theorem named_of_takesAll {tokens wants : List Bytes} {path : List Step}
    (takes : takesAll fold tokens wants = true) (names : named fold wants path = true) :
    named fold tokens (path.take tokens.length) = true := by
  induction tokens generalizing wants path with
  | nil => rfl
  | cons token tokens ih =>
    cases wants with
    | nil => cases takes
    | cons want wants =>
      cases path with
      | nil => cases names
      | cons step path =>
        rw [takesAll, Bool.and_eq_true] at takes
        rw [named, Bool.and_eq_true] at names
        rw [List.length_cons, List.take_succ_cons, named, ih takes.2 names.2, Bool.and_true]
        rcases Bool.or_eq_true _ _ |>.mp takes.1 with wild | same
        · cases step <;> simp [Step.named, beq_iff_eq.mp wild]
        simp only [Bool.and_eq_true, Bool.not_eq_true', bne_iff_ne, beq_iff_eq] at same
        obtain ⟨⟨⟨other, _⟩, plain⟩, same⟩ := same
        have step_named := names.1
        cases step with
        | member name =>
          rcases member_named step_named with wild | is
          · exact absurd wild other
          · simp [Step.named, is.trans same.symm]
        | element index =>
          simp only [Step.named, Bool.or_eq_true, beq_iff_eq] at step_named
          rcases step_named with wild | is
          · exact absurd wild other
          · rw [is, decimal_isNumeral] at plain
            cases plain

theorem split_length (separator : UInt8) (text : Bytes) :
    (Text.split separator text).length = text.count separator + 1 := by
  induction text with
  | nil => rfl
  | cons b rest ih =>
    unfold Text.split
    by_cases here : b = separator
    · simp [here, ih]
    rw [if_neg (by simpa using here), List.count_cons_of_ne (by simpa using here), ← ih]
    cases pieces : Text.split separator rest with
    | nil =>
      rw [pieces] at ih
      cases ih
    | cons piece pieces => rfl

theorem pointerTokens_ne_nil {pointer : Bytes} (valid : validPointer pointer = .ok ()) :
    pointerTokens pointer ≠ [] := by
  have begins : pointer.count 47 ≠ 0 := by
    unfold validPointer at valid
    split at valid
    · cases valid
    split at valid
    · cases valid
    · rename_i first rest slash
      rw [show first = 47 by simpa using slash, List.count_cons_self]
      exact Nat.succ_ne_zero _
  intro empty
  have length := congrArg List.length empty
  rw [pointerTokens, List.length_map, List.length_drop, split_length] at length
  simp only [List.length_nil] at length
  omega

end Pointers

section Conflicts

variable {fold : Bytes → Bytes} {m : Merged} {message : Message}

def Merged.Settles (m : Merged) (fold : Bytes → Bytes) (message : Message) (a b : Entry) : Prop :=
  a.value = b.value ∨ mayMatch fold (pointerTokens a.name) (pointerTokens b.name) = false ∨
    m.removedPointer fold message a.name = true ∨ m.removedPointer fold message b.name = true

theorem overlaps_nil {entries : List Entry} (accepted : m.overlaps fold message entries = []) :
    entries.Pairwise (m.Settles fold message) := by
  induction entries with
  | nil => exact List.Pairwise.nil
  | cons a rest ih =>
    obtain ⟨first, later⟩ := List.append_eq_nil_iff.mp accepted
    refine List.pairwise_cons.mpr ⟨fun b member => ?_, ih later⟩
    have agreed := List.flatMap_eq_nil_iff.mp first b member
    split at agreed
    · rename_i same
      exact same.imp_right .inl
    split at agreed
    · rename_i removed
      exact .inr (.inr removed)
    · cases agreed

theorem masks_apart (accepted : m.overlaps fold message (m.maskJSON message).entries = [])
    {a b : Entry} (one : a ∈ (m.maskJSON message).entries)
    (other : b ∈ (m.maskJSON message).entries)
    (may : mayMatch fold (pointerTokens a.name) (pointerTokens b.name) = true) :
    a.value = b.value ∨ m.removedPointer fold message a.name = true ∨ m.removedPointer fold message b.name = true := by
  by_cases same : a = b
  · exact .inl (congrArg Entry.value same)
  have symmetric : Std.Symm (m.Settles fold message) := by
    refine ⟨fun a b either => ?_⟩
    rw [Merged.Settles, mayMatch_comm]
    exact either.imp Eq.symm (Or.imp_right Or.symm)
  rcases (overlaps_nil accepted).forall one other same with value | apart | removed
  · exact .inl value
  · rw [may] at apart
    cases apart
  · exact .inr removed

end Conflicts

/-- Wherever a removal may match a prefix of a mask's pointer of its message, it
matches whatever the mask does and names no element by number. -/
def RemovalsTakeAll (fold : Bytes → Bytes) (documents : List Document) : Prop :=
  ∀ message ∈ [Message.request, Message.response], ∀ d ∈ documents,
    ∀ removal ∈ d.rules.remove.json message, ∀ d' ∈ documents,
      ∀ mask ∈ d'.rules.mask.json message,
        let tokens := pointerTokens removal
        let want := pointerTokens mask.name
        tokens.length ≤ want.length → mayMatch fold tokens (want.take tokens.length) = true →
          takesAll fold tokens want = true

instance (fold : Bytes → Bytes) (documents : List Document) : Decidable (RemovalsTakeAll fold documents) :=
  inferInstanceAs (Decidable (∀ _ ∈ _, ∀ _ ∈ _, ∀ _ ∈ _, ∀ _ ∈ _, ∀ _ ∈ _, _ → _ → _))

def removals (fold : Bytes → Bytes) (documents : List Document) (message : Message) : List (List Bytes) :=
  ((merge fold documents).removeJSON message).names.map pointerTokens

section Left

variable {fold : Bytes → Bytes} {documents : List Document} {message : Message}

theorem not_removed_of_left
    (valid : ∀ d ∈ documents, ∀ pointer ∈ d.rules.remove.json message, validPointer pointer = .ok ())
    (complete : RemovalsTakeAll fold documents) {body : Value} {path : List Step}
    (left : (body.edit fold none (removals fold documents message)).At path)
    {d : Document} (member : d ∈ documents) {mask : NamedValue}
    (listed : mask ∈ d.rules.mask.json message)
    (names : named fold (pointerTokens mask.name) path = true) :
    (merge fold documents).removedPointer fold message mask.name = false := by
  by_contra removed
  have some_ : (merge fold documents).removedPointer fold message mask.name = true := by
    simpa using removed
  obtain ⟨removal, among, may⟩ := List.any_eq_true.mp some_
  simp only [Bool.and_eq_true, decide_eq_true_eq] at may
  obtain ⟨d', member', written⟩ := merge_removed removal.name |>.mp (EntryList.mem_names among)
  have takes := complete message (by cases message <;> simp) d' member' removal.name written d
    member mask listed may.1 may.2
  have active : pointerTokens removal.name ∈ removals fold documents message :=
    List.mem_map_of_mem (EntryList.mem_names among)
  have gone := edit_removes active
    (pointerTokens_ne_nil (valid d' member' removal.name written)) (takesAll_plain takes) left
    (pointerTokens removal.name).length
  rw [named_of_takesAll takes names] at gone
  cases gone

end Left

def requestRules (remove : List Bytes) (mask : List NamedValue) : List Document :=
  [{ name := ascii "configuration"
     rules :=
      { remove := { json := fun message => if message = .request then remove else [] }
        mask := { json := fun message => if message = .request then mask else [] } } }]

end EdgeObserver.Config
