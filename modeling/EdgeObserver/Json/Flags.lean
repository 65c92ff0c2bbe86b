import EdgeObserver.Json.Recorded

/-!
# Which pointers matched

A pointer's flag is set exactly when it names a node that lies in no node some
pointer names.
-/

set_option autoImplicit false

namespace EdgeObserver.Json

open Library (Edit Splices)

/-!
## The edits give the redacted text

The edits recorded for a value, in the order of the text, turn it into the text
of what is left of it.
-/

mutual

def Written.edits (replacement : Option Bytes) (hit : List Step → Bool) (pos : Nat) : Written → List (Edit UInt8)
  | .scalar _ => []
  | .container _ _ items =>
    arranged replacement (pos + 1) (parts replacement hit 0 (pos + 1) items)

def parts (replacement : Option Bytes) (hit : List Step → Bool) (index pos : Nat) : List (Item Written) → List Part
  | [] => []
  | ⟨lead, label, value, trail⟩ :: rest =>
    let inside := fun path => hit (label.step index :: path)
    let valueStart := pos + lead.length + label.text.length
    let p : Part :=
      { act := hit [label.step index], item := ⟨lead, label, value.text, trail⟩,
        inner := if hit [label.step index] then [] else value.edits replacement inside valueStart,
        new := (value.redacted replacement inside).text }
    p :: parts replacement hit (index + 1) (p.next pos) rest

end

section Splice

variable {replacement : Option Bytes} {hit : List Step → Bool}

theorem parts_item (index pos : Nat) (items : List (Item Written)) :
    (parts replacement hit index pos items).map Part.item = texts items := by
  induction items generalizing index pos with
  | nil => rfl
  | cons item rest ih =>
    obtain ⟨lead, label, value, trail⟩ := item
    simp only [parts, texts, List.map_cons, ih]

theorem parts_mark (index pos : Nat) (items : List (Item Written)) :
    (parts replacement hit index pos items).map Part.mark =
      (marked replacement hit index items).map (fun m => (m.1, m.2.map Written.text)) := by
  induction items generalizing index pos with
  | nil => rfl
  | cons item rest ih =>
    obtain ⟨lead, label, value, trail⟩ := item
    simp only [parts, marked, List.map_cons, ih]
    rfl

theorem parts_still (index pos : Nat) (items : List (Item Written)) :
    ∀ p ∈ parts replacement hit index pos items, p.act = true → p.inner = [] := by
  induction items generalizing index pos with
  | nil => simp [parts]
  | cons item rest ih =>
    obtain ⟨lead, label, value, trail⟩ := item
    intro p listed acted
    rw [parts] at listed
    rcases List.mem_cons.mp listed with rfl | later
    · exact if_pos acted
    · exact ih _ _ p later acted

theorem kept_map {α β : Type} (f : α → β) (lead : Option Bytes) (m : List (Bool × Item α)) :
    kept lead (m.map (fun m => (m.1, m.2.map f))) = ((kept lead m).1, (kept lead m).2.map (Item.map f)) := by
  induction m generalizing lead with
  | nil => rfl
  | cons first rest ih =>
    obtain ⟨act, item⟩ := first
    cases act with
    | true =>
      have same : (item.map f).lead = item.lead := rfl
      simp only [List.map_cons, kept, if_true, ih, same]
      rcases kept (some (lead.getD item.lead)) rest with ⟨last, _ | ⟨first, others⟩⟩ <;> rfl
    | false =>
      simp only [List.map_cons, kept, Bool.false_eq_true, if_false, ih]
      rfl

theorem rebuilt_map {α β : Type} (f : α → β) (replacement : Option α) (blank : Bytes) (m : List (Bool × Item α)) :
    rebuilt (replacement.map f) blank (m.map (fun m => (m.1, m.2.map f))) =
      ((rebuilt replacement blank m).1, (rebuilt replacement blank m).2.map (Item.map f)) := by
  cases replacement with
  | some new =>
    simp only [rebuilt, Option.map_some, List.map_map, Prod.mk.injEq, true_and]
    refine List.map_congr_left fun x _ => ?_
    obtain ⟨act, item⟩ := x
    cases act <;> rfl
  | none =>
    simp only [rebuilt, Option.map_none, kept_map]
    rcases kept none m with ⟨_ | trail, items⟩
    · rfl
    · cases m <;> rfl

theorem Written.splices {left : Nat} {c : Written} (fine : c.Fine left) (hit : List Step → Bool) (pos : Nat) :
    Splices pos c.text (c.edits replacement hit pos) (c.redacted replacement hit).text := by
  induction c using Written.induct generalizing left hit pos with
  | scalar text =>
    simp only [Written.text, Written.edits, Written.redacted]
    exact Splices.keep pos text
  | container object blank items ih =>
    cases fine with
    | container spaces only around values =>
      rename_i left
      have placed : ∀ index place (some_ : List (Item Written)), (∀ item ∈ some_, item ∈ items) →
          Placed place (parts replacement hit index place some_) := by
        intro index place listed among
        induction listed generalizing index place with
        | nil => exact trivial
        | cons item rest each =>
          obtain ⟨lead, label, value, trail⟩ := item
          have here := among _ List.mem_cons_self
          obtain ⟨first, more, same, _⟩ := (values _ here).begins
          refine ⟨?_, fun stays => ?_, each _ _ fun item later => among item (List.mem_cons_of_mem _ later)⟩
          · simp only at same
            simp [same]
          · have unmarked : hit [label.step index] = false := stays
            simp only [unmarked, Bool.false_eq_true, if_false]
            exact ih _ here (values _ here) _ _
      have only' : parts replacement hit 0 (pos + 1) items ≠ [] → blank = [] := by
        intro some_
        refine only fun none_ => some_ ?_
        rw [none_, parts]
      have inner := inside_splices replacement only' (placed 0 (pos + 1) items fun _ => id)
      have scalars : (replacement.map Written.scalar).map Written.text = replacement := by
        cases replacement <;> simp [Written.text]
      have rebuilds := rebuilt_map Written.text (replacement.map Written.scalar) blank (marked replacement hit 0 items)
      rw [scalars] at rebuilds
      rw [parts_item, parts_mark, rebuilds] at inner
      have whole := (inner.append (Splices.keep _ [closing object]) rfl).after [opening object] rfl
      simpa [Written.text, Written.edits, Written.redacted, texts_eq_map] using whole

end Splice

/-!
## Cursors and paths

The cursors attached to a value say which paths inside it the pointers name: one
that ends on a child names the path to it, and those that go on beneath the child
name the paths further in.
-/

def Cursor.ends (matched : Bytes → Bool) (c : Cursor) : Bool :=
  match c.tokens with
  | [token] => matched token
  | _ => false

def Cursor.onward (matched : Bytes → Bool) (c : Cursor) : Option Cursor :=
  match c.tokens with
  | token :: next :: rest => if matched token then some { c with tokens := next :: rest } else none
  | _ => none

def names (fold : Bytes → Bytes) (active : List Cursor) : List Step → Bool := hits fold (active.map Cursor.tokens)

theorem names_cons (fold : Bytes → Bytes) (c : Cursor) (active : List Cursor) (path : List Step) :
    names fold (c :: active) path = (named fold c.tokens path || names fold active path) := by
  simp [names, hits]

section Descend

variable {fold : Bytes → Bytes} {matched : Bytes → Bool}

theorem descendOne_eq (found : Bool × List Cursor × List Bool) (c : Cursor) :
    descendOne matched found c = (found.1 || c.ends matched, found.2.1 ++ (c.onward matched).toList,
      if c.ends matched then found.2.2.set c.pointer true else found.2.2) := by
  obtain ⟨pointer, tokens⟩ := c
  rcases tokens with _ | ⟨token, _ | ⟨second, rest⟩⟩
  · simp [descendOne, Cursor.ends, Cursor.onward]
  all_goals cases is : matched token <;> simp [descendOne, Cursor.ends, Cursor.onward, is]

def flagged (matched : Bytes → Bool) (active : List Cursor) (flags : List Bool) : List Bool :=
  active.foldl (fun flags c => if c.ends matched then flags.set c.pointer true else flags) flags

theorem descend_fold (active : List Cursor) (found : Bool × List Cursor × List Bool) :
    active.foldl (descendOne matched) found = (found.1 || active.any (Cursor.ends matched),
      found.2.1 ++ active.filterMap (Cursor.onward matched), flagged matched active found.2.2) := by
  induction active generalizing found with
  | nil => simp [flagged]
  | cons c rest ih =>
    rw [List.foldl_cons, ih, descendOne_eq, List.any_cons, List.filterMap_cons]
    cases c.onward matched <;> simp [flagged, Bool.or_assoc]

theorem descend_eq (active : List Cursor) (flags : List Bool) :
    descend matched active flags = (active.any (Cursor.ends matched),
      if active.any (Cursor.ends matched) then [] else active.filterMap (Cursor.onward matched),
      flagged matched active flags) := by
  unfold descend
  rw [descend_fold]
  cases active.any (Cursor.ends matched) <;> simp

theorem named_here (step : Step) (c : Cursor) :
    named fold c.tokens [step] = c.ends (step.named fold) := by
  obtain ⟨pointer, tokens⟩ := c
  rcases tokens with _ | ⟨token, _ | ⟨second, rest⟩⟩ <;> simp [named, Cursor.ends]

theorem names_here (active : List Cursor) (step : Step) :
    names fold active [step] = active.any (Cursor.ends (step.named fold)) := by
  simp only [names, hits, List.any_map]
  congr 1
  funext c
  exact named_here step c

theorem named_beneath {step : Step} {c : Cursor} (stays : c.ends (step.named fold) = false) (path : List Step) :
    named fold c.tokens (step :: path) = (c.onward (step.named fold)).any (fun c => named fold c.tokens path) := by
  obtain ⟨pointer, tokens⟩ := c
  rcases tokens with _ | ⟨token, _ | ⟨second, rest⟩⟩
  · rfl
  · have other : step.named fold token = false := stays
    simp [named, Cursor.onward, other]
  · cases is : step.named fold token <;> simp [named, Cursor.onward, is]

theorem names_beneath {active : List Cursor} {step : Step} (stays : names fold active [step] = false) :
    names fold (active.filterMap (Cursor.onward (step.named fold))) = fun path => names fold active (step :: path) := by
  funext path
  rw [names_here] at stays
  induction active with
  | nil => rfl
  | cons c rest ih =>
    rw [List.any_cons, Bool.or_eq_false_iff] at stays
    obtain ⟨first, others⟩ := stays
    rw [names_cons, ← ih others, named_beneath first, List.filterMap_cons]
    cases c.onward (step.named fold) with
    | none => rfl
    | some next => simp [names_cons]

end Descend

section Trace

variable {job : Job}

theorem edit_none {replacement : Option Bytes} {children : List Child}
    (none_ : ∀ c ∈ children, c.act = false) : edit replacement children = [] := by
  have stays : ∀ before, removals before none children = [] := by
    intro before
    induction children generalizing before with
    | nil => rfl
    | cons c rest ih =>
      have later := fun other listed => none_ other (List.mem_cons_of_mem _ listed)
      simp [removals, none_ c List.mem_cons_self, ih later]
  cases replacement with
  | none => exact stays none
  | some new =>
    refine List.filterMap_eq_nil_iff.mpr fun c listed => ?_
    simp [none_ c listed]

theorem itemsTrace_nil {items : List (Item Written)}
    (each : ∀ item ∈ items, ∀ pos flags, item.value.trace job [] pos flags = (flags, []))
    (index pos : Nat) (flags : List Bool) :
    ∃ children, itemsTrace job [] index pos flags items = (flags, [], children) ∧ ∀ c ∈ children, c.act = false := by
  induction items generalizing index pos with
  | nil => exact ⟨[], rfl, by simp⟩
  | cons item rest ih =>
    have value_nil := each item List.mem_cons_self
    obtain ⟨lead, label, value, trail⟩ := item
    obtain ⟨children, same, none_⟩ := ih (fun other listed => each other (List.mem_cons_of_mem _ listed))
      (index + 1) (pos + lead.length + label.text.length + value.text.length + trail.length + 1)
    simp only at value_nil
    refine ⟨⟨pos + lead.length, pos + lead.length + label.text.length,
      pos + lead.length + label.text.length + value.text.length, false⟩ :: children, ?_, ?_⟩
    · simp [itemsTrace, descend_eq, flagged, value_nil, same]
    · simpa using none_

theorem Written.trace_nil (c : Written) (pos : Nat) (flags : List Bool) :
    c.trace job [] pos flags = (flags, []) := by
  induction c using Written.induct generalizing pos flags with
  | scalar text => rw [Written.trace]
  | container object blank items ih =>
    obtain ⟨children, same, none_⟩ := itemsTrace_nil ih 0 (pos + 1) flags
    simp only [Written.trace, same, edit_none none_, List.append_nil]

theorem itemsTrace_edits {active : List Cursor} {items : List (Item Written)}
    (each : ∀ item ∈ items, ∀ active pos flags, (item.value.trace job active pos flags).2.Perm
      (item.value.edits job.replacement (names job.fold active) pos))
    (index pos : Nat) (flags : List Bool) :
    let t := itemsTrace job active index pos flags items
    let p := parts job.replacement (names job.fold active) index pos items
    t.2.1.Perm (p.flatMap Part.inner) ∧ t.2.2 = children pos p := by
  induction items generalizing index pos flags with
  | nil => exact ⟨.refl _, rfl⟩
  | cons item rest ih =>
    have inner := each item List.mem_cons_self
    have later := ih (fun other listed => each other (List.mem_cons_of_mem _ listed))
    obtain ⟨lead, label, value, trail⟩ := item
    simp only at inner
    simp only [itemsTrace, parts, descend_eq, ← names_here, List.flatMap_cons, children]
    generalize flagged _ active flags = flags
    cases acted : names job.fold active [label.step index] with
    | true =>
      simp only [if_true, Written.trace_nil]
      obtain ⟨same, kids⟩ := later (index + 1) (pos + lead.length + label.text.length +
        value.text.length + trail.length + 1) flags
      exact ⟨same, congrArg (List.cons _) kids⟩
    | false =>
      simp only [Bool.false_eq_true, if_false]
      rw [← names_beneath acted]
      obtain ⟨same, kids⟩ := later (index + 1) (pos + lead.length + label.text.length +
        value.text.length + trail.length + 1)
        (value.trace job (active.filterMap (Cursor.onward ((label.step index).named job.fold)))
          (pos + lead.length + label.text.length) flags).1
      exact ⟨(inner _ _ _).append same, congrArg (List.cons _) kids⟩

theorem Written.trace_edits (c : Written) (active : List Cursor) (pos : Nat) (flags : List Bool) :
    (c.trace job active pos flags).2.Perm (c.edits job.replacement (names job.fold active) pos) := by
  induction c using Written.induct generalizing active pos flags with
  | scalar text =>
    rw [Written.trace, Written.edits]
  | container object blank items ih =>
    obtain ⟨same, kids⟩ := @itemsTrace_edits job active items ih 0 (pos + 1) flags
    simp only [Written.trace, Written.edits]
    rw [kids]
    exact (same.append_right _).trans (arranged_perm _ _ _ (parts_still _ _ _))

end Trace

/-! ## Flags -/

def Outermost (hit : List Step → Bool) (path : List Step) : Prop :=
  ∀ n, 0 < n → n < path.length → hit (path.take n) = false

structure Reached (fold : Bytes → Bytes) (active : List Cursor) (i : Nat) (path : List Step) :
    Prop where
  some_ : path ≠ []
  outermost : Outermost (names fold active) path
  named : ∃ c ∈ active, c.pointer = i ∧ named fold c.tokens path = true

def EndsOn (matched : Bytes → Bool) (active : List Cursor) (i : Nat) : Prop :=
  ∃ c ∈ active, c.pointer = i ∧ c.ends matched = true

theorem flagged_cons (matched : Bytes → Bool) (c : Cursor) (active : List Cursor) (flags : List Bool) :
    flagged matched (c :: active) flags =
      flagged matched active (if c.ends matched then flags.set c.pointer true else flags) := rfl

theorem flagged_length (matched : Bytes → Bool) (active : List Cursor) (flags : List Bool) :
    (flagged matched active flags).length = flags.length := by
  induction active generalizing flags with
  | nil => rfl
  | cons c rest ih =>
    rw [flagged_cons, ih]
    split
    · exact List.length_set
    · rfl

theorem flagged_iff {matched : Bytes → Bool} {active : List Cursor} {flags : List Bool} {i : Nat}
    (within : i < flags.length) :
    (flagged matched active flags)[i]? = some true ↔ flags[i]? = some true ∨ EndsOn matched active i := by
  induction active generalizing flags with
  | nil => simp [flagged, EndsOn]
  | cons c rest ih =>
    have cases_ : EndsOn matched (c :: rest) i ↔
        (c.pointer = i ∧ c.ends matched = true) ∨ EndsOn matched rest i := by
      simp [EndsOn]
    rw [flagged_cons, cases_]
    cases is : c.ends matched with
    | false => simpa using ih within
    | true =>
      have within' : i < (flags.set c.pointer true).length := by simpa using within
      simp only [if_true, ih within', and_true]
      by_cases same : c.pointer = i
      · subst same
        simp [within]
      · simp [same]

section Step

variable {fold : Bytes → Bytes} {active : List Cursor} {i : Nat} {step : Step} {rest : List Step}

theorem outermost_cons {hit : List Step → Bool} :
    Outermost hit (step :: rest) ↔
      rest = [] ∨ (hit [step] = false ∧ Outermost (fun path => hit (step :: path)) rest) := by
  constructor
  · intro out
    cases rest with
    | nil => exact .inl rfl
    | cons next rest =>
      refine .inr ⟨out 1 (by omega) (by simp), fun n above below => ?_⟩
      exact out (n + 1) (by omega) (by simpa using below)
  · rintro (rfl | ⟨first, out⟩) n above below
    · simp only [List.length_singleton] at below
      omega
    · cases n with
      | zero => omega
      | succ n =>
        rcases Nat.eq_zero_or_pos n with rfl | more
        · exact first
        · exact out n more (by simpa using below)

theorem Cursor.onward_pointer {matched : Bytes → Bool} {c next : Cursor}
    (is : c.onward matched = some next) : next.pointer = c.pointer := by
  unfold Cursor.onward at is
  split at is
  · split at is
    · cases is
      rfl
    · cases is
  · cases is

theorem reached_cons :
    Reached fold active i (step :: rest) ↔ (rest = [] ∧ EndsOn (step.named fold) active i) ∨
      (names fold active [step] = false ∧
        Reached fold (active.filterMap (Cursor.onward (step.named fold))) i rest) := by
  constructor
  · rintro ⟨_, out, c, listed, pointer, is⟩
    rcases outermost_cons.mp out with rfl | ⟨stays, out⟩
    · exact .inl ⟨rfl, c, listed, pointer, named_here step c ▸ is⟩
    have others := stays
    rw [names_here, List.any_eq_false] at others
    have on := others c listed
    rw [Bool.not_eq_true] at on
    cases rest with
    | nil =>
      rw [named_here, on] at is
      cases is
    | cons next rest =>
      rw [named_beneath on] at is
      cases found : c.onward (step.named fold) with
      | none =>
        rw [found] at is
        cases is
      | some beneath =>
        rw [found] at is
        rw [← names_beneath stays] at out
        exact .inr ⟨stays, List.cons_ne_nil _ _, out, beneath, List.mem_filterMap.mpr ⟨c, listed, found⟩,
          (Cursor.onward_pointer found).trans pointer, is⟩
  · rintro (⟨rfl, c, listed, pointer, is⟩ | ⟨stays, some_, out, c, listed, pointer, is⟩)
    · refine ⟨List.cons_ne_nil _ _, outermost_cons.mpr (.inl rfl), c, listed, pointer, ?_⟩
      rw [named_here, is]
    · obtain ⟨origin, member, found⟩ := List.mem_filterMap.mp listed
      rw [names_beneath stays] at out
      refine ⟨List.cons_ne_nil _ _, outermost_cons.mpr (.inr ⟨stays, out⟩), origin, member,
        (Cursor.onward_pointer found).symm.trans pointer, ?_⟩
      rw [names_here, List.any_eq_false] at stays
      rw [named_beneath (by simpa using stays origin member), found]
      exact is

end Step

section Tree

variable {job : Job} {object : Bool} {blank : Bytes} {items : List (Item Written)}

def AtItem : Nat → List (Item Written) → List Step → Prop
  | _, [], _ => False
  | index, item :: rest, path =>
    (∃ inner, path = item.label.step index :: inner ∧ item.value.tree.At inner) ∨ AtItem (index + 1) rest path

theorem atItem_object (fine : ∀ item ∈ items, item.label.Fine true) (index : Nat) (path : List Step) :
    AtItem index items path ↔ ∃ name value inner, (name, value) ∈ members items ∧
      path = .member name :: inner ∧ value.At inner := by
  induction items generalizing index with
  | nil => simp [AtItem, members]
  | cons item rest ih =>
    have label_fine := fine item List.mem_cons_self
    obtain ⟨lead, label, value, trail⟩ := item
    rw [AtItem, ih (fun other listed => fine other (List.mem_cons_of_mem _ listed)), members]
    cases label_fine with
    | member _ _ _ =>
      constructor
      · rintro (⟨inner, same, inside⟩ | ⟨name', value', inner, listed, same, inside⟩)
        · exact ⟨_, value.tree, inner, List.mem_cons_self, same, inside⟩
        · exact ⟨name', value', inner, List.mem_cons_of_mem _ listed, same, inside⟩
      · rintro ⟨name', value', inner, listed, same, inside⟩
        rcases List.mem_cons.mp listed with here | later
        · cases here
          exact .inl ⟨inner, same, inside⟩
        · exact .inr ⟨name', value', inner, later, same, inside⟩

theorem atItem_array (fine : ∀ item ∈ items, item.label.Fine false) (index : Nat) (path : List Step) :
    AtItem index items path ↔ ∃ k value inner, (elements items)[k]? = some value ∧
      path = .element (index + k) :: inner ∧ value.At inner := by
  induction items generalizing index with
  | nil => simp [AtItem, elements]
  | cons item rest ih =>
    have label_fine := fine item List.mem_cons_self
    obtain ⟨lead, label, value, trail⟩ := item
    rw [AtItem, ih (fun other listed => fine other (List.mem_cons_of_mem _ listed)), elements]
    cases label_fine with
    | element =>
      constructor
      · rintro (⟨inner, same, inside⟩ | ⟨k, value', inner, listed, same, inside⟩)
        · exact ⟨0, value.tree, inner, rfl, same, inside⟩
        · refine ⟨k + 1, value', inner, by simpa using listed, ?_, inside⟩
          rw [same, Nat.add_right_comm, Nat.add_assoc]
      · rintro ⟨k, value', inner, listed, same, inside⟩
        cases k with
        | zero =>
          cases listed
          exact .inl ⟨inner, same, inside⟩
        | succ k =>
          refine .inr ⟨k, value', inner, by simpa using listed, ?_, inside⟩
          rw [same, Nat.add_right_comm, Nat.add_assoc]

theorem Written.at_container (fine : ∀ item ∈ items, item.label.Fine object) (path : List Step) :
    (Written.container object blank items).tree.At path ↔ path = [] ∨ AtItem 0 items path := by
  cases object with
  | true =>
    rw [atItem_object fine, Written.tree]
    constructor
    · intro at_
      cases at_ with
      | here => exact .inl rfl
      | member listed inside => exact .inr ⟨_, _, _, listed, rfl, inside⟩
    · rintro (rfl | ⟨name, value, inner, listed, rfl, inside⟩)
      · exact .here _
      · exact .member listed inside
  | false =>
    rw [atItem_array fine, Written.tree]
    constructor
    · intro at_
      cases at_ with
      | here => exact .inl rfl
      | element listed inside => exact .inr ⟨_, _, _, listed, by rw [Nat.zero_add], inside⟩
    · rintro (rfl | ⟨k, value, inner, listed, rfl, inside⟩)
      · exact .here _
      · rw [Nat.zero_add]
        exact .element listed inside

theorem reached_child {fold : Bytes → Bytes} {active : List Cursor} {i : Nat} {step : Step} {value : Value} :
    (∃ rest, value.At rest ∧ Reached fold active i (step :: rest)) ↔ EndsOn (step.named fold) active i ∨
      ∃ rest, value.At rest ∧ Reached fold (if names fold active [step] then []
        else active.filterMap (Cursor.onward (step.named fold))) i rest := by
  constructor
  · rintro ⟨rest, inside, reached⟩
    rcases reached_cons.mp reached with ⟨_, ends⟩ | ⟨stays, reached⟩
    · exact .inl ends
    · refine .inr ⟨rest, inside, ?_⟩
      rw [stays]
      exact reached
  · rintro (ends | ⟨rest, inside, reached⟩)
    · exact ⟨[], .here _, reached_cons.mpr (.inl ⟨rfl, ends⟩)⟩
    · cases stays : names fold active [step] with
      | true =>
        rw [stays] at reached
        obtain ⟨c, listed, _⟩ := reached.named
        cases listed
      | false =>
        rw [stays] at reached
        exact ⟨rest, inside, reached_cons.mpr (.inr ⟨stays, reached⟩)⟩

structure Flags (fold : Bytes → Bytes) (active : List Cursor) (before after : List Bool)
    (inside : List Step → Prop) : Prop where
  length : after.length = before.length
  iff : ∀ i < before.length, after[i]? = some true ↔
    before[i]? = some true ∨ ∃ path, inside path ∧ Reached fold active i path

theorem itemsTrace_flags {active : List Cursor}
    (each : ∀ item ∈ items, ∀ active pos flags, Flags job.fold active flags
      (item.value.trace job active pos flags).1 item.value.tree.At)
    (index pos : Nat) (flags : List Bool) :
    Flags job.fold active flags (itemsTrace job active index pos flags items).1 (AtItem index items) := by
  induction items generalizing index pos flags with
  | nil => exact ⟨rfl, by simp [AtItem, itemsTrace]⟩
  | cons item rest ih =>
    have inner := each item List.mem_cons_self
    have later := ih (fun other listed => each other (List.mem_cons_of_mem _ listed))
    obtain ⟨lead, label, value, trail⟩ := item
    simp only [itemsTrace, descend_eq, ← names_here] at inner ⊢
    have marks := flagged_length ((label.step index).named job.fold) active flags
    obtain ⟨inner_length, inner_iff⟩ := inner (if names job.fold active [label.step index] then []
      else active.filterMap (Cursor.onward ((label.step index).named job.fold)))
      (pos + lead.length + label.text.length)
      (flagged ((label.step index).named job.fold) active flags)
    obtain ⟨length, iff⟩ := later (index + 1) (pos + lead.length + label.text.length +
      value.text.length + trail.length + 1) (value.trace job
        (if names job.fold active [label.step index] then []
          else active.filterMap (Cursor.onward ((label.step index).named job.fold)))
        (pos + lead.length + label.text.length)
        (flagged ((label.step index).named job.fold) active flags)).1
    refine ⟨length.trans (inner_length.trans marks), fun i within => ?_⟩
    have through : (∃ path, AtItem index (⟨lead, label, value, trail⟩ :: rest) path ∧ Reached job.fold active i path) ↔
        (∃ inner, value.tree.At inner ∧ Reached job.fold active i (label.step index :: inner)) ∨
        ∃ path, AtItem (index + 1) rest path ∧ Reached job.fold active i path := by
      constructor
      · rintro ⟨path, ⟨inner, rfl, inside⟩ | there, reached⟩
        · exact .inl ⟨inner, inside, reached⟩
        · exact .inr ⟨path, there, reached⟩
      · rintro (⟨inner, inside, reached⟩ | ⟨path, there, reached⟩)
        · exact ⟨_, .inl ⟨inner, rfl, inside⟩, reached⟩
        · exact ⟨path, .inr there, reached⟩
    rw [iff i (by omega), inner_iff i (by omega), flagged_iff within, through, reached_child]
    simp only [or_assoc]

theorem Written.trace_flags {left : Nat} {c : Written} (fine : c.Fine left) (active : List Cursor)
    (pos : Nat) (flags : List Bool) :
    Flags job.fold active flags (c.trace job active pos flags).1 c.tree.At := by
  induction c using Written.induct generalizing left active pos flags with
  | scalar text =>
    refine ⟨by rw [Written.trace], fun i within => ?_⟩
    rw [Written.trace, Written.tree]
    refine ⟨.inl, ?_⟩
    rintro (before | ⟨path, at_, reached⟩)
    · exact before
    · cases at_
      exact absurd rfl reached.some_
  | container object blank items ih =>
    cases fine with
    | container spaces only around values =>
      obtain ⟨length, iff⟩ := @itemsTrace_flags job items active
        (fun item listed => ih item listed (values item listed)) 0 (pos + 1) flags
      simp only [Written.trace]
      refine ⟨length, fun i within => ?_⟩
      rw [iff i within]
      simp only [Written.at_container fun item listed => (around item listed).label]
      refine or_congr_right (exists_congr fun path => ?_)
      constructor
      · rintro ⟨there, reached⟩
        exact ⟨.inr there, reached⟩
      · rintro ⟨rfl | there, reached⟩
        · exact absurd rfl reached.some_
        · exact ⟨there, reached⟩

end Tree

end EdgeObserver.Json
