import EdgeObserver.Json.Reads

/-!
# Redaction of a value

What the pointers ask for, said of the value: the outermost nodes on a path that
is hit go, or are set to the replacement. What is left of the text is well formed,
no larger, and says exactly that.
-/

set_option autoImplicit false

namespace EdgeObserver.Json

mutual

def Value.redact (replacement : Option Value) (hit : List Step → Bool) : Value → Value
  | .scalar text => .scalar text
  | .array items => .array (redactItems replacement hit 0 items)
  | .object members => .object (redactMembers replacement hit members)

def redactItems (replacement : Option Value) (hit : List Step → Bool) (index : Nat) : List Value → List Value
  | [] => []
  | item :: rest =>
    (if hit [.element index] then replacement.toList
      else [item.redact replacement (fun path => hit (.element index :: path))]) ++
      redactItems replacement hit (index + 1) rest

def redactMembers (replacement : Option Value) (hit : List Step → Bool) : List (Bytes × Value) → List (Bytes × Value)
  | [] => []
  | (name, value) :: rest =>
    (if hit [.member name] then replacement.toList.map (Prod.mk name)
      else [(name, value.redact replacement (fun path => hit (.member name :: path)))]) ++
      redactMembers replacement hit rest

end

section Items

variable {α β : Type}

theorem removed_items (trail : Bytes) (result : Option Bytes × List (Item α)) :
    (removed trail result).2 = result.2 := by
  rcases result with ⟨last, _ | ⟨first, others⟩⟩ <;> rfl

theorem kept_open {lead : Option Bytes} {m : List (Bool × Item α)} {trail : Bytes}
    (is : (kept lead m).1 = some trail) : (kept lead m).2 = [] := by
  cases m with
  | nil => cases is
  | cons x rest =>
    obtain ⟨act, item⟩ := x
    cases act with
    | false => cases is
    | true =>
      simp only [kept, if_true] at is ⊢
      generalize kept (some (lead.getD item.lead)) rest = result at is ⊢
      rcases result with ⟨last, _ | ⟨first, others⟩⟩
      · rfl
      · cases is

theorem rebuilt_none (blank : Bytes) (m : List (Bool × Item α)) :
    (rebuilt none blank m).2 = (kept none m).2 := by
  have opened := @kept_open α none m
  simp only [rebuilt]
  split
  · rename_i trail items same
    rw [same] at opened
    rw [same]
    exact (opened rfl).symm
  · rename_i items same
    rw [same]

def becomes (replacement : Option α) (m : Bool × Item α) : List α :=
  if m.1 then replacement.toList else [m.2.value]

theorem rebuilt_values (g : Label → α → β) (replacement : Option α) (blank : Bytes) (m : List (Bool × Item α)) :
    (rebuilt replacement blank m).2.map (fun item => g item.label item.value) =
      m.flatMap (fun x => (becomes replacement x).map (g x.2.label)) := by
  cases replacement with
  | some new =>
    simp only [rebuilt]
    induction m with
    | nil => rfl
    | cons x rest ih =>
      obtain ⟨act, item⟩ := x
      rw [List.map_cons, List.map_cons, ih, List.flatMap_cons]
      cases act <;> rfl
  | none =>
    rw [rebuilt_none]
    generalize (none : Option Bytes) = lead
    induction m generalizing lead with
    | nil => rfl
    | cons x rest ih =>
      obtain ⟨act, item⟩ := x
      cases act with
      | true => simp [kept, removed_items, becomes, ih]
      | false => simp [kept, becomes, ih]

end Items

section Tree

variable {replacement : Option Bytes} {hit : List Step → Bool} {items : List (Item Written)}

theorem redactInside_eq {object : Bool} (each : ∀ item ∈ items, ∀ hit, (item.value.redacted replacement hit).tree =
      item.value.tree.redact (replacement.map Value.scalar) hit)
    (fine : ∀ item ∈ items, item.label.Fine object) (index : Nat) :
    (object = true → (marked replacement hit index items).flatMap (fun x =>
        (becomes (replacement.map Written.scalar) x).map (fun c => (x.2.label.name, c.tree))) =
      redactMembers (replacement.map Value.scalar) hit (members items)) ∧
    (object = false → (marked replacement hit index items).flatMap (fun x =>
        (becomes (replacement.map Written.scalar) x).map Written.tree) =
      redactItems (replacement.map Value.scalar) hit index (elements items)) := by
  induction items generalizing index with
  | nil => exact ⟨fun _ => rfl, fun _ => rfl⟩
  | cons item rest ih =>
    have label_fine := fine item List.mem_cons_self
    have value_eq := each item List.mem_cons_self
    have later := ih (fun other listed => each other (List.mem_cons_of_mem _ listed))
      (fun other listed => fine other (List.mem_cons_of_mem _ listed)) (index + 1)
    obtain ⟨lead, label, value, trail⟩ := item
    simp only at value_eq
    cases label_fine with
    | member _ _ _ =>
      rename_i used name before after _ _ _
      refine ⟨fun _ => ?_, Bool.noConfusion⟩
      simp only [marked, members, redactMembers, List.flatMap_cons, later.1 rfl]
      congr 1
      cases act : hit [.member name] <;> cases replacement <;>
        simp [becomes, Label.step, Label.name, act, value_eq, Written.tree]
    | element =>
      refine ⟨Bool.noConfusion, fun _ => ?_⟩
      simp only [marked, elements, redactItems, List.flatMap_cons, later.2 rfl]
      congr 1
      cases act : hit [.element index] <;> cases replacement <;>
        simp [becomes, Label.step, act, value_eq, Written.tree]

theorem Written.redacted_tree {left : Nat} {c : Written} (fine : c.Fine left) (hit : List Step → Bool) :
    (c.redacted replacement hit).tree = c.tree.redact (replacement.map Value.scalar) hit := by
  induction c using Written.induct generalizing left hit with
  | scalar text => rw [Written.redacted, Written.tree, Value.redact]
  | container object blank items ih =>
    cases fine with
    | container spaces only around values =>
      have each := fun item listed => ih item listed (values item listed)
      have labels := fun item listed => (around item listed).label
      cases object with
      | true =>
        rw [Written.redacted, Written.tree, Written.tree, Value.redact, members_eq_map,
          rebuilt_values (fun label (c : Written) => (label.name, c.tree)), (redactInside_eq each labels 0).1 rfl]
      | false =>
        rw [Written.redacted, Written.tree, Written.tree, Value.redact, elements_eq_map,
          rebuilt_values (fun _ (c : Written) => c.tree), (redactInside_eq each labels 0).2 rfl]

end Tree

section Shape

variable {replacement : Option Bytes} {hit : List Step → Bool} {items : List (Item Written)}
  {object : Bool} {left : Nat}

theorem kept_around {α : Type} {m : List (Bool × Item α)} {lead : Option Bytes}
    (leads : ∀ b ∈ lead, Spaces b) (around : ∀ x ∈ m, x.2.Around object) :
    (∀ item ∈ (kept lead m).2, item.Around object) ∧ ∀ b ∈ (kept lead m).1, Spaces b := by
  have getD_spaces : ∀ {o : Option Bytes} {b}, (∀ b ∈ o, Spaces b) → Spaces b → Spaces (o.getD b) := by
    intro o b all spaces
    cases o with
    | none => exact spaces
    | some b => exact all b rfl
  induction m generalizing lead with
  | nil => simp [kept]
  | cons x rest ih =>
    obtain ⟨act, item⟩ := x
    have here := around _ List.mem_cons_self
    have later := fun x listed => around x (List.mem_cons_of_mem _ listed)
    cases act with
    | true =>
      obtain ⟨items, last⟩ := @ih (some (lead.getD item.lead))
        (fun b is => by cases is; exact getD_spaces leads here.lead) later
      simp only [kept, if_true, removed_items]
      refine ⟨items, fun b is => ?_⟩
      generalize kept (some (lead.getD item.lead)) rest = result at last is
      rcases result with ⟨final, _ | ⟨first, others⟩⟩
      · cases is
        exact getD_spaces last here.trail
      · cases is
    | false =>
      obtain ⟨items, last⟩ := @ih none (by simp) later
      refine ⟨fun other listed => ?_, fun b is => by cases is⟩
      rcases List.mem_cons.mp listed with rfl | more
      · exact ⟨getD_spaces leads here.lead, here.label, getD_spaces last here.trail⟩
      · exact items other more

theorem rebuilt_around {α : Type} {replacement : Option α} {blank : Bytes} {m : List (Bool × Item α)}
    (spaces : Spaces blank) (only : m ≠ [] → blank = []) (around : ∀ x ∈ m, x.2.Around object) :
    Spaces (rebuilt replacement blank m).1 ∧
      ((rebuilt replacement blank m).2 ≠ [] → (rebuilt replacement blank m).1 = []) ∧
      ∀ item ∈ (rebuilt replacement blank m).2, item.Around object := by
  cases replacement with
  | some new =>
    refine ⟨spaces, fun some_ => only fun none_ => some_ (by rw [none_]; rfl), fun item listed => ?_⟩
    obtain ⟨⟨act, old⟩, member, rfl⟩ := List.mem_map.mp listed
    have old_around := around _ member
    cases act with
    | true => exact { old_around with }
    | false => exact old_around
  | none =>
    obtain ⟨items, last⟩ := @kept_around object α m none (by simp) around
    simp only [rebuilt]
    split
    · rename_i trail others same
      rw [same] at last
      refine ⟨?_, fun some_ => absurd rfl some_, by simp⟩
      cases m with
      | nil => cases same
      | cons x rest =>
        intro b listed
        rcases List.mem_append.mp listed with first | second
        · exact (around x List.mem_cons_self).lead b first
        · exact last trail rfl b second
    · rename_i others same
      rw [same] at items
      refine ⟨spaces, fun some_ => only ?_, items⟩
      rintro rfl
      cases same
      exact some_ rfl

theorem marked_around (around : ∀ item ∈ items, item.Around object) (index : Nat) :
    ∀ x ∈ marked replacement hit index items, x.2.Around object := by
  induction items generalizing index with
  | nil => simp [marked]
  | cons item rest ih =>
    have here := around item List.mem_cons_self
    obtain ⟨lead, label, value, trail⟩ := item
    intro x listed
    rcases List.mem_cons.mp listed with rfl | later
    · exact { here with }
    · exact ih (fun other listed => around other (List.mem_cons_of_mem _ listed)) _ x later

theorem mem_rebuilt {α : Type} {replacement : Option α} {blank : Bytes} {m : List (Bool × Item α)}
    {item : Item α} (listed : item ∈ (rebuilt replacement blank m).2) :
    ∃ x ∈ m, item.label = x.2.label ∧ item.value ∈ becomes replacement x := by
  have here := List.mem_map_of_mem (f := fun item : Item α => (item.label, item.value)) listed
  rw [rebuilt_values Prod.mk] at here
  obtain ⟨x, member, found⟩ := List.mem_flatMap.mp here
  obtain ⟨value, becomes_, same⟩ := List.mem_map.mp found
  obtain ⟨same_label, same_value⟩ := Prod.mk.inj same
  exact ⟨x, member, same_label.symm, same_value ▸ becomes_⟩

theorem mem_marked {index : Nat} {x : Bool × Item Written} (listed : x ∈ marked replacement hit index items) :
    ∃ item ∈ items, x.2.label = item.label ∧ ∃ hit', x.2.value = item.value.redacted replacement hit' := by
  induction items generalizing index with
  | nil => cases listed
  | cons item rest ih =>
    obtain ⟨lead, label, value, trail⟩ := item
    rcases List.mem_cons.mp listed with rfl | later
    · exact ⟨_, List.mem_cons_self, rfl, _, rfl⟩
    · obtain ⟨item, member, from_⟩ := ih later
      exact ⟨item, List.mem_cons_of_mem _ member, from_⟩

theorem mem_redacted {blank : Bytes} {item : Item Written}
    (listed : item ∈ (rebuilt (replacement.map Written.scalar) blank (marked replacement hit 0 items)).2) :
    ∃ old ∈ items, item.label = old.label ∧
      ((∃ new ∈ replacement, item.value = .scalar new) ∨ ∃ hit', item.value = old.value.redacted replacement hit') := by
  obtain ⟨x, member, label, value⟩ := mem_rebuilt listed
  obtain ⟨old, was, label', hit', value'⟩ := mem_marked member
  refine ⟨old, was, label.trans label', ?_⟩
  unfold becomes at value
  split at value
  · cases replacement with
    | none => cases value
    | some new => exact .inl ⟨new, rfl, List.mem_singleton.mp value⟩
  · exact .inr ⟨hit', (List.mem_singleton.mp value).trans value'⟩

theorem Written.redacted_fine {c : Written} (fine : c.Fine left)
    (reads : ∀ new ∈ replacement, ReadsScalar new) (hit : List Step → Bool) :
    (c.redacted replacement hit).Fine left := by
  induction c using Written.induct generalizing left hit with
  | scalar text =>
    rw [Written.redacted]
    exact fine
  | container object blank items ih =>
    cases fine with
    | container spaces only around values =>
      rename_i left
      rw [Written.redacted]
      have marked_only : marked replacement hit 0 items ≠ [] → blank = [] := by
        intro some_
        refine only ?_
        rintro rfl
        exact some_ rfl
      obtain ⟨spaces', only', around'⟩ := @rebuilt_around object Written
        (replacement.map Written.scalar) blank _ spaces marked_only (marked_around around 0)
      refine .container spaces' only' around' fun item listed => ?_
      obtain ⟨old, was, _, ⟨new, is, value⟩ | ⟨hit', value⟩⟩ := mem_redacted listed
      · rw [value]
        have old_fine := values old was
        cases left with
        | zero => cases old_fine
        | succ left => exact .scalar (reads new is)
      · rw [value]
        exact ih old was (values old was) hit'

theorem sum_becomes_le (each : ∀ item ∈ items, ∀ hit, (item.value.redacted replacement hit).size ≤
      item.value.size) (index : Nat) :
    ((marked replacement hit index items).flatMap (fun x =>
      (becomes (replacement.map Written.scalar) x).map Written.size)).sum ≤ sizes items := by
  induction items generalizing index with
  | nil => exact Nat.le_refl _
  | cons item rest ih =>
    have here := each item List.mem_cons_self
    have later := ih (fun other listed => each other (List.mem_cons_of_mem _ listed)) (index + 1)
    obtain ⟨lead, label, value, trail⟩ := item
    simp only at here
    have one := value.size_pos
    have first : ∀ act inside, ((becomes (replacement.map Written.scalar)
        (act, (⟨lead, label, value.redacted replacement inside, trail⟩ : Item Written))).map
          Written.size).sum ≤ value.size := by
      intro act inside
      have under := here inside
      cases act <;> cases replacement <;> simp [becomes, Written.size] <;> omega
    rw [marked, List.flatMap_cons, List.sum_append, sizes]
    exact Nat.add_le_add (first _ _) later

theorem Written.redacted_size (c : Written) (hit : List Step → Bool) :
    (c.redacted replacement hit).size ≤ c.size := by
  induction c using Written.induct generalizing hit with
  | scalar text => rw [Written.redacted]
  | container object blank items ih =>
    rw [Written.redacted, Written.size, Written.size, sizes_eq_sum, rebuilt_values (fun _ (c : Written) => c.size)]
    exact Nat.add_le_add_right (sum_becomes_le ih 0) 1

end Shape

/-!
## Redaction keeps valid UTF-8

A text can be cut before any ASCII byte. Names and scalars stand between ASCII
bytes, so a text is valid exactly when each of them is.
-/

open Config (validFrom validUtf8 continues leads)

def Clear (b : Bytes) : Prop := ∀ c ∈ b.head?, c < 128

theorem leads_high {b : UInt8} {due : UInt8 × UInt8 × Nat} (is : leads b = some due) :
    128 ≤ due.1 := by
  unfold leads at is
  split at is
  · cases is; decide
  split at is
  · cases is; decide
  split at is
  · cases is; decide
  split at is
  · cases is; decide
  split at is
  · cases is; decide
  split at is
  · cases is; decide
  split at is
  · cases is; decide
  · cases is

variable {a b x : Bytes} {c : UInt8}

theorem continues_ascii {low high : UInt8} (above : 128 ≤ low) (ascii_ : c < 128) :
    continues low high c = false := by
  have not_ : ¬ low ≤ c := by
    intro under
    rw [UInt8.le_iff_toNat_le] at above under
    rw [UInt8.lt_iff_toNat_lt] at ascii_
    omega
  simp [continues, not_]

theorem validFrom_append {due : Option (UInt8 × UInt8 × Nat)} (high : ∀ d ∈ due, 128 ≤ d.1) (clear : Clear x) :
    validFrom due (a ++ x) = (validFrom due a && validFrom none x) := by
  induction a generalizing due with
  | nil =>
    cases due with
    | none => simp [validFrom]
    | some d =>
      cases x with
      | nil => simp [validFrom]
      | cons c x =>
        have outside : ∀ top, continues d.1 top c = false := fun top => continues_ascii (high d rfl) (clear c rfl)
        simp [validFrom, outside]
  | cons b a ih =>
    cases due with
    | none =>
      simp only [List.cons_append, validFrom]
      split
      · exact ih (by simp)
      · cases lead : leads b with
        | none => rfl
        | some next => exact ih (by simpa using leads_high lead)
    | some d =>
      simp only [List.cons_append, validFrom, Bool.and_assoc]
      congr 1
      refine ih fun next is => ?_
      split at is
      · cases is
      · cases is
        exact UInt8.le_refl 128

theorem validUtf8_append (clear : Clear x) : validUtf8 (a ++ x) = (validUtf8 a && validUtf8 x) :=
  validFrom_append (by simp) clear

theorem validUtf8_cons (is : c < 128) : validUtf8 (c :: b) = validUtf8 b := if_pos is

theorem validUtf8_ascii (all : ∀ c ∈ b, c < 128) : validUtf8 b = true := by
  induction b with
  | nil => rfl
  | cons c b ih =>
    rw [validUtf8_cons (all c List.mem_cons_self)]
    exact ih fun d listed => all d (List.mem_cons_of_mem _ listed)

theorem isSpace_ascii (is : isSpace c = true) : c < 128 := by
  simp only [isSpace, Bool.or_eq_true, beq_iff_eq] at is
  rcases is with ((rfl | rfl) | rfl) | rfl <;> decide

theorem Spaces.valid (spaces : Spaces b) : validUtf8 b = true :=
  validUtf8_ascii fun c listed => isSpace_ascii (spaces c listed)

theorem Spaces.clear {b x : Bytes} (spaces : Spaces b) (clear : Clear x) : Clear (b ++ x) := by
  cases b with
  | nil => exact clear
  | cons c b =>
    intro d first
    cases first
    exact isSpace_ascii (spaces c List.mem_cons_self)

theorem Clear.cons (is : c < 128) : Clear (c :: b) := by
  intro d first
  cases first
  exact is

def Label.Encoded : Label → Prop
  | .element => True
  | .member raw _ _ _ => validUtf8 raw = true

inductive Written.Encoded : Written → Prop where
  | scalar {b : Bytes} (valid : validUtf8 b = true) : Encoded (.scalar b)
  | container {object : Bool} {blank : Bytes} {items : List (Item Written)}
      (labels : ∀ item ∈ items, item.label.Encoded) (values : ∀ item ∈ items, item.value.Encoded) :
      Encoded (.container object blank items)

section Valid

variable {object : Bool} {left : Nat}

theorem Label.valid {label : Label} (fine : label.Fine object) :
    validUtf8 label.text = true ↔ label.Encoded := by
  cases fine with
  | element => exact ⟨fun _ => trivial, fun _ => rfl⟩
  | member before_spaces after_spaces reads =>
    rename_i used name before after
    have tail : validUtf8 (before ++ colon :: after) = true := by
      refine validUtf8_ascii fun c listed => ?_
      rcases List.mem_append.mp listed with first | second
      · exact isSpace_ascii (before_spaces c first)
      · rcases List.mem_cons.mp second with rfl | last
        · decide
        · exact isSpace_ascii (after_spaces c last)
    rw [Label.text, validUtf8_append (before_spaces.clear (Clear.cons (by decide))), tail, Bool.and_true]
    exact Iff.rfl

theorem begins_ascii {c : UInt8} (is : begins c = true) : c < 128 := by
  simp only [begins, Bool.and_eq_true, decide_eq_true_eq] at is
  exact is.1

theorem Item.valid {item : Item Written} {x : Bytes} (around : item.Around object)
    (value : item.value.Fine left) (clear : Clear x) :
    validUtf8 ((item.map Written.text).text ++ x) = true ↔
      item.label.Encoded ∧ validUtf8 item.value.text = true ∧ validUtf8 x = true := by
  obtain ⟨first, more, begin_, starts⟩ := Item.begins around.label value (item.trail ++ x)
  obtain ⟨first', more', begin_', starts'⟩ := value.begins
  have whole : (item.map Written.text).text ++ x =
      item.lead ++ (item.label.text ++ (item.value.text ++ (item.trail ++ x))) := by
    simp [Item.text, Item.map]
  have value_clear : Clear (item.value.text ++ (item.trail ++ x)) := by
    rw [begin_']
    exact Clear.cons (begins_ascii starts')
  have label_clear : Clear (item.label.text ++ (item.value.text ++ (item.trail ++ x))) := by
    rw [begin_]
    exact Clear.cons (begins_ascii starts)
  rw [whole, validUtf8_append label_clear, around.lead.valid, validUtf8_append value_clear,
    validUtf8_append (around.trail.clear clear), validUtf8_append clear, around.trail.valid,
    ← Label.valid around.label]
  simp

theorem follow_valid {items : List (Item Written)} {x : Bytes}
    (fine : ∀ item ∈ items, item.Around object ∧ item.value.Fine left) (clear : Clear x) :
    (validUtf8 (follow (texts items) ++ x) = true ↔
      (∀ item ∈ items, item.label.Encoded ∧ validUtf8 item.value.text = true) ∧
        validUtf8 x = true) ∧ Clear (follow (texts items) ++ x) := by
  induction items with
  | nil => exact ⟨by simp [follow, texts], clear⟩
  | cons item rest ih =>
    obtain ⟨around, value⟩ := fine item List.mem_cons_self
    obtain ⟨later, later_clear⟩ := ih fun other listed => fine other (List.mem_cons_of_mem _ listed)
    have whole : follow (texts (item :: rest)) ++ x =
        comma :: ((item.map Written.text).text ++ (follow (texts rest) ++ x)) := by
      simp [follow, texts, Item.map]
    rw [whole, validUtf8_cons (by decide), Item.valid around value later_clear, later]
    refine ⟨?_, Clear.cons (by decide)⟩
    simp only [List.forall_mem_cons, and_assoc]

theorem inside_valid {items : List (Item Written)} {blank x : Bytes} (spaces : Spaces blank)
    (fine : ∀ item ∈ items, item.Around object ∧ item.value.Fine left) (clear : Clear x) :
    validUtf8 (inside blank (texts items) ++ x) = true ↔
      (∀ item ∈ items, item.label.Encoded ∧ validUtf8 item.value.text = true) ∧ validUtf8 x = true := by
  cases items with
  | nil =>
    rw [texts, inside, validUtf8_append clear, spaces.valid]
    simp
  | cons item rest =>
    have whole : follow (texts (item :: rest)) ++ x = comma :: (inside blank (texts (item :: rest)) ++ x) := by
      simp [follow, inside, texts]
    rw [← validUtf8_cons (show comma < 128 by decide), ← whole]
    exact (follow_valid fine clear).1

theorem closing_ascii (object : Bool) : closing object < 128 := by cases object <;> decide

theorem opening_ascii (object : Bool) : opening object < 128 := by cases object <;> decide

theorem Written.valid_iff {c : Written} (fine : c.Fine left) :
    validUtf8 c.text = true ↔ c.Encoded := by
  induction c using Written.induct generalizing left with
  | scalar b =>
    rw [Written.text]
    refine ⟨.scalar, fun encoded => ?_⟩
    cases encoded with
    | scalar valid => exact valid
  | container object blank items ih =>
    cases fine with
    | container spaces only around values =>
      rw [Written.text, validUtf8_cons (opening_ascii object),
        inside_valid spaces (fun item listed => ⟨around item listed, values item listed⟩)
          (Clear.cons (closing_ascii object)), validUtf8_cons (closing_ascii object)]
      constructor
      · rintro ⟨each, _⟩
        exact .container (fun item listed => (each item listed).1)
          fun item listed => (ih item listed (values item listed)).mp (each item listed).2
      · intro encoded
        cases encoded with
        | container labels encoded =>
          exact ⟨fun item listed => ⟨labels item listed,
            (ih item listed (values item listed)).mpr (encoded item listed)⟩, rfl⟩

theorem Written.redacted_encoded {replacement : Option Bytes} {c : Written} (encoded : c.Encoded)
    (valid : ∀ new ∈ replacement, validUtf8 new = true) (hit : List Step → Bool) :
    (c.redacted replacement hit).Encoded := by
  induction c using Written.induct generalizing hit with
  | scalar text =>
    rw [Written.redacted]
    exact encoded
  | container object blank items ih =>
    cases encoded with
    | container labels values =>
      rw [Written.redacted]
      refine .container (fun item listed => ?_) fun item listed => ?_
      · obtain ⟨old, was, label, _⟩ := mem_redacted listed
        rw [label]
        exact labels old was
      · obtain ⟨old, was, _, ⟨new, is, value⟩ | ⟨hit', value⟩⟩ := mem_redacted listed
        · rw [value]
          exact .scalar (valid new is)
        · rw [value]
          exact ih old was (values old was) hit'

end Valid

end EdgeObserver.Json
