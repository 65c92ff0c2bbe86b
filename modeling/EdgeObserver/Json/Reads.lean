import EdgeObserver.Json.Grammar
import EdgeObserver.Json.Editor

/-!
# The reader takes the well-formed texts

What it reads is well formed and is the text it took, and every well-formed
value is read back from its text, whatever follows.
-/

set_option autoImplicit false

namespace EdgeObserver.Json

open Library (Edit)

/-!
## Values as they are written

A value with every byte of its text: the blanks around its parts, names with
their escapes, numbers with their digits. The reader here keeps all of it; it
takes exactly the texts of well-formed values, each in one way.
-/

/-- What stands before a value inside its container. A member's name is kept as
written and as it reads, with the blanks around the colon. -/
inductive Label where
  | element
  | member (raw name before after : Bytes)

def Label.text : Label → Bytes
  | .element => []
  | .member raw _ before after => raw ++ (before ++ colon :: after)

def Label.name : Label → Bytes
  | .element => []
  | .member _ name _ _ => name

def Label.step (index : Nat) : Label → Step
  | .element => .element index
  | .member _ name _ _ => .member name

structure Item (α : Type) where
  lead : Bytes
  label : Label
  value : α
  trail : Bytes

def Item.map {α β : Type} (f : α → β) (item : Item α) : Item β :=
  { lead := item.lead, label := item.label, value := f item.value, trail := item.trail }

def Item.text (item : Item Bytes) : Bytes := item.lead ++ (item.label.text ++ (item.value ++ item.trail))

inductive Written where
  | scalar (text : Bytes)
  | container (object : Bool) (blank : Bytes) (items : List (Item Written))

theorem Written.induct {P : Written → Prop} (scalar : ∀ text, P (.scalar text))
    (container : ∀ object blank items, (∀ item ∈ items, P item.value) →
      P (.container object blank items)) (c : Written) : P c := by
  refine @Written.rec P (fun items => ∀ item ∈ items, P item.value) (fun item => P item.value)
    scalar container ?nil ?cons (fun _ _ _ _ is => is) c
  case nil => simp
  case cons =>
    intro item rest first others other listed
    rcases List.mem_cons.mp listed with rfl | later
    · exact first
    · exact others other later

def opening (object : Bool) : UInt8 := if object then 123 else 91
def closing (object : Bool) : UInt8 := if object then 125 else 93

def follow (items : List (Item Bytes)) : Bytes := items.flatMap (fun item => comma :: item.text)

def inside (blank : Bytes) : List (Item Bytes) → Bytes
  | [] => blank
  | first :: rest => first.text ++ follow rest

mutual

def Written.text : Written → Bytes
  | .scalar text => text
  | .container object blank items =>
    opening object :: (inside blank (texts items) ++ [closing object])

def texts : List (Item Written) → List (Item Bytes)
  | [] => []
  | ⟨lead, label, value, trail⟩ :: rest => ⟨lead, label, value.text, trail⟩ :: texts rest

end

mutual

def Written.tree : Written → Value
  | .scalar text => .scalar text
  | .container true _ items => .object (members items)
  | .container false _ items => .array (elements items)

def members : List (Item Written) → List (Bytes × Value)
  | [] => []
  | ⟨_, label, value, _⟩ :: rest => (label.name, value.tree) :: members rest

def elements : List (Item Written) → List Value
  | [] => []
  | ⟨_, _, value, _⟩ :: rest => value.tree :: elements rest

end

mutual

def Written.size : Written → Nat
  | .scalar _ => 1
  | .container _ _ items => sizes items + 1

def sizes : List (Item Written) → Nat
  | [] => 0
  | ⟨_, _, value, _⟩ :: rest => value.size + sizes rest

end

theorem Written.size_pos (c : Written) : 0 < c.size := by
  cases c <;> simp [Written.size]

theorem texts_eq_map (items : List (Item Written)) :
    texts items = items.map (Item.map Written.text) := by
  induction items with
  | nil => rfl
  | cons item rest ih => rw [texts, ih]; rfl

theorem members_eq_map (items : List (Item Written)) :
    members items = items.map (fun item => (item.label.name, item.value.tree)) := by
  induction items with
  | nil => rfl
  | cons item rest ih => rw [members, ih]; rfl

theorem elements_eq_map (items : List (Item Written)) :
    elements items = items.map (fun item => item.value.tree) := by
  induction items with
  | nil => rfl
  | cons item rest ih => rw [elements, ih]; rfl

theorem sizes_eq_sum (items : List (Item Written)) :
    sizes items = (items.map (fun item => item.value.size)).sum := by
  induction items with
  | nil => rfl
  | cons item rest ih => rw [sizes, ih]; rfl

section Reader

def scanLabel (object : Bool) (b : Bytes) : Option (Label × Bytes) :=
  if object then
    match text b with
    | none => none
    | some (name, rest) =>
      match skipSpace rest with
      | [] => none
      | c :: after =>
        if c = colon then
          some (.member (b.take (b.length - rest.length)) name (spaceOf rest) (spaceOf after), skipSpace after)
        else none
  else some (.element, b)

def scanItems (read : Bytes → Option (Written × Bytes)) (object : Bool) :
    Nat → Bytes → Bytes → Option (List (Item Written) × Bytes)
  | 0, _, _ => none
  | fuel + 1, lead, b =>
    match scanLabel object b with
    | none => none
    | some (label, b) =>
      match read b with
      | none => none
      | some (value, b) =>
        match skipSpace b with
        | [] => none
        | c :: after =>
          if c = closing object then some ([⟨lead, label, value, spaceOf b⟩], after)
          else if c ≠ comma then none
          else
            (scanItems read object fuel (spaceOf after) (skipSpace after)).map
              (fun more => (⟨lead, label, value, spaceOf b⟩ :: more.1, more.2))

def scanContainer (read : Bytes → Option (Written × Bytes)) (object : Bool) (b : Bytes) : Option (Written × Bytes) :=
  match skipSpace b with
  | [] => none
  | c :: after =>
    if c = closing object then some (.container object (spaceOf b) [], after)
    else
      (scanItems read object (b.length + 1) (spaceOf b) (c :: after)).map
        (fun more => (.container object [] more.1, more.2))

def scan : Nat → Bytes → Option (Written × Bytes)
  | 0, _ => none
  | _ + 1, [] => none
  | left + 1, c :: rest =>
    if c = 123 then scanContainer (scan left) true rest
    else if c = 91 then scanContainer (scan left) false rest
    else
      (scalar (c :: rest)).map (fun after => (.scalar ((c :: rest).take ((c :: rest).length - after.length)), after))

def parse (b : Bytes) : Option Written :=
  match scan (b.length + 1) (skipSpace b) with
  | none => none
  | some (c, rest) => if skipSpace rest = [] then some c else none

end Reader

/-! ## What is read -/

def Spaces (b : Bytes) : Prop := ∀ c ∈ b, isSpace c = true

structure ReadsScalar (b : Bytes) : Prop where
  some_ : b ≠ []
  reads : ∀ x, Follows x → scalar (b ++ x) = some x

inductive Label.Fine : Bool → Label → Prop where
  | element : Fine false .element
  | member {used name before after : Bytes} (before_spaces : Spaces before) (after_spaces : Spaces after)
      (reads : ∀ x, Json.text (quote :: used ++ x) = some (name, x)) :
      Fine true (.member (quote :: used) name before after)

structure Item.Around {α : Type} (object : Bool) (item : Item α) : Prop where
  lead : Spaces item.lead
  label : item.label.Fine object
  trail : Spaces item.trail

inductive Written.Fine : Nat → Written → Prop where
  | scalar {left : Nat} {b : Bytes} (reads : ReadsScalar b) : Fine (left + 1) (.scalar b)
  | container {left : Nat} {object : Bool} {blank : Bytes} {items : List (Item Written)}
      (blank_spaces : Spaces blank) (only : items ≠ [] → blank = [])
      (around : ∀ item ∈ items, item.Around object)
      (values : ∀ item ∈ items, item.value.Fine left) :
      Fine (left + 1) (.container object blank items)

section Spacing

variable {b x : Bytes}

theorem spaceOf_spaces (b : Bytes) : Spaces (spaceOf b) := fun _ listed => List.mem_takeWhile_imp listed

theorem skipSpace_run (spaces : Spaces b) (stops : ∀ c ∈ x.head?, isSpace c = false) : skipSpace (b ++ x) = x :=
  dropWhile_run spaces stops

theorem spaceOf_run (spaces : Spaces b) (stops : ∀ c ∈ x.head?, isSpace c = false) : spaceOf (b ++ x) = b :=
  takeWhile_run spaces stops

theorem delimits_space {c : UInt8} (is : isSpace c = true) : delimits c = true := by
  simp [delimits, is]

theorem begins_plain {c : UInt8} (is : begins c = true) : isSpace c = false := by
  cases space : isSpace c with
  | false => rfl
  | true => simp [begins, delimits, space] at is

theorem follows_space {c : UInt8} (spaces : Spaces b) (delimiter : delimits c = true) :
    Follows (b ++ c :: x) := by
  intro d first
  cases b with
  | nil =>
    cases first
    exact delimiter
  | cons e b =>
    cases first
    exact delimits_space (spaces d List.mem_cons_self)

end Spacing

theorem opening_begins (object : Bool) : begins (opening object) = true := by
  cases object <;> decide

theorem delimits_closing (object : Bool) : delimits (closing object) = true := by
  cases object <;> decide

theorem closing_ne_comma (object : Bool) : comma ≠ closing object := by
  cases object <;> decide

theorem closing_plain (object : Bool) : isSpace (closing object) = false := by
  cases object <;> decide

theorem Written.Fine.begins {left : Nat} {c : Written} (fine : c.Fine left) :
    ∃ first rest, c.text = first :: rest ∧ begins first = true := by
  cases fine with
  | scalar reads =>
    rename_i left b
    obtain ⟨some_, reads⟩ := reads
    cases b with
    | nil => exact absurd rfl some_
    | cons first rest =>
      have whole := reads [] (by simp [Follows])
      exact ⟨first, rest, by rw [Written.text], (begins_scalar whole).1⟩
  | container _ _ _ _ =>
    rename_i object blank items _ _ _ _
    exact ⟨opening object, _, by rw [Written.text], opening_begins object⟩

theorem Item.begins {left : Nat} {object : Bool} {item : Item Written}
    (label : item.label.Fine object) (value : item.value.Fine left) (x : Bytes) :
    ∃ first rest, item.label.text ++ (item.value.text ++ x) = first :: rest ∧ Json.begins first = true := by
  obtain ⟨lead, label', value', trail⟩ := item
  cases label with
  | element =>
    obtain ⟨first, rest, same, is⟩ := value.begins
    refine ⟨first, rest ++ x, ?_, is⟩
    simp only at same
    simp [Label.text, same]
  | member _ _ _ => exact ⟨quote, _, rfl, by decide⟩

section Sound

theorem take_cut {used r : Bytes} :
    (used ++ r).take ((used ++ r).length - r.length) = used := by
  rw [List.length_append, Nat.add_sub_cancel, List.take_left]

theorem scanLabel_sound {object : Bool} {b r : Bytes} {label : Label}
    (is : scanLabel object b = some (label, r)) : label.Fine object ∧ b = label.text ++ r := by
  unfold scanLabel at is
  cases object with
  | false =>
    cases is
    exact ⟨.element, rfl⟩
  | true =>
    rw [if_pos rfl] at is
    split at is
    · cases is
    rename_i name rest read
    split at is
    · cases is
    rename_i c after skipped
    split at is
    · rename_i same
      obtain ⟨used, rfl, goes⟩ := text_cuts read
      rw [take_cut] at is
      cases is
      refine ⟨.member (spaceOf_spaces _) (spaceOf_spaces _) goes, ?_⟩
      have whole := spaceOf_skipSpace rest
      rw [skipped, same] at whole
      simp only [Label.text, List.append_assoc, List.cons_append, spaceOf_skipSpace, whole]
    · cases is

def joined : List (Item Bytes) → Bytes := inside []

variable {read : Bytes → Option (Written × Bytes)} {left : Nat} {object : Bool}

theorem scanItems_sound (sound : ∀ b c r, read b = some (c, r) → c.Fine left ∧ b = c.text ++ r)
    {fuel : Nat} {lead b r : Bytes} {items : List (Item Written)} (spaces : Spaces lead)
    (is : scanItems read object fuel lead b = some (items, r)) :
    items ≠ [] ∧ lead ++ b = joined (texts items) ++ closing object :: r ∧
      ∀ item ∈ items, item.Around object ∧ item.value.Fine left := by
  induction fuel generalizing lead b items with
  | zero => cases is
  | succ fuel ih =>
    unfold scanItems at is
    split at is
    · cases is
    rename_i label afterLabel labelled
    split at is
    · cases is
    rename_i value afterValue valued
    obtain ⟨label_fine, rfl⟩ := scanLabel_sound labelled
    obtain ⟨value_fine, rfl⟩ := sound _ _ _ valued
    have around : Item.Around object (⟨lead, label, value, spaceOf afterValue⟩ : Item Written) :=
      ⟨spaces, label_fine, spaceOf_spaces _⟩
    have whole := spaceOf_skipSpace afterValue
    split at is
    · cases is
    rename_i c after skipped
    rw [skipped] at whole
    split at is
    · rename_i closes
      cases is
      refine ⟨List.cons_ne_nil _ _, ?_, fun item listed => ?_⟩
      · simp [joined, inside, texts, Item.text, follow, ← closes, whole]
      · cases List.mem_singleton.mp listed
        exact ⟨around, value_fine⟩
    · split at is
      · cases is
      rename_i separates
      obtain ⟨⟨more, final⟩, found, same⟩ := Option.map_eq_some_iff.mp is
      cases same
      obtain ⟨some_, rest, each⟩ := ih (spaceOf_spaces _) found
      refine ⟨List.cons_ne_nil _ _, ?_, fun item listed => ?_⟩
      · cases more with
        | nil => exact absurd rfl some_
        | cons next others =>
          rw [spaceOf_skipSpace] at rest
          simp only [not_not] at separates
          rw [separates, rest] at whole
          have goal : spaceOf afterValue ++ comma :: (joined (texts (next :: others)) ++
              closing object :: final) = afterValue := whole
          simp only [joined, inside, texts, Item.text, follow, List.flatMap_cons,
            List.append_assoc, List.cons_append] at goal ⊢
          rw [goal]
      · rcases List.mem_cons.mp listed with rfl | later
        · exact ⟨around, value_fine⟩
        · exact each item later

theorem scanContainer_sound (sound : ∀ b c r, read b = some (c, r) → c.Fine left ∧ b = c.text ++ r)
    {b r : Bytes} {c : Written} (is : scanContainer read object b = some (c, r)) :
    c.Fine (left + 1) ∧ opening object :: b = c.text ++ r := by
  unfold scanContainer at is
  have whole := spaceOf_skipSpace b
  split at is
  · cases is
  rename_i first after skipped
  rw [skipped] at whole
  split at is
  · rename_i closes
    cases is
    refine ⟨.container (spaceOf_spaces _) (fun some_ => absurd rfl some_) (by simp) (by simp), ?_⟩
    simp [Written.text, texts, inside, ← closes, whole]
  · obtain ⟨⟨items, final⟩, found, same⟩ := Option.map_eq_some_iff.mp is
    cases same
    obtain ⟨_, rest, each⟩ := scanItems_sound sound (spaceOf_spaces _) found
    refine ⟨.container (by simp [Spaces]) (fun _ => rfl) (fun item listed => (each item listed).1)
      (fun item listed => (each item listed).2), ?_⟩
    rw [whole] at rest
    simp [Written.text, rest, joined]

theorem scan_sound {left : Nat} {b r : Bytes} {c : Written} (is : scan left b = some (c, r)) :
    c.Fine left ∧ b = c.text ++ r := by
  induction left generalizing b c r with
  | zero => cases is
  | succ left ih =>
    cases b with
    | nil => cases is
    | cons first rest =>
      unfold scan at is
      split at is
      · rename_i same
        rw [same]
        exact scanContainer_sound (fun _ _ _ => ih) is
      · split at is
        · rename_i same
          rw [same]
          exact scanContainer_sound (fun _ _ _ => ih) is
        · obtain ⟨after, found, same⟩ := Option.map_eq_some_iff.mp is
          cases same
          obtain ⟨used, some_, same, goes⟩ := scalar_cuts found
          rw [same, take_cut]
          exact ⟨.scalar ⟨some_, goes⟩, rfl⟩

end Sound

section Complete

variable {read : Bytes → Option (Written × Bytes)} {left : Nat} {object : Bool}

theorem scanLabel_complete {label : Label} {x : Bytes} (fine : label.Fine object)
    (stops : ∀ c ∈ x.head?, isSpace c = false) :
    scanLabel object (label.text ++ x) = some (label, x) := by
  cases fine with
  | element => rfl
  | member before_spaces after_spaces reads =>
    rename_i used name before after
    have next : skipSpace (before ++ colon :: (after ++ x)) = colon :: (after ++ x) :=
      skipSpace_run before_spaces (by simp [colon, isSpace])
    have blank : spaceOf (before ++ colon :: (after ++ x)) = before :=
      spaceOf_run before_spaces (by simp [colon, isSpace])
    have named := reads (before ++ colon :: (after ++ x))
    simp only [scanLabel, Label.text, List.append_assoc, List.cons_append] at named ⊢
    rw [if_pos trivial, named]
    simp only [next, blank, if_true, skipSpace_run after_spaces stops, spaceOf_run after_spaces stops]
    rw [← List.cons_append, take_cut]

theorem plain_of_begins {first : UInt8} {b rest : Bytes} (same : b = first :: rest)
    (is : begins first = true) : ∀ c ∈ b.head?, isSpace c = false := by
  intro c here
  rw [same] at here
  cases here
  exact begins_plain is

theorem follow_closes (rest : List (Item Bytes)) (object : Bool) (x : Bytes) :
    ∃ c after, follow rest ++ closing object :: x = c :: after ∧ delimits c = true ∧ isSpace c = false := by
  cases rest with
  | nil => exact ⟨closing object, x, rfl, delimits_closing object, closing_plain object⟩
  | cons item rest => exact ⟨comma, _, rfl, by decide, by decide⟩

theorem scanItems_complete (complete : ∀ c x, Written.Fine left c → Follows x → read (c.text ++ x) = some (c, x))
    {fuel : Nat} {item : Item Written} {rest : List (Item Written)} {x : Bytes}
    (enough : rest.length < fuel)
    (fine : ∀ other ∈ item :: rest, other.Around object ∧ other.value.Fine left) :
    scanItems read object fuel item.lead (item.label.text ++ (item.value.text ++ (item.trail ++
      (follow (texts rest) ++ closing object :: x)))) = some (item :: rest, x) := by
  induction fuel generalizing item rest with
  | zero => cases enough
  | succ fuel ih =>
    obtain ⟨around, value_fine⟩ := fine item List.mem_cons_self
    obtain ⟨c, after, ends, delimiter, plain⟩ := follow_closes (texts rest) object x
    have stops : ∀ d ∈ (c :: after).head?, isSpace d = false := by
      intro d first
      cases first
      exact plain
    have skipped := skipSpace_run around.trail stops
    have blank := spaceOf_run around.trail stops
    obtain ⟨first, more, same, begin_⟩ := value_fine.begins
    have labelled := scanLabel_complete (x := item.value.text ++ (item.trail ++ c :: after))
      around.label (plain_of_begins (by rw [same]; rfl) begin_)
    have valued := complete item.value (item.trail ++ c :: after) value_fine (follows_space around.trail delimiter)
    rw [ends, scanItems, labelled]
    simp only [valued, skipped, blank]
    cases rest with
    | nil =>
      cases ends
      simp
    | cons next rest =>
      obtain ⟨next_around, next_fine⟩ := fine next (by simp)
      obtain ⟨d, others, starts, begin_⟩ := Item.begins next_around.label next_fine
        (next.trail ++ (follow (texts rest) ++ closing object :: x))
      have run := plain_of_begins starts begin_
      have found : scanItems read object fuel next.lead (next.label.text ++ (next.value.text ++
          (next.trail ++ (follow (texts rest) ++ closing object :: x)))) = some (next :: rest, x) :=
        ih (by simpa using enough) (fun other listed => fine other (List.mem_cons_of_mem _ listed))
      obtain ⟨rfl, tail⟩ : comma = c ∧ next.lead ++ (next.label.text ++ (next.value.text ++
          (next.trail ++ (follow (texts rest) ++ closing object :: x)))) = after := by
        simpa [follow, texts, Item.text] using ends
      rw [if_neg (closing_ne_comma object), if_neg (by simp), ← tail,
        spaceOf_run next_around.lead run, skipSpace_run next_around.lead run, found]
      rfl

theorem length_follow (rest : List (Item Bytes)) : rest.length ≤ (follow rest).length := by
  induction rest with
  | nil => exact Nat.le_refl _
  | cons item rest ih =>
    simp only [follow, List.flatMap_cons, List.length_append, List.length_cons] at ih ⊢
    omega

theorem texts_length (items : List (Item Written)) : (texts items).length = items.length := by
  rw [texts_eq_map, List.length_map]

theorem closing_delimits {c : UInt8} (is : begins c = true) (object : Bool) :
    c ≠ closing object := by
  rintro rfl
  simp [begins, delimits_closing] at is

theorem scanContainer_complete (complete : ∀ c x, Written.Fine left c → Follows x → read (c.text ++ x) = some (c, x))
    {blank x : Bytes} {items : List (Item Written)}
    (fine : Written.Fine (left + 1) (.container object blank items)) :
    scanContainer read object (inside blank (texts items) ++ closing object :: x) =
      some (.container object blank items, x) := by
  cases fine with
  | container spaces only around values =>
    have stops : ∀ c ∈ (closing object :: x).head?, isSpace c = false := by
      intro c first
      cases first
      exact closing_plain object
    cases items with
    | nil =>
      unfold scanContainer
      rw [texts, inside, skipSpace_run spaces stops, spaceOf_run spaces stops]
      exact if_pos rfl
    | cons item rest =>
      cases only (List.cons_ne_nil _ _)
      have each : ∀ other ∈ item :: rest, other.Around object ∧ other.value.Fine left :=
        fun other listed => ⟨around other listed, values other listed⟩
      have first_around := around item List.mem_cons_self
      obtain ⟨d, others, starts, begin_⟩ := Item.begins first_around.label
        (values item List.mem_cons_self) (item.trail ++ (follow (texts rest) ++ closing object :: x))
      have run := plain_of_begins starts begin_
      have whole : inside [] (texts (item :: rest)) ++ closing object :: x =
          item.lead ++ (item.label.text ++ (item.value.text ++ (item.trail ++
            (follow (texts rest) ++ closing object :: x)))) := by
        simp [inside, texts, Item.text]
      have enough : rest.length < (inside [] (texts (item :: rest)) ++ closing object :: x).length + 1 := by
        have long := length_follow (texts rest)
        rw [texts_length] at long
        rw [whole]
        simp only [List.length_append]
        omega
      have found := scanItems_complete complete (x := x) enough each
      unfold scanContainer
      rw [whole] at found ⊢
      rw [skipSpace_run first_around.lead run, spaceOf_run first_around.lead run]
      rw [starts] at found ⊢
      simp only
      rw [if_neg (closing_delimits begin_ object), found]
      rfl

theorem scan_complete {left : Nat} {c : Written} {x : Bytes} (fine : c.Fine left)
    (follows : Follows x) : scan left (c.text ++ x) = some (c, x) := by
  induction left generalizing c x with
  | zero => cases fine
  | succ left ih =>
    cases c with
    | scalar b =>
      cases fine with
      | scalar reads =>
        obtain ⟨some_, reads⟩ := reads
        have read := reads x follows
        cases b with
        | nil => exact absurd rfl some_
        | cons first rest =>
          obtain ⟨_, unbraced, unbracketed⟩ := begins_scalar read
          rw [Written.text, List.cons_append, scan, if_neg unbraced, if_neg unbracketed, ← List.cons_append, read]
          simp only [Option.map_some, take_cut]
    | container object blank items =>
      have read := scanContainer_complete (fun _ _ => ih) (x := x) fine
      cases object with
      | true | false => simpa [Written.text, scan, opening] using read

end Complete

/-!
## What the editor does to a value as written

The members and elements on a path that is hit go, or get the replacement. This
says where each blank ends up, so that the text of the result is known byte by
byte; what it means for the value is said below.
-/

def hits (fold : Bytes → Bytes) (pointers : List (List Bytes)) (path : List Step) : Bool :=
  pointers.any (fun tokens => named fold tokens path)

section Layout

variable {α : Type}

def removed (trail : Bytes) : Option Bytes × List (Item α) → Option Bytes × List (Item α)
  | (last, []) => (some (last.getD trail), [])
  | (_, first :: others) => (none, first :: others)

/-- The items that are not acted on. The first item after a removed run takes the
lead of the run's first; the trail of a run with no item after it is returned, and
is the one the last item kept takes. -/
def kept (lead : Option Bytes) : List (Bool × Item α) → Option Bytes × List (Item α)
  | [] => (none, [])
  | (act, item) :: rest =>
    if act then removed item.trail (kept (some (lead.getD item.lead)) rest)
    else
      let after := kept none rest
      (none, { item with lead := lead.getD item.lead, trail := after.1.getD item.trail } :: after.2)

def replaced (new : α) (m : Bool × Item α) : Item α :=
  if m.1 then { m.2 with value := new } else m.2

/-- A container's blank and items once the marked ones went or were replaced.
Where all went, the first lead and the last trail are left between its brackets. -/
def rebuilt (replacement : Option α) (blank : Bytes) (marked : List (Bool × Item α)) : Bytes × List (Item α) :=
  match replacement with
  | some new => (blank, marked.map (replaced new))
  | none =>
    match kept none marked with
    | (some trail, _) => ((marked.head?.map (fun m => m.2.lead)).getD [] ++ trail, [])
    | (none, items) => (blank, items)

end Layout

mutual

def Written.redacted (replacement : Option Bytes) (hit : List Step → Bool) : Written → Written
  | .scalar text => .scalar text
  | .container object blank items =>
    let result := rebuilt (replacement.map Written.scalar) blank (marked replacement hit 0 items)
    .container object result.1 result.2

def marked (replacement : Option Bytes) (hit : List Step → Bool) (index : Nat) :
    List (Item Written) → List (Bool × Item Written)
  | [] => []
  | ⟨lead, label, value, trail⟩ :: rest =>
    (hit [label.step index],
      ⟨lead, label, value.redacted replacement (fun path => hit (label.step index :: path)), trail⟩) ::
        marked replacement hit (index + 1) rest

end

end EdgeObserver.Json
