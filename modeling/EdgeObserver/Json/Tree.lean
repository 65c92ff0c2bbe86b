import EdgeObserver.Config.Names

/-!
# JSON values and the pointers into them

What a body says once it is read, and what a list of pointers does to it: the
outermost nodes they match are taken away, or replaced.
-/

set_option autoImplicit false

namespace EdgeObserver.Json

open Config

inductive Value where
  | scalar (text : Bytes)
  | array (items : List Value)
  | object (members : List (Bytes × Value))

inductive Step where
  | member (name : Bytes)
  | element (index : Nat)

/-- Whether a token names a step. Names are compared under case folding, which
`fold` takes a name's representative of. -/
def Step.named (fold : Bytes → Bytes) (token : Bytes) : Step → Bool
  | .member name => token == wildcard || name == token || fold name == fold token
  | .element index => token == wildcard || token == decimal index

def named (fold : Bytes → Bytes) : List Bytes → List Step → Bool
  | [], [] => true
  | token :: tokens, step :: path => step.named fold token && named fold tokens path
  | _, _ => false

def acts (matched : Bytes → Bool) (active : List (List Bytes)) : Bool :=
  active.any (fun tokens =>
    match tokens with
    | [token] => matched token
    | _ => false)

def continuing (matched : Bytes → Bool) (active : List (List Bytes)) : List (List Bytes) :=
  active.filterMap (fun tokens =>
    match tokens with
    | token :: next :: rest => if matched token then some (next :: rest) else none
    | _ => none)

mutual

def Value.edit (fold : Bytes → Bytes) (replacement : Option Value) (active : List (List Bytes)) : Value → Value
  | .scalar text => .scalar text
  | .array items => .array (editItems fold replacement active 0 items)
  | .object members => .object (editMembers fold replacement active members)

def editItems (fold : Bytes → Bytes) (replacement : Option Value) (active : List (List Bytes))
    (index : Nat) : List Value → List Value
  | [] => []
  | item :: rest =>
    let matched := fun token => (Step.element index).named fold token
    let others := editItems fold replacement active (index + 1) rest
    if acts matched active then replacement.toList ++ others
    else item.edit fold replacement (continuing matched active) :: others

def editMembers (fold : Bytes → Bytes) (replacement : Option Value) (active : List (List Bytes)) :
    List (Bytes × Value) → List (Bytes × Value)
  | [] => []
  | (name, value) :: rest =>
    let matched := fun token => (Step.member name).named fold token
    let others := editMembers fold replacement active rest
    if acts matched active then (replacement.map (Prod.mk name)).toList ++ others
    else (name, value.edit fold replacement (continuing matched active)) :: others

end

inductive Value.At : Value → List Step → Prop where
  | here (value : Value) : At value []
  | element {items : List Value} {index : Nat} {item : Value} {path : List Step}
      (listed : items[index]? = some item) (inside : At item path) :
      At (.array items) (.element index :: path)
  | member {members : List (Bytes × Value)} {name : Bytes} {value : Value} {path : List Step}
      (listed : (name, value) ∈ members) (inside : At value path) :
      At (.object members) (.member name :: path)

section Removal

variable {fold : Bytes → Bytes} {active : List (List Bytes)} {tokens : List Bytes}

theorem mem_editItems {items : List Value} {index : Nat} {item : Value}
    (left : item ∈ editItems fold none active index items) :
    ∃ (at_ : Nat) (original : Value), acts (fun token => (Step.element at_).named fold token) active = false ∧
      item = original.edit fold none (continuing (fun token => (Step.element at_).named fold token) active) := by
  induction items generalizing index with
  | nil => cases left
  | cons first rest ih =>
    simp only [editItems] at left
    split at left
    · exact ih (by simpa using left)
    rename_i kept
    rcases List.mem_cons.mp left with same | later
    · exact ⟨index, first, by simpa using kept, same⟩
    · exact ih later

theorem mem_editMembers {members : List (Bytes × Value)} {name : Bytes} {value : Value}
    (left : (name, value) ∈ editMembers fold none active members) :
    ∃ original : Value, acts (fun token => (Step.member name).named fold token) active = false ∧
      value = original.edit fold none (continuing (fun token => (Step.member name).named fold token) active) := by
  induction members with
  | nil => cases left
  | cons first rest ih =>
    obtain ⟨name', original⟩ := first
    simp only [editMembers] at left
    split at left
    · exact ih (by simpa using left)
    rename_i kept
    rcases List.mem_cons.mp left with same | later
    · cases same
      exact ⟨original, by simpa using kept, rfl⟩
    · exact ih later

theorem mem_continuing {matched : Bytes → Bool} {token : Bytes} {rest : List Bytes}
    (listed : token :: rest ∈ active) (kept : acts matched active = false)
    (names : matched token = true) : rest ≠ [] ∧ rest ∈ continuing matched active := by
  cases rest with
  | nil =>
    have ends : acts matched active = true := List.any_eq_true.mpr ⟨_, listed, names⟩
    rw [kept] at ends
    cases ends
  | cons next rest =>
    exact ⟨List.cons_ne_nil _ _, List.mem_filterMap.mpr ⟨_, listed, by simp [names]⟩⟩

theorem element_named {token : Bytes} (plain : isNumeral token = false) (i j : Nat) :
    (Step.element i).named fold token = (Step.element j).named fold token := by
  have other : ∀ n, (token == decimal n) = false := by
    intro n
    refine beq_eq_false_iff_ne.mpr fun same => ?_
    rw [same, decimal_isNumeral] at plain
    cases plain
  simp [Step.named, other]

/-- What removal leaves has no node that one of its pointers matches, and none
inside one, where the pointer names no element by number. -/
theorem edit_removes {body : Value} {path : List Step} (listed : tokens ∈ active)
    (some_ : tokens ≠ []) (plain : ∀ token ∈ tokens, isNumeral token = false)
    (left : (body.edit fold none active).At path) (n : Nat) :
    named fold tokens (path.take n) = false := by
  induction path generalizing body active tokens n with
  | nil =>
    cases tokens with
    | nil => exact absurd rfl some_
    | cons token rest => cases n <;> rfl
  | cons step path ih =>
    cases tokens with
    | nil => exact absurd rfl some_
    | cons token rest =>
      cases n with
      | zero => rfl
      | succ n =>
        rw [List.take_succ_cons, named, Bool.and_eq_false_iff]
        by_cases names : step.named fold token = true
        · refine .inr ?_
          cases body with
          | scalar text => cases left
          | array items =>
            cases left with
            | element at_ inside =>
              rename_i index item
              obtain ⟨origin, original, kept, is⟩ := mem_editItems (List.mem_of_getElem? at_)
              rw [element_named (plain token List.mem_cons_self) index origin] at names
              obtain ⟨more, goes⟩ := mem_continuing listed kept names
              exact ih goes more (fun t member => plain t (List.mem_cons_of_mem _ member)) (is ▸ inside) n
          | object members =>
            cases left with
            | member at_ inside =>
              obtain ⟨original, kept, is⟩ := mem_editMembers at_
              obtain ⟨more, goes⟩ := mem_continuing listed kept names
              exact ih goes more (fun t member => plain t (List.mem_cons_of_mem _ member)) (is ▸ inside) n
        · exact .inl (by simpa using names)

end Removal

end EdgeObserver.Json
