import EdgeObserver.Json.Cuts

/-!
# What the editor records

The editor reads exactly what the reader of written values reads, and what it
records while it reads depends on that value, its place and the cursors alone.
-/

set_option autoImplicit false

namespace EdgeObserver.Json

open Library (Edit)

mutual

def Written.trace (job : Job) (active : List Cursor) (pos : Nat) (flags : List Bool) :
    Written → List Bool × List (Edit UInt8)
  | .scalar _ => (flags, [])
  | .container _ _ items =>
    let t := itemsTrace job active 0 (pos + 1) flags items
    (t.1, t.2.1 ++ edit job.replacement t.2.2)

def itemsTrace (job : Job) (active : List Cursor) (index pos : Nat) (flags : List Bool) :
    List (Item Written) → List Bool × List (Edit UInt8) × List Child
  | [] => (flags, [], [])
  | ⟨lead, label, value, trail⟩ :: rest =>
    let start := pos + lead.length
    let valueStart := start + label.text.length
    let stop := valueStart + value.text.length
    let found := descend ((label.step index).named job.fold) active flags
    let inner := value.trace job found.2.1 valueStart found.2.2
    let more := itemsTrace job active (index + 1) (stop + trail.length + 1) inner.1 rest
    (more.1, inner.2 ++ more.2.1, ⟨start, valueStart, stop, found.1⟩ :: more.2.2)

end

namespace Editor

variable {job : Job}

def reads (job : Job) (active : List Cursor) (j : Editor) : Option (Written × Bytes) → Option (Nat × Editor)
  | none => none
  | some (c, after) =>
    if j.nodes + c.size ≤ maxJSONFieldNodes then
      let t := c.trace job active (j.pos job) j.matched
      some (j.pos job, ⟨after, j.nodes + c.size, t.1, j.edits ++ t.2⟩)
    else none

/-- The same for the rest of a container's items, the lead of the first of which
starts at `pos`. -/
def readsItems (job : Job) (active : List Cursor) (index pos : Nat) (before : List Child) (j : Editor) :
    Option (List (Item Written) × Bytes) → Option Editor
  | none => none
  | some (items, after) =>
    if j.nodes + sizes items ≤ maxJSONFieldNodes then
      let t := itemsTrace job active index pos j.matched items
      some ⟨after, j.nodes + sizes items, t.1, j.edits ++ (t.2.1 ++ edit job.replacement (before ++ t.2.2))⟩
    else none

theorem label_eq (object : Bool) (index : Nat) (active : List Cursor) (j : Editor) :
    j.label job object index active = (scanLabel object j.rest).map (fun read =>
      let found := descend ((read.1.step index).named job.fold) active j.matched
      (found.1, found.2.1, { j with rest := read.2, matched := found.2.2 })) := by
  unfold label scanLabel
  cases object with
  | false => rfl
  | true =>
    simp only [if_true]
    cases text j.rest with
    | none => rfl
    | some read =>
      obtain ⟨name, rest⟩ := read
      dsimp only
      cases skipSpace rest with
      | nil => rfl
      | cons c after =>
        dsimp only
        split <;> rfl

theorem pos_after {j : Editor} {used after : Bytes} (whole : j.rest = used ++ after)
    (within : j.rest.length ≤ job.length) : job.length - after.length = j.pos job + used.length := by
  unfold pos
  rw [whole, List.length_append] at within ⊢
  omega

section Loop

variable {value : List Cursor → Editor → Option (Nat × Editor)}
  {read : Bytes → Option (Written × Bytes)} {object : Bool} {active : List Cursor}

theorem loop_eq
    (value_eq : ∀ active (j : Editor), j.rest.length ≤ job.length → value active j = j.reads job active (read j.rest))
    (sound : ∀ b c r, read b = some (c, r) → b = c.text ++ r)
    {fuel index place : Nat} {before : List Child} {lead : Bytes} {j : Editor}
    (within : j.rest.length ≤ job.length) (at_ : place + lead.length = j.pos job) :
    j.loop job value object (closing object) active fuel index before =
      j.readsItems job active index place before (scanItems read object fuel lead j.rest) := by
  induction fuel generalizing index place before lead j with
  | zero => rfl
  | succ fuel ih =>
    unfold loop scanItems
    rw [label_eq]
    cases labelled : scanLabel object j.rest with
    | none => rfl
    | some labelRead =>
      obtain ⟨label, b⟩ := labelRead
      obtain ⟨_, whole⟩ := scanLabel_sound labelled
      have under : b.length ≤ job.length := by
        rw [whole, List.length_append] at within
        omega
      have valueAt := pos_after whole within
      dsimp only [Option.map_some]
      generalize is : descend ((label.step index).named job.fold) active j.matched = found
      rw [value_eq _ _ under]
      cases valued : read b with
      | none => rfl
      | some valueRead =>
        obtain ⟨v, b₂⟩ := valueRead
        have rest := sound _ _ _ valued
        have stopAt : job.length - b₂.length = job.length - b.length + v.text.length := by
          rw [rest, List.length_append] at under ⊢
          omega
        have here : ∀ j' : Editor, j'.rest = b → j'.pos job = place + lead.length + label.text.length := by
          intro j' same
          rw [pos, same, at_, valueAt]
        have there : ∀ j' : Editor, j'.rest = b₂ →
            j'.pos job = place + lead.length + label.text.length + v.text.length := by
          intro j' same
          rw [pos, same, stopAt, at_, valueAt]
        dsimp only [reads]
        by_cases few : j.nodes + v.size ≤ maxJSONFieldNodes
        · rw [if_pos few]
          dsimp only
          have spaces := spaceOf_skipSpace b₂
          cases skipped : skipSpace b₂ with
          | nil => rfl
          | cons c after =>
            rw [skipped] at spaces
            dsimp only
            by_cases closes : c = closing object
            · rw [if_pos closes, if_pos closes]
              simp only [readsItems, sizes, itemsTrace, Nat.add_zero, if_pos few, is, here, there,
                List.append_nil, List.append_assoc, at_]
            · rw [if_neg closes, if_neg closes]
              by_cases separates : c = comma
              · rw [if_neg (by simp [separates]), if_neg (by simp [separates])]
                have tail := spaceOf_skipSpace after
                rw [separates, ← tail] at spaces
                have place' : ∀ j' : Editor, j'.rest = skipSpace after →
                    place + lead.length + label.text.length + v.text.length +
                      (spaceOf b₂).length + 1 + (spaceOf after).length = j'.pos job := by
                  intro j' same
                  have length := congrArg List.length spaces
                  rw [List.length_append, List.length_cons, List.length_append] at length
                  rw [pos, same]
                  rw [rest, List.length_append] at under valueAt
                  omega
                have short : (skipSpace after).length ≤ job.length := by
                  have length := congrArg List.length spaces
                  rw [List.length_append, List.length_cons, List.length_append] at length
                  rw [rest, List.length_append] at under
                  omega
                rw [ih short (place' _ rfl)]
                cases scanItems read object fuel (spaceOf after) (skipSpace after) with
                | none => rfl
                | some more =>
                  obtain ⟨items, final⟩ := more
                  simp only [readsItems, sizes, itemsTrace, is, here, there, Option.map_some,
                    List.append_assoc, at_, Nat.add_assoc, List.cons_append, List.nil_append]
              · rw [if_pos separates, if_pos separates]
                rfl
        · have many : ∀ (first : Item Written) items, first.value = v →
              ¬ j.nodes + sizes (first :: items) ≤ maxJSONFieldNodes := by
            rintro ⟨lead, label, value, trail⟩ items (same : value = v)
            rw [sizes, same]
            omega
          rw [if_neg few]
          dsimp only
          cases skipSpace b₂ with
          | nil => rfl
          | cons c after =>
            dsimp only
            split
            · exact (if_neg (many _ _ rfl)).symm
            split
            · rfl
            · cases scanItems read object fuel (spaceOf after) (skipSpace after) with
              | none => rfl
              | some more => exact (if_neg (many _ _ rfl)).symm

theorem container_eq {left : Nat}
    (value_eq : ∀ active (j : Editor), j.rest.length ≤ job.length →
      value active j = j.reads job active (scan left j.rest))
    {j : Editor} {b : Bytes} (whole : j.rest = opening object :: b)
    (within : j.rest.length ≤ job.length) (few : j.nodes + 1 ≤ maxJSONFieldNodes) :
    (container job value object (closing object) active
      { j with rest := b, nodes := j.nodes + 1 }).map (Prod.mk (j.pos job)) =
    j.reads job active (scanContainer (scan left) object b) := by
  have sound := fun b c r (is : scan left b = some (c, r)) => (scan_sound is).2
  have spaces := spaceOf_skipSpace b
  unfold container scanContainer
  dsimp only
  cases skipped : skipSpace b with
  | nil => rfl
  | cons c after =>
    dsimp only
    split
    · simp only [reads, Written.size, sizes, Nat.zero_add, if_pos few, Written.trace, itemsTrace]
      cases job.replacement <;> simp [edit, removals]
    rw [skipped] at spaces
    have length := congrArg List.length spaces
    rw [List.length_append] at length
    rw [whole, List.length_cons] at within
    have short : (c :: after).length ≤ job.length := by omega
    have at_ : ∀ j' : Editor, j'.rest = c :: after →
        j.pos job + 1 + (spaceOf b).length = j'.pos job := by
      intro j' same
      rw [pos, pos, same, whole, List.length_cons]
      omega
    rw [loop_eq value_eq sound short (at_ _ rfl)]
    cases scanItems (scan left) object (b.length + 1) (spaceOf b) (c :: after) with
    | none => rfl
    | some more =>
      obtain ⟨items, final⟩ := more
      have total : j.nodes + 1 + sizes items = j.nodes + (sizes items + 1) := by omega
      simp only [readsItems, reads, Option.map_some, Written.size, Written.trace, total, List.nil_append]
      by_cases enough : j.nodes + (sizes items + 1) ≤ maxJSONFieldNodes
      · rw [if_pos enough]
        exact (if_pos enough).symm
      · rw [if_neg enough]
        exact (if_neg enough).symm

theorem value_eq (left : Nat) (active : List Cursor) (j : Editor) (within : j.rest.length ≤ job.length) :
    j.value job left active = j.reads job active (scan left j.rest) := by
  induction left generalizing active j with
  | zero => rfl
  | succ left ih =>
    obtain ⟨rest, nodes, matched, edits⟩ := j
    unfold value
    dsimp only
    by_cases few : nodes + 1 ≤ maxJSONFieldNodes
    · rw [if_neg (by omega)]
      cases rest with
      | nil => rfl
      | cons c b =>
        dsimp only
        rw [scan]
        by_cases brace : c = 123
        · subst brace
          have whole : (⟨123 :: b, nodes, matched, edits⟩ : Editor).rest = opening true :: b := rfl
          exact container_eq ih whole within few
        rw [if_neg brace, if_neg brace]
        by_cases bracket : c = 91
        · subst bracket
          have whole : (⟨91 :: b, nodes, matched, edits⟩ : Editor).rest = opening false :: b := rfl
          exact container_eq ih whole within few
        rw [if_neg bracket, if_neg bracket]
        cases scalar (c :: b) with
        | none => rfl
        | some after =>
          simp only [Option.map_some, reads, Written.size, Written.trace, if_pos few, List.append_nil]
          rfl
    · rw [if_pos (by omega)]
      cases scan (left + 1) rest with
      | none => rfl
      | some read =>
        have one := read.1.size_pos
        have many : ¬ nodes + read.1.size ≤ maxJSONFieldNodes := by omega
        exact (if_neg many).symm

end Loop

end Editor

end EdgeObserver.Json
