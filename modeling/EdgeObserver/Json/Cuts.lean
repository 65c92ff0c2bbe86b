import EdgeObserver.Json.Reads

/-!
# The edits of one container

The removals and replacements recorded for a container, together with the edits
inside the values that stay, turn its text into the text of the container rebuilt.
-/

set_option autoImplicit false

namespace EdgeObserver.Json

open Library (Edit Splices)

/-- A member or an element of a container that is edited: as it is written, the
edits inside its value and what its value is after them. -/
structure Part where
  act : Bool
  item : Item Bytes
  inner : List (Edit UInt8)
  new : Bytes

namespace Part

def mark (p : Part) : Bool × Item Bytes := (p.act, { p.item with value := p.new })

def start (p : Part) (pos : Nat) : Nat := pos + p.item.lead.length

def valueStart (p : Part) (pos : Nat) : Nat := p.start pos + p.item.label.text.length

def stop (p : Part) (pos : Nat) : Nat := p.valueStart pos + p.item.value.length

def next (p : Part) (pos : Nat) : Nat := p.stop pos + p.item.trail.length + 1

def child (p : Part) (pos : Nat) : Child := ⟨p.start pos, p.valueStart pos, p.stop pos, p.act⟩

end Part

def children : Nat → List Part → List Child
  | _, [] => []
  | pos, p :: rest => p.child pos :: children (p.next pos) rest

def cuts (before : Option Nat) : Option (Nat × Nat) → Nat → List Part → List (Edit UInt8)
  | none, _, [] => []
  | some (start, last), _, [] => [⟨before.getD start, last, []⟩]
  | run, pos, p :: rest =>
    if p.act then
      cuts before (some ((run.map Prod.fst).getD (p.start pos), p.stop pos)) (p.next pos) rest
    else
      (run.map (fun r => ⟨r.1, p.start pos, []⟩)).toList ++ (p.inner ++ cuts (some (p.stop pos)) none (p.next pos) rest)

def swaps (new : Bytes) : Nat → List Part → List (Edit UInt8)
  | _, [] => []
  | pos, p :: rest =>
    (if p.act then [⟨p.valueStart pos, p.stop pos, new⟩] else p.inner) ++ swaps new (p.next pos) rest

def arranged (replacement : Option Bytes) (pos : Nat) (parts : List Part) : List (Edit UInt8) :=
  match replacement with
  | some new => swaps new pos parts
  | none => cuts none none pos parts

def Placed : Nat → List Part → Prop
  | _, [] => True
  | pos, p :: rest =>
    p.item.value ≠ [] ∧ (p.act = false → Splices (p.valueStart pos) p.item.value p.inner p.new) ∧
      Placed (p.next pos) rest

section Order

theorem cuts_perm (before : Option Nat) (run : Option (Nat × Nat)) (pos : Nat) (parts : List Part)
    (still : ∀ p ∈ parts, p.act = true → p.inner = []) :
    (parts.flatMap Part.inner ++ removals before run (children pos parts)).Perm (cuts before run pos parts) := by
  induction parts generalizing before run pos with
  | nil => rcases run with _ | ⟨start, last⟩ <;> exact .refl _
  | cons p rest ih =>
    have later := fun q listed => still q (List.mem_cons_of_mem _ listed)
    cases acted : p.act with
    | true =>
      have none_ := still p List.mem_cons_self acted
      simpa [cuts, removals, children, Part.child, acted, none_] using ih _ _ _ later
    | false =>
      have rest_perm := ih (some (p.stop pos)) none (p.next pos) later
      simp only [cuts, removals, children, Part.child, acted, List.flatMap_cons, List.append_assoc,
        Bool.false_eq_true, if_false]
      generalize (run.map (fun r => (⟨r.1, p.start pos, []⟩ : Edit UInt8))).toList = closed
      have moved := (List.perm_append_comm_assoc (rest.flatMap Part.inner) closed
        (removals (some (p.stop pos)) none (children (p.next pos) rest))).append_left p.inner
      refine (moved.trans (List.perm_append_comm_assoc _ _ _)).trans ?_
      exact (rest_perm.append_left p.inner).append_left closed

theorem swaps_perm (new : Bytes) (pos : Nat) (parts : List Part) (still : ∀ p ∈ parts, p.act = true → p.inner = []) :
    (parts.flatMap Part.inner ++ edit (some new) (children pos parts)).Perm (swaps new pos parts) := by
  induction parts generalizing pos with
  | nil => exact .refl _
  | cons p rest ih =>
    have later := fun q listed => still q (List.mem_cons_of_mem _ listed)
    have rest_perm := ih (p.next pos) later
    cases acted : p.act with
    | true =>
      have none_ := still p List.mem_cons_self acted
      have moved := List.perm_append_comm_assoc (rest.flatMap Part.inner)
        [(⟨p.valueStart pos, p.stop pos, new⟩ : Edit UInt8)] (edit (some new) (children (p.next pos) rest))
      simpa [swaps, edit, children, Part.child, acted, none_] using moved.trans (rest_perm.append_left _)
    | false =>
      simpa [swaps, edit, children, Part.child, acted] using rest_perm.append_left p.inner

theorem arranged_perm (replacement : Option Bytes) (pos : Nat) (parts : List Part)
    (still : ∀ p ∈ parts, p.act = true → p.inner = []) :
    (parts.flatMap Part.inner ++ edit replacement (children pos parts)).Perm (arranged replacement pos parts) := by
  cases replacement with
  | none => exact cuts_perm none none pos parts still
  | some new => exact swaps_perm new pos parts still

end Order

section Text

variable {pos : Nat} {rest : List Part}

theorem Splices.item {p : Part} {q : Nat} {front new tail tail' : Bytes}
    {edits more : List (Edit UInt8)} (value : Splices (p.valueStart pos) p.item.value edits new)
    (after : Splices (p.stop pos) tail more tail')
    (at_ : q + front.length = p.start pos) :
    Splices q (front ++ (p.item.label.text ++ (p.item.value ++ tail))) (edits ++ more)
      (front ++ (p.item.label.text ++ (new ++ tail'))) :=
  ((value.append after rfl).after p.item.label.text rfl).after front at_

theorem swaps_follow (new : Bytes) (placed : Placed pos rest) : ∀ q trail, q + trail.length + 1 = pos →
    Splices q (trail ++ follow (rest.map Part.item)) (swaps new pos rest)
      (trail ++ follow ((rest.map Part.mark).map (replaced new))) := by
  induction rest generalizing pos with
  | nil => exact fun q trail _ => Splices.keep q _
  | cons p rest ih =>
    intro q trail at_
    obtain ⟨some_, within, later⟩ := placed
    have after := ih later (p.stop pos) p.item.trail rfl
    have here : q + (trail ++ comma :: p.item.lead).length = p.start pos := by
      simp only [Part.start, List.length_append, List.length_cons]
      omega
    cases acted : p.act with
    | true =>
      have whole := Splices.item (Splices.put (p.valueStart pos) some_ new) after here
      simpa [swaps, follow, replaced, acted, Item.text, Part.mark, Part.stop, -List.map_map] using whole
    | false =>
      have whole := Splices.item (within acted) after here
      simpa [swaps, follow, replaced, acted, Item.text, Part.mark, -List.map_map] using whole

inductive RunEnds (before : Option Nat) (lead : Bytes) (s : Nat) (text trail : Bytes)
    (edits : List (Edit UInt8)) : Option Bytes × List (Item Bytes) → Prop where
  | closes {gone : Bytes} {last : Option Bytes} (some_ : gone ≠ []) (whole : text = gone ++ last.getD trail)
      (cut : edits = [⟨before.getD s, s + gone.length, []⟩]) :
      RunEnds before lead s text trail edits (last, [])
  | goes {first : Item Bytes} {others : List (Item Bytes)} (same : first.lead = lead)
      (splices : Splices s text edits (first.label.text ++ (first.value ++ (first.trail ++ follow others)))) :
      RunEnds before lead s text trail edits (none, first :: others)

section Runs

variable {before : Option Nat} {lead text trail : Bytes} {s : Nat} {edits : List (Edit UInt8)}
  {result : Option Bytes × List (Item Bytes)}

theorem RunEnds.wider (run : RunEnds before lead s text trail edits result) (other : Bytes) :
    RunEnds before lead s text other edits (removed trail result) := by
  cases run with
  | closes some_ whole cut => exact .closes some_ whole cut
  | goes same splices => exact .goes same splices

theorem RunEnds.after_item {q : Nat} (run : RunEnds (some q) lead s text trail edits result)
    {kept_trail : Bytes} (at_ : q + kept_trail.length + 1 + lead.length = s) :
    Splices q (kept_trail ++ comma :: (lead ++ text)) edits
      ((removed trail result).1.getD kept_trail ++ follow (removed trail result).2) := by
  cases run with
  | closes some_ whole cut =>
    rename_i gone last
    have put := Splices.put q (List.append_ne_nil_of_right_ne_nil (kept_trail ++ comma :: lead) some_) []
    have ends := put.append (Splices.keep _ (last.getD trail)) rfl
    have length : s + gone.length = q + (kept_trail ++ comma :: lead ++ gone).length := by
      simp only [List.length_append, List.length_cons]
      omega
    rw [cut, whole, length]
    simpa [removed, follow] using ends
  | goes same splices =>
    have length : q + (kept_trail ++ comma :: lead).length = s := by
      simp only [List.length_append, List.length_cons]
      omega
    have whole := splices.after (kept_trail ++ comma :: lead) length
    simpa [removed, follow, Item.text, same] using whole

theorem RunEnds.from_first {low : Nat} (run : RunEnds none lead s text trail edits result)
    (at_ : low + lead.length = s) :
    Splices low (lead ++ text) edits (inside (lead ++ (removed trail result).1.getD []) (removed trail result).2) := by
  cases run with
  | closes some_ whole cut =>
    rename_i gone last
    have put := (Splices.put s some_ []).append (Splices.keep _ (last.getD trail)) rfl
    rw [cut, whole]
    exact put.after lead at_
  | goes same splices =>
    have whole := splices.after lead at_
    simpa [removed, inside, Item.text, same] using whole

end Runs

theorem cuts_follow (placed : Placed pos rest) :
    (∀ q trail, q + trail.length + 1 = pos →
      Splices q (trail ++ follow (rest.map Part.item)) (cuts (some q) none pos rest)
        ((kept none (rest.map Part.mark)).1.getD trail ++ follow (kept none (rest.map Part.mark)).2)) ∧
    (∀ before lead s gone trail, gone ≠ [] → s + gone.length + trail.length + 1 = pos →
      RunEnds before lead s (gone ++ (trail ++ follow (rest.map Part.item))) trail
        (cuts before (some (s, s + gone.length)) pos rest)
        (kept (some lead) (rest.map Part.mark))) := by
  induction rest generalizing pos with
  | nil =>
    refine ⟨fun q trail _ => Splices.keep q _, fun before lead s gone trail full _ => ?_⟩
    exact .closes full (by simp [follow]) rfl
  | cons p rest ih =>
    obtain ⟨some_, within, later⟩ := placed
    obtain ⟨keeps, runs⟩ := ih later
    have after := keeps (p.stop pos) p.item.trail rfl
    cases acted : p.act with
    | true =>
      refine ⟨fun q trail at_ => ?_, fun before lead s gone trail full at_ => ?_⟩
      · have long : p.start pos + (p.item.label.text ++ p.item.value).length = p.stop pos := by
          simp only [Part.stop, Part.valueStart, List.length_append]
          omega
        have run := runs (some q) p.item.lead (p.start pos) (p.item.label.text ++ p.item.value)
          p.item.trail (by simp [some_]) (by rw [long]; rfl)
        rw [long] at run
        have here : q + trail.length + 1 + p.item.lead.length = p.start pos := by
          simp only [Part.start]
          omega
        have whole := run.after_item here
        simpa [cuts, kept, follow, acted, Item.text, Part.mark] using whole
      · have long : s + (gone ++ (trail ++ comma :: (p.item.lead ++ (p.item.label.text ++
            p.item.value)))).length = p.stop pos := by
          simp only [Part.stop, Part.valueStart, Part.start, List.length_append, List.length_cons]
          omega
        have run := runs before lead s (gone ++ (trail ++ comma :: (p.item.lead ++
          (p.item.label.text ++ p.item.value)))) p.item.trail (by simp [full]) (by rw [long]; rfl)
        rw [long] at run
        have wider := run.wider trail
        simpa [cuts, kept, follow, acted, Item.text, Part.mark] using wider
    | false =>
      refine ⟨fun q trail at_ => ?_, fun before lead s gone trail full at_ => ?_⟩
      · have here : q + (trail ++ comma :: p.item.lead).length = p.start pos := by
          simp only [Part.start, List.length_append, List.length_cons]
          omega
        have whole := Splices.item (within acted) after here
        simpa [cuts, kept, follow, acted, Item.text, Part.mark] using whole
      · have here : s + (gone ++ (trail ++ comma :: p.item.lead)).length = p.start pos := by
          simp only [Part.start, List.length_append, List.length_cons]
          omega
        have put := Splices.put s (List.append_ne_nil_of_left_ne_nil full (trail ++ comma :: p.item.lead)) []
        have whole := put.append (((within acted).append after rfl).after p.item.label.text rfl) here
        rw [here] at whole
        have goes : RunEnds before lead s ((gone ++ (trail ++ comma :: p.item.lead)) ++
            (p.item.label.text ++ (p.item.value ++ (p.item.trail ++ follow (rest.map Part.item)))))
            trail ([⟨s, p.start pos, []⟩] ++ (p.inner ++ cuts (some (p.stop pos)) none (p.next pos) rest))
            (none, ⟨lead, p.item.label, p.new, (kept none (rest.map Part.mark)).1.getD p.item.trail⟩ ::
              (kept none (rest.map Part.mark)).2) := .goes rfl whole
        simpa [cuts, kept, follow, acted, Item.text, Part.mark] using goes

theorem inside_splices (replacement : Option Bytes) {blank : Bytes} {parts : List Part}
    (only : parts ≠ [] → blank = []) (placed : Placed pos parts) :
    Splices pos (inside blank (parts.map Part.item)) (arranged replacement pos parts)
      (inside (rebuilt replacement blank (parts.map Part.mark)).1
        (rebuilt replacement blank (parts.map Part.mark)).2) := by
  cases parts with
  | nil => cases replacement <;> exact Splices.keep pos blank
  | cons p rest =>
    cases only (List.cons_ne_nil _ _)
    obtain ⟨some_, within, later⟩ := placed
    cases replacement with
    | some new =>
      have after := swaps_follow new later (p.stop pos) p.item.trail rfl
      cases acted : p.act with
      | true =>
        have whole := Splices.item (Splices.put (p.valueStart pos) some_ new) after rfl
        simpa [arranged, swaps, inside, rebuilt, replaced, acted, Item.text, Part.mark, Part.stop,
          -List.map_map] using whole
      | false =>
        have whole := Splices.item (within acted) after rfl
        simpa [arranged, swaps, inside, rebuilt, replaced, acted, Item.text, Part.mark, -List.map_map] using whole
    | none =>
      obtain ⟨keeps, runs⟩ := cuts_follow later
      cases acted : p.act with
      | true =>
        have long : p.start pos + (p.item.label.text ++ p.item.value).length = p.stop pos := by
          simp only [Part.stop, Part.valueStart, List.length_append]
          omega
        have run := runs none p.item.lead (p.start pos) (p.item.label.text ++ p.item.value)
          p.item.trail (by simp [some_]) (by rw [long]; rfl)
        rw [long] at run
        have whole := run.from_first rfl
        have same : inside (p.item.lead ++ (removed p.item.trail
            (kept (some p.item.lead) (rest.map Part.mark))).1.getD []) (removed p.item.trail
            (kept (some p.item.lead) (rest.map Part.mark))).2 =
            inside (rebuilt none [] ((p :: rest).map Part.mark)).1 (rebuilt none [] ((p :: rest).map Part.mark)).2 := by
          simp only [rebuilt, List.map_cons, kept, Part.mark, acted, if_true, Option.getD_none]
          rcases kept (some p.item.lead) (rest.map Part.mark) with ⟨last, _ | ⟨first, others⟩⟩ <;> rfl
        rw [same] at whole
        simpa [arranged, cuts, inside, acted, Item.text] using whole
      | false =>
        have whole := Splices.item (within acted) (keeps (p.stop pos) p.item.trail rfl) rfl
        simpa [arranged, cuts, inside, rebuilt, kept, acted, Item.text, Part.mark] using whole

end Text

end EdgeObserver.Json
