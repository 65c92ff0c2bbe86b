import EdgeObserver.Json.Flags
import EdgeObserver.Json.Redaction
import EdgeObserver.Config.Conflict

/-!
# The editor redacts the value

Reading what `editJSON` returns gives the value it was given without the outermost
nodes its pointers match, or with them replaced, and every byte of what no pointer
touches as it was.
-/

set_option autoImplicit false

namespace EdgeObserver.Json

open Config (validUtf8 validPointer pointerTokens printable)
open Library (Splices)

def Untouched (hit : List Step → Bool) (c : Written) : Prop := ∀ path, c.tree.At path → path ≠ [] → hit path = false

mutual

/-- How a text is rewritten. A value nothing is hit in keeps all its bytes; in a
container around one that is hit, blanks may move. -/
inductive Rewritten (replacement : Option Bytes) :
    (List Step → Bool) → Written → Written → Prop where
  | untouched {hit : List Step → Bool} {c : Written} (none_ : Untouched hit c) : Rewritten replacement hit c c
  | container {hit : List Step → Bool} {object : Bool} {blank blank' : Bytes} {items items' : List (Item Written)}
      (touched : ¬ Untouched hit (.container object blank items))
      (each : RewrittenItems replacement hit 0 items items') :
      Rewritten replacement hit (.container object blank items) (.container object blank' items')

/-- How the members or elements of a container are, in their order. Those that are
hit go or get the replacement; the others keep their names as written. -/
inductive RewrittenItems (replacement : Option Bytes) :
    (List Step → Bool) → Nat → List (Item Written) → List (Item Written) → Prop where
  | nil {hit : List Step → Bool} {index : Nat} : RewrittenItems replacement hit index [] []
  | removed {hit : List Step → Bool} {index : Nat} {item : Item Written}
      {rest rest' : List (Item Written)} (is : hit [item.label.step index] = true)
      (none_ : replacement = none) (more : RewrittenItems replacement hit (index + 1) rest rest') :
      RewrittenItems replacement hit index (item :: rest) rest'
  | replaced {hit : List Step → Bool} {index : Nat} {item item' : Item Written} {new : Bytes}
      {rest rest' : List (Item Written)} (is : hit [item.label.step index] = true)
      (some_ : replacement = some new) (label : item'.label = item.label)
      (value : item'.value = .scalar new)
      (more : RewrittenItems replacement hit (index + 1) rest rest') :
      RewrittenItems replacement hit index (item :: rest) (item' :: rest')
  | kept {hit : List Step → Bool} {index : Nat} {item item' : Item Written}
      {rest rest' : List (Item Written)} (stays : hit [item.label.step index] = false)
      (label : item'.label = item.label)
      (value : Rewritten replacement (fun path => hit (item.label.step index :: path)) item.value item'.value)
      (more : RewrittenItems replacement hit (index + 1) rest rest') :
      RewrittenItems replacement hit index (item :: rest) (item' :: rest')

end

section Rewriting

variable {replacement : Option Bytes} {hit : List Step → Bool} {items : List (Item Written)}
  {object : Bool} {blank : Bytes} {left : Nat}

theorem atItem_ne_nil {index : Nat} {path : List Step} (there : AtItem index items path) :
    path ≠ [] := by
  induction items generalizing index with
  | nil => cases there
  | cons item rest ih =>
    rcases there with ⟨inner, rfl, _⟩ | later
    · exact List.cons_ne_nil _ _
    · exact ih later

theorem marked_untouched (index : Nat) (none_ : ∀ path, AtItem index items path → hit path = false)
    (each : ∀ item ∈ items, ∀ hit, Untouched hit item.value → item.value.redacted replacement hit = item.value) :
    marked replacement hit index items = items.map (Prod.mk false) := by
  induction items generalizing index with
  | nil => rfl
  | cons item rest ih =>
    have here := each item List.mem_cons_self
    have later := ih (index + 1) (fun path there => none_ path (.inr there))
      (fun other listed => each other (List.mem_cons_of_mem _ listed))
    have first := none_ [item.label.step index] (.inl ⟨[], rfl, .here _⟩)
    have inside : Untouched (fun path => hit (item.label.step index :: path)) item.value :=
      fun path at_ _ => none_ _ (.inl ⟨path, rfl, at_⟩)
    obtain ⟨lead, label, value, trail⟩ := item
    simp only at first inside here
    rw [marked, later, first, here _ inside, List.map_cons]

theorem kept_unmarked {α : Type} (items : List (Item α)) :
    kept none (items.map (Prod.mk false)) = (none, items) := by
  induction items with
  | nil => rfl
  | cons item rest ih => simp [kept, ih]

theorem rebuilt_unmarked {α : Type} (replacement : Option α) (blank : Bytes) (items : List (Item α)) :
    rebuilt replacement blank (items.map (Prod.mk false)) = (blank, items) := by
  cases replacement with
  | none => simp [rebuilt, kept_unmarked]
  | some new => simp [rebuilt, replaced, Function.comp_def]

theorem Written.redacted_untouched {c : Written} (fine : c.Fine left) (hit : List Step → Bool)
    (none_ : Untouched hit c) : c.redacted replacement hit = c := by
  induction c using Written.induct generalizing left hit with
  | scalar text => rw [Written.redacted]
  | container object blank items ih =>
    cases fine with
    | container spaces only around values =>
      have inside : ∀ path, AtItem 0 items path → hit path = false := by
        intro path there
        refine none_ path ((Written.at_container ?_ path).mpr (.inr there)) (atItem_ne_nil there)
        exact fun item listed => (around item listed).label
      have same := @marked_untouched replacement hit items 0 inside
        (fun item listed => ih item listed (values item listed))
      rw [Written.redacted, same, rebuilt_unmarked]

theorem kept_rewritten (index : Nat) (lead : Option Bytes)
    (each : ∀ item ∈ items, ∀ hit, Rewritten none hit item.value (item.value.redacted none hit)) :
    RewrittenItems none hit index items (kept lead (marked none hit index items)).2 := by
  induction items generalizing index lead with
  | nil => exact .nil
  | cons item rest ih =>
    have here := each item List.mem_cons_self
    have later := fun lead => ih (index + 1) lead (fun other listed => each other (List.mem_cons_of_mem _ listed))
    obtain ⟨before, label, value, trail⟩ := item
    cases is : hit [label.step index] with
    | true =>
      simp only [marked, kept, is, if_true, removed_items]
      exact .removed is rfl (later _)
    | false =>
      simp only [marked, kept, is, Bool.false_eq_true, if_false]
      exact .kept is rfl (here _) (later none)

theorem replaced_rewritten (index : Nat) (new : Bytes)
    (each : ∀ item ∈ items, ∀ hit, Rewritten (some new) hit item.value (item.value.redacted (some new) hit)) :
    RewrittenItems (some new) hit index items ((marked (some new) hit index items).map (replaced (.scalar new))) := by
  induction items generalizing index with
  | nil => exact .nil
  | cons item rest ih =>
    have here := each item List.mem_cons_self
    have later := ih (index + 1) (fun other listed => each other (List.mem_cons_of_mem _ listed))
    obtain ⟨lead, label, value, trail⟩ := item
    cases is : hit [label.step index] with
    | true =>
      simp only [marked, List.map_cons, replaced, is, if_true]
      exact .replaced is rfl rfl rfl later
    | false =>
      simp only [marked, List.map_cons, replaced, is, Bool.false_eq_true, if_false]
      exact .kept is rfl (here _) later

theorem rebuilt_rewritten
    (each : ∀ item ∈ items, ∀ hit, Rewritten replacement hit item.value (item.value.redacted replacement hit)) :
    RewrittenItems replacement hit 0 items
      (rebuilt (replacement.map Written.scalar) blank (marked replacement hit 0 items)).2 := by
  cases replacement with
  | none =>
    rw [Option.map_none, rebuilt_none]
    exact kept_rewritten 0 none each
  | some new => exact replaced_rewritten 0 new each

theorem Written.redacted_rewritten {c : Written} (fine : c.Fine left) (hit : List Step → Bool) :
    Rewritten replacement hit c (c.redacted replacement hit) := by
  induction c using Written.induct generalizing left hit with
  | scalar text =>
    rw [Written.redacted]
    refine .untouched fun path at_ some_ => ?_
    rw [Written.tree] at at_
    cases at_
    exact absurd rfl some_
  | container object blank items ih =>
    by_cases none_ : Untouched hit (.container object blank items)
    · rw [Written.redacted_untouched fine hit none_]
      exact .untouched none_
    cases fine with
    | container spaces only around values =>
      rw [Written.redacted]
      exact .container none_ (rebuilt_rewritten fun item listed => ih item listed (values item listed))

end Rewriting

section Levels

theorem length_value_le {blank : Bytes} {items : List (Item Written)} {item : Item Written} (listed : item ∈ items) :
    item.value.text.length ≤ (inside blank (texts items)).length := by
  have follows : ∀ rest : List (Item Written), item ∈ rest →
      item.value.text.length ≤ (follow (texts rest)).length := by
    intro rest member
    induction rest with
    | nil => cases member
    | cons other rest ih =>
      obtain ⟨lead, label, value, trail⟩ := other
      simp only [follow, texts, Item.text, List.flatMap_cons, List.length_append, List.length_cons] at ih ⊢
      rcases List.mem_cons.mp member with rfl | later
      · simp only
        omega
      · have := ih later
        omega
  cases items with
  | nil => cases listed
  | cons other rest =>
    obtain ⟨lead, label, value, trail⟩ := other
    simp only [inside, texts, Item.text, List.length_append]
    rcases List.mem_cons.mp listed with rfl | later
    · simp only
      omega
    · have := follows rest later
      omega

theorem Written.Fine.of_length {left : Nat} {c : Written} (fine : c.Fine left) {levels : Nat}
    (long : c.text.length ≤ levels) : c.Fine levels := by
  induction c using Written.induct generalizing left levels with
  | scalar b =>
    cases fine with
    | scalar reads =>
      have some_ := List.length_pos_iff.mpr reads.some_
      rw [Written.text] at long
      cases levels with
      | zero => omega
      | succ levels => exact .scalar reads
  | container object blank items ih =>
    cases fine with
    | container spaces only around values =>
      rw [Written.text, List.length_cons, List.length_append] at long
      cases levels with
      | zero => omega
      | succ levels =>
        refine .container spaces only around fun item listed => ih item listed (values item listed) ?_
        have := @length_value_le blank items item listed
        omega

end Levels

section Body

variable {fold : Bytes → Bytes} {body lead tail : Bytes} {c : Written} {pointers : List Bytes}
  {replacement : Option Bytes}

structure Accepted (body lead : Bytes) (c : Written) (tail : Bytes) : Prop where
  whole : body = lead ++ (c.text ++ tail)
  lead_spaces : Spaces lead
  tail_spaces : Spaces tail
  fine : c.Fine maxJSONFieldDepth
  few : c.size ≤ maxJSONFieldNodes
  encoded : c.Encoded

def cursors (pointers : List Bytes) : List Cursor := (pointers.map pointerTokens).zipIdx.map (fun p => ⟨p.2, p.1⟩)

theorem spaces_of_skipSpace {b : Bytes} (is : skipSpace b = []) : Spaces b := by
  have whole := spaceOf_skipSpace b
  rw [is, List.append_nil] at whole
  exact whole ▸ spaceOf_spaces b

theorem skipSpace_of_spaces {b : Bytes} (spaces : Spaces b) : skipSpace b = [] := by
  have run := @skipSpace_run b [] spaces (by simp)
  rwa [List.append_nil] at run

theorem Written.Fine.clear {left : Nat} (fine : c.Fine left) (x : Bytes) : Clear (c.text ++ x) := by
  obtain ⟨first, rest, same, begin_⟩ := fine.begins
  rw [same]
  exact Clear.cons (begins_ascii begin_)

theorem body_valid {left : Nat} (fine : c.Fine left) (lead_spaces : Spaces lead)
    (tail_spaces : Spaces tail) : validUtf8 (lead ++ (c.text ++ tail)) = validUtf8 c.text := by
  have clear : Clear tail := fun b first => isSpace_ascii (tail_spaces b (List.mem_of_mem_head? first))
  rw [validUtf8_append (fine.clear tail), validUtf8_append clear, lead_spaces.valid,
    tail_spaces.valid, Bool.true_and, Bool.and_true]

namespace Accepted

theorem stops (is : Accepted body lead c tail) :
    ∀ b ∈ (c.text ++ tail).head?, isSpace b = false := by
  obtain ⟨first, rest, same, begin_⟩ := is.fine.begins
  exact plain_of_begins (by rw [same]; rfl) begin_

theorem skips (is : Accepted body lead c tail) :
    skipSpace body = c.text ++ tail ∧ spaceOf body = lead := by
  rw [is.whole]
  exact ⟨skipSpace_run is.lead_spaces is.stops, spaceOf_run is.lead_spaces is.stops⟩

theorem follows (is : Accepted body lead c tail) : Follows tail := by
  intro b first
  exact delimits_space (is.tail_spaces b (List.mem_of_mem_head? first))

theorem valid (is : Accepted body lead c tail) : validUtf8 body = true := by
  rw [is.whole, body_valid is.fine is.lead_spaces is.tail_spaces]
  exact (Written.valid_iff is.fine).mpr is.encoded

theorem unmarked (is : Accepted body lead c tail) : ¬ bom <+: body := by
  rintro ⟨rest, same⟩
  have first : Clear body := is.whole ▸ is.lead_spaces.clear (is.fine.clear tail)
  rw [← same] at first
  exact absurd (first 0xef rfl) (by decide)

theorem parses (is : Accepted body lead c tail) : parse body = some c := by
  obtain ⟨skipped, _⟩ := is.skips
  have long : c.text.length ≤ body.length + 1 := by
    rw [is.whole]
    simp only [List.length_append]
    omega
  have read := scan_complete (is.fine.of_length long) is.follows
  unfold parse
  rw [skipped, read]
  simp only [skipSpace_of_spaces is.tail_spaces, if_true]

theorem redacted (is : Accepted body lead c tail) (reads : ∀ new ∈ replacement, ReadsScalar new)
    (valid : ∀ new ∈ replacement, validUtf8 new = true) (hit : List Step → Bool) :
    Accepted (lead ++ ((c.redacted replacement hit).text ++ tail)) lead (c.redacted replacement hit) tail where
  whole := rfl
  lead_spaces := is.lead_spaces
  tail_spaces := is.tail_spaces
  fine := Written.redacted_fine is.fine reads hit
  few := Nat.le_trans (Written.redacted_size c hit) is.few
  encoded := Written.redacted_encoded is.encoded valid hit

end Accepted

theorem names_cursors (fold : Bytes → Bytes) (pointers : List Bytes) :
    names fold (cursors pointers) = hits fold (pointers.map pointerTokens) := by
  have tokens : (cursors pointers).map Cursor.tokens = pointers.map pointerTokens := by
    rw [cursors, List.map_map]
    exact List.zipIdx_map_fst 0 _
  rw [names, tokens]

def flagsOf (fold : Bytes → Bytes) (length : Nat) (replacement : Option Bytes) (pointers : List Bytes)
    (lead : Bytes) (c : Written) : List Bool :=
  (c.trace ⟨fold, length, replacement⟩ (cursors pointers) lead.length (pointers.map (fun _ => false))).1

theorem Accepted.editJSON_eq (is : Accepted body lead c tail) :
    editJSON fold body pointers replacement =
      some (lead ++ ((c.redacted replacement (hits fold (pointers.map pointerTokens))).text ++ tail),
        flagsOf fold body.length replacement pointers lead c) := by
  obtain ⟨skipped, _⟩ := is.skips
  have length : body.length = lead.length + (c.text ++ tail).length := by
    rw [is.whole, List.length_append]
  have within : (c.text ++ tail).length ≤ body.length := by omega
  have place : body.length - (c.text ++ tail).length = lead.length := by omega
  have read := scan_complete is.fine is.follows
  have fits : ¬ (bom <+: body ∨ validUtf8 body = false) := by
    rintro (marked | invalid)
    · exact is.unmarked marked
    · rw [is.valid] at invalid
      cases invalid
  unfold editJSON
  rw [if_neg fits, skipped]
  dsimp only
  rw [Editor.value_eq _ _ _ within]
  dsimp only
  rw [read]
  simp only [Editor.reads, Nat.zero_add, if_pos is.few, Editor.pos, place, List.nil_append,
    skipSpace_of_spaces is.tail_spaces, if_true]
  have splices := ((@Written.splices replacement _ _ is.fine (hits fold (pointers.map pointerTokens))
    lead.length).append (Splices.keep _ tail) rfl).after lead (Nat.zero_add _)
  have recorded := @Written.trace_edits ⟨fold, body.length, replacement⟩ c (cursors pointers)
    lead.length (pointers.map fun _ => false)
  rw [List.append_nil, ← is.whole] at splices
  rw [names_cursors] at recorded
  have result := splices.result
  rw [← splices.ordered.sorted_eq recorded] at result
  exact congrArg (fun out => some (out, _)) result

theorem accepted_of_editJSON {result : Bytes × List Bool} (is : editJSON fold body pointers replacement = some result) :
    ∃ lead c tail, Accepted body lead c tail := by
  unfold editJSON at is
  split at is
  · cases is
  rename_i fits
  rw [not_or, Bool.not_eq_false] at fits
  obtain ⟨_, valid⟩ := fits
  have blank := spaceOf_skipSpace body
  have within : (skipSpace body).length ≤ body.length := by
    have length := congrArg List.length blank
    rw [List.length_append] at length
    omega
  dsimp only at is
  rw [Editor.value_eq _ _ _ within] at is
  dsimp only at is
  cases read : scan maxJSONFieldDepth (skipSpace body) with
  | none =>
    rw [read] at is
    cases is
  | some found =>
    obtain ⟨c, tail⟩ := found
    rw [read] at is
    simp only [Editor.reads, Nat.zero_add] at is
    obtain ⟨fine, rest⟩ := scan_sound read
    split at is
    · cases is
    rename_i few_reads
    split at few_reads
    · rename_i few
      cases few_reads
      split at is
      · rename_i ends
        have tail_spaces := spaces_of_skipSpace ends
        have whole : body = spaceOf body ++ (c.text ++ tail) := by rw [← rest, blank]
        refine ⟨spaceOf body, c, tail, whole, spaceOf_spaces _, tail_spaces, fine, few, ?_⟩
        rw [whole, body_valid fine (spaceOf_spaces _) tail_spaces] at valid
        exact (Written.valid_iff fine).mp valid
      · cases is
    · cases few_reads

end Body

section Strings

theorem jsonString_reads {value : Bytes} (fits : printable value = true) (x : Bytes) :
    text (jsonString value ++ x) = some (value, x) := by
  have simple : ∀ {b : UInt8}, b = quote ∨ b = backslash → simpleEscape b = some b := by
    rintro b (rfl | rfl) <;> rfl
  show textFrom (value.flatMap _ ++ [quote] ++ x) = _
  induction value with
  | nil =>
    rw [textFrom.eq_def]
    rfl
  | cons b value ih =>
    simp only [printable, List.all_cons, Bool.and_eq_true, decide_eq_true_eq] at fits
    obtain ⟨⟨low, _⟩, later⟩ := fits
    have read := ih later
    simp only [List.flatMap_cons, List.append_assoc] at read ⊢
    by_cases special : b = quote ∨ b = backslash
    · rw [if_pos special, List.cons_append, List.cons_append, List.nil_append, textFrom_escape (simple special), read]
      rfl
    · rw [not_or] at special
      rw [if_neg (not_or.mpr special), List.cons_append, List.nil_append, textFrom_plain low special.1 special.2, read]
      rfl

theorem jsonString_scalar {value : Bytes} (fits : printable value = true) :
    ReadsScalar (jsonString value) := by
  refine ⟨List.cons_ne_nil _ _, fun x _ => ?_⟩
  have read := jsonString_reads fits x
  have starts : ∃ rest, jsonString value ++ x = quote :: rest := ⟨_, rfl⟩
  obtain ⟨rest, same⟩ := starts
  rw [same] at read ⊢
  simp [scalar, read]

theorem jsonString_valid {value : Bytes} (fits : printable value = true) :
    validUtf8 (jsonString value) = true := by
  have low : ∀ b ∈ value, b < 128 := by
    intro b listed
    have within := List.all_eq_true.mp fits b listed
    simp only [Bool.and_eq_true, decide_eq_true_eq] at within
    rw [UInt8.lt_iff_toNat_lt]
    rw [UInt8.le_iff_toNat_le, UInt8.le_iff_toNat_le] at within
    have top : (126 : UInt8).toNat = 126 := rfl
    have bound : (128 : UInt8).toNat = 128 := rfl
    omega
  refine validUtf8_ascii fun c listed => ?_
  simp only [jsonString, List.mem_cons, List.mem_append, List.mem_flatMap, List.not_mem_nil, or_false] at listed
  rcases listed with rfl | ⟨b, member, here⟩ | rfl
  · decide
  · split at here
    · simp only [List.mem_cons, List.not_mem_nil, or_false] at here
      rcases here with rfl | rfl
      · decide
      · exact low _ member
    · cases List.mem_singleton.mp here
      exact low _ member
  · decide

end Strings

section Main

variable {fold : Bytes → Bytes} {body out : Bytes} {pointers : List Bytes} {value : Option Bytes} {flags : List Bool}

theorem mem_cursors {c : Cursor} :
    c ∈ cursors pointers ↔ pointers[c.pointer]?.map pointerTokens = some c.tokens := by
  obtain ⟨i, tokens⟩ := c
  simp only [cursors, List.mem_map, Cursor.mk.injEq, Prod.exists]
  constructor
  · rintro ⟨found, j, listed, rfl, rfl⟩
    rw [List.mem_zipIdx_iff_getElem?, List.getElem?_map] at listed
    exact listed
  · intro listed
    refine ⟨tokens, i, ?_, rfl, rfl⟩
    rw [List.mem_zipIdx_iff_getElem?, List.getElem?_map]
    exact listed

theorem flagsOf_iff {left length : Nat} {lead : Bytes} {c : Written} {replacement : Option Bytes}
    (fine : c.Fine left) {i : Nat} {pointer : Bytes} (listed : pointers[i]? = some pointer)
    (valid : validPointer pointer = .ok ()) :
    (flagsOf fold length replacement pointers lead c)[i]? = some true ↔
      ∃ path, c.tree.At path ∧ named fold (pointerTokens pointer) path = true ∧
        Outermost (hits fold (pointers.map pointerTokens)) path := by
  have trace := @Written.trace_flags ⟨fold, length, replacement⟩ _ _ fine (cursors pointers)
    lead.length (pointers.map fun _ => false)
  have within : i < (pointers.map fun _ => false).length := by
    rw [List.length_map]
    exact (List.getElem?_eq_some_iff.mp listed).1
  rw [flagsOf, trace.iff i within, List.getElem?_map, listed]
  constructor
  · rintro (unset | ⟨path, at_, _, out, c, member, same, named⟩)
    · cases unset
    · subst same
      rw [mem_cursors, listed] at member
      have tokens : pointerTokens pointer = c.tokens := Option.some.inj member
      exact ⟨path, at_, tokens ▸ named, names_cursors fold pointers ▸ out⟩
  · rintro ⟨path, at_, is, out⟩
    refine .inr ⟨path, at_, ?_, names_cursors fold pointers ▸ out, ⟨i, pointerTokens pointer⟩,
      mem_cursors.mpr (by rw [listed]; rfl), rfl, is⟩
    rintro rfl
    have some_ := Config.pointerTokens_ne_nil valid
    cases tokens : pointerTokens pointer with
    | nil => exact some_ tokens
    | cons token rest =>
      rw [tokens] at is
      cases is

/-- What `editJSON` returns reads as the value of the body without the outermost
nodes a pointer matches, or with them set to the replacement; what no pointer
touches keeps its bytes, the text is one `editJSON` reads, and a pointer's flag is
set exactly when it matches a node that lies in no other matched one. -/
theorem editJSON_redacts (valid : ∀ pointer ∈ pointers, validPointer pointer = .ok ())
    (fits : ∀ v ∈ value, printable v = true)
    (is : editJSON fold body pointers (value.map jsonString) = some (out, flags)) :
    ∃ c c' : Written, parse body = some c ∧ parse out = some c' ∧
      c'.tree = c.tree.redact (value.map fun v => .scalar (jsonString v)) (hits fold (pointers.map pointerTokens)) ∧
      Rewritten (value.map jsonString) (hits fold (pointers.map pointerTokens)) c c' ∧
      (∀ others replacement, (∀ pointer ∈ others, validPointer pointer = .ok ()) →
        (editJSON fold out others replacement).isSome = true) ∧
      flags.length = pointers.length ∧
      ∀ (i : Nat) (pointer : Bytes), pointers[i]? = some pointer →
        (flags[i]? = some true ↔ ∃ path, c.tree.At path ∧ named fold (pointerTokens pointer) path = true ∧
          Outermost (hits fold (pointers.map pointerTokens)) path) := by
  obtain ⟨lead, c, tail, accepted⟩ := accepted_of_editJSON is
  rw [accepted.editJSON_eq] at is
  obtain ⟨rfl, rfl⟩ : _ = out ∧ _ = flags := Prod.mk.inj (Option.some.inj is)
  have reads : ∀ new ∈ value.map jsonString, ReadsScalar new := by
    intro new listed
    obtain ⟨v, member, rfl⟩ := Option.map_eq_some_iff.mp listed
    exact jsonString_scalar (fits v member)
  have encoded : ∀ new ∈ value.map jsonString, validUtf8 new = true := by
    intro new listed
    obtain ⟨v, member, rfl⟩ := Option.map_eq_some_iff.mp listed
    exact jsonString_valid (fits v member)
  have left := accepted.redacted reads encoded (hits fold (pointers.map pointerTokens))
  have tree := @Written.redacted_tree (value.map jsonString) _ _ accepted.fine (hits fold (pointers.map pointerTokens))
  rw [Option.map_map] at tree
  refine ⟨c, _, accepted.parses, left.parses, tree, Written.redacted_rewritten accepted.fine _,
    fun others replacement _ => ?_, ?_, fun i pointer listed => ?_⟩
  · rw [left.editJSON_eq]
    rfl
  · rw [flagsOf, (Written.trace_flags accepted.fine _ _ _).length, List.length_map]
  · exact flagsOf_iff accepted.fine listed (valid pointer (List.mem_of_getElem? listed))

/-- Values behind an index and behind a wildcard are replaced, and the pointer that
names nothing is not flagged. -/
theorem editJSON_redacts_sample :
    editJSON id (ascii "[\x7b\"a\": 1, \"b\": 2\x7d, \x7b\"b\": 3\x7d]")
        [ascii "/0/a", ascii "/*/b", ascii "/b"] ((some (ascii "x")).map jsonString) =
      some (ascii "[\x7b\"a\": \"x\", \"b\": \"x\"\x7d, \x7b\"b\": \"x\"\x7d]", [true, true, false]) ∧
    ∃ c c', parse (ascii "[\x7b\"a\": 1, \"b\": 2\x7d, \x7b\"b\": 3\x7d]") = some c ∧
      parse (ascii "[\x7b\"a\": \"x\", \"b\": \"x\"\x7d, \x7b\"b\": \"x\"\x7d]") = some c' ∧
      c'.tree = c.tree.redact (some (.scalar (ascii "\"x\"")))
        (hits id ([ascii "/0/a", ascii "/*/b", ascii "/b"].map pointerTokens)) := by
  have edited : editJSON id (ascii "[\x7b\"a\": 1, \"b\": 2\x7d, \x7b\"b\": 3\x7d]")
      [ascii "/0/a", ascii "/*/b", ascii "/b"] ((some (ascii "x")).map jsonString) =
      some (ascii "[\x7b\"a\": \"x\", \"b\": \"x\"\x7d, \x7b\"b\": \"x\"\x7d]", [true, true, false]) := by
    decide +kernel
  obtain ⟨c, c', before, after, tree, _⟩ := editJSON_redacts (by decide) (by decide) edited
  exact ⟨edited, c, c', before, after, tree⟩

end Main

end EdgeObserver.Json
