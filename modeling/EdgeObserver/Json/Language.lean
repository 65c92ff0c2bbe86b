import EdgeObserver.Json.EditJson

/-!
# The texts the editor reads

The JSON texts of RFC 8259 in valid UTF-8, without a byte order mark and without
unpaired surrogates, within the bounds on levels and values. No other text is
edited.
-/

set_option autoImplicit false

namespace EdgeObserver.Json

open Config (validUtf8 validPointer)

inductive Label.Grammatical : Bool → Label → Prop where
  | element : Grammatical false .element
  | member {glyphs : List Glyph} {before after : Bytes} (fine : ∀ g ∈ glyphs, g.Fine)
      (before_spaces : Spaces before) (after_spaces : Spaces after) :
      Grammatical true (.member (written glyphs) (decode glyphs) before after)

inductive Written.Grammatical : Written → Prop where
  | scalar {b : Bytes} (is : IsString b ∨ IsNumber b ∨ IsLiteral b) : Grammatical (.scalar b)
  | container {object : Bool} {blank : Bytes} {items : List (Item Written)}
      (blank_spaces : Spaces blank) (only : items ≠ [] → blank = [])
      (leads : ∀ item ∈ items, Spaces item.lead) (trails : ∀ item ∈ items, Spaces item.trail)
      (labels : ∀ item ∈ items, item.label.Grammatical object)
      (values : ∀ item ∈ items, item.value.Grammatical) :
      Grammatical (.container object blank items)

mutual

def Written.levels : Written → Nat
  | .scalar _ => 1
  | .container _ _ items => levelsOf items + 1

def levelsOf : List (Item Written) → Nat
  | [] => 0
  | ⟨_, _, value, _⟩ :: rest => max value.levels (levelsOf rest)

end

mutual

def Written.tokens : Written → List Bytes
  | .scalar b => [b]
  | .container _ _ items => tokensOf items

def tokensOf : List (Item Written) → List Bytes
  | [] => []
  | ⟨_, .element, value, _⟩ :: rest => value.tokens ++ tokensOf rest
  | ⟨_, .member raw _ _ _, value, _⟩ :: rest => raw :: (value.tokens ++ tokensOf rest)

end

def Paired (tokens : List Bytes) : Prop :=
  ∀ token ∈ tokens, ∀ glyphs : List Glyph, (∀ g ∈ glyphs, g.Fine) → token = written glyphs → paired glyphs = true

structure IsText (body : Bytes) : Prop where
  derived : ∃ (lead : Bytes) (c : Written) (tail : Bytes), body = lead ++ (c.text ++ tail) ∧
    Spaces lead ∧ Spaces tail ∧ c.Grammatical ∧ Paired c.tokens ∧
    c.levels ≤ maxJSONFieldDepth ∧ c.size ≤ maxJSONFieldNodes
  encoded : validUtf8 body = true
  unmarked : ¬ bom <+: body

section Tokens

theorem written_inj {these those : List Glyph} (fine : ∀ g ∈ these, g.Fine)
    (fine' : ∀ g ∈ those, g.Fine) (same : written these = written those) : these = those :=
  glyphs_unique fine fine' (List.cons.inj same).2

theorem mem_levelsOf {items : List (Item Written)} {left : Nat} :
    levelsOf items ≤ left ↔ ∀ item ∈ items, item.value.levels ≤ left := by
  induction items with
  | nil => simp [levelsOf]
  | cons item rest ih =>
    obtain ⟨lead, label, value, trail⟩ := item
    rw [levelsOf, Nat.max_le, ih, List.forall_mem_cons]

theorem paired_cons_token {b : Bytes} {tokens : List Bytes} :
    Paired (b :: tokens) ↔ Paired [b] ∧ Paired tokens := by
  simp only [Paired, List.forall_mem_cons, List.not_mem_nil, false_implies, implies_true, and_true]

theorem paired_append {these those : List Bytes} :
    Paired (these ++ those) ↔ Paired these ∧ Paired those := by
  induction these with
  | nil => simp [Paired]
  | cons b rest ih =>
    rw [List.cons_append, paired_cons_token, ih, ← and_assoc, ← paired_cons_token]

def Label.Paired : Label → Prop
  | .element => True
  | .member raw _ _ _ => Json.Paired [raw]

theorem paired_tokensOf {items : List (Item Written)} :
    Paired (tokensOf items) ↔ ∀ item ∈ items, item.label.Paired ∧ Paired item.value.tokens := by
  induction items with
  | nil => simp [tokensOf, Paired]
  | cons item rest ih =>
    obtain ⟨lead, label, value, trail⟩ := item
    rw [List.forall_mem_cons, ← ih]
    cases label with
    | element =>
      rw [tokensOf, paired_append]
      simp [Label.Paired]
    | member raw name before after =>
      rw [tokensOf, paired_cons_token, paired_append, and_assoc]
      rfl

theorem paired_written {glyphs : List Glyph} (fine : ∀ g ∈ glyphs, g.Fine) :
    Paired [written glyphs] ↔ paired glyphs = true := by
  constructor
  · intro pairs
    exact pairs _ (List.mem_singleton.mpr rfl) glyphs fine rfl
  · intro pairs token listed others fine' same
    rw [List.mem_singleton.mp listed] at same
    rw [← written_inj fine fine' same, pairs]

theorem paired_other {c : UInt8} {rest : Bytes} (other : c ≠ quote) : Paired [c :: rest] := by
  intro token listed glyphs _ same
  rw [List.mem_singleton.mp listed] at same
  exact absurd (List.cons.inj same).1 other

theorem isScalar_iff {b : Bytes} :
    IsScalar b ↔ (IsString b ∨ IsNumber b ∨ IsLiteral b) ∧ Paired [b] := by
  constructor
  · rintro (⟨glyphs, fine, pairs, rfl⟩ | number | literal)
    · exact ⟨.inl ⟨glyphs, fine, rfl⟩, (paired_written fine).mpr pairs⟩
    · obtain ⟨c, rest, rfl, other, _⟩ := number.head
      exact ⟨.inr (.inl number), paired_other other⟩
    · obtain ⟨c, rest, rfl, other, _⟩ := literal.head
      exact ⟨.inr (.inr literal), paired_other other⟩
  · rintro ⟨⟨glyphs, fine, rfl⟩ | number | literal, pairs⟩
    · exact .inl ⟨glyphs, fine, (paired_written fine).mp pairs, rfl⟩
    · exact .inr (.inl number)
    · exact .inr (.inr literal)

theorem readsScalar_iff {b : Bytes} : ReadsScalar b ↔ IsScalar b := by
  constructor
  · rintro ⟨_, reads⟩
    have read := reads [] (by simp [Follows])
    rw [List.append_nil] at read
    obtain ⟨used, is, same⟩ := scalar_sound read
    rw [same, List.append_nil]
    exact is
  · intro is
    exact ⟨is.ne_nil, fun x => scalar_complete is⟩

theorem label_iff {object : Bool} {label : Label} :
    label.Fine object ↔ label.Grammatical object ∧ label.Paired := by
  constructor
  · intro fine
    cases fine with
    | element => exact ⟨.element, trivial⟩
    | member before_spaces after_spaces reads =>
      rename_i used name before after
      have read := reads []
      rw [List.append_nil] at read
      obtain ⟨raw, ⟨glyphs, fine, pairs, rfl⟩, same⟩ := text_sound read
      rw [List.append_nil] at same
      have decoded := text_written fine pairs []
      rw [List.append_nil, ← same, read] at decoded
      cases decoded
      rw [same]
      exact ⟨.member fine before_spaces after_spaces, (paired_written fine).mpr pairs⟩
  · rintro ⟨grammatical, pairs⟩
    cases grammatical with
    | element => exact .element
    | member fine before_spaces after_spaces =>
      exact .member before_spaces after_spaces (text_written fine ((paired_written fine).mp pairs))

theorem Written.fine_iff {left : Nat} {c : Written} :
    c.Fine left ↔ c.Grammatical ∧ Paired c.tokens ∧ c.levels ≤ left := by
  induction c using Written.induct generalizing left with
  | scalar b =>
    rw [Written.tokens, Written.levels]
    constructor
    · intro fine
      cases fine with
      | scalar reads =>
        obtain ⟨is, pairs⟩ := isScalar_iff.mp (readsScalar_iff.mp reads)
        exact ⟨.scalar is, pairs, Nat.succ_le_succ (Nat.zero_le _)⟩
    · rintro ⟨grammatical, pairs, deep⟩
      cases grammatical with
      | scalar is =>
        cases left with
        | zero => cases deep
        | succ left => exact .scalar (readsScalar_iff.mpr (isScalar_iff.mpr ⟨is, pairs⟩))
  | container object blank items ih =>
    rw [Written.tokens, Written.levels, paired_tokensOf]
    constructor
    · intro fine
      cases fine with
      | container spaces only around values =>
        have labels := fun item listed => label_iff.mp (around item listed).label
        have inner := fun item listed => (ih item listed).mp (values item listed)
        refine ⟨.container spaces only (fun item listed => (around item listed).lead)
          (fun item listed => (around item listed).trail) (fun item listed => (labels item listed).1)
          (fun item listed => (inner item listed).1), fun item listed => ?_, ?_⟩
        · exact ⟨(labels item listed).2, (inner item listed).2.1⟩
        · exact Nat.succ_le_succ (mem_levelsOf.mpr fun item listed => (inner item listed).2.2)
    · rintro ⟨grammatical, pairs, deep⟩
      cases grammatical with
      | container spaces only leads trails labels values =>
        cases left with
        | zero => cases deep
        | succ left =>
          have levels := mem_levelsOf.mp (Nat.le_of_succ_le_succ deep)
          refine .container spaces only (fun item listed => ?_) fun item listed => ?_
          · exact ⟨leads item listed, label_iff.mpr ⟨labels item listed, (pairs item listed).1⟩, trails item listed⟩
          · exact (ih item listed).mpr ⟨values item listed, (pairs item listed).2, levels item listed⟩

end Tokens

section Language

variable {body : Bytes}

theorem Accepted.isText {lead tail : Bytes} {c : Written} (is : Accepted body lead c tail) :
    IsText body := by
  obtain ⟨grammatical, pairs, deep⟩ := Written.fine_iff.mp is.fine
  exact ⟨⟨lead, c, tail, is.whole, is.lead_spaces, is.tail_spaces, grammatical, pairs, deep, is.few⟩,
    is.valid, is.unmarked⟩

theorem IsText.accepted (is : IsText body) : ∃ lead c tail, Accepted body lead c tail := by
  obtain ⟨⟨lead, c, tail, whole, lead_spaces, tail_spaces, grammatical, pairs, deep, few⟩, encoded, _⟩ := is
  have fine : c.Fine maxJSONFieldDepth := Written.fine_iff.mpr ⟨grammatical, pairs, deep⟩
  refine ⟨lead, c, tail, whole, lead_spaces, tail_spaces, fine, few, ?_⟩
  rw [whole, body_valid fine lead_spaces tail_spaces] at encoded
  exact (Written.valid_iff fine).mp encoded

/-- The editor reads exactly the texts it is meant for, whatever it is asked to
edit, and returns nothing for any other. -/
theorem editJSON_reads (fold : Bytes → Bytes) (body : Bytes) (pointers : List Bytes)
    (replacement : Option Bytes) (_ : ∀ pointer ∈ pointers, validPointer pointer = .ok ()) :
    ((∃ result, editJSON fold body pointers replacement = some result) ↔ IsText body) ∧
    (¬ IsText body → editJSON fold body pointers replacement = none) := by
  have reads : (∃ result, editJSON fold body pointers replacement = some result) ↔ IsText body := by
    constructor
    · rintro ⟨result, is⟩
      obtain ⟨lead, c, tail, accepted⟩ := accepted_of_editJSON is
      exact accepted.isText
    · intro is
      obtain ⟨lead, c, tail, accepted⟩ := is.accepted
      exact ⟨_, accepted.editJSON_eq⟩
  refine ⟨reads, fun other => ?_⟩
  cases is : editJSON fold body pointers replacement with
  | none => rfl
  | some result => exact absurd (reads.mp ⟨result, is⟩) other

/-- A nested text with an escaped surrogate pair is read, and one with half a pair
is not. -/
theorem editJSON_reads_pairs :
    IsText (ascii "[\"\\ud83d\\ude00\", -1.5e+3]") ∧ ¬ IsText (ascii "[\"\\ud83d\", -1.5e+3]") := by
  have valid : ∀ pointer ∈ [ascii "/0"], validPointer pointer = .ok () := by decide
  refine ⟨(editJSON_reads id _ [ascii "/0"] none valid).1.mp ⟨(ascii "[-1.5e+3]", [true]), ?_⟩, fun is => ?_⟩
  · decide +kernel
  · obtain ⟨result, read⟩ := (editJSON_reads id _ [ascii "/0"] none valid).1.mpr is
    have unread : editJSON id (ascii "[\"\\ud83d\", -1.5e+3]") [ascii "/0"] none = none := by
      decide +kernel
    rw [unread] at read
    cases read

end Language

end EdgeObserver.Json
