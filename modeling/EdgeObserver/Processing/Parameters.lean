import EdgeObserver.Processing.Slots

/-!
# Removed parameters

Removing parameters is joining those that are left, and what is left of a body cut
short holds nothing of a removed parameter's value.
-/

set_option autoImplicit false

namespace EdgeObserver.Processing

open Text

def nameOf (piece : Bytes) : Bytes := percentDecode (cut 61 piece).1

def others (names : List Bytes) (pieces : List Bytes) : List Bytes :=
  pieces.filter fun piece => decide (nameOf piece ∉ names)

/-! ## Splitting and joining -/

theorem split_eq (separator : UInt8) (text : Bytes) : split separator text = text.splitOn separator := by
  induction text with
  | nil => rfl
  | cons b rest ih =>
    unfold split List.splitOn
    rw [List.splitOnP_cons_eq_if_modifyHead, ih]
    unfold List.splitOn
    cases pieces : List.splitOnP (· == separator) rest with
    | nil => exact absurd pieces (List.splitOnP_ne_nil _ _)
    | cons piece later => rfl

theorem split_separate (text : Bytes) : ∀ piece ∈ split 38 text, 38 ∉ piece := by
  induction text with
  | nil => simp [split]
  | cons b rest ih =>
    unfold split
    split
    · simpa using ih
    rename_i other
    have apart : ¬ 38 = b := fun same => other (by simp [same])
    split
    · simpa using apart
    · rename_i first later is
      rw [is] at ih
      simpa [apart] using ih

theorem split_ne_nil (text : Bytes) : split 38 text ≠ [] := by
  rw [split_eq]
  exact List.splitOn_ne_nil 38 text

theorem join_split (text : Bytes) : [38].intercalate (split 38 text) = text := by
  rw [split_eq]
  exact List.intercalate_splitOn 38

theorem split_join {pieces : List Bytes} (separate : ∀ piece ∈ pieces, 38 ∉ piece) (some_ : pieces ≠ []) :
    split 38 ([38].intercalate pieces) = pieces := by
  rw [split_eq]
  exact List.splitOn_intercalate 38 separate some_

/-! ## Cutting the removed runs -/

section

variable (names : List Bytes)

def marked (start : Nat) (pieces : List Bytes) : List ((Nat × Nat) × Bool) :=
  (parameters start pieces).zip (pieces.map fun piece => decide (nameOf piece ∈ names))

variable {names} {text : Bytes}

@[simp] theorem marked_cons (start : Nat) (piece : Bytes) (rest : List Bytes) :
    marked names start (piece :: rest) =
      ((start, start + piece.length), decide (nameOf piece ∈ names)) :: marked names (start + piece.length + 1) rest := rfl

theorem drop_next {start : Nat} {piece next : Bytes} {rest : List Bytes}
    (here : text.drop start = [38].intercalate (piece :: next :: rest)) :
    text.drop (start + piece.length + 1) = [38].intercalate (next :: rest) := by
  rw [Nat.add_assoc, ← List.drop_drop, here, List.intercalate_cons_cons]
  simp [List.append_assoc]

theorem next_inside {start : Nat} {piece next : Bytes} {rest : List Bytes} (inside : start ≤ text.length)
    (here : text.drop start = [38].intercalate (piece :: next :: rest)) : start + piece.length + 1 ≤ text.length := by
  have whole := congrArg List.length here
  simp only [List.length_drop, List.intercalate_cons_cons, List.length_append, List.length_singleton] at whole
  omega

/-- The end of the last parameter is the end of the text. -/
theorem marked_last (start : Nat) (pieces : List Bytes) (inside : start ≤ text.length)
    (here : text.drop start = [38].intercalate pieces) (some_ : pieces ≠ []) :
    (marked names start pieces).getLast?.map (·.1.2) = some text.length := by
  induction pieces generalizing start with
  | nil => exact absurd rfl some_
  | cons piece rest ih =>
    cases rest with
    | nil =>
      have whole := congrArg List.length here
      simp only [List.length_drop, List.intercalate_singleton] at whole
      exact congrArg some (by omega : start + piece.length = text.length)
    | cons next rest =>
      have later := ih (start + piece.length + 1) (next_inside inside here) (drop_next here) (by simp)
      rw [marked_cons, marked_cons, List.getLast?_cons_cons, ← marked_cons]
      exact later

variable (names)

/-- A run of removed parameters ends at one that is kept, or with the text. -/
theorem marked_run (start : Nat) (pieces : List Bytes) (inside : start ≤ text.length)
    (here : text.drop start = [38].intercalate pieces) :
    ((marked names start pieces).dropWhile (·.2) = [] ∧ others names pieces = []) ∨
      ∃ next piece rest,
        (marked names start pieces).dropWhile (·.2) = marked names next (piece :: rest) ∧ nameOf piece ∉ names ∧
        next ≤ text.length ∧ text.drop next = [38].intercalate (piece :: rest) ∧
        others names pieces = others names (piece :: rest) ∧ rest.length < pieces.length := by
  induction pieces generalizing start with
  | nil => exact .inl ⟨rfl, rfl⟩
  | cons piece rest ih =>
    by_cases gone : nameOf piece ∈ names
    · have skip : (marked names start (piece :: rest)).dropWhile (·.2) =
          (marked names (start + piece.length + 1) rest).dropWhile (·.2) := by simp [gone]
      have left : others names (piece :: rest) = others names rest := by simp [others, gone]
      rw [skip, left]
      cases rest with
      | nil => exact .inl ⟨rfl, rfl⟩
      | cons next rest =>
        rcases ih (start + piece.length + 1) (next_inside inside here) (drop_next here) with
          none | ⟨at_, kept, later, found, stays, within, there, same, fewer⟩
        · exact .inl none
        · exact .inr ⟨at_, kept, later, found, stays, within, there, same, Nat.lt_succ_of_lt fewer⟩
    · exact .inr ⟨start, piece, rest, by simp [gone], gone, inside, here, rfl, Nat.lt_succ_self _⟩

theorem take_through {at_ start : Nat} (behind : at_ ≤ start) (n : Nat) :
    (text.drop at_).take (start + n - at_) = (text.drop at_).take (start - at_) ++ (text.drop start).take n := by
  rw [show start + n - at_ = start - at_ + n by omega, List.take_add, List.drop_drop, show at_ + (start - at_) = start by omega]

/-- What is written from a parameter on: the text up to it and the parameters left,
or where none is left, the text up to the separator before it. -/
theorem cutRuns_eq (fuel i before at_ start : Nat) (pieces : List Bytes) (enough : pieces.length < fuel)
    (some_ : pieces ≠ []) (inside : start ≤ text.length) (here : text.drop start = [38].intercalate pieces)
    (behind : at_ ≤ start)
    (seam : (∃ piece rest, pieces = piece :: rest ∧ nameOf piece ∉ names) ∨
      if i > 0 then at_ ≤ before ∧ before + 1 = start else at_ = start) :
    cutRuns text fuel i before at_ (marked names start pieces) =
      if others names pieces = [] then (text.drop at_).take ((if i > 0 then before else start) - at_)
      else (text.drop at_).take (start - at_) ++ [38].intercalate (others names pieces) := by
  induction fuel generalizing i before at_ start pieces with
  | zero => omega
  | succ fuel ih =>
    obtain ⟨piece, rest, rfl⟩ := List.exists_cons_of_ne_nil some_
    by_cases gone : nameOf piece ∈ names
    · have left : others names (piece :: rest) = others names rest := by simp [others, gone]
      rw [marked_cons, decide_eq_true gone, left]
      unfold cutRuns
      cases rest with
      | nil =>
        have whole := congrArg List.length here
        simp only [List.length_drop, List.intercalate_singleton] at whole
        have ends : text.drop (start + piece.length) = [] := List.drop_eq_nil_of_le (by omega)
        simp [marked, others, parameters, ends]
      | cons next rest =>
        have within := next_inside inside here
        have here' := drop_next here
        rcases marked_run names _ _ within here' with
          ⟨none, empty⟩ | ⟨at', kept, later, found, stays, inside', there, same, fewer⟩
        · have all := List.takeWhile_append_dropWhile (p := (·.2)) (l := marked names (start + piece.length + 1) (next :: rest))
          rw [none, List.append_nil] at all
          simp only [none, all, marked_last _ _ within here' (by simp), Option.getD_some, List.drop_length, List.append_nil,
            empty, if_true]
        · have goes := ih (i + ((marked names (start + piece.length + 1) (next :: rest)).takeWhile (·.2)).length + 1)
            ((((marked names (start + piece.length + 1) (next :: rest)).takeWhile (·.2)).getLast?.map (·.1.2)).getD
              (start + piece.length)) at' at' (kept :: later) (by simp at fewer enough ⊢; omega) (by simp) inside' there
            le_rfl (.inl ⟨kept, later, rfl, stays⟩)
          have some_ : others names (kept :: later) ≠ [] := by simp [others, stays]
          rw [if_neg some_, Nat.sub_self, List.take_zero, List.nil_append] at goes
          rw [marked_cons at', decide_eq_false stays] at found goes
          simp only [found, goes, same, if_neg some_]
    · have left : others names (piece :: rest) = piece :: others names rest := by simp [others, gone]
      rw [marked_cons, decide_eq_false gone, left, if_neg (by simp)]
      unfold cutRuns
      cases rest with
      | nil =>
        rw [List.intercalate_singleton] at here
        have whole : cutRuns text fuel (i + 1) (start + piece.length) at_ (marked names (start + piece.length + 1) []) =
            text.drop at_ := by
          cases fuel <;> rfl
        rw [whole, show others names [] = [] from rfl, List.intercalate_singleton, ← here,
          show text.drop start = (text.drop at_).drop (start - at_) by
            rw [List.drop_drop, show at_ + (start - at_) = start by omega], List.take_append_drop]
      | cons next rest =>
        have here' := drop_next here
        rw [ih (i + 1) (start + piece.length) at_ (start + piece.length + 1) (next :: rest) (by simpa using enough)
          (by simp) (next_inside inside here) here' (by omega) (.inr (by rw [if_pos (by omega)]; omega))]
        rw [List.intercalate_cons_cons] at here
        split
        · rename_i none
          rw [none, List.intercalate_singleton, if_pos (by omega), take_through behind, here]
          simp [List.append_assoc]
        · rename_i some_
          obtain ⟨first, others_, is⟩ := List.exists_cons_of_ne_nil some_
          rw [is, List.intercalate_cons_cons, Nat.add_assoc, take_through behind, here]
          simp [List.append_assoc, List.take_append]

end

theorem removeParameters_eq (text : Bytes) (names : List Bytes) :
    (removeParameters text names).map (·.1) =
      if malformedEscape text then none else some ([38].intercalate (others names (split 38 text))) := by
  unfold removeParameters
  split
  · rfl
  have matched_nil : ∀ (found out : List Bytes),
      found.foldl (fun out name => if name ∈ out then out else out ++ [name]) out = [] ↔ found = [] ∧ out = [] := by
    intro found
    induction found with
    | nil => simp
    | cons name rest ih =>
      intro out
      rw [List.foldl_cons, ih]
      constructor
      · rintro ⟨-, empty⟩
        split at empty
        · rename_i member
          simp [empty] at member
        · simp at empty
      · rintro ⟨none, -⟩
        cases none
  simp only [matched_nil, and_true]
  split
  · rename_i none
    have all : others names (split 38 text) = split 38 text := by
      refine List.filter_eq_self.mpr fun piece member => ?_
      simp only [List.flatMap_eq_nil_iff, List.mem_map, List.filter_eq_nil_iff] at none
      simp only [decide_eq_true_eq]
      intro named
      exact none _ ⟨piece, member, rfl⟩ _ named (by simp [nameOf])
    rw [all, join_split]
    rfl
  · have cuts := cutRuns_eq names ((split 38 text).length + 1) 0 0 0 0 (split 38 text)
      (Nat.lt_succ_self _) (split_ne_nil text) (Nat.zero_le _) (join_split text).symm le_rfl (.inr rfl)
    simp only [Option.map_some, Option.some.injEq, List.map_map]
    refine Eq.trans ?_ (cuts.trans ?_)
    · rfl
    · split
      · rename_i none
        simp [none]
      · simp

/-! ## Escapes -/

theorem malformedEscape_iff (text : Bytes) :
    malformedEscape text = true ↔ ∃ before after, text = before ++ 37 :: after ∧
      ¬ ∃ a b rest, after = a :: b :: rest ∧ isHex a = true ∧ isHex b = true := by
  induction text with
  | nil => simp [malformedEscape]
  | cons c rest ih =>
    unfold malformedEscape
    rw [Bool.or_eq_true, ih]
    constructor
    · rintro (here | ⟨before, after, rfl, bad⟩)
      · simp only [Bool.and_eq_true, beq_iff_eq, Bool.not_eq_true'] at here
        refine ⟨[], rest, by rw [here.1]; rfl, ?_⟩
        rintro ⟨a, b, later, rfl, first, second⟩
        simp [first, second] at here
      · exact ⟨c :: before, after, rfl, bad⟩
    · rintro ⟨before, after, is, bad⟩
      cases before with
      | nil =>
        left
        cases is
        simp only [beq_self_eq_true, Bool.true_and, Bool.not_eq_true']
        split
        · rename_i a b later
          by_contra good
          simp only [Bool.not_eq_false, Bool.and_eq_true] at good
          exact bad ⟨a, b, later, rfl, good.1, good.2⟩
        · rfl
      | cons first before =>
        cases is
        exact .inr ⟨before, after, rfl, bad⟩

/-- A separator is no part of an escape. -/
theorem malformedEscape_append (left right : Bytes) :
    malformedEscape (left ++ 38 :: right) = (malformedEscape left || malformedEscape right) := by
  induction left with
  | nil => simp [malformedEscape]
  | cons c rest ih =>
    have hex : isHex 38 = false := by decide
    rw [List.cons_append]
    generalize malformedEscape right = bad at ih ⊢
    unfold malformedEscape
    rw [ih]
    match rest with
    | [] => cases right <;> simp [hex, Bool.or_assoc]
    | [a] => simp [hex, Bool.or_assoc]
    | a :: b :: later => simp [Bool.or_assoc]

theorem malformedEscape_join (pieces : List Bytes) :
    malformedEscape ([38].intercalate pieces) = pieces.any malformedEscape := by
  induction pieces with
  | nil => rfl
  | cons piece rest ih =>
    cases rest with
    | nil => simp
    | cons next rest =>
      rw [List.intercalate_cons_cons, List.append_assoc, List.singleton_append, malformedEscape_append, ih]
      rfl

/-! ## A body cut short -/

/-- Splitting a text cut short splits off the same parameters, the last cut short. -/
theorem split_append (text more : Bytes) :
    ∃ first last head tail, split 38 text = first ++ [last] ∧ split 38 (text ++ more) = first ++ (last ++ head) :: tail := by
  induction text with
  | nil =>
    obtain ⟨head, tail, is⟩ := List.exists_cons_of_ne_nil (split_ne_nil more)
    exact ⟨[], [], head, tail, rfl, is⟩
  | cons b rest ih =>
    obtain ⟨first, last, head, tail, cut, whole⟩ := ih
    rw [List.cons_append]
    unfold split
    rw [cut, whole]
    split
    · exact ⟨[] :: first, last, head, tail, rfl, rfl⟩
    · cases first with
      | nil => exact ⟨[], b :: last, head, tail, rfl, rfl⟩
      | cons piece first => exact ⟨(b :: piece) :: first, last, head, tail, rfl, rfl⟩

theorem cut_name (separator : UInt8) (piece : Bytes) : (cut separator piece).1 = piece.takeWhile (· != separator) := by
  unfold cut
  split
  · rename_i none
    have all := List.takeWhile_append_dropWhile (p := (· != separator)) (l := piece)
    rw [none, List.append_nil] at all
    exact all.symm
  · rfl

/-- A parameter left of a text cut short, where the whole of it is removed, was cut
within its name. -/
theorem left_within_name {names : List Bytes} {text more : Bytes} {k : Nat} {piece whole : Bytes}
    (left : (split 38 text)[k]? = some piece) (kept : nameOf piece ∉ names)
    (at_ : (split 38 (text ++ more))[k]? = some whole) (removed : nameOf whole ∈ names) :
    piece <+: (cut 61 whole).1 := by
  obtain ⟨first, last, head, tail, cutShort, full⟩ := split_append text more
  rw [cutShort] at left
  rw [full] at at_
  rcases Nat.lt_trichotomy k first.length with before | rfl | after
  · rw [List.getElem?_append_left before] at left at_
    cases left.symm.trans at_
    exact absurd removed kept
  · simp only [List.getElem?_concat_length, Option.some.injEq] at left
    simp only [List.getElem?_append_right le_rfl, Nat.sub_self, List.getElem?_cons_zero, Option.some.injEq] at at_
    subst left at_
    rw [cut_name]
    by_cases named : 61 ∈ last
    · have same : (cut 61 (last ++ head)).1 = (cut 61 last).1 := by
        rw [cut_name, cut_name, List.takeWhile_append, if_neg]
        intro all
        have := List.takeWhile_eq_self_iff.mp ((List.takeWhile_prefix _).eq_of_length all) 61 named
        simp at this
      exact absurd (by unfold nameOf at *; rwa [same] at removed) kept
    · have all : last.takeWhile (· != 61) = last := List.takeWhile_eq_self_iff.mpr fun b member => by
        simpa using fun same : b = 61 => named (same ▸ member)
      rw [List.takeWhile_append, all, if_pos rfl]
      exact List.prefix_append last _
  · rw [List.getElem?_eq_none (by simp; omega)] at left
    cases left

/-! ## The grammar of an admitted form -/

theorem toLower_append (lead rest : Bytes) (plain : ∀ b ∈ lead, b < 128) :
    toLower (lead ++ rest) = lead.map lowerByte ++ toLower rest := by
  induction lead with
  | nil => rfl
  | cons b lead ih =>
    have small := plain b List.mem_cons_self
    have one : toLower (b :: (lead ++ rest)) = lowerByte b :: toLower (lead ++ rest) := by
      rw [toLower]
      · rintro _ rfl
        exact absurd small (by decide)
      · rintro _ rfl
        exact absurd small (by decide)
    rw [List.cons_append, one, ih fun b member => plain b (List.mem_cons_of_mem _ member)]
    rfl

/-- Text that folds to ASCII without k or s is ASCII. -/
theorem plain_of_foldCase (text : Bytes) (plain : ∀ b ∈ foldCase text, b < 128 ∧ b ≠ 107 ∧ b ≠ 115) :
    text.map lowerByte = foldCase text ∧ ∀ b ∈ text, b < 128 := by
  fun_induction foldCase text with
  | case1 rest ih | case2 rest ih => simp at plain
  | case3 b rest _ _ ih =>
    simp only [List.mem_cons, forall_eq_or_imp] at plain
    obtain ⟨same, small⟩ := ih plain.2
    refine ⟨by rw [List.map_cons, same], ?_⟩
    have low : b < 128 := by
      have lower := plain.1.1
      unfold lowerByte at lower
      split at lower
      · rename_i capital
        exact UInt8.lt_of_le_of_lt capital.2 (by decide)
      · exact lower
    simpa using ⟨low, small⟩
  | case4 => simp

theorem contains_within (part before after : Bytes) : containsText part (before ++ part ++ after) = true := by
  induction before with
  | nil =>
    cases both : ([] ++ part ++ after : Bytes) with
    | nil =>
      have : part = [] := by simp_all
      simp [containsText, this]
    | cons b rest =>
      have inside : part <+: b :: rest := both ▸ ⟨after, rfl⟩
      simp [containsText, inside]
  | cons b before ih => simp_all [containsText]

theorem trimBlanks_inside (text : Bytes) :
    ∃ lead trail, text = lead ++ trimBlanks text ++ trail ∧ ∀ b ∈ lead, b < 128 := by
  unfold trimBlanks
  simp only
  generalize is : (fun b : UInt8 => b == space || b == tab) = blank
  refine ⟨text.takeWhile blank, ((text.dropWhile blank).reverse.takeWhile blank).reverse, ?_, fun b member => ?_⟩
  · rw [List.append_assoc, ← List.reverse_append, List.takeWhile_append_dropWhile, List.reverse_reverse,
      List.takeWhile_append_dropWhile]
  · have blank_ := List.mem_takeWhile_imp member
    rw [← is] at blank_
    rcases Bool.or_eq_true_iff.mp blank_ with is | is <;> rw [beq_iff_eq.mp is] <;> decide

/-- A request admitted as a form names a form media type, so that its body never goes
to the JSON rules. -/
theorem admittedForm_names {m : Http1.Message} (admitted : admittedForm m = true) : namesFormMediaType m = true := by
  unfold admittedForm at admitted
  split at admitted
  · rename_i value only
    simp only [equalFold, beq_iff_eq] at admitted
    have form : foldCase (ascii "application/x-www-form-urlencoded") = ascii "application/x-www-form-urlencoded" := by
      decide +kernel
    have letters : ∀ b ∈ ascii "application/x-www-form-urlencoded", b < 128 ∧ b ≠ 107 ∧ b ≠ 115 := by decide +kernel
    obtain ⟨lead, trail, is, blanks⟩ := trimBlanks_inside (cut 59 value).1
    obtain ⟨lowered, plain⟩ := plain_of_foldCase (trimBlanks (cut 59 value).1) (by rw [admitted, form]; exact letters)
    generalize trimBlanks (cut 59 value).1 = media at *
    have whole : value = (lead ++ media) ++ (trail ++ value.dropWhile (· != 59)) := by
      have parts := List.takeWhile_append_dropWhile (p := (· != 59)) (l := value)
      rw [← cut_name, is] at parts
      simpa [List.append_assoc] using parts.symm
    have lower : toLower value = lead.map lowerByte ++ ascii "application/x-www-form-urlencoded" ++
        toLower (trail ++ value.dropWhile (· != 59)) := by
      rw [whole, toLower_append _ _ (fun b member => (List.mem_append.mp member).elim (blanks b) (plain b)), ← whole,
        List.map_append, lowered, admitted, form]
    simp only [namesFormMediaType, only, List.any_cons, List.any_nil, Bool.or_false, Bool.or_eq_true]
    exact .inl (lower ▸ contains_within _ _ _)
  · cases admitted

section

variable {Shape : Type} (reads : Reads Shape)

theorem add_exchange (r : SlotRun Shape) (entry : PolicyExclusion) : (r.add entry).exchange = r.exchange := by
  unfold SlotRun.add
  split <;> rfl

theorem removeBody_body (r : SlotRun Shape) (m : Message Shape) (disposition : Disposition) :
    ((r.removeBody .request m disposition).exchange.request.map (·.message.body)) = some [] := by
  unfold SlotRun.removeBody
  rw [add_exchange]
  rfl

theorem spliced_body (r : SlotRun Shape) (m : Message Shape) (body : Bytes) (matched : List Bytes) (before : Bytes)
    (holds : r.exchange.request = some m) :
    ((r.spliced reads .request m body matched before).exchange.request.map (·.message.body)) = some body := by
  have kept : ∀ r : SlotRun Shape, r.exchange.request = some m →
      (matched.foldl (fun r selector => r.add { message := .request, field := before ++ selector }) r).exchange.request =
        some m := by
    induction matched with
    | nil => exact fun r holds => holds
    | cons selector rest ih =>
      exact fun r holds => ih _ (by rw [add_exchange, holds])
  unfold SlotRun.spliced
  simp only
  split
  · rename_i same
    rw [kept r holds, same]
    rfl
  · split <;> rfl

/-- What is left of the body of a request admitted as a form. -/
theorem requestBody_form (r : SlotRun Shape) (m : Message Shape) (parsed : Http1.Message) (a : Config.Arguments)
    (admitted : admittedForm parsed = true) (holds : r.exchange.request = some m) :
    ((r.requestBody reads m parsed a).exchange.request.map (·.message.body)) = some [] ∨
      ((r.requestBody reads m parsed a).exchange.request.map (·.message.body)) =
        some ([38].intercalate (others a.names (split 38 m.message.body))) := by
  unfold SlotRun.requestBody
  simp only [admittedForm_names admitted, Bool.true_eq_false, and_false, if_false]
  split
  · unfold SlotRun.editForm
    have cuts := removeParameters_eq m.message.body a.names
    cases made : removeParameters m.message.body a.names with
    | none => exact .inl (removeBody_body r m _)
    | some out =>
      obtain ⟨body, matched⟩ := out
      rw [made] at cuts
      split at cuts
      · cases cuts
      · obtain rfl : body = _ := Option.some.inj cuts
        exact .inr (spliced_body reads r m _ matched _ holds)
  · exact .inl (removeBody_body r m _)

end

/-- Removing parameters joins those whose decoded name is not listed, in order and
byte for byte, is idempotent, and is undecidable where an escape is malformed. And
what is left of an admitted form cut short is nothing, or those of its parameters;
one of these that is listed in the whole form was cut within its name. -/
theorem parameters_removed (text : Bytes) (names : List Bytes) :
    (removeParameters text names = none ↔ ∃ before after, text = before ++ 37 :: after ∧
      ¬ ∃ a b rest, after = a :: b :: rest ∧ isHex a = true ∧ isHex b = true) ∧
    (∀ kept matched, removeParameters text names = some (kept, matched) →
      kept = [38].intercalate (others names (split 38 text)) ∧
      (removeParameters kept names).map (·.1) = some kept) ∧
    (∀ {Shape : Type} (reads : Reads Shape) (r : SlotRun Shape) (m : Message Shape) (parsed : Http1.Message)
      (a : Config.Arguments) (more : Bytes), admittedForm parsed = true → r.exchange.request = some m →
      m.message.body = text → a.names = names →
      let left := (r.requestBody reads m parsed a).exchange.request.map (·.message.body)
      (left = some [] ∨ left = some ([38].intercalate (others names (split 38 text)))) ∧
      ∀ (k : Nat) (piece whole : Bytes), (split 38 text)[k]? = some piece → nameOf piece ∉ names →
        (split 38 (text ++ more))[k]? = some whole → nameOf whole ∈ names → piece <+: (cut 61 whole).1) := by
  have cuts := removeParameters_eq text names
  refine ⟨?_, fun kept matched made => ?_, fun reads r m parsed a more admitted holds body named => ⟨?_, ?_⟩⟩
  · rw [← malformedEscape_iff, ← Option.map_eq_none_iff (f := (·.1)), cuts]
    split <;> simp_all
  · rw [made] at cuts
    split at cuts
    · cases cuts
    rename_i whole
    obtain rfl : kept = [38].intercalate (others names (split 38 text)) := Option.some.inj cuts
    refine ⟨rfl, ?_⟩
    have pieces : (split 38 text).any malformedEscape = false := by
      rw [← malformedEscape_join, join_split]
      simpa using whole
    have fine : malformedEscape ([38].intercalate (others names (split 38 text))) = false := by
      rw [malformedEscape_join, List.any_eq_false]
      exact fun piece member => List.any_eq_false.mp pieces piece (List.mem_of_mem_filter member)
    rw [removeParameters_eq, fine, if_neg (by simp)]
    by_cases none : others names (split 38 text) = []
    · -- Nothing is left, and whether the empty parameter is listed or not, nothing is.
      rw [none]
      simp only [others, split, List.intercalate_nil, List.filter_cons, List.filter_nil, Option.some.injEq]
      split <;> rfl
    · have separate : ∀ piece ∈ others names (split 38 text), 38 ∉ piece :=
        fun piece member => split_separate text piece (List.mem_of_mem_filter member)
      rw [split_join separate none]
      simp [others]
  · rw [← body, ← named]
    exact requestBody_form reads r m parsed a admitted holds
  · exact fun k piece whole left kept at_ removed => left_within_name left kept at_ removed

theorem parameters_removed_middle :
    removeParameters (ascii "b=2&%61=1&c=3") [ascii "a"] = some (ascii "b=2&c=3", [ascii "a"]) ∧
    (removeParameters (ascii "b=2&c=3") [ascii "a"]).map (·.1) = some (ascii "b=2&c=3") :=
  have made : removeParameters (ascii "b=2&%61=1&c=3") [ascii "a"] = some (ascii "b=2&c=3", [ascii "a"]) := by
    decide +kernel
  ⟨made, ((parameters_removed (ascii "b=2&%61=1&c=3") [ascii "a"]).2.1 _ _ made).2⟩

end EdgeObserver.Processing
