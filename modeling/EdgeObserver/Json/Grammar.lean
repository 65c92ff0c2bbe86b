import EdgeObserver.Json.Lexical

/-!
# The grammar of strings, numbers and literals

The tokens of a JSON text by the rules of RFC 8259, and that the readers take
exactly these: a token is what is read, and is read wherever a token may end.
-/

set_option autoImplicit false

namespace EdgeObserver.Json

open Text (isDigit)

section Strings

inductive Glyph where
  | plain (b : UInt8)
  | escape (letter : UInt8)
  | unicode (a b c d : UInt8)

def isHex (b : UInt8) : Bool :=
  isDigit b || (decide (65 ≤ b) && decide (b ≤ 70)) || (decide (97 ≤ b) && decide (b ≤ 102))

namespace Glyph

def text : Glyph → Bytes
  | .plain b => [b]
  | .escape letter => [backslash, letter]
  | .unicode a b c d => [backslash, 117, a, b, c, d]

def Fine : Glyph → Prop
  | .plain b => 0x20 ≤ b ∧ b ≠ quote ∧ b ≠ backslash
  | .escape letter => letter ∈ ascii "\"\\/bfnrt"
  | .unicode a b c d => isHex a ∧ isHex b ∧ isHex c ∧ isHex d

def unit : Glyph → Option Nat
  | .unicode a b c d => hex4 a b c d
  | _ => none

def isHigh (g : Glyph) : Bool := g.unit.any (fun r => decide (0xd800 ≤ r ∧ r < 0xdc00))
def isLow (g : Glyph) : Bool := g.unit.any (fun r => decide (0xdc00 ≤ r ∧ r ≤ 0xdfff))

end Glyph

def paired : List Glyph → Bool
  | [] => true
  | [g] => !g.isHigh && !g.isLow
  | g :: next :: rest =>
    if g.isHigh then next.isLow && paired rest
    else !g.isLow && paired (next :: rest)

def Glyph.stands : Glyph → Bytes
  | .plain b => [b]
  | .escape letter => (simpleEscape letter).toList
  | .unicode a b c d => encodeRune ((hex4 a b c d).getD 0)

def decode : List Glyph → Bytes
  | [] => []
  | [g] => g.stands
  | g :: next :: rest =>
    if g.isHigh then encodeRune (decodeRune (g.unit.getD 0) (next.unit.getD 0)) ++ decode rest
    else g.stands ++ decode (next :: rest)

def written (glyphs : List Glyph) : Bytes := quote :: (glyphs.flatMap Glyph.text ++ [quote])

def IsString (b : Bytes) : Prop := ∃ glyphs : List Glyph, (∀ g ∈ glyphs, g.Fine) ∧ b = written glyphs

def IsPairedString (b : Bytes) : Prop :=
  ∃ glyphs : List Glyph, (∀ g ∈ glyphs, g.Fine) ∧ paired glyphs = true ∧ b = written glyphs

theorem digitValue_isSome : ∀ b : UInt8, isHex b = true →
    ∃ v, Text.digitValue b = some v ∧ v < 16 := by
  have checked : ∀ n : Fin 256, isHex (UInt8.ofFin n) = true →
      ((Text.digitValue (UInt8.ofFin n)).any (fun v => decide (v < 16))) = true := by
    decide +kernel
  intro b hex
  have is := checked b.toFin hex
  cases found : Text.digitValue b with
  | none =>
    have none_ : Text.digitValue (UInt8.ofFin b.toFin) = none := found
    rw [none_] at is
    cases is
  | some v =>
    have some_ : Text.digitValue (UInt8.ofFin b.toFin) = some v := found
    rw [some_] at is
    exact ⟨v, rfl, by simpa using is⟩

theorem isHex_of_digitValue : ∀ b : UInt8, ∀ v, Text.digitValue b = some v → isHex b = true := by
  have checked : ∀ n : Fin 256, (Text.digitValue (UInt8.ofFin n)).isSome = true →
      isHex (UInt8.ofFin n) = true := by
    decide +kernel
  intro b v found
  refine checked b.toFin ?_
  have same : Text.digitValue (UInt8.ofFin b.toFin) = some v := found
  rw [same]
  rfl

variable {b name r x y : Bytes} {g : Glyph} {glyphs : List Glyph} {value : Nat} {a c d letter : UInt8}

theorem numeral_isSome (hex : ∀ c ∈ b, isHex c = true) :
    ∃ v, Text.numeral 16 value b = some v := by
  induction b generalizing value with
  | nil => exact ⟨value, rfl⟩
  | cons c b ih =>
    obtain ⟨v, found, small⟩ := digitValue_isSome c (hex c List.mem_cons_self)
    simp only [Text.numeral, found, if_pos small]
    exact ih fun d listed => hex d (List.mem_cons_of_mem _ listed)

theorem isHex_of_numeral {v : Nat} (is : Text.numeral 16 value b = some v) :
    ∀ c ∈ b, isHex c = true := by
  induction b generalizing value with
  | nil => simp
  | cons c b ih =>
    unfold Text.numeral at is
    split at is
    · rename_i digit found
      split at is
      · intro d listed
        rcases List.mem_cons.mp listed with rfl | later
        · exact isHex_of_digitValue d digit found
        · exact ih is d later
      · cases is
    · cases is

theorem hex4_isSome {b : UInt8} :
    (isHex a ∧ isHex b ∧ isHex c ∧ isHex d) ↔ ∃ r, hex4 a b c d = some r := by
  constructor
  · rintro ⟨ha, hb, hc, hd⟩
    refine numeral_isSome fun x listed => ?_
    simp only [List.mem_cons, List.not_mem_nil, or_false] at listed
    rcases listed with rfl | rfl | rfl | rfl <;> assumption
  · rintro ⟨r, is⟩
    have all := isHex_of_numeral is
    exact ⟨all a (by simp), all b (by simp), all c (by simp), all d (by simp)⟩

theorem paired_cons (single : g.isHigh = false ∧ g.isLow = false) (rest : List Glyph) :
    paired (g :: rest) = paired rest := by
  cases rest <;> simp [paired, single.1, single.2]

theorem simpleEscape_iff :
    letter ∈ ascii "\"\\/bfnrt" ↔ ∃ b, simpleEscape letter = some b := by
  have checked : ∀ n : Fin 256, (UInt8.ofFin n ∈ ascii "\"\\/bfnrt") ↔
      (simpleEscape (UInt8.ofFin n)).isSome = true := by
    decide +kernel
  rw [← Option.isSome_iff_exists]
  exact checked letter.toFin

theorem notLow (above : ¬ c < 0x20) : 0x20 ≤ c := by
  rw [UInt8.lt_iff_toNat_lt] at above
  rw [UInt8.le_iff_toNat_le]
  omega

-- The equation, made once for all below.
example : textFrom [] = none := by rw [textFrom.eq_def]

theorem textFrom_sound (is : textFrom b = some (name, r)) :
    ∃ glyphs : List Glyph, (∀ g ∈ glyphs, g.Fine) ∧ paired glyphs = true ∧
      b = glyphs.flatMap Glyph.text ++ quote :: r := by
  induction size : b.length using Nat.strong_induction_on generalizing b name r with
  | _ n ih =>
  subst size
  rw [textFrom.eq_def] at is
  split at is
  · cases is
  rename_i c rest
  split at is
  · rename_i quoted
    cases is
    exact ⟨[], by simp, rfl, by rw [quoted]; rfl⟩
  rename_i unquoted
  split at is
  · cases is
  rename_i printable
  split at is
  · rename_i escaped
    subst escaped
    split at is
    · cases is
    rename_i escape rest
    split at is
    · rename_i b simple
      obtain ⟨inner, found, rfl⟩ := prepend_eq_some is
      obtain ⟨glyphs, fine, pairs, rfl⟩ := ih _ (by simp only [List.length_cons]; omega) found rfl
      refine ⟨.escape escape :: glyphs, ?_, ?_, rfl⟩
      · exact List.forall_mem_cons.mpr ⟨simpleEscape_iff.mpr ⟨b, simple⟩, fine⟩
      · rw [paired_cons ⟨rfl, rfl⟩, pairs]
    split at is
    · rename_i letter
      subst letter
      split at is
      · rename_i a b c d rest
        split at is
        · cases is
        rename_i high first
        split at is
        · rename_i surrogate
          split at is
          · cases is
          rename_i below
          split at is
          · rename_i e u a' b' c' d' rest
            split at is
            · cases is
            rename_i pair
            split at is
            · cases is
            rename_i low second
            split at is
            · cases is
            rename_i range
            generalize rune : encodeRune (decodeRune high low) = bytes at is
            obtain ⟨inner, found, rfl⟩ := prepend_eq_some is
            obtain ⟨glyphs, fine, pairs, rfl⟩ := ih _ (by simp only [List.length_cons]; omega) found rfl
            obtain ⟨rfl, rfl⟩ : e = backslash ∧ u = 117 := by simpa [not_or] using pair
            refine ⟨.unicode a b c d :: .unicode a' b' c' d' :: glyphs, ?_, ?_, rfl⟩
            · exact List.forall_mem_cons.mpr ⟨hex4_isSome.mpr ⟨high, first⟩,
                List.forall_mem_cons.mpr ⟨hex4_isSome.mpr ⟨low, second⟩, fine⟩⟩
            · have isHigh : (Glyph.unicode a b c d).isHigh = true := by
                simp only [isSurrogate, decide_eq_true_eq] at surrogate
                simp only [Glyph.isHigh, Glyph.unit, first, Option.any_some, decide_eq_true_eq]
                omega
              have isLow : (Glyph.unicode a' b' c' d').isLow = true := by
                simp only [Glyph.isLow, Glyph.unit, second, Option.any_some, decide_eq_true_eq]
                omega
              simp [paired, isHigh, isLow, pairs]
          · cases is
        · rename_i plain
          obtain ⟨inner, found, rfl⟩ := prepend_eq_some is
          obtain ⟨glyphs, fine, pairs, rfl⟩ := ih _ (by simp only [List.length_cons]; omega) found rfl
          refine ⟨.unicode a b c d :: glyphs, ?_, ?_, rfl⟩
          · exact List.forall_mem_cons.mpr ⟨hex4_isSome.mpr ⟨high, first⟩, fine⟩
          · rw [paired_cons ?_, pairs]
            simp only [isSurrogate, decide_eq_true_eq] at plain
            simp only [Glyph.isHigh, Glyph.isLow, Glyph.unit, first, Option.any_some, decide_eq_false_iff_not]
            omega
      · cases is
    · cases is
  · rename_i unescaped
    obtain ⟨inner, found, rfl⟩ := prepend_eq_some is
    obtain ⟨glyphs, fine, pairs, rfl⟩ := ih _ (by simp only [List.length_cons]; omega) found rfl
    refine ⟨.plain c :: glyphs, ?_, ?_, rfl⟩
    · exact List.forall_mem_cons.mpr ⟨⟨notLow printable, unquoted, unescaped⟩, fine⟩
    · rw [paired_cons ⟨rfl, rfl⟩, pairs]

theorem textFrom_plain {b : UInt8} (above : 0x20 ≤ b) (unquoted : b ≠ quote)
    (unescaped : b ≠ backslash) (rest : Bytes) :
    textFrom (b :: rest) = prepend [b] (textFrom rest) := by
  have low : ¬ b < 0x20 := by
    rw [UInt8.lt_iff_toNat_lt]
    rw [UInt8.le_iff_toNat_le] at above
    omega
  rw [textFrom.eq_def]
  simp only [if_neg unquoted, if_neg low, if_neg unescaped]

theorem textFrom_escape {b : UInt8} (simple : simpleEscape letter = some b) (rest : Bytes) :
    textFrom (backslash :: letter :: rest) = prepend [b] (textFrom rest) := by
  rw [textFrom.eq_def]
  simp only [simple]
  rfl

theorem textFrom_unicode {b : UInt8} {r : Nat} (is : hex4 a b c d = some r)
    (single : isSurrogate r = false) (rest : Bytes) :
    textFrom (backslash :: 117 :: a :: b :: c :: d :: rest) = prepend (encodeRune r) (textFrom rest) := by
  have other : simpleEscape 117 = none := by decide
  rw [textFrom.eq_def]
  simp only [other, is, single]
  rfl

theorem textFrom_pair {b a' b' c' d' : UInt8} {high low : Nat}
    (first : hex4 a b c d = some high) (isHigh : 0xd800 ≤ high ∧ high < 0xdc00)
    (second : hex4 a' b' c' d' = some low) (isLow : 0xdc00 ≤ low ∧ low ≤ 0xdfff) (rest : Bytes) :
    textFrom (backslash :: 117 :: a :: b :: c :: d :: backslash :: 117 :: a' :: b' :: c' :: d' :: rest) =
      prepend (encodeRune (decodeRune high low)) (textFrom rest) := by
  have other : simpleEscape 117 = none := by decide
  have surrogate : isSurrogate high = true := by
    simp only [isSurrogate, decide_eq_true_eq]
    omega
  have below : ¬ high ≥ 0xdc00 := by omega
  have within : ¬ (low < 0xdc00 ∨ low > 0xdfff) := by omega
  rw [textFrom.eq_def]
  simp only [other, first, second, surrogate, if_neg below, if_neg within]
  rfl

theorem textFrom_single (fine : g.Fine) (single : g.isHigh = false ∧ g.isLow = false)
    (rest : Bytes) : textFrom (g.text ++ rest) = prepend g.stands (textFrom rest) := by
  cases g with
  | plain b =>
    obtain ⟨above, unquoted, unescaped⟩ := fine
    exact textFrom_plain above unquoted unescaped rest
  | escape letter =>
    obtain ⟨b, simple⟩ := simpleEscape_iff.mp fine
    simp only [Glyph.stands, simple]
    exact textFrom_escape simple rest
  | unicode a b c d =>
    obtain ⟨r, is⟩ := hex4_isSome.mp fine
    simp only [Glyph.isHigh, Glyph.isLow, Glyph.unit, is, Option.any_some, decide_eq_false_iff_not] at single
    simp only [Glyph.stands, is, Option.getD_some]
    refine textFrom_unicode is ?_ rest
    simp only [isSurrogate, decide_eq_false_iff_not]
    omega

theorem textFrom_halves {next : Glyph} (high : g.isHigh = true) (low : next.isLow = true)
    (rest : Bytes) : textFrom (g.text ++ (next.text ++ rest)) =
      prepend (encodeRune (decodeRune (g.unit.getD 0) (next.unit.getD 0))) (textFrom rest) := by
  cases g with
  | plain b => cases high
  | escape letter => cases high
  | unicode a b c d =>
    cases next with
    | plain b => cases low
    | escape letter => cases low
    | unicode a' b' c' d' =>
      cases first : hex4 a b c d with
      | none => simp [Glyph.isHigh, Glyph.unit, first] at high
      | some r =>
        cases second : hex4 a' b' c' d' with
        | none => simp [Glyph.isLow, Glyph.unit, second] at low
        | some r' =>
          simp only [Glyph.isHigh, Glyph.unit, first, Option.any_some, decide_eq_true_eq] at high
          simp only [Glyph.isLow, Glyph.unit, second, Option.any_some, decide_eq_true_eq] at low
          simp only [Glyph.unit, first, second, Option.getD_some]
          exact textFrom_pair first high second low rest

theorem textFrom_complete (fine : ∀ g ∈ glyphs, g.Fine) (pairs : paired glyphs = true) (x : Bytes) :
    textFrom (glyphs.flatMap Glyph.text ++ quote :: x) = some (decode glyphs, x) := by
  fun_induction paired glyphs with
  | case1 =>
    rw [textFrom.eq_def]
    rfl
  | case2 g =>
    simp only [Bool.and_eq_true, Bool.not_eq_true'] at pairs
    rw [List.flatMap_cons, List.flatMap_nil, List.append_nil,
      textFrom_single (fine g List.mem_cons_self) pairs, textFrom.eq_def]
    simp [prepend, decode]
  | case3 g next rest high ih =>
    rw [Bool.and_eq_true] at pairs
    have later := ih (fun g listed =>
      fine g (List.mem_cons_of_mem _ (List.mem_cons_of_mem _ listed))) pairs.2
    rw [List.flatMap_cons, List.flatMap_cons, List.append_assoc, List.append_assoc, textFrom_halves high pairs.1, later]
    simp [prepend, decode, high]
  | case4 g next rest high ih =>
    rw [Bool.and_eq_true, Bool.not_eq_true'] at pairs
    have later := ih (fun g listed => fine g (List.mem_cons_of_mem _ listed)) pairs.2
    rw [List.flatMap_cons, List.append_assoc, textFrom_single (fine g List.mem_cons_self)
      ⟨by simpa using high, pairs.1⟩, later]
    simp [prepend, decode, high]

theorem text_sound (is : text b = some (name, r)) :
    ∃ used, IsPairedString used ∧ b = used ++ r := by
  unfold text at is
  split at is
  · split at is
    · rename_i c rest same
      obtain ⟨glyphs, fine, pairs, rfl⟩ := textFrom_sound is
      refine ⟨written glyphs, ⟨glyphs, fine, pairs, rfl⟩, ?_⟩
      simp [written, same]
    · cases is
  · cases is

theorem text_written (fine : ∀ g ∈ glyphs, g.Fine) (pairs : paired glyphs = true) (x : Bytes) :
    text (written glyphs ++ x) = some (decode glyphs, x) := by
  have read := textFrom_complete fine pairs x
  simpa [text, written] using read

theorem text_complete (is : IsPairedString b) :
    ∃ name, ∀ x, text (b ++ x) = some (name, x) := by
  obtain ⟨glyphs, fine, pairs, rfl⟩ := is
  exact ⟨decode glyphs, text_written fine pairs⟩

theorem text_cuts (is : text b = some (name, r)) :
    ∃ used, b = quote :: used ++ r ∧ ∀ x, text (quote :: used ++ x) = some (name, x) := by
  obtain ⟨whole, string, rfl⟩ := text_sound is
  obtain ⟨name', reads⟩ := text_complete string
  obtain ⟨glyphs, _, _, rfl⟩ := string
  rw [reads r] at is
  cases is
  exact ⟨_, rfl, reads⟩

theorem Glyph.text_head (fine : g.Fine) : ∃ c rest, g.text = c :: rest ∧ c ≠ quote := by
  cases g with
  | plain b => exact ⟨b, [], rfl, fine.2.1⟩
  | escape letter | unicode a b c d => exact ⟨backslash, _, rfl, by decide⟩

theorem Glyph.text_unique {g' : Glyph} (fine : g.Fine) (fine' : g'.Fine)
    (same : g.text ++ x = g'.text ++ y) : g = g' ∧ x = y := by
  have other : (117 : UInt8) ∉ ascii "\"\\/bfnrt" := by decide
  cases g with
  | plain b =>
    cases g' with
    | plain b' =>
      cases same
      exact ⟨rfl, rfl⟩
    | escape letter | unicode a b c d => exact absurd (List.cons.inj same).1 fine.2.2
  | escape letter =>
    cases g' with
    | plain b => exact absurd (List.cons.inj same).1.symm fine'.2.2
    | escape letter' =>
      cases same
      exact ⟨rfl, rfl⟩
    | unicode a b c d =>
      cases same
      exact absurd fine other
  | unicode a b c d =>
    cases g' with
    | plain b => exact absurd (List.cons.inj same).1.symm fine'.2.2
    | escape letter =>
      cases same
      exact absurd fine' other
    | unicode a' b' c' d' =>
      cases same
      exact ⟨rfl, rfl⟩

theorem glyphs_unique {these those : List Glyph} (fine : ∀ g ∈ these, g.Fine) (fine' : ∀ g ∈ those, g.Fine)
    (same : these.flatMap Glyph.text ++ quote :: x = those.flatMap Glyph.text ++ quote :: y) :
    these = those := by
  induction these generalizing those with
  | nil =>
    cases those with
    | nil => rfl
    | cons g rest =>
      obtain ⟨c, more, text, other⟩ := Glyph.text_head (fine' g List.mem_cons_self)
      rw [List.flatMap_cons, text] at same
      exact absurd (List.cons.inj same).1.symm other
  | cons g rest ih =>
    cases those with
    | nil =>
      obtain ⟨c, more, text, other⟩ := Glyph.text_head (fine g List.mem_cons_self)
      rw [List.flatMap_cons, text] at same
      exact absurd (List.cons.inj same).1 other
    | cons g' rest' =>
      rw [List.flatMap_cons, List.flatMap_cons, List.append_assoc, List.append_assoc] at same
      obtain ⟨rfl, later⟩ := Glyph.text_unique (fine g List.mem_cons_self) (fine' g' List.mem_cons_self) same
      rw [ih (fun g listed => fine g (List.mem_cons_of_mem _ listed))
        (fun g listed => fine' g (List.mem_cons_of_mem _ listed)) later]

end Strings

section Numbers

def IsDigits (b : Bytes) : Prop := b ≠ [] ∧ ∀ c ∈ b, isDigit c = true

def IsWhole (b : Bytes) : Prop := b = [48] ∨ (IsDigits b ∧ b.head? ≠ some 48)

def IsFraction (b : Bytes) : Prop := b = [] ∨ ∃ ds, IsDigits ds ∧ b = 46 :: ds

def IsExponent (b : Bytes) : Prop :=
  b = [] ∨ ∃ e s ds, (e = 101 ∨ e = 69) ∧ (s = [] ∨ s = [43] ∨ s = [45]) ∧ IsDigits ds ∧ b = e :: (s ++ ds)

def IsNumber (b : Bytes) : Prop :=
  ∃ minus whole fraction exponent : Bytes, (minus = [] ∨ minus = [45]) ∧ IsWhole whole ∧
    IsFraction fraction ∧ IsExponent exponent ∧ b = minus ++ (whole ++ (fraction ++ exponent))

def NoDigit (x : Bytes) : Prop := ∀ c ∈ x.head?, isDigit c = false

variable {b r w x : Bytes}

theorem digits_sound (is : digits b = some r) :
    ∃ ds, IsDigits ds ∧ b = ds ++ r := by
  unfold digits at is
  split at is
  · rename_i c rest
    split at is
    · rename_i digit
      cases is
      refine ⟨(c :: rest).takeWhile isDigit, ⟨?_, fun d => List.mem_takeWhile_imp⟩,
        List.takeWhile_append_dropWhile.symm⟩
      rw [List.takeWhile_cons_of_pos digit]
      exact List.cons_ne_nil _ _
    · cases is
  · cases is

theorem digits_complete {ds : Bytes} (is : IsDigits ds) (stops : NoDigit x) :
    digits (ds ++ x) = some x := by
  obtain ⟨some_, all⟩ := is
  cases ds with
  | nil => exact absurd rfl some_
  | cons c ds =>
    show (if isDigit c then some ((c :: ds ++ x).dropWhile isDigit) else none) = some x
    rw [if_pos (all c List.mem_cons_self), dropWhile_run all stops]

theorem wholePart_sound (is : wholePart b = some r) :
    ∃ w, IsWhole w ∧ b = w ++ r := by
  unfold wholePart at is
  split at is
  · rename_i c rest
    split at is
    · rename_i zero
      cases is
      exact ⟨[48], .inl rfl, by rw [zero]; rfl⟩
    · rename_i nonzero
      obtain ⟨ds, digits, same⟩ := digits_sound is
      refine ⟨ds, .inr ⟨digits, ?_⟩, same⟩
      cases ds with
      | nil => exact absurd rfl digits.1
      | cons d ds =>
        cases same
        simpa using nonzero
  · cases is

theorem wholePart_complete (is : IsWhole w) (stops : NoDigit x) :
    wholePart (w ++ x) = some x := by
  rcases is with rfl | ⟨digits, nonzero⟩
  · rfl
  have read := digits_complete digits stops
  cases w with
  | nil => exact absurd rfl digits.1
  | cons c w =>
    have other : c ≠ 48 := by simpa using nonzero
    simpa [wholePart, other] using read

theorem fraction_sound (is : fraction b = some r) :
    ∃ f, IsFraction f ∧ b = f ++ r := by
  unfold fraction at is
  split at is
  · rename_i c rest
    split at is
    · rename_i dot
      obtain ⟨ds, digits, rfl⟩ := digits_sound is
      exact ⟨46 :: ds, .inr ⟨ds, digits, rfl⟩, by rw [dot]; rfl⟩
    · cases is
      exact ⟨[], .inl rfl, rfl⟩
  · cases is
    exact ⟨[], .inl rfl, rfl⟩

theorem fraction_complete {f : Bytes} (is : IsFraction f) (stops : NoDigit x)
    (undotted : x.head? ≠ some 46) : fraction (f ++ x) = some x ∧ NoDigit (f ++ x) := by
  rcases is with rfl | ⟨ds, digits, rfl⟩
  · refine ⟨?_, stops⟩
    cases x with
    | nil => rfl
    | cons c x =>
      have other : c ≠ 46 := by simpa using undotted
      simp [fraction, other]
  · refine ⟨?_, fun c first => ?_⟩
    · have read := digits_complete digits stops
      simpa [fraction] using read
    · cases first
      decide

theorem exponent_sound (is : exponent b = some r) :
    ∃ e, IsExponent e ∧ b = e ++ r := by
  unfold exponent at is
  split at is
  · rename_i c rest
    split at is
    · rename_i mark
      split at is
      · rename_i s more
        split at is
        · rename_i signed
          obtain ⟨ds, digits, rfl⟩ := digits_sound is
          refine ⟨c :: ([s] ++ ds), .inr ⟨c, [s], ds, mark, .inr ?_, digits, rfl⟩, rfl⟩
          rcases signed with rfl | rfl
          · exact .inl rfl
          · exact .inr rfl
        · obtain ⟨ds, digits, same⟩ := digits_sound is
          exact ⟨c :: ([] ++ ds), .inr ⟨c, [], ds, mark, .inl rfl, digits, rfl⟩,
            by rw [same]; rfl⟩
      · cases is
    · cases is
      exact ⟨[], .inl rfl, rfl⟩
  · cases is
    exact ⟨[], .inl rfl, rfl⟩

theorem Follows.plain (follows : Follows x) :
    NoDigit x ∧ x.head? ≠ some 46 ∧ x.head? ≠ some 101 ∧ x.head? ≠ some 69 := by
  cases x with
  | nil => exact ⟨by simp [NoDigit], by simp, by simp, by simp⟩
  | cons c x =>
    obtain ⟨digit, dot, small, capital⟩ := delimits_plain c (follows c rfl)
    refine ⟨fun d first => ?_, by simpa using dot, by simpa using small, by simpa using capital⟩
    cases first
    exact digit

theorem exponent_complete {e : Bytes} (is : IsExponent e) (follows : Follows x) :
    exponent (e ++ x) = some x ∧ NoDigit (e ++ x) ∧ (e ++ x).head? ≠ some 46 := by
  obtain ⟨stops, dot, small, capital⟩ := follows.plain
  rcases is with rfl | ⟨e, s, ds, mark, signs, digits, rfl⟩
  · refine ⟨?_, stops, dot⟩
    cases x with
    | nil => rfl
    | cons c x =>
      have others : ¬ (c = 101 ∨ c = 69) := by
        rw [not_or]
        exact ⟨by simpa using small, by simpa using capital⟩
      exact if_neg others
  · refine ⟨?_, fun c first => ?_, ?_⟩
    · have read := digits_complete digits stops
      rcases signs with rfl | rfl | rfl
      · obtain ⟨some_, all⟩ := digits
        cases ds with
        | nil => exact absurd rfl some_
        | cons d ds =>
          have unsigned : ¬ (d = 43 ∨ d = 45) := by
            have digit := all d List.mem_cons_self
            rintro (rfl | rfl) <;> exact absurd digit (by decide)
          simpa [exponent, mark, unsigned] using read
      · simpa [exponent, mark] using read
      · simpa [exponent, mark] using read
    · cases first
      rcases mark with rfl | rfl <;> decide
    · rcases mark with rfl | rfl <;> simp

theorem IsWhole.head (is : IsWhole w) : ∃ d ds, w = d :: ds ∧ isDigit d = true := by
  rcases is with rfl | ⟨⟨some_, all⟩, _⟩
  · exact ⟨48, [], rfl, by decide⟩
  · cases w with
    | nil => exact absurd rfl some_
    | cons d ds => exact ⟨d, ds, rfl, all d List.mem_cons_self⟩

theorem number_sound (is : number b = some r) :
    ∃ used, IsNumber used ∧ b = used ++ r := by
  obtain ⟨second, whole, more⟩ := Option.bind_eq_some_iff.mp is
  obtain ⟨third, part, power⟩ := Option.bind_eq_some_iff.mp more
  obtain ⟨w, isWhole, unsigned⟩ := wholePart_sound whole
  obtain ⟨f, isFraction, rfl⟩ := fraction_sound part
  obtain ⟨e, isExponent, rfl⟩ := exponent_sound power
  have signed : ∃ minus, (minus = [] ∨ minus = [45]) ∧ b = minus ++ sign b := by
    cases b with
    | nil => exact ⟨[], .inl rfl, rfl⟩
    | cons c b =>
      by_cases minus : c = 45
      · exact ⟨[45], .inr rfl, by simp [sign, minus]⟩
      · exact ⟨[], .inl rfl, by simp [sign, minus]⟩
  obtain ⟨minus, sign_is, same⟩ := signed
  refine ⟨minus ++ (w ++ (f ++ e)), ⟨minus, w, f, e, sign_is, isWhole, isFraction, isExponent, rfl⟩, ?_⟩
  rw [same, unsigned]
  simp

theorem number_complete (is : IsNumber b) (follows : Follows x) :
    number (b ++ x) = some x := by
  obtain ⟨minus, w, f, e, signed, isWhole, isFraction, isExponent, rfl⟩ := is
  obtain ⟨power, stops, undotted⟩ := exponent_complete isExponent follows
  obtain ⟨part, ends⟩ := fraction_complete isFraction stops undotted
  have whole := wholePart_complete isWhole ends
  have unsigned : sign (minus ++ (w ++ (f ++ e)) ++ x) = w ++ (f ++ (e ++ x)) := by
    rcases signed with rfl | rfl
    · obtain ⟨d, ds, rfl, digit⟩ := isWhole.head
      simp [sign_of_digit digit]
    · simp [sign]
  simp only [number, unsigned, whole, part, power, Option.bind_eq_bind, Option.bind_some]

end Numbers

section Scalars

def IsLiteral (b : Bytes) : Prop := b = ascii "true" ∨ b = ascii "false" ∨ b = ascii "null"

theorem literal_sound {b r : Bytes} (is : literal b = some r) :
    ∃ used, IsLiteral used ∧ b = used ++ r := by
  obtain ⟨word, listed, found⟩ := List.exists_of_findSome?_eq_some is
  split at found
  · rename_i starts
    obtain ⟨tail, rfl⟩ := starts
    rw [List.drop_left] at found
    cases found
    refine ⟨word, ?_, rfl⟩
    simpa [IsLiteral] using listed
  · cases found

theorem literal_complete {b : Bytes} (is : IsLiteral b) (x : Bytes) : literal (b ++ x) = some x := by
  rcases is with rfl | rfl | rfl <;> rfl

def IsScalar (b : Bytes) : Prop := IsPairedString b ∨ IsNumber b ∨ IsLiteral b

theorem IsNumber.head {b : Bytes} (is : IsNumber b) :
    ∃ c rest, b = c :: rest ∧ c ≠ quote ∧ (c = 45 ∨ isDigit c = true) := by
  obtain ⟨minus, w, f, e, signed, isWhole, _, _, rfl⟩ := is
  rcases signed with rfl | rfl
  · obtain ⟨d, ds, rfl, digit⟩ := isWhole.head
    refine ⟨d, ds ++ (f ++ e), rfl, ?_, .inr digit⟩
    rintro rfl
    exact absurd digit (by decide)
  · exact ⟨45, _, rfl, by decide, .inl rfl⟩

theorem IsLiteral.head {b : Bytes} (is : IsLiteral b) :
    ∃ c rest, b = c :: rest ∧ c ≠ quote ∧ ¬ (c = 45 ∨ isDigit c = true) := by
  rcases is with rfl | rfl | rfl <;> exact ⟨_, _, rfl, by decide, by decide⟩

theorem scalar_sound {b r : Bytes} (is : scalar b = some r) : ∃ used, IsScalar used ∧ b = used ++ r := by
  unfold scalar at is
  split at is
  · cases is
  split at is
  · obtain ⟨⟨name, after⟩, read, same⟩ := Option.map_eq_some_iff.mp is
    cases same
    obtain ⟨used, string, whole⟩ := text_sound read
    exact ⟨used, .inl string, whole⟩
  · split at is
    · obtain ⟨used, number, whole⟩ := number_sound is
      exact ⟨used, .inr (.inl number), whole⟩
    · obtain ⟨used, literal, whole⟩ := literal_sound is
      exact ⟨used, .inr (.inr literal), whole⟩

theorem scalar_complete {b x : Bytes} (is : IsScalar b) (follows : Follows x) :
    scalar (b ++ x) = some x := by
  rcases is with string | number | literal
  · obtain ⟨name, reads⟩ := text_complete string
    obtain ⟨glyphs, _, _, rfl⟩ := string
    have read := reads x
    rw [written, List.cons_append] at read ⊢
    rw [scalar, if_pos rfl, read]
    rfl
  · have read := number_complete number follows
    obtain ⟨c, rest, rfl, unquoted, numeric⟩ := number.head
    rw [List.cons_append] at read ⊢
    rw [scalar, if_neg unquoted, if_pos numeric, read]
  · have read := literal_complete literal x
    obtain ⟨c, rest, rfl, unquoted, letter⟩ := literal.head
    rw [List.cons_append] at read ⊢
    rw [scalar, if_neg unquoted, if_neg letter, read]

theorem IsScalar.ne_nil {b : Bytes} (is : IsScalar b) : b ≠ [] := by
  rcases is with ⟨_, _, _, rfl⟩ | number | literal
  · exact List.cons_ne_nil _ _
  · obtain ⟨c, rest, rfl, _⟩ := number.head
    exact List.cons_ne_nil _ _
  · obtain ⟨c, rest, rfl, _⟩ := literal.head
    exact List.cons_ne_nil _ _

theorem scalar_cuts {b r : Bytes} (is : scalar b = some r) :
    ∃ used, used ≠ [] ∧ b = used ++ r ∧ ∀ x, Follows x → scalar (used ++ x) = some x := by
  obtain ⟨used, grammatical, whole⟩ := scalar_sound is
  exact ⟨used, grammatical.ne_nil, whole, fun x => scalar_complete grammatical⟩

end Scalars

end EdgeObserver.Json
