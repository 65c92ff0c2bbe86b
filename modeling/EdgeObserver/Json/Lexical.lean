import EdgeObserver.Json.Tree

/-!
# The tokens of a JSON text

Strings, numbers and literals as they are read strictly: each reader takes the
text from where the token starts and returns what follows it.
-/

set_option autoImplicit false

namespace EdgeObserver.Json

open Text (isDigit)

def quote : UInt8 := 34
def backslash : UInt8 := 92
def comma : UInt8 := 44
def colon : UInt8 := 58

def isSpace (b : UInt8) : Bool := b == 32 || b == 9 || b == 10 || b == 13

def skipSpace (text : Bytes) : Bytes := text.dropWhile isSpace

def spaceOf (text : Bytes) : Bytes := text.takeWhile isSpace

theorem spaceOf_skipSpace (text : Bytes) : spaceOf text ++ skipSpace text = text := List.takeWhile_append_dropWhile

def delimits (b : UInt8) : Bool := isSpace b || b == comma || b == 93 || b == 125

def Follows (text : Bytes) : Prop := ∀ b ∈ text.head?, delimits b = true

section Runs

variable {p : UInt8 → Bool} {run after : Bytes}

theorem dropWhile_run (all : ∀ b ∈ run, p b = true) (stops : ∀ b ∈ after.head?, p b = false) :
    (run ++ after).dropWhile p = after := by
  rw [List.dropWhile_append_of_pos all]
  cases after with
  | nil => rfl
  | cons b after => exact List.dropWhile_cons_of_neg (by simp [stops b rfl])

theorem takeWhile_run (all : ∀ b ∈ run, p b = true) (stops : ∀ b ∈ after.head?, p b = false) :
    (run ++ after).takeWhile p = run := by
  rw [List.takeWhile_append_of_pos all]
  cases after with
  | nil => simp
  | cons b after => rw [List.takeWhile_cons_of_neg (by simp [stops b rfl]), List.append_nil]

end Runs

def simpleEscape (b : UInt8) : Option UInt8 :=
  if b = quote ∨ b = backslash ∨ b = 47 then some b
  else if b = 98 then some 8
  else if b = 102 then some 12
  else if b = 110 then some 10
  else if b = 114 then some 13
  else if b = 116 then some 9
  else none

def hex4 (a b c d : UInt8) : Option Nat := Text.numeral 16 0 [a, b, c, d]

def isSurrogate (r : Nat) : Bool := decide (0xd800 ≤ r ∧ r ≤ 0xdfff)

def decodeRune (high low : Nat) : Nat := (high - 0xd800) * 0x400 + (low - 0xdc00) + 0x10000

def encodeRune (r : Nat) : Bytes :=
  if r < 0x80 then [UInt8.ofNat r]
  else if r < 0x800 then [UInt8.ofNat (0xc0 + r / 0x40), UInt8.ofNat (0x80 + r % 0x40)]
  else if r < 0x10000 then
    [UInt8.ofNat (0xe0 + r / 0x1000), UInt8.ofNat (0x80 + r / 0x40 % 0x40), UInt8.ofNat (0x80 + r % 0x40)]
  else
    [UInt8.ofNat (0xf0 + r / 0x40000), UInt8.ofNat (0x80 + r / 0x1000 % 0x40),
      UInt8.ofNat (0x80 + r / 0x40 % 0x40), UInt8.ofNat (0x80 + r % 0x40)]

def prepend (bytes : Bytes) (read : Option (Bytes × Bytes)) : Option (Bytes × Bytes) :=
  read.map (fun r => (bytes ++ r.1, r.2))

/-- Reads a string from after its quote, with its escapes decoded. A control byte,
an unknown escape and an unpaired surrogate are refused. -/
def textFrom : Bytes → Option (Bytes × Bytes)
  | [] => none
  | c :: rest =>
    if c = quote then some ([], rest)
    else if c < 0x20 then none
    else if c = backslash then
      match rest with
      | [] => none
      | escape :: rest =>
        match simpleEscape escape with
        | some b => prepend [b] (textFrom rest)
        | none =>
          if escape = 117 then
            match rest with
            | a :: b :: c :: d :: rest =>
              match hex4 a b c d with
              | none => none
              | some r =>
                if isSurrogate r then
                  if r ≥ 0xdc00 then none
                  else
                    match rest with
                    | e :: u :: a :: b :: c :: d :: rest =>
                      if e ≠ backslash ∨ u ≠ 117 then none
                      else
                        match hex4 a b c d with
                        | none => none
                        | some low =>
                          if low < 0xdc00 ∨ low > 0xdfff then none
                          else prepend (encodeRune (decodeRune r low)) (textFrom rest)
                    | _ => none
                else prepend (encodeRune r) (textFrom rest)
            | _ => none
          else none
    else prepend [c] (textFrom rest)

def text : Bytes → Option (Bytes × Bytes)
  | c :: rest => if c = quote then textFrom rest else none
  | [] => none

def digits (text : Bytes) : Option Bytes :=
  match text with
  | c :: _ => if isDigit c then some (text.dropWhile isDigit) else none
  | [] => none

def sign (text : Bytes) : Bytes :=
  match text with
  | c :: rest => if c = 45 then rest else text
  | [] => []

def wholePart (text : Bytes) : Option Bytes :=
  match text with
  | c :: rest => if c = 48 then some rest else digits text
  | [] => none

def fraction (text : Bytes) : Option Bytes :=
  match text with
  | c :: rest => if c = 46 then digits rest else some text
  | [] => some []

def exponent (text : Bytes) : Option Bytes :=
  match text with
  | c :: rest =>
    if c = 101 ∨ c = 69 then
      match rest with
      | s :: more => if s = 43 ∨ s = 45 then digits more else digits rest
      | [] => none
    else some text
  | [] => some []

def number (text : Bytes) : Option Bytes := do
  let rest ← wholePart (sign text)
  let rest ← fraction rest
  exponent rest

def literal (text : Bytes) : Option Bytes :=
  ([ascii "true", ascii "false", ascii "null"].findSome? (fun word =>
    if word <+: text then some (text.drop word.length) else none))

def scalar (b : Bytes) : Option Bytes :=
  match b with
  | [] => none
  | c :: _ =>
    if c = quote then (text b).map Prod.snd
    else if c = 45 ∨ isDigit c = true then number b
    else literal b

section Heads

theorem prepend_eq_some {bytes name rest : Bytes} {read : Option (Bytes × Bytes)}
    (is : prepend bytes read = some (name, rest)) :
    ∃ inner, read = some (inner, rest) ∧ name = bytes ++ inner := by
  obtain ⟨⟨inner, after⟩, found, same⟩ := Option.map_eq_some_iff.mp is
  cases same
  exact ⟨inner, found, rfl⟩

theorem delimits_plain : ∀ b : UInt8, delimits b = true →
    isDigit b = false ∧ b ≠ 46 ∧ b ≠ 101 ∧ b ≠ 69 := by
  have checked : ∀ n : Fin 256, delimits (UInt8.ofFin n) = true →
      isDigit (UInt8.ofFin n) = false ∧ UInt8.ofFin n ≠ 46 ∧ UInt8.ofFin n ≠ 101 ∧ UInt8.ofFin n ≠ 69 := by
    decide +kernel
  intro b
  exact checked b.toFin

theorem sign_of_digit {c : UInt8} {x : Bytes} (digit : isDigit c = true) :
    sign (c :: x) = c :: x := by
  refine if_neg fun minus => ?_
  rw [minus] at digit
  exact absurd digit (by decide)

def begins (c : UInt8) : Bool := decide (c < 128) && !delimits c

theorem begins_scalar {c : UInt8} {b r : Bytes} (is : scalar (c :: b) = some r) :
    begins c = true ∧ c ≠ 123 ∧ c ≠ 91 := by
  have checked : ∀ n : Fin 256,
      UInt8.ofFin n = quote ∨ UInt8.ofFin n = 45 ∨ isDigit (UInt8.ofFin n) = true ∨
        UInt8.ofFin n = 116 ∨ UInt8.ofFin n = 102 ∨ UInt8.ofFin n = 110 →
      begins (UInt8.ofFin n) = true ∧ UInt8.ofFin n ≠ 123 ∧ UInt8.ofFin n ≠ 91 := by
    decide +kernel
  refine checked c.toFin ?_
  show c = quote ∨ c = 45 ∨ isDigit c = true ∨ c = 116 ∨ c = 102 ∨ c = 110
  by_cases quoted : c = quote
  · exact .inl quoted
  by_cases numeric : c = 45 ∨ isDigit c = true
  · rcases numeric with minus | digit
    · exact .inr (.inl minus)
    · exact .inr (.inr (.inl digit))
  · refine .inr (.inr (.inr ?_))
    rw [scalar, if_neg quoted, if_neg numeric] at is
    obtain ⟨word, listed, found⟩ := List.exists_of_findSome?_eq_some is
    split at found
    · rename_i starts
      obtain ⟨tail, same⟩ := starts
      simp only [List.mem_cons, List.not_mem_nil, or_false] at listed
      rcases listed with rfl | rfl | rfl
      · exact .inl (List.cons.inj same).1.symm
      · exact .inr (.inl (List.cons.inj same).1.symm)
      · exact .inr (.inr (List.cons.inj same).1.symm)
    · cases found

end Heads

end EdgeObserver.Json
