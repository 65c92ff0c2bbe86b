import Mathlib

/-!
# Byte text

The strings of the observer are byte strings: captured text need not be valid
UTF-8. The operations here are those of Go's `strings` and `strconv` that the
observer applies to them.
-/

set_option autoImplicit false

namespace EdgeObserver

abbrev Bytes := List UInt8

instance : LawfulBEq Bytes := inferInstance

def ascii (text : String) : Bytes := text.toList.map Char.toUInt8

namespace Text

def cr : UInt8 := 13
def lf : UInt8 := 10
def space : UInt8 := 32
def tab : UInt8 := 9

def lowerByte (b : UInt8) : UInt8 := if 65 ≤ b ∧ b ≤ 90 then b + 32 else b

/-- `strings.ToLower`, as far as ASCII text can come out of it: besides the
ASCII capitals, the Kelvin sign lowers to `k` and the dotted capital I to `i`.
Every other byte outside ASCII stays outside ASCII, and is only ever compared
with ASCII text. -/
def toLower : Bytes → Bytes
  | 0xE2 :: 0x84 :: 0xAA :: rest => 107 :: toLower rest
  | 0xC4 :: 0xB0 :: rest => 105 :: toLower rest
  | b :: rest => lowerByte b :: toLower rest
  | [] => []

/-- The simple case folding `strings.EqualFold` compares under: besides the
ASCII letters, the Kelvin sign folds with `k` and the long s with `s`. -/
def foldCase : Bytes → Bytes
  | 0xE2 :: 0x84 :: 0xAA :: rest => 107 :: foldCase rest
  | 0xC5 :: 0xBF :: rest => 115 :: foldCase rest
  | b :: rest => lowerByte b :: foldCase rest
  | [] => []

/-- `strings.EqualFold` against ASCII text. -/
def equalFold (left right : Bytes) : Bool := foldCase left == foldCase right

/-- `strings.Trim` with the cutset of space and tab. -/
def trimBlanks (text : Bytes) : Bytes :=
  let blank := fun b => b == space || b == tab
  ((text.dropWhile blank).reverse.dropWhile blank).reverse

def isAsciiSpace (b : UInt8) : Bool := (9 ≤ b && b ≤ 13) || b == space

/-- What stands after the blanks a text begins with: those of ASCII, and those
of Unicode as UTF-8 has them. -/
def dropSpace : Bytes → Bytes
  | 0xC2 :: 0x85 :: rest | 0xC2 :: 0xA0 :: rest => dropSpace rest
  | 0xE1 :: 0x9A :: 0x80 :: rest | 0xE2 :: 0x81 :: 0x9F :: rest | 0xE3 :: 0x80 :: 0x80 :: rest =>
    dropSpace rest
  | 0xE2 :: 0x80 :: b :: rest =>
    if (0x80 ≤ b && b ≤ 0x8A) || b == 0xA8 || b == 0xA9 || b == 0xAF then dropSpace rest else 0xE2 :: 0x80 :: b :: rest
  | b :: rest => if isAsciiSpace b then dropSpace rest else b :: rest
  | [] => []

def dropSpaceBack : Bytes → Bytes
  | 0x85 :: 0xC2 :: rest | 0xA0 :: 0xC2 :: rest => dropSpaceBack rest
  | 0x80 :: 0x9A :: 0xE1 :: rest | 0x9F :: 0x81 :: 0xE2 :: rest | 0x80 :: 0x80 :: 0xE3 :: rest =>
    dropSpaceBack rest
  | b :: 0x80 :: 0xE2 :: rest =>
    if (0x80 ≤ b && b ≤ 0x8A) || b == 0xA8 || b == 0xA9 || b == 0xAF then dropSpaceBack rest
    else b :: 0x80 :: 0xE2 :: rest
  | b :: rest => if isAsciiSpace b then dropSpaceBack rest else b :: rest
  | [] => []

/-- `strings.TrimSpace`. -/
def trimSpace (text : Bytes) : Bytes := (dropSpaceBack (dropSpace text).reverse).reverse

/-- `strings.Split` at a separator of one byte: one piece more than the text
has separators. -/
def split (separator : UInt8) : Bytes → List Bytes
  | [] => [[]]
  | b :: rest =>
    if b == separator then [] :: split separator rest
    else match split separator rest with
      | [] => [[b]]
      | piece :: pieces => (b :: piece) :: pieces

/-- `strings.Cut` at a separator of one byte: what stands before the first, what
stands after it, and whether there is one. -/
def cut (separator : UInt8) (text : Bytes) : Bytes × Bytes × Bool :=
  match text.dropWhile (· != separator) with
  | [] => (text, [], false)
  | _ :: after => (text.takeWhile (· != separator), after, true)

def isDigit (b : UInt8) : Bool := 48 ≤ b && b ≤ 57

def isLetter (b : UInt8) : Bool := (97 ≤ b && b ≤ 122) || (65 ≤ b && b ≤ 90)

def isTokenByte (b : UInt8) : Bool := isLetter b || isDigit b || (ascii "!#$%&'*+-.^_`|~").contains b

def digitValue (b : UInt8) : Option Nat :=
  if isDigit b then some (b.toNat - 48)
  else if 97 ≤ b && b ≤ 102 then some (b.toNat - 87)
  else if 65 ≤ b && b ≤ 70 then some (b.toNat - 55)
  else none

def numeral (base : Nat) : Nat → Bytes → Option Nat
  | value, [] => some value
  | value, b :: rest =>
    match digitValue b with
    | some digit => if digit < base then numeral base (value * base + digit) rest else none
    | none => none

/-- `strconv.ParseUint` for a base without prefixes and a result of so many
bits; nothing is its error. -/
def parseUint (base bits : Nat) (text : Bytes) : Option Nat :=
  if text = [] then none
  else match numeral base 0 text with
    | some value => if value < 2 ^ bits then some value else none
    | none => none

/-!
## Lower case, byte by byte
-/

theorem byte_all {P : UInt8 → Prop} (every : ∀ n : Fin 256, P (UInt8.ofNat n.val)) (b : UInt8) :
    P b := by
  have own := every ⟨b.toNat, b.toNat_lt⟩
  simpa only [UInt8.ofNat_toNat] using own

theorem foldCase_ascii {text : Bytes} (plain : ∀ b ∈ text, b < 128) :
    foldCase text = text.map lowerByte := by
  fun_induction foldCase text with
  | case1 rest _ => exact absurd (plain 0xE2 List.mem_cons_self) (by decide)
  | case2 rest _ => exact absurd (plain 0xC5 List.mem_cons_self) (by decide)
  | case3 b rest _ _ ih => rw [ih fun c member => plain c (List.mem_cons_of_mem b member), List.map_cons]
  | case4 => rfl

theorem toLower_ascii {text : Bytes} (plain : ∀ b ∈ text, b < 128) :
    toLower text = text.map lowerByte := by
  fun_induction toLower text with
  | case1 rest _ => exact absurd (plain 0xE2 List.mem_cons_self) (by decide)
  | case2 rest _ => exact absurd (plain 0xC4 List.mem_cons_self) (by decide)
  | case3 b rest _ _ ih => rw [ih fun c member => plain c (List.mem_cons_of_mem b member), List.map_cons]
  | case4 => rfl

theorem lowerByte_ascii (b : UInt8) : lowerByte b < 128 → b < 128 := by
  refine byte_all (P := fun b => lowerByte b < 128 → b < 128) ?_ b
  decide +kernel

/-- The Kelvin sign, which lowers to `k`. -/
def kelvin : Bytes := [0xE2, 0x84, 0xAA]

theorem toLower_plain {text : Bytes} (plain : ¬ kelvin <:+: text) (without : 105 ∉ toLower text) :
    toLower text = text.map lowerByte := by
  fun_induction toLower text with
  | case1 rest _ => exact absurd ⟨[], rest, rfl⟩ plain
  | case2 rest _ => exact absurd List.mem_cons_self without
  | case3 b rest _ _ ih =>
    rw [List.map_cons, ih]
    · intro inside
      exact plain (inside.trans ⟨[b], [], by simp⟩)
    · exact fun member => without (List.mem_cons_of_mem _ member)
  | case4 => rfl

end Text

end EdgeObserver
