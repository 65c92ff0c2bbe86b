import EdgeObserver.Contract.Bundle

/-!
# References to records

A reference names a record of a bundle by the decimal forms of its process's number,
its connection's id and an exchange's index, or an observation by its position.
-/

set_option autoImplicit false

namespace EdgeObserver.Contract

open Text

def decimalPart (text : Bytes) : Bool := text == [48] || (text.all isDigit && text.head?.any (· != 48))

def written (text : Bytes) : Nat := Nat.ofDigits 10 (text.reverse.map fun b => b.toNat - 48)

/-- What `strconv.ParseInt` gives of digits where its error is not looked at: past the
largest number that fits it is that number. -/
def parseInt (bits : Nat) (text : Bytes) : Nat := min (written text) (2 ^ (bits - 1) - 1)

structure Owner where
  id : Bytes := []
  pid : Int := 0
deriving DecidableEq

structure Line where
  own : Owner := {}
  connection : Option Owner := none
  exchanges : List Int := []
deriving DecidableEq

/-- What resolving is given: the lines that a scanner makes of a member, a line decoded,
and how a path into the account is read. -/
structure Reader where
  lines : Bytes → List Bytes
  short : ∀ content, (lines content).length < 2 ^ 63
  decode : Bytes → Option Line
  accountPath : Bytes → Bool
  account : Bytes → Bytes → Bool

inductive Outcome where
  | resolved | unresolved | notAReference
deriving DecidableEq

inductive Spot where
  | nowhere | line (number : Nat) | path (text : Bytes)
deriving DecidableEq

inductive Why where
  | none | form | accountPath | member | parts | unread (why : Unread) | account | observations (count : Nat) | noRecord
  | records (count : Nat)
deriving DecidableEq

structure Resolution where
  reference : Bytes
  outcome : Outcome
  member : Bytes := []
  spot : Spot := .nowhere
  matched : Nat := 0
  why : Why := .none
deriving DecidableEq

section Resolving

variable (r : Reader)

def wellFormed (name : Bytes) (parts : List Bytes) : Bool :=
  if name = ascii "connections" then parts.length = 2 && parts.all decimalPart
  else if name = ascii "reconstructions" then
    match parts with
    | [pid, id] => decimalPart pid && decimalPart id
    | [pid, id, index, half] => decimalPart pid && decimalPart id && decimalPart index &&
      (half = ascii "request" || half = ascii "response")
    | _ => false
  else name ≠ ascii "observations" || (parts.length = 1 && parts.all decimalPart)

def matchesParts (parts : List Bytes) (one : Line) : Bool :=
  let owner := one.connection.getD one.own
  owner.pid = parseInt 32 (parts[0]?.getD []) && owner.id = parts[1]?.getD [] &&
    (parts.length ≠ 4 || one.exchanges.any (· = parseInt 64 (parts[2]?.getD [])))

/-- The numbers of the lines, from 1, whose record `P` holds of. -/
def linesWith (lines : List Bytes) (P : Line → Bool) : List Nat :=
  (List.range' 1 lines.length).filter fun number => (lines[number - 1]?.bind r.decode).any P

def resolveRecord (out : Resolution) (content : Bytes) (parts : List Bytes) : Resolution :=
  match linesWith r (r.lines content) (matchesParts parts) with
  | [] => { out with why := .noRecord }
  | [number] => { out with matched := 1, outcome := .resolved, spot := .line number }
  | found => { out with matched := found.length, why := .records found.length }

def resolve (c : Codec) (t : Tree) (reference : Bytes) : Resolution :=
  let out : Resolution := { reference, outcome := .notAReference }
  let (name, rest, found) := cut 58 reference
  if found = false ∨ rest = [] then { out with why := .form }
  else if name = ascii "account" ∧ r.accountPath rest = false then { out with why := .accountPath }
  else if name ≠ ascii "account" ∧ name ∉ [ascii "connections", ascii "reconstructions", ascii "observations"] then
    { out with why := .member }
  else
    let parts := split 47 rest
    if wellFormed name parts = false then { out with why := .parts }
    else
      let out := { out with outcome := .unresolved }
      match memberOf c t name with
      | .error why => { out with why := .unread why }
      | .ok (member, content) =>
        let out := { out with member }
        if name = ascii "account" then
          if r.account content rest then { out with outcome := .resolved, matched := 1, spot := .path rest }
          else { out with why := .account }
        else if name = ascii "observations" then
          let index := parseInt 64 (parts[0]?.getD [])
          let lines := (r.lines content).length
          if index < lines then { out with outcome := .resolved, matched := 1, spot := .line (index + 1) }
          else { out with why := .observations lines }
        else resolveRecord r out content parts

end Resolving

/-! ## What a reference names -/

def decimalOf (n : Nat) : Bytes :=
  if n = 0 then [48] else ((Nat.digits 10 n).map fun d => UInt8.ofNat (48 + d)).reverse

theorem written_decimalOf (n : Nat) : written (decimalOf n) = n := by
  unfold written decimalOf
  split
  · subst n
    rfl
  · rw [List.reverse_reverse, List.map_map]
    have same : ∀ d ∈ Nat.digits 10 n, ((fun b : UInt8 => b.toNat - 48) ∘ fun d => UInt8.ofNat (48 + d)) d = d := by
      intro d member
      have small := Nat.digits_lt_base (by decide) member
      simp only [Function.comp_apply, UInt8.toNat_ofNat']
      omega
    rw [List.map_congr_left same, List.map_id', Nat.ofDigits_digits]

theorem decimalOf_written {text : Bytes} (valid : decimalPart text = true) : decimalOf (written text) = text := by
  simp only [decimalPart, Bool.or_eq_true, beq_iff_eq, Bool.and_eq_true, List.all_eq_true] at valid
  rcases valid with rfl | ⟨digits, first⟩
  · rfl
  have digit : ∀ b ∈ text.reverse, 48 ≤ b.toNat ∧ b.toNat ≤ 57 := by
    intro b member
    have is := digits b (List.mem_reverse.mp member)
    simp only [isDigit, Bool.and_eq_true, decide_eq_true_eq] at is
    exact ⟨UInt8.le_iff_toNat_le.mp is.1, UInt8.le_iff_toNat_le.mp is.2⟩
  have digits : Nat.digits 10 (written text) = text.reverse.map fun b => b.toNat - 48 := by
    refine Nat.digits_ofDigits 10 (by decide) _ ?_ fun some_ => ?_
    · intro d member
      obtain ⟨b, listed, rfl⟩ := List.mem_map.mp member
      have := digit b listed
      omega
    · cases text with
      | nil => simp at first
      | cons b rest =>
        have := digit b (by simp)
        simp only [List.head?_cons, Option.any_some, bne_iff_ne, ne_eq] at first
        have apart : b.toNat ≠ 48 := fun same => first (UInt8.toNat_inj.mp same)
        simp only [List.reverse_cons, List.map_append, List.map_cons, List.map_nil, List.getLast_append_singleton]
        omega
  have some_ : written text ≠ 0 := by
    intro none
    rw [none, Nat.digits_zero] at digits
    have := List.map_eq_nil_iff.mp digits.symm
    rw [List.reverse_eq_nil_iff.mp this] at first
    simp at first
  rw [decimalOf, if_neg some_, digits, List.map_map, List.reverse_eq_iff]
  refine (List.map_congr_left fun b member => ?_).trans (List.map_id _)
  have := digit b member
  simp only [Function.comp_apply, id]
  rw [show 48 + (b.toNat - 48) = b.toNat by omega, UInt8.ofNat_toNat]

theorem decimalOf_iff {text : Bytes} (valid : decimalPart text = true) (n : Nat) : decimalOf n = text ↔ n = written text := by
  constructor
  · rintro rfl
    exact (written_decimalOf n).symm
  · rintro rfl
    exact decimalOf_written valid

def Names (parts : List Bytes) (one : Line) : Prop :=
  (∃ pid : Nat, (one.connection.getD one.own).pid = pid ∧ decimalOf pid = parts[0]?.getD []) ∧
    (one.connection.getD one.own).id = parts[1]?.getD [] ∧
    (parts.length = 4 → ∃ index : Nat, (index : Int) ∈ one.exchanges ∧ decimalOf index = parts[2]?.getD [])

variable (r : Reader) (c : Codec) (t : Tree)

def linesOf (name : Bytes) : List Bytes :=
  match memberOf c t name with
  | .ok (_, content) => r.lines content
  | .error _ => []

/-- The line of this number is one that the reference names. -/
def Named (name : Bytes) (parts : List Bytes) (number : Nat) : Prop :=
  number ∈ List.range' 1 (linesOf r c t name).length ∧
    if name = ascii "observations" then decimalOf (number - 1) = parts[0]?.getD []
    else ∃ one, (linesOf r c t name)[number - 1]?.bind r.decode = some one ∧ Names parts one

variable {r c t}

theorem matchesParts_iff {parts : List Bytes} (pid : decimalPart (parts[0]?.getD []) = true)
    (index : parts.length = 4 → decimalPart (parts[2]?.getD []) = true) (small : written (parts[0]?.getD []) < 2 ^ 31)
    (few : parts.length = 4 → written (parts[2]?.getD []) < 2 ^ 63) (one : Line) :
    matchesParts parts one = true ↔ Names parts one := by
  have exact_ : parseInt 32 (parts[0]?.getD []) = written (parts[0]?.getD []) := Nat.min_eq_left (by omega)
  unfold matchesParts Names
  simp only [Bool.and_eq_true, decide_eq_true_eq, exact_, decimalOf_iff pid, exists_eq_right, and_assoc]
  refine and_congr_right fun _ => and_congr_right fun _ => ?_
  by_cases four : parts.length = 4
  · have exact_ : parseInt 64 (parts[2]?.getD []) = written (parts[2]?.getD []) :=
      Nat.min_eq_left (by have := few four; omega)
    simp only [exact_, decimalOf_iff (index four), exists_eq_right]
    simp [four]
  · simp [four]

theorem resolveRecord_iff (out : Resolution) (open_ : out.outcome = .unresolved) (content : Bytes) (parts : List Bytes) :
    ((resolveRecord r out content parts).outcome = .resolved ↔
      ∃ n, linesWith r (r.lines content) (matchesParts parts) = [n]) ∧
    ∀ n, linesWith r (r.lines content) (matchesParts parts) = [n] →
      (resolveRecord r out content parts).spot = .line n := by
  unfold resolveRecord
  generalize linesWith r (r.lines content) (matchesParts parts) = found
  match found with
  | [] => simp [open_]
  | [number] => simp
  | first :: second :: rest => simp [open_]

theorem singleton_iff {found : List Nat} (apart : found.Nodup) (n : Nat) : found = [n] ↔ ∀ m, m ∈ found ↔ m = n := by
  rw [← List.perm_singleton, List.perm_ext_iff_of_nodup apart (List.nodup_singleton n)]
  simp

theorem wellFormed_parts {name : Bytes} {parts : List Bytes}
    (kind : name ∈ [ascii "connections", ascii "reconstructions", ascii "observations"])
    (form : wellFormed name parts = true) :
    decimalPart (parts[0]?.getD []) = true ∧ (parts.length = 4 → decimalPart (parts[2]?.getD []) = true) := by
  have apart : ascii "reconstructions" ≠ ascii "connections" ∧ ascii "observations" ≠ ascii "connections" ∧
      ascii "observations" ≠ ascii "reconstructions" := by decide
  simp only [List.mem_cons, List.not_mem_nil, or_false] at kind
  unfold wellFormed at form
  rcases kind with rfl | rfl | rfl
  · match parts with
    | [pid, id] => simp_all
    | [] | [_] | _ :: _ :: _ :: _ => simp at form
  · rw [if_neg apart.1, if_pos rfl] at form
    split at form <;> simp_all
  · match parts with
    | [index] => simp_all
    | [] | _ :: _ :: _ => simp [apart] at form

theorem resolve_eq {name rest : Bytes}
    (kind : name ∈ [ascii "connections", ascii "reconstructions", ascii "observations"])
    (form : wellFormed name (split 47 rest) = true) :
    resolve r c t (name ++ 58 :: rest) =
      match memberOf c t name with
      | .error why => { reference := name ++ 58 :: rest, outcome := .unresolved, why := .unread why }
      | .ok (member, content) =>
        if name = ascii "observations" then
          if parseInt 64 ((split 47 rest)[0]?.getD []) < (r.lines content).length then
            { reference := name ++ 58 :: rest, outcome := .resolved, member, matched := 1
              spot := .line (parseInt 64 ((split 47 rest)[0]?.getD []) + 1) }
          else { reference := name ++ 58 :: rest, outcome := .unresolved, member
                 why := .observations (r.lines content).length }
        else resolveRecord r { reference := name ++ 58 :: rest, outcome := .unresolved, member } content (split 47 rest) := by
  have some_ : rest ≠ [] := by
    rintro rfl
    have := (wellFormed_parts kind form).1
    simp [split, decimalPart] at this
  have cuts : cut 58 (name ++ 58 :: rest) = (name, rest, true) := by
    simp only [List.mem_cons, List.not_mem_nil, or_false] at kind
    rcases kind with rfl | rfl | rfl <;> rfl
  have other : name ≠ ascii "account" := by
    rintro rfl
    exact absurd kind (by decide)
  simp only [resolve, cuts, some_, other, kind, form, Bool.true_eq_false, or_self, false_and, if_false, not_true_eq_false,
    and_false, ne_eq, not_false_eq_true]

/-- A bundle whose one connection is of the largest process number there is. -/
def sampleReader : Reader where
  lines content := [content]
  short _ := by simp
  decode _ := some { own := { id := ascii "7", pid := 2147483647 } }
  accountPath _ := false
  account _ _ := false

end EdgeObserver.Contract
