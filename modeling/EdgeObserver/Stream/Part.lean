import EdgeObserver.Text

/-!
# Stream parts

A direction of a connection is given to its readers as parts: runs of
consecutive offsets that carry bytes or are holes.
-/

set_option autoImplicit false

namespace EdgeObserver.Stream

inductive GapReason where
  | none
  | missing
  | truncated
  | other (code : Nat)
  deriving DecidableEq

def GapReason.text : GapReason → String
  | .none => "none"
  | .missing => "missing"
  | .truncated => "truncated"
  | .other code => "gap(" ++ toString code ++ ")"

def GapReason.named : GapReason → Bool
  | .other _ => false
  | _ => true

structure Part where
  offset : Nat
  length : Nat
  gap : GapReason := .none
  bytes : Bytes := []
  deriving DecidableEq

def maxUint64 : Nat := 2 ^ 64 - 1

inductive InvalidPart where
  | coversNothing
  | unknownGap (gap : GapReason)
  | wrongLength (bytes length : Nat)
  | holeWithBytes (gap : GapReason) (bytes : Nat)
  | pastLastOffset (offset length : Nat)

namespace Part

def validate (part : Part) : Except InvalidPart Unit :=
  if part.length = 0 then .error .coversNothing
  else if part.gap.named = false then .error (.unknownGap part.gap)
  else if part.gap = .none ∧ part.bytes.length ≠ part.length then
    .error (.wrongLength part.bytes.length part.length)
  else if part.gap ≠ .none ∧ part.bytes.length ≠ 0 then
    .error (.holeWithBytes part.gap part.bytes.length)
  else if part.offset > maxUint64 - part.length then
    .error (.pastLastOffset part.offset part.length)
  else .ok ()

structure Formed (part : Part) : Prop where
  covers : 0 < part.length
  carried : part.gap = .none → part.bytes.length = part.length
  holed : part.gap ≠ .none → part.bytes = []

structure Valid (part : Part) : Prop extends part.Formed where
  named : part.gap.named = true
  reaches : part.offset + part.length ≤ maxUint64

theorem valid_iff (part : Part) :
    part.Valid ↔ 0 < part.length ∧ (part.gap = .none → part.bytes.length = part.length) ∧
      (part.gap ≠ .none → part.bytes = []) ∧ part.gap.named = true ∧
      part.offset + part.length ≤ maxUint64 :=
  ⟨fun valid => ⟨valid.covers, valid.carried, valid.holed, valid.named, valid.reaches⟩,
    fun ⟨covers, carried, holed, named, reaches⟩ => ⟨⟨covers, carried, holed⟩, named, reaches⟩⟩

instance (part : Part) : Decidable part.Valid := decidable_of_iff _ part.valid_iff.symm

theorem formed_of_validate {part : Part} (accepted : part.validate = .ok ()) : part.Formed := by
  unfold validate at accepted
  split at accepted
  · cases accepted
  rename_i covers
  split at accepted
  · cases accepted
  split at accepted
  · cases accepted
  rename_i carried
  split at accepted
  · cases accepted
  rename_i holed
  refine ⟨by omega, fun bytes => ?_, fun gap => ?_⟩
  · simpa [bytes] using carried
  · simpa [gap] using holed

theorem validate_eq_ok_iff {part : Part} (fits : part.length ≤ maxUint64) :
    part.validate = .ok () ↔ part.Valid := by
  constructor
  · intro accepted
    have formed := formed_of_validate accepted
    unfold validate at accepted
    split at accepted
    · cases accepted
    split at accepted
    · cases accepted
    rename_i named
    split at accepted
    · cases accepted
    split at accepted
    · cases accepted
    · split at accepted
      · cases accepted
      · exact ⟨formed, by simpa using named, by omega⟩
  · intro valid
    have covers := valid.covers
    have reaches := valid.reaches
    unfold validate
    rw [if_neg (by omega), if_neg (by simp [valid.named]), if_neg (fun ⟨bytes, wrong⟩ => wrong (valid.carried bytes)),
      if_neg (fun ⟨gap, wrong⟩ => wrong (by simp [valid.holed gap])), if_neg (by omega)]

def ofBytes (offset : Nat) (bytes : Bytes) : Part := { offset, length := bytes.length, bytes }

def tail (part : Part) (n : Nat) : Part :=
  { part with
    offset := part.offset + n
    length := part.length - n
    bytes := if part.gap = .none then part.bytes.drop n else part.bytes }

def head (part : Part) (n : Nat) : Part :=
  { part with
    length := n
    bytes := if part.gap = .none then part.bytes.take n else part.bytes }

end Part

end EdgeObserver.Stream
