import EdgeObserver.Connection.Record

/-!
# A connection record against the evidence before it

What a consumer held of a connection before its record arrived, and whether the
record contradicts it.
-/

set_option autoImplicit false

namespace EdgeObserver.Connection

open Fragment

inductive Disagreement where
  | invalid (why : Fragment.Invalid)
  | process (record held : Nat)
  | executed (record : Nat)
  | handle (record : Nat) (address : UInt64) (generation : Nat)
  | network (record : Nat)
  | firstSeen (record : Nat) (seen held : Time)
  | opened (record : Nat)
  | fragments (record : Nat) (counted : Count) (through : Nat)
  | noPlacement (record : Nat) (direction : Direction) (limit : Nat)
  | established (placement : Placement) (limit : Nat)
  | cutElsewhere (placement : Placement) (cut : Nat)
  | lostCounted (placement : Placement)
  | lostFewer (placement : Placement) (lost : UInt64)
  deriving DecidableEq

def Placement.placeable (p : Placement) (offset : Nat) : Bool :=
  match p.positions with
  | .established => true
  | .unknownFrom => offset < p.fromOffset
  | .unknownThroughout | .unset => false

def Record.agreesIn (r : Record) (direction : Direction) (held : DirectionEvidence) : Except Disagreement Unit :=
  -- The evidence established nothing here, so there is nothing to contradict.
  if !held.cut && held.limit == 0 then .ok ()
  else match r.placement direction with
    | none => .error (.noPlacement r.id direction held.limit)
    | some p =>
      if !held.cut then
        if p.whole || (p.positions == .unknownFrom && decide (held.limit ≤ p.fromOffset)) then .ok ()
        else .error (.established p held.limit)
      else if (held.fromOffset = 0 ∧ p.positions ≠ .unknownThroughout) ∨
          (held.fromOffset ≠ 0 ∧ (p.positions ≠ .unknownFrom ∨ p.fromOffset ≠ held.fromOffset)) then
        .error (.cutElsewhere p held.fromOffset)
      else if held.lostUncounted && p.lost.known then .error (.lostCounted p)
      else if p.lost.known && decide (p.lost.value < held.lost.toInt64) then .error (.lostFewer p held.lost)
      else .ok ()

def Record.agrees (r : Record) (e : Evidence) : Except Disagreement Unit :=
  match e.validate with
  | .error why => .error (.invalid why)
  | .ok () =>
    match e.identity with
    | none => .error (.invalid (.noIdentity e.through))
    | some identity =>
      if r.id ≠ identity.connection ∨ r.process ≠ identity.process then
        .error (.process r.id identity.connection)
      else if r.executed ≠ identity.executed ∨ r.handle.executed ≠ identity.executed.key then
        .error (.executed r.id)
      else if r.handle.address ≠ identity.address ∨ r.handle.generation ≠ identity.generation then
        .error (.handle r.id identity.address identity.generation)
      else if r.network ≠ { device := identity.networkDevice, inode := identity.networkInode } then
        .error (.network r.id)
      else if r.firstSeen ≠ identity.firstSeen then
        .error (.firstSeen r.id r.firstSeen identity.firstSeen)
      else if r.openedKnown = decide (identity.opened = 0) ∨ r.opened ≠ identity.opened then
        .error (.opened r.id)
      else if !r.fragments.known || decide (r.fragments.value < 0) ||
          decide (r.fragments.value.toNatClampNeg < e.through) then
        .error (.fragments r.id r.fragments e.through)
      else do
        r.agreesIn .sent e.sent
        r.agreesIn .received e.received

variable {r : Record} {direction : Direction} {held : DirectionEvidence}

theorem Record.agreesIn_placeable (agrees : r.agreesIn direction held = .ok ()) {offset : Nat}
    (below : offset < held.established) : ∃ p, r.placement direction = some p ∧ p.placeable offset = true := by
  unfold agreesIn at agrees
  unfold DirectionEvidence.established at below
  split at agrees
  · rename_i nothing
    simp only [Bool.and_eq_true, Bool.not_eq_true', beq_iff_eq] at nothing
    obtain ⟨uncut, none⟩ := nothing
    rw [uncut, none] at below
    simp at below
  cases found : r.placement direction with
  | none =>
    rw [found] at agrees
    cases agrees
  | some p =>
    rw [found] at agrees
    refine ⟨p, rfl, ?_⟩
    dsimp only at agrees
    cases cut : held.cut with
    | false =>
      simp only [cut, Bool.not_false, Bool.false_eq_true, if_true, if_false] at agrees below
      split at agrees
      · rename_i reaches
        simp only [Placement.whole, Bool.or_eq_true, Bool.and_eq_true, beq_iff_eq, decide_eq_true_eq] at reaches
        rcases reaches with whole | ⟨cutAt, later⟩
        · simp [Placement.placeable, whole]
        · simp only [Placement.placeable, cutAt, decide_eq_true_eq]
          omega
      · cases agrees
    | true =>
      simp only [cut, Bool.not_true, Bool.false_eq_true, if_true, if_false] at agrees below
      split at agrees
      · cases agrees
      rename_i same
      push Not at same
      obtain ⟨cutAt, there⟩ := same.2 (by omega)
      simp only [Placement.placeable, cutAt, decide_eq_true_eq]
      omega

theorem Record.agrees_in {e : Evidence} (accepted : r.agrees e = .ok ()) :
    e.validate = .ok () ∧ r.agreesIn .sent e.sent = .ok () ∧ r.agreesIn .received e.received = .ok () := by
  unfold agrees at accepted
  cases valid : e.validate with
  | error why =>
    rw [valid] at accepted
    cases accepted
  | ok =>
    rw [valid] at accepted
    refine ⟨rfl, ?_⟩
    dsimp only at accepted
    split at accepted
    · cases accepted
    -- One split for each of the record's own facts.
    iterate 7
      split at accepted
      · cases accepted
    cases sent : r.agreesIn .sent e.sent with
    | error why =>
      rw [sent] at accepted
      cases accepted
    | ok =>
      rw [sent] at accepted
      exact ⟨rfl, accepted⟩

end EdgeObserver.Connection
