import EdgeObserver.Connection.Evidence
import EdgeObserver.Connection.Valid

/-!
# A connection's input

What a worker holds of one connection: its fragments, as far as they arrived,
what vouches for them, and how far each direction is placed.
-/

set_option autoImplicit false

namespace EdgeObserver.Processing

open Fragment

inductive Reason where
  | captureHole
  | positionsUnknown
  | incompleteMessage
  | malformedMessage
  | ambiguousFraming
  | processingLimit
  | unsupportedMessage
  | unpairedExchange
  | unparsedSuffix
  | connectionCut
  | contentCodingUnsupported
  | contentDecodingFailed
  | contentDecodedTooLarge
  | contentDecodingTooCostly
  deriving DecidableEq

structure PrefixCut where
  offset : Nat
  reason : Reason

/-- One direction's placement: where its next fragment must begin, the producer
number last placed, where it stopped being placeable, and the end of the bytes
given to parsing. -/
structure Placing where
  finish : Nat := 0
  produced : UInt64 := 0
  stop : Option PrefixCut := none
  fed : Nat := 0

def Placing.stopAt (p : Placing) (offset : Nat) (reason : Reason) : Placing :=
  if p.stop.all (fun stop => decide (offset < stop.offset)) then { p with stop := some { offset, reason } } else p

/-- The input of one connection. `arrived` counts its fragments and `highest` is
the largest sequence among them; every fragment arrived through `held`, and was
given to parsing through `fed`. -/
structure Input where
  process : Process
  id : Nat
  retirement : Option Connection.Record := none
  invalid : Bool := false
  unfed : Nat → Option Record := fun _ => none
  arrived : Nat := 0
  highest : Nat := 0
  held : Nat := 0
  fed : Nat := 0
  evidence : Evidence := {}
  place : Direction → Placing := fun _ => {}
  cut : Bool := false
  lost : Bool := false
  reached : Direction → Nat := fun _ => 0
  final : Bool := false

namespace Input

def keeps (was now : DirectionEvidence) : Bool :=
  if was.cut && (!now.cut || now.fromOffset != was.fromOffset) then false
  else decide (was.established ≤ now.established)

def follows (earlier later : Evidence) : Bool :=
  if !earlier.taken then true
  else if later.identity ≠ earlier.identity ∨ later.occupancy ≠ earlier.occupancy ∨
      later.origin ≠ earlier.origin then false
  else keeps earlier.sent later.sent && keeps earlier.received later.received

def vouch (b : Input) (e : Evidence) : Input :=
  { b with
    evidence := e
    place := fun d =>
      if (e.inDirection d).cut then (b.place d).stopAt (e.inDirection d).fromOffset .positionsUnknown
      else b.place d }

/-- Every fragment through the first that has not arrived is held, and each
evidence among them checked against the one before it. -/
def hold : Nat → Input → Input
  | 0, b => b
  | fuel + 1, b =>
    match b.unfed (b.held + 1) with
    | none => b
    | some f =>
      let b := { b with held := b.held + 1 }
      if f.evidence.taken && !b.invalid then
        if follows b.evidence f.evidence then hold fuel (b.vouch f.evidence)
        else hold fuel { b with invalid := true }
      else hold fuel b

def reach (b : Input) (f : Record) : Direction → Nat := fun d =>
  if d = f.direction ∧ d ≠ .unknown then max (b.reached d) f.finish else b.reached d

/-- Whether a fragment refuses its connection: a second one with its sequence,
one already given to parsing, or one no consumer can use. -/
def refuses (b : Input) (f : Record) : Bool :=
  (b.unfed f.sequence).isSome || (f.sequence != 0 && decide (f.sequence ≤ b.fed)) ||
    f.validate != .ok () || f.sequence == 0 || decide (f.finish < f.offset) ||
    (f.evidence.taken && f.evidenced != .ok ())

def acceptFragment (b : Input) (f : Record) : Input :=
  if b.cut || b.lost then { b with arrived := b.arrived + 1, reached := b.reach f }
  else
    let b : Input :=
      { b with
        invalid := b.invalid || b.id == 0 || b.refuses f
        unfed := Function.update b.unfed f.sequence (some f)
        arrived := b.arrived + 1
        highest := max b.highest f.sequence
        reached := b.reach f }
    hold (b.highest - b.held) b

def unusable (r : Connection.Record) : Bool :=
  r.validate != .ok () || decide (r.process.pid ≤ 0) || r.handle.executed != r.executed.key ||
    !r.fragments.known || decide (r.fragments.value < 0) || !r.representable

def acceptRetirement (b : Input) (r : Connection.Record) : Input :=
  if b.retirement.isSome then { b with invalid := true }
  else { b with retirement := some r, invalid := b.invalid || b.id == 0 || unusable r }

def certifiedThrough (b : Input) (retired : Bool) : Nat :=
  if retired then b.held
  else if b.evidence.taken && decide (b.evidence.through ≤ b.held) then b.evidence.through
  else 0

def certifyOne (place : Direction → Placing) (p : Connection.Placement) : Direction → Placing :=
  match p.positions with
  | .unknownFrom =>
    Function.update place p.direction ((place p.direction).stopAt p.fromOffset .positionsUnknown)
  | .unknownThroughout =>
    Function.update place p.direction ((place p.direction).stopAt 0 .positionsUnknown)
  | .established | .unset => place

def certify (b : Input) : Input :=
  match b.retirement with
  | none => b
  | some r => { b with place := r.placements.foldl certifyOne b.place }

end Input

namespace Placing

/-- A fragment placed where its direction stands, with the stops it shows: an
offset or a producer number skipped, and bytes not kept. -/
def place (p : Placing) (f : Record) : Placing :=
  let p := if f.offset > p.finish then p.stopAt p.finish .captureHole else p
  let p :=
    if f.produced = 0 then p
    else if f.produced = p.produced + 1 + UInt64.ofNat f.empties then { p with produced := f.produced }
    else { p.stopAt p.finish .captureHole with produced := f.produced }
  let p := { p with finish := f.finish }
  if f.payload.length < f.length.toNat then p.stopAt (f.offset + f.payload.length) .captureHole else p

def keep (p : Placing) (f : Record) : Nat :=
  match p.stop with
  | none => f.payload.length
  | some stop => if f.offset ≥ stop.offset then 0 else min f.payload.length (stop.offset - f.offset)

def feed (p : Placing) (f : Record) (keep : Nat) : Placing :=
  if keep ≠ 0 then { p with fed := f.offset + keep } else p

end Placing

namespace Input

/-- The next fragment placed, in sequence order, and the bytes of it that may be
read. Offsets that overlap refuse the connection. -/
def take (b : Input) (retired : Bool) : Input × Option (Record × Bytes) :=
  match b.unfed (b.fed + 1) with
  | none => ({ b with invalid := true }, none)
  | some f =>
    if f.direction = .unknown ∨ (retired = true ∧ b.retirement.bind (·.placement f.direction) = none) ∨
        f.offset < (b.place f.direction).finish then
      ({ b with invalid := true }, none)
    else
      let p := (b.place f.direction).place f
      let keep := p.keep f
      ({ b with
          place := Function.update b.place f.direction (p.feed f keep)
          unfed := Function.update b.unfed (b.fed + 1) none
          fed := b.fed + 1 },
        some (f, f.payload.take keep))

def ready (b : Input) (final lost : Bool) : Input × Bool :=
  match b.retirement with
  | none => (b, false)
  | some r =>
    let closed := final || r.how == .handleReleased || r.how == .socketClosed
    let counted := r.fragments.value.toNatClampNeg
    if (b.cut || b.lost) && !b.invalid then
      if decide (r.fragments.value < 0) || decide (counted < b.arrived) then ({ b with invalid := true }, true)
      else if b.arrived != counted && !lost then (b, final)
      else (b, closed)
    else
      let b := { b with
        invalid := b.invalid || decide (r.fragments.value < 0) || decide (counted < b.highest) }
      if b.invalid then (b, true)
      else if b.arrived != counted then (b, false)
      else (b, closed)

end Input

/-! ## What is established stays so -/

structure Kept (was now : DirectionEvidence) : Prop where
  established : was.established ≤ now.established
  cut : was.cut = true → now.cut = true ∧ now.fromOffset = was.fromOffset

theorem keeps_iff {was now : DirectionEvidence} : Input.keeps was now = true ↔ Kept was now := by
  unfold Input.keeps
  constructor
  · intro keeps
    split at keeps
    · cases keeps
    rename_i stays
    refine ⟨by simpa using keeps, fun cut => ?_⟩
    rw [cut] at stays
    simpa using stays
  · rintro ⟨established, cut⟩
    rw [if_neg]
    · simpa using established
    · intro moved
      simp only [Bool.and_eq_true, Bool.or_eq_true, Bool.not_eq_true', bne_iff_ne] at moved
      obtain ⟨still, there⟩ := cut moved.1
      simp [still, there] at moved

theorem Kept.refl (e : DirectionEvidence) : Kept e e := ⟨Nat.le_refl _, fun cut => ⟨cut, rfl⟩⟩

theorem Kept.trans {e f g : DirectionEvidence} (first : Kept e f) (second : Kept f g) : Kept e g := by
  refine ⟨Nat.le_trans first.established second.established, fun cut => ?_⟩
  obtain ⟨still, there⟩ := first.cut cut
  obtain ⟨later, same⟩ := second.cut still
  exact ⟨later, same.trans there⟩

theorem follows_kept {earlier later : Evidence} (taken : earlier.taken = true)
    (follows : Input.follows earlier later = true) (d : Direction) :
    Kept (earlier.inDirection d) (later.inDirection d) := by
  unfold Input.follows at follows
  rw [taken] at follows
  simp only [Bool.not_true, Bool.false_eq_true, if_false] at follows
  split at follows
  · cases follows
  rw [Bool.and_eq_true, keeps_iff, keeps_iff] at follows
  cases d with
  | unknown => exact Kept.refl _
  | sent => exact follows.1
  | received => exact follows.2

theorem chain_kept {evidences : List Evidence} (taken : ∀ e ∈ evidences, e.taken = true)
    (chain : evidences.IsChain fun earlier later => Input.follows earlier later = true) (d : Direction) :
    evidences.Pairwise fun earlier later => Kept (earlier.inDirection d) (later.inDirection d) := by
  have kept : evidences.IsChain fun earlier later => Kept (earlier.inDirection d) (later.inDirection d) := by
    induction evidences with
    | nil => exact .nil
    | cons e rest ih =>
      cases rest with
      | nil => exact .singleton _
      | cons next rest =>
        rw [List.isChain_cons_cons] at chain ⊢
        exact ⟨follows_kept (taken e (by simp)) chain.1 d,
          ih (fun e member => taken e (List.mem_cons_of_mem _ member)) chain.2⟩
  have transitive : IsTrans Evidence fun earlier later => Kept (earlier.inDirection d) (later.inDirection d) :=
    ⟨fun _ _ _ first second => first.trans second⟩
  exact List.isChain_iff_pairwise.mp kept

variable {p : Connection.Placement} {r : Connection.Record} {d : Direction} {place : Direction → Placing} {e : Evidence}
  {stop : PrefixCut}

theorem stopAt_stop (p : Placing) (offset : Nat) (reason : Reason)
    (stopped : (p.stopAt offset reason).stop = some stop) : p.stop = some stop ∨ stop.offset = offset := by
  unfold Placing.stopAt at stopped
  split at stopped
  · cases stopped
    exact .inr rfl
  · exact .inl stopped

theorem certifyOne_stop (stopped : (Input.certifyOne place p d).stop = some stop) :
    (place d).stop = some stop ∨ (p.direction = d ∧ p.placeable stop.offset = false) := by
  by_cases same : p.direction = d
  · subst same
    unfold Input.certifyOne at stopped
    unfold Connection.Placement.placeable
    cases positions : p.positions with
    | unset | established =>
      rw [positions] at stopped
      exact .inl stopped
    | unknownFrom =>
      simp only [positions, Function.update_self] at stopped
      rcases stopAt_stop _ _ _ stopped with before | there
      · exact .inl before
      · exact .inr ⟨rfl, by simp [there]⟩
    | unknownThroughout => 
      simp only [positions, Function.update_self] at stopped
      rcases stopAt_stop _ _ _ stopped with before | there
      · exact .inl before
      · exact .inr ⟨rfl, rfl⟩
  · left
    unfold Input.certifyOne at stopped
    have other : d ≠ p.direction := fun is => same is.symm
    cases positions : p.positions with
    | unset | established =>
      rw [positions] at stopped
      exact stopped
    | unknownFrom | unknownThroughout =>
      simp only [positions, Function.update_of_ne other] at stopped
      exact stopped

theorem certify_stop {placements : List Connection.Placement} (stopped : (placements.foldl Input.certifyOne place d).stop = some stop) :
    (place d).stop = some stop ∨ ∃ p ∈ placements, p.direction = d ∧ p.placeable stop.offset = false := by
  induction placements generalizing place with
  | nil => exact .inl stopped
  | cons p rest ih =>
    rcases ih stopped with before | ⟨later, member, is⟩
    · rcases certifyOne_stop before with was | is
      · exact .inl was
      · exact .inr ⟨p, List.mem_cons_self, is⟩
    · exact .inr ⟨later, List.mem_cons_of_mem _ member, is⟩

theorem placement_of_mem (distinct : (r.placements.map Connection.Placement.direction).Nodup) (member : p ∈ r.placements) : r.placement p.direction = some p := by
  unfold Connection.Record.placement
  generalize r.placements = placements at distinct member
  induction placements with
  | nil => cases member
  | cons first rest ih =>
    rw [List.map_cons, List.nodup_cons] at distinct
    rcases List.mem_cons.mp member with rfl | inside
    · simp
    rw [List.find?_cons_of_neg]
    · exact ih distinct.2 inside
    · intro same
      have same : first.direction = p.direction := by simpa using same
      exact distinct.1 (same ▸ List.mem_map_of_mem inside)

theorem agrees_placeable (agrees : r.agrees e = .ok ())
    {offset : Nat} (below : offset < (e.inDirection d).established) :
    ∃ p, r.placement d = some p ∧ p.placeable offset = true := by
  obtain ⟨_, sent, received⟩ := r.agrees_in agrees
  cases d with
  | unknown => simp [Evidence.inDirection, DirectionEvidence.established] at below
  | sent => exact Connection.Record.agreesIn_placeable sent below
  | received => exact Connection.Record.agreesIn_placeable received below

theorem certify_above {b : Input}
    (agrees : r.agrees e = .ok ()) (retired : b.retirement = some r) (valid : r.validate = .ok ())
    (stopped : (b.certify.place d).stop = some stop) :
    (b.place d).stop = some stop ∨ (e.inDirection d).established ≤ stop.offset := by
  unfold Input.certify at stopped
  rw [retired] at stopped
  rcases certify_stop stopped with before | ⟨p, listed, rfl, unplaced⟩
  · exact .inl before
  right
  by_contra below
  obtain ⟨found, is, placed⟩ := agrees_placeable agrees (Nat.lt_of_not_le below)
  rw [placement_of_mem (r.validate_distinct valid) listed] at is
  cases is
  simp [unplaced] at placed

/-- Along every chain of evidences each of which follows the one before it, what
is established in a direction never decreases, and a cut stays where it was made,
above all that was established before it. A retirement that agrees with each of
them places every offset any of them established, and so, applied to what is
still to be placed, stops no direction below one. -/
theorem established_never_retracted (evidences : List Evidence) (taken : ∀ e ∈ evidences, e.taken = true)
    (chain : evidences.IsChain fun earlier later => Input.follows earlier later = true) (d : Direction) :
    (evidences.Pairwise fun earlier later =>
      (earlier.inDirection d).established ≤ (later.inDirection d).established ∧
      ((earlier.inDirection d).cut = true → (later.inDirection d).cut = true ∧
        (later.inDirection d).fromOffset = (earlier.inDirection d).fromOffset) ∧
      ((later.inDirection d).cut = true → (earlier.inDirection d).established ≤ (later.inDirection d).fromOffset)) ∧
    ∀ r : Connection.Record, (∀ e ∈ evidences, r.agrees e = .ok ()) → ∀ e ∈ evidences,
      (∀ offset < (e.inDirection d).established, ∃ p, r.placement d = some p ∧ p.placeable offset = true) ∧
      ∀ b : Input, b.retirement = some r → r.validate = .ok () → ∀ stop,
        (b.certify.place d).stop = some stop →
          (b.place d).stop = some stop ∨ (e.inDirection d).established ≤ stop.offset := by
  constructor
  · refine (chain_kept taken chain d).imp ?_
    intro earlier later kept
    refine ⟨kept.established, kept.cut, fun cut => ?_⟩
    have established := kept.established
    rwa [DirectionEvidence.established.eq_1 (later.inDirection d), if_pos cut] at established
  intro r agrees e member
  exact ⟨fun _ below => agrees_placeable (agrees e member) below,
    fun _ retired valid _ stopped => certify_above (agrees e member) retired valid stopped⟩

def lossyIdentity : Identity where
  connection := 1
  process := { pid := 7 }
  executed := { namespaces := { device := 1 }, pid := 7, generation := 1 }
  address := 16
  generation := 3
  networkDevice := 0
  networkInode := 0
  firstSeen := 5
  opened := 0

def lossyEvidence (through : Nat) (sent received : DirectionEvidence) : Evidence :=
  { identity := some lossyIdentity, occupancy := 2, origin := .birth, through, sent, received }

def lossyEvidences : List Evidence :=
  let sent : DirectionEvidence := { limit := 10, first := 1, numbered := 1, resolved := 1 }
  let received : DirectionEvidence := { limit := 20, first := 1, numbered := 1, resolved := 1 }
  [lossyEvidence 1 sent {}, lossyEvidence 2 sent received,
    lossyEvidence 3 { limit := 15, cut := true, fromOffset := 10, lost := 1, first := 1, numbered := 3, resolved := 1 }
      received]

def lossyRetirement : Connection.Record where
  id := 1
  handle := { executed := lossyIdentity.executed.key, address := 16, generation := 3 }
  executed := lossyIdentity.executed
  process := { pid := 7 }
  network := {}
  firstSeen := 5
  how := .stillOpen
  placements :=
    [{ connection := 1, direction := .sent, positions := .unknownFrom, fromOffset := 10,
       because := .observationLost, lost := Connection.counted 1 },
      { connection := 1, direction := .received, positions := .established, lost := Connection.counted 0 }]
  fragments := Connection.counted 3

theorem established_never_retracted_lossy :
    (∀ e ∈ lossyEvidences, e.taken = true) ∧
      (lossyEvidences.IsChain fun earlier later => Input.follows earlier later = true) ∧
      (∀ e ∈ lossyEvidences, lossyRetirement.agrees e = .ok ()) ∧
      ∃ p, lossyRetirement.placement .sent = some p ∧ p.placeable 9 = true :=
  ⟨by decide, by decide, by decide,
    ((established_never_retracted lossyEvidences (by decide) (by decide) .sent).2 lossyRetirement (by decide)
      (lossyEvidence 3
        { limit := 15, cut := true, fromOffset := 10, lost := 1, first := 1, numbered := 3, resolved := 1 }
        { limit := 20, first := 1, numbered := 1, resolved := 1 })
      (by decide)).1 9 (by decide)⟩

end EdgeObserver.Processing
