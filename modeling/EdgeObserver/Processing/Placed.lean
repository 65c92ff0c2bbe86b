import EdgeObserver.Processing.Input

/-!
# What was given to parsing stays below every stop

Where the producer's evidence reaches at least as far as the fragments it was taken
through, no stop is ever recorded below a byte that was already given to parsing.
-/

set_option autoImplicit false

namespace EdgeObserver.Processing

open Fragment

/-! ## One direction -/

namespace Placing

@[simp] theorem stopAt_fed (p : Placing) (offset : Nat) (reason : Reason) : (p.stopAt offset reason).fed = p.fed := by
  unfold stopAt
  split <;> rfl

@[simp] theorem stopAt_finish (p : Placing) (offset : Nat) (reason : Reason) :
    (p.stopAt offset reason).finish = p.finish := by
  unfold stopAt
  split <;> rfl

theorem stopAt_le (p : Placing) (offset : Nat) (reason : Reason) :
    ∃ stop, (p.stopAt offset reason).stop = some stop ∧ stop.offset ≤ offset ∧
      ∀ before, p.stop = some before → stop.offset ≤ before.offset := by
  unfold stopAt
  cases was : p.stop with
  | none => exact ⟨{ offset, reason }, by simp, Nat.le_refl _, nofun⟩
  | some before =>
    by_cases earlier : offset < before.offset
    · refine ⟨{ offset, reason }, by simp [earlier], Nat.le_refl _, ?_⟩
      rintro _ ⟨⟩
      exact Nat.le_of_lt earlier
    · refine ⟨before, by simp [earlier, was], Nat.le_of_not_lt earlier, ?_⟩
      rintro _ ⟨⟩
      exact Nat.le_refl _

structure Stops (low : Nat) (p q : Placing) : Prop where
  fed : q.fed = p.fed
  above : ∀ stop, q.stop = some stop → p.stop = some stop ∨ low ≤ stop.offset
  stays : ∀ before, p.stop = some before → ∃ stop, q.stop = some stop ∧ stop.offset ≤ before.offset

theorem Stops.refl (low : Nat) {p q : Placing} (fed : q.fed = p.fed) (stop : q.stop = p.stop) : Stops low p q :=
  ⟨fed, fun _ is => .inl (stop ▸ is), fun before is => ⟨before, stop.trans is, Nat.le_refl _⟩⟩

theorem Stops.trans {low : Nat} {p q r : Placing} (first : Stops low p q) (second : Stops low q r) : Stops low p r := by
  refine ⟨second.fed.trans first.fed, fun stop is => ?_, fun before is => ?_⟩
  · rcases second.above stop is with was | above
    · exact first.above stop was
    · exact .inr above
  · obtain ⟨mid, was, le⟩ := first.stays before is
    obtain ⟨stop, now, below⟩ := second.stays mid was
    exact ⟨stop, now, Nat.le_trans below le⟩

theorem stops_stopAt {low offset : Nat} (p : Placing) (reason : Reason) (above : low ≤ offset) :
    Stops low p (p.stopAt offset reason) := by
  refine ⟨stopAt_fed p offset reason, fun stop is => ?_, fun before is => ?_⟩
  · rcases stopAt_stop p offset reason is with was | there
    · exact .inl was
    · exact .inr (there ▸ above)
  · obtain ⟨stop, now, -, below⟩ := stopAt_le p offset reason
    exact ⟨stop, now, below before is⟩

theorem numbered_stops {low : Nat} (p : Placing) (f : Record) (stands : low ≤ p.finish) :
    Stops low p (if f.produced = 0 then p
      else if f.produced = p.produced + 1 + UInt64.ofNat f.empties then { p with produced := f.produced }
      else { p.stopAt p.finish .captureHole with produced := f.produced }) := by
  split
  · exact .refl _ rfl rfl
  split
  · exact .refl _ rfl rfl
  · have stopped := stops_stopAt p .captureHole stands
    exact { stopped with }

theorem short_stops {low : Nat} (p : Placing) (f : Record) (after : low ≤ f.offset) :
    Stops low p
      (if f.payload.length < f.length.toNat then
        ({ p with finish := f.finish } : Placing).stopAt (f.offset + f.payload.length) .captureHole
      else { p with finish := f.finish }) := by
  have moved : Stops low p { p with finish := f.finish } := .refl _ rfl rfl
  split
  · exact moved.trans (stops_stopAt _ _ (Nat.le_trans after (Nat.le_add_right _ _)))
  · exact moved

theorem place_stops (p : Placing) (f : Record) (after : p.finish ≤ f.offset) : Stops p.finish p (p.place f) := by
  unfold place
  by_cases hole : f.offset > p.finish
  · rw [if_pos hole]
    exact (stops_stopAt p _ (Nat.le_refl _)).trans
      ((numbered_stops _ f (Nat.le_of_eq (stopAt_finish _ _ _).symm)).trans (short_stops _ f after))
  · rw [if_neg hole]
    exact (numbered_stops p f (Nat.le_refl _)).trans (short_stops _ f after)

@[simp] theorem place_finish (p : Placing) (f : Record) : (p.place f).finish = f.finish := by
  unfold place
  simp only
  split <;> simp

structure Ok (p : Placing) : Prop where
  finish : p.fed ≤ p.finish
  stop : ∀ stop, p.stop = some stop → p.fed ≤ stop.offset

theorem Ok.stops {p q : Placing} (ok : p.Ok) (stops : Stops p.fed p q) (finish : p.finish ≤ q.finish) : q.Ok := by
  refine ⟨stops.fed ▸ Nat.le_trans ok.finish finish, fun stop is => ?_⟩
  rw [stops.fed]
  rcases stops.above stop is with was | above
  · exact ok.stop stop was
  · exact above

theorem Stops.lower {low less : Nat} {p q : Placing} (stops : Stops low p q) (le : less ≤ low) : Stops less p q :=
  ⟨stops.fed, fun stop is => (stops.above stop is).imp_right (Nat.le_trans le), stops.stays⟩

theorem taken_ok {p : Placing} {f : Record} (ok : p.Ok) (after : p.finish ≤ f.offset)
    (kept : f.payload.length ≤ f.length.toNat) :
    ((p.place f).feed f ((p.place f).keep f)).Ok ∧ p.fed ≤ ((p.place f).feed f ((p.place f).keep f)).fed ∧
      ((p.place f).feed f ((p.place f).keep f)).fed ≤ f.finish ∧
      ∀ before, p.stop = some before →
        ∃ stop, ((p.place f).feed f ((p.place f).keep f)).stop = some stop ∧ stop.offset ≤ before.offset := by
  have stops := place_stops p f after
  have reaches : f.offset ≤ f.finish := Nat.le_add_right _ _
  have placed : (p.place f).Ok :=
    ok.stops (stops.lower ok.finish) (by rw [place_finish]; exact Nat.le_trans after reaches)
  have finish := place_finish p f
  have fed := stops.fed
  have below := ok.finish
  have stays := stops.stays
  generalize p.place f = q at *
  unfold feed
  split
  · rename_i reads
    have short : f.offset + q.keep f ≤ f.finish ∧ ∀ stop, q.stop = some stop → f.offset + q.keep f ≤ stop.offset := by
      unfold keep at reads ⊢
      cases stopped : q.stop with
      | none =>
        rw [stopped] at reads
        exact ⟨Nat.add_le_add_left kept _, nofun⟩
      | some stop =>
        rw [stopped] at reads
        simp only at reads ⊢
        split at reads
        · exact absurd rfl reads
        rename_i inside
        rw [if_neg inside]
        refine ⟨Nat.add_le_add_left (Nat.le_trans (Nat.min_le_left _ _) kept) _, ?_⟩
        rintro _ ⟨⟩
        omega
    exact ⟨⟨finish ▸ short.1, short.2⟩, by simp only; omega, short.1, stays⟩
  · exact ⟨placed, Nat.le_of_eq fed.symm, by omega, stays⟩

end Placing

/-! ## A connection -/

def Promised (fragments : List Record) : Prop :=
  ∀ f ∈ fragments, f.evidence.taken = true → ∀ g ∈ fragments, g.direction ≠ .unknown →
    g.sequence ≤ f.evidence.through → g.finish ≤ (f.evidence.inDirection g.direction).limit

structure Input.Vouched (fragments : List Record) (b : Input) : Prop where
  ok : ∀ d, (b.place d).Ok
  unfed : ∀ sequence f, b.unfed sequence = some f → f ∈ fragments ∧ f.sequence = sequence ∧
    (b.invalid = false → f.payload.length ≤ f.length.toNat)
  untaken : b.evidence.taken = false → ∀ d, (b.place d).fed = 0
  source : b.evidence.taken = true → ∃ f ∈ fragments, f.evidence = b.evidence
  established : b.evidence.taken = true → ∀ d, (b.place d).fed ≤ (b.evidence.inDirection d).established
  cut : b.evidence.taken = true → ∀ d, (b.evidence.inDirection d).cut = true →
    ∃ stop, (b.place d).stop = some stop ∧ stop.offset ≤ (b.evidence.inDirection d).fromOffset

namespace Input

variable {fragments : List Record} {b : Input}

theorem Vouched.refuse (vouched : b.Vouched fragments) : ({ b with invalid := true } : Input).Vouched fragments :=
  { vouched with unfed := fun s g is => ⟨(vouched.unfed s g is).1, (vouched.unfed s g is).2.1, nofun⟩ }

theorem Vouched.fed_le {e : Evidence} (vouched : b.Vouched fragments) (follows : follows b.evidence e = true)
    (d : Direction) : (b.place d).fed ≤ (e.inDirection d).established := by
  cases taken : b.evidence.taken with
  | false =>
    rw [vouched.untaken taken d]
    exact Nat.zero_le _
  | true => exact Nat.le_trans (vouched.established taken d) (follows_kept taken follows d).established

@[simp] theorem vouch_fed (b : Input) (e : Evidence) (d : Direction) :
    ((b.vouch e).place d).fed = (b.place d).fed := by
  unfold vouch
  simp only
  split <;> simp

theorem vouch_vouched {f : Record} (vouched : b.Vouched fragments) (member : f ∈ fragments)
    (taken : f.evidence.taken = true) (follows : Input.follows b.evidence f.evidence = true) :
    (b.vouch f.evidence).Vouched fragments := by
  have fed := vouched.fed_le follows
  have cuts : ∀ d, (f.evidence.inDirection d).cut = true →
      (f.evidence.inDirection d).established = (f.evidence.inDirection d).fromOffset := fun d cut => if_pos cut
  refine ⟨fun d => ?_, vouched.unfed, ?_, fun _ => ⟨f, member, rfl⟩, fun _ d => ?_, fun _ d cut => ?_⟩
  · simp only [vouch]
    split
    · rename_i cut
      exact (vouched.ok d).stops (Placing.stops_stopAt _ _ (cuts d cut ▸ fed d)) (by simp)
    · exact vouched.ok d
  · intro untaken
    exact absurd taken (by simp [show f.evidence.taken = false from untaken])
  · rw [vouch_fed]
    exact fed d
  · obtain ⟨stop, now, below, -⟩ := (b.place d).stopAt_le (f.evidence.inDirection d).fromOffset .positionsUnknown
    have cut : (f.evidence.inDirection d).cut = true := cut
    exact ⟨stop, by simp only [vouch, if_pos cut]; exact now, below⟩

structure Onward (b c : Input) : Prop where
  fed : ∀ d, (b.place d).fed ≤ (c.place d).fed
  cut : c.cut = b.cut
  lost : c.lost = b.lost
  retirement : c.retirement = b.retirement
  invalid : c.invalid = false → b.invalid = false

theorem Onward.refl (b : Input) : Onward b b := ⟨fun _ => Nat.le_refl _, rfl, rfl, rfl, fun valid => valid⟩

theorem Onward.trans {c e : Input} (first : Onward b c) (second : Onward c e) : Onward b e :=
  ⟨fun d => Nat.le_trans (first.fed d) (second.fed d), second.cut.trans first.cut, second.lost.trans first.lost,
    second.retirement.trans first.retirement, fun valid => first.invalid (second.invalid valid)⟩

theorem hold_vouched (fuel : Nat) (vouched : b.Vouched fragments) :
    (hold fuel b).Vouched fragments ∧ Onward b (hold fuel b) := by
  induction fuel generalizing b with
  | zero => exact ⟨vouched, .refl b⟩
  | succ fuel ih =>
    unfold hold
    cases found : b.unfed (b.held + 1) with
    | none => exact ⟨vouched, .refl b⟩
    | some f =>
      have held : ({ b with held := b.held + 1 } : Input).Vouched fragments := { vouched with }
      simp only
      split
      · rename_i checks
        rw [Bool.and_eq_true] at checks
        split
        · rename_i agrees
          obtain ⟨after, onward⟩ := ih (vouch_vouched held (vouched.unfed _ f found).1 checks.1 agrees)
          have first : Onward b (({ b with held := b.held + 1 } : Input).vouch f.evidence) :=
            ⟨fun d => Nat.le_of_eq (vouch_fed _ _ d).symm, rfl, rfl, rfl, fun valid => valid⟩
          exact ⟨after, first.trans onward⟩
        · have refused : ({ b with held := b.held + 1, invalid := true } : Input).Vouched fragments :=
            { vouched.refuse with }
          obtain ⟨after, onward⟩ := ih refused
          have first : Onward b { b with held := b.held + 1, invalid := true } :=
            ⟨fun _ => Nat.le_refl _, rfl, rfl, rfl, nofun⟩
          exact ⟨after, first.trans onward⟩
      · obtain ⟨after, onward⟩ := ih held
        have first : Onward b { b with held := b.held + 1 } :=
          ⟨fun _ => Nat.le_refl _, rfl, rfl, rfl, fun valid => valid⟩
        exact ⟨after, first.trans onward⟩

theorem refuses_kept {f : Record} (accepted : b.refuses f = false) : f.payload.length ≤ f.length.toNat := by
  unfold refuses at accepted
  simp only [Bool.or_eq_false_iff, bne_eq_false_iff_eq] at accepted
  have valid : f.validate = .ok () := by tauto
  unfold Record.validate at valid
  by_contra long
  rw [if_pos (c := _ > _) (Nat.lt_of_not_le long)] at valid
  split at valid
  · cases valid
  · split at valid
    · cases valid
    · split at valid <;> cases valid

theorem acceptFragment_vouched {f : Record} (vouched : b.Vouched fragments) (member : f ∈ fragments) :
    (b.acceptFragment f).Vouched fragments ∧ Onward b (b.acceptFragment f) := by
  unfold acceptFragment
  split
  · exact ⟨{ vouched with }, ⟨fun _ => Nat.le_refl _, rfl, rfl, rfl, fun valid => valid⟩⟩
  have stored : ({ b with
      invalid := b.invalid || b.id == 0 || b.refuses f
      unfed := Function.update b.unfed f.sequence (some f)
      arrived := b.arrived + 1
      highest := max b.highest f.sequence
      reached := b.reach f } : Input).Vouched fragments := by
    refine { vouched with unfed := fun sequence g found => ?_ }
    simp only at found ⊢
    by_cases here : sequence = f.sequence
    · subst here
      rw [Function.update_self] at found
      cases found
      refine ⟨member, rfl, fun valid => refuses_kept (b := b) ?_⟩
      simp only [Bool.or_eq_false_iff] at valid
      exact valid.2
    · rw [Function.update_of_ne here] at found
      obtain ⟨known, is, short⟩ := vouched.unfed sequence g found
      refine ⟨known, is, fun valid => short ?_⟩
      simp only [Bool.or_eq_false_iff] at valid
      exact valid.1.1
  obtain ⟨after, onward⟩ := hold_vouched _ stored
  refine ⟨after, Onward.trans ?_ onward⟩
  refine ⟨fun _ => Nat.le_refl _, rfl, rfl, rfl, fun valid => ?_⟩
  simp only [Bool.or_eq_false_iff] at valid
  exact valid.1.1

theorem take_ok (retired : Bool) (ok : ∀ d, (b.place d).Ok)
    (kept : ∀ f, b.unfed (b.fed + 1) = some f → f.payload.length ≤ f.length.toNat) :
    (∀ d, ((b.take retired).1.place d).Ok) ∧ Onward b (b.take retired).1 := by
  unfold take
  cases found : b.unfed (b.fed + 1) with
  | none => exact ⟨ok, ⟨fun _ => Nat.le_refl _, rfl, rfl, rfl, nofun⟩⟩
  | some f =>
    simp only
    split
    · exact ⟨ok, ⟨fun _ => Nat.le_refl _, rfl, rfl, rfl, nofun⟩⟩
    rename_i placeable
    simp only [not_or, Nat.not_lt] at placeable
    obtain ⟨after, more, -, -⟩ := Placing.taken_ok (ok f.direction) placeable.2.2 (kept f found)
    refine ⟨fun d => ?_, ⟨fun d => ?_, rfl, rfl, rfl, fun valid => valid⟩⟩
    · by_cases here : d = f.direction
      · subst here
        simpa using after
      · simpa [Function.update_of_ne here] using ok d
    · by_cases here : d = f.direction
      · subst here
        simpa using more
      · simp [Function.update_of_ne here]

theorem take_vouched (promised : Promised fragments) (vouched : b.Vouched fragments) (valid : b.invalid = false)
    (taken : b.evidence.taken = true) (through : b.fed + 1 ≤ b.evidence.through) :
    (b.take false).1.Vouched fragments ∧ (b.take false).1.evidence = b.evidence ∧
      ((b.take false).2.isSome = true → (b.take false).1.fed = b.fed + 1 ∧ (b.take false).1.invalid = false) := by
  obtain ⟨ok, -⟩ := take_ok false vouched.ok fun f found => (vouched.unfed _ f found).2.2 valid
  unfold take at ok ⊢
  cases found : b.unfed (b.fed + 1) with
  | none =>
    exact ⟨{ vouched.refuse with }, rfl, nofun⟩
  | some f =>
    obtain ⟨member, numbered, short⟩ := vouched.unfed _ f found
    rw [found] at ok
    simp only at ok ⊢
    split
    · exact ⟨{ vouched.refuse with }, rfl, nofun⟩
    rename_i placeable
    rw [if_neg placeable] at ok
    simp only [not_or, Nat.not_lt] at placeable
    obtain ⟨after, -, inside, stays⟩ := Placing.taken_ok (vouched.ok f.direction) placeable.2.2 (short valid)
    have cut : ∀ d, (b.evidence.inDirection d).cut = true → ∃ stop,
        (Function.update b.place f.direction
          (((b.place f.direction).place f).feed f (((b.place f.direction).place f).keep f)) d).stop = some stop ∧
        stop.offset ≤ (b.evidence.inDirection d).fromOffset := by
      intro d isCut
      obtain ⟨before, was, low⟩ := vouched.cut taken d isCut
      by_cases here : d = f.direction
      · subst here
        obtain ⟨stop, now, below⟩ := stays before was
        exact ⟨stop, by simpa using now, Nat.le_trans below low⟩
      · exact ⟨before, by simpa [Function.update_of_ne here] using was, low⟩
    refine ⟨⟨ok, fun s g is => ?_, ?_, fun _ => vouched.source taken, fun _ d => ?_, fun _ => cut⟩, rfl,
      fun _ => ⟨rfl, valid⟩⟩
    · simp only at is
      by_cases here : s = b.fed + 1
      · subst here
        simp at is
      · rw [Function.update_of_ne here] at is
        exact vouched.unfed s g is
    · intro untaken
      exact absurd taken (by simp [show b.evidence.taken = false from untaken])
    · by_cases here : d = f.direction
      · subst here
        cases isCut : (b.evidence.inDirection f.direction).cut with
        | true =>
          -- The direction stops where the evidence cuts it, and nothing is read past a stop.
          obtain ⟨stop, now, below⟩ := cut f.direction isCut
          rw [DirectionEvidence.established, if_pos isCut]
          exact Nat.le_trans ((ok f.direction).stop stop now) below
        | false =>
          obtain ⟨source, known, is⟩ := vouched.source taken
          have reach := promised source known (is ▸ taken) f member placeable.1 (by rw [is, numbered]; exact through)
          rw [DirectionEvidence.established, if_neg (by simp [isCut])]
          rw [is] at reach
          simp only [Function.update_self]
          exact Nat.le_trans inside reach
      · simpa [Function.update_of_ne here] using vouched.established taken d

/-! ## Its retirement -/

def Usable (b : Input) : Prop :=
  ∀ r, b.retirement = some r → b.invalid = false → r.validate = .ok () ∧ r.representable = true

theorem Usable.onward {c : Input} (usable : b.Usable) (onward : Onward b c) : c.Usable :=
  fun r is valid => usable r (onward.retirement ▸ is) (onward.invalid valid)

theorem acceptRetirement_usable (b : Input) (r : Connection.Record) : (b.acceptRetirement r).Usable := by
  unfold acceptRetirement
  split
  · intro _ _ valid
    cases valid
  · rintro s ⟨⟩ valid
    simp only [unusable, Bool.or_eq_false_iff, bne_eq_false_iff_eq, Bool.not_eq_false'] at valid
    tauto

theorem acceptRetirement_vouched (vouched : b.Vouched fragments) (r : Connection.Record) :
    (b.acceptRetirement r).Vouched fragments ∧ (b.acceptRetirement r).place = b.place ∧
      (b.acceptRetirement r).cut = b.cut ∧ (b.acceptRetirement r).lost = b.lost := by
  unfold acceptRetirement
  split
  · exact ⟨{ vouched.refuse with }, rfl, rfl, rfl⟩
  refine ⟨{ vouched with unfed := fun s g is => ?_ }, rfl, rfl, rfl⟩
  refine ⟨(vouched.unfed s g is).1, (vouched.unfed s g is).2.1, fun valid => (vouched.unfed s g is).2.2 ?_⟩
  simp only [Bool.or_eq_false_iff] at valid
  exact valid.1.1

theorem ready_vouched (vouched : b.Vouched fragments) (final lost : Bool) :
    (b.ready final lost).1.Vouched fragments ∧ Onward b (b.ready final lost).1 ∧
      ((b.ready final lost).2 = true → b.retirement.isSome = true) := by
  unfold ready
  cases is : b.retirement with
  | none => exact ⟨vouched, .refl b, nofun⟩
  | some r =>
    have refused (invalid : Bool) (more : invalid = false → b.invalid = false) :
        ({ b with invalid } : Input).Vouched fragments ∧ Onward b { b with invalid } := by
      refine ⟨{ vouched with unfed := fun s g found => ?_ }, ⟨fun _ => Nat.le_refl _, rfl, rfl, rfl, more⟩⟩
      obtain ⟨known, numbered, short⟩ := vouched.unfed s g found
      exact ⟨known, numbered, fun valid => short (more valid)⟩
    simp only [Option.isSome_some, implies_true, and_true]
    rw [← is]
    split
    · split
      · exact refused true nofun
      · split <;> exact ⟨vouched, .refl b⟩
    · have after := refused
        (b.invalid || decide (r.fragments.value < 0) || decide (r.fragments.value.toNatClampNeg < b.highest))
        (fun valid => by
          simp only [Bool.or_eq_false_iff] at valid
          exact valid.1.1)
      split
      · exact after
      · split <;> exact after

theorem certify_eq (b : Input) : b.certify = { b with place := b.certify.place } := by
  unfold certify
  split <;> rfl

theorem certify_ok (vouched : b.Vouched fragments) (usable : b.Usable) (valid : b.invalid = false)
    (agrees : ∀ r, b.retirement = some r → b.evidence.taken = true → r.agrees b.evidence = .ok ()) :
    (∀ d, (b.certify.place d).Ok) ∧ Onward b b.certify := by
  have fixed : ∀ d, (b.certify.place d).fed = (b.place d).fed ∧ (b.certify.place d).finish = (b.place d).finish := by
    intro d
    unfold certify
    cases b.retirement with
    | none => exact ⟨rfl, rfl⟩
    | some r =>
      simp only
      generalize b.place = place
      induction r.placements generalizing place with
      | nil => exact ⟨rfl, rfl⟩
      | cons p rest ih =>
        have one : (certifyOne place p d).fed = (place d).fed ∧ (certifyOne place p d).finish = (place d).finish := by
          unfold certifyOne
          by_cases here : d = p.direction
          · subst here
            cases p.positions <;> simp
          · cases p.positions <;> simp [Function.update_of_ne here]
        exact ⟨(ih _).1.trans one.1, (ih _).2.trans one.2⟩
  refine ⟨fun d => ⟨?_, fun stop stopped => ?_⟩, ?_⟩
  · rw [(fixed d).1, (fixed d).2]
    exact (vouched.ok d).finish
  · rw [(fixed d).1]
    cases retired : b.retirement with
    | none =>
      rw [certify, retired] at stopped
      exact (vouched.ok d).stop stop stopped
    | some r =>
      cases taken : b.evidence.taken with
      | false =>
        rw [vouched.untaken taken d]
        exact Nat.zero_le _
      | true =>
        rcases certify_above (agrees r retired taken) retired (usable r retired valid).1 stopped with before | above
        · exact (vouched.ok d).stop stop before
        · exact Nat.le_trans (vouched.established taken d) above
  · have fed : ∀ d, (b.place d).fed ≤ (b.certify.place d).fed := fun d => Nat.le_of_eq (fixed d).1.symm
    rw [certify_eq]
    exact ⟨fed, rfl, rfl, rfl, fun valid => valid⟩

end Input

end EdgeObserver.Processing
