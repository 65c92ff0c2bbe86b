import EdgeObserver.Http1.Reader

/-!
# Feeding comes to reading

A call against any account reads some of its part's offsets as they are read one
by one. A refused reservation only ends the call early, with at most a message
begun that none has been read of, so feeding again from there goes on as though
nothing had been refused.
-/

set_option autoImplicit false

namespace EdgeObserver.Http1

open Library EdgeObserver.Stream

namespace Parser

inductive Settled (p : Parser) (ledger : Ledger Charge) (r : Reading) :
    Parser × Ledger Charge × Option Progress → Prop where
  | granted (after : Ledger Charge) (answers : after.answers.length ≤ ledger.answers.length) :
      Settled p ledger r (r.parser, after, r.event)
  | refused (after : Ledger Charge) (answers : after.answers.length < ledger.answers.length) :
      Settled p ledger r (p, after, some { result := .refused })

theorem settle_settled (p : Parser) (ledger : Ledger Charge) (r : Reading) :
    Settled p ledger r (p.settle ledger r) := by
  unfold settle
  split
  · exact .granted _ (by simp)
  cases reserved : ledger.reserve r.asks with
  | mk granted after =>
    cases granted with
    | true =>
      refine .granted _ ?_
      rw [Ledger.releaseAll_answers, (Ledger.reserve_granted reserved).2, List.length_tail]
      omega
    | false =>
      refine .refused after ?_
      rw [(Ledger.reserve_refused reserved).1]
      simp

end Parser

theorem Parser.feedLoop_answers (part : Part) (fuel : Nat) (p : Parser) (ledger : Ledger Charge) :
    (feedLoop part fuel p ledger).ledger.answers.length ≤ ledger.answers.length := by
  induction fuel generalizing p ledger with
  | zero => exact Nat.le_refl _
  | succ fuel ih =>
    unfold feedLoop
    split
    · have settled := p.settle_settled ledger (p.step (part.tail (p.next - part.offset)))
      generalize p.settle ledger (p.step (part.tail (p.next - part.offset))) = out at settled ⊢
      cases settled with
      | refused after answers => exact Nat.le_of_lt answers
      | granted after answers =>
        cases (p.step (part.tail (p.next - part.offset))).event with
        | none => exact Nat.le_trans (ih _ after) answers
        | some progress => exact answers
    · exact Nat.le_refl _

theorem Parser.feed_answers {p : Parser} {ledger : Ledger Charge} {part : Part} {fed : Fed}
    (called : p.feed ledger part = .ok fed) : fed.ledger.answers.length ≤ ledger.answers.length := by
  unfold feed at called
  split at called
  · cases called
  dsimp only at called
  generalize (if p.started = true then p
    else { p with started := true, next := part.offset, settled := part.offset }) = q at called
  split at called
  · cases called
    exact Nat.le_refl _
  split at called
  · cases called
    exact Nat.le_refl _
  · cases called
    exact feedLoop_answers _ _ _ _

/-- What the code's parser is where the direction has been read so far: the same
parser, or one that has begun the message still to be read. -/
def Reader.Tracks (r : Reader) (p : Parser) : Prop := p = r.parser ∨ p = r.parser.begun

theorem Reader.Tracks.reading {r : Reader} {p : Parser} (tracks : r.Tracks p) (reading : r.parser.phase ≠ .awaitingAnswer) :
    p.phase ≠ .awaitingAnswer := by
  rcases tracks with rfl | rfl
  · exact reading
  · exact Parser.begun_reading reading

structure Parser.Ready (p : Parser) : Prop where
  sound : p.Sound
  open? : p.stop = .needInput
  reading : p.phase ≠ .awaitingAnswer

inductive Parser.Calls (r : Reader) (rest : List Cell) (ledger : Ledger Charge) (fed : Fed) (n : Nat) :
    Prop where
  | refused (within : n < rest.length) (result : fed.progress.result = .refused) (message : fed.progress.message = none)
      (silent : r.read (rest.take n) = r.record (r.read (rest.take n)).parser [])
      (ready : (r.read (rest.take n)).parser.Ready)
      (tracks : (r.read (rest.take n)).Tracks fed.parser)
      (answers : fed.ledger.answers.length < ledger.answers.length)
  | read (within : n ≤ rest.length) (some : rest ≠ [] → 0 < n) (result : fed.progress.result ≠ .refused)
      (read : r.read (rest.take n) = (r.record fed.parser fed.progress.report).respond)
      (answers : fed.ledger.answers.length ≤ ledger.answers.length)

namespace Parser

variable {fed : Fed} {before ledger : Ledger Charge} {rest : List Cell} {n : Nat} {p : Parser} {part : Part}
  {progress : Progress} {r : Reader}

theorem Calls.after {q : Parser} {m : Nat} (within : n ≤ rest.length) (some : 0 < n)
    (read : r.read (rest.take n) = r.record q []) (answers : ledger.answers.length ≤ before.answers.length)
    (calls : Calls (r.record q []) (rest.drop n) ledger fed m) : Calls r rest before fed (n + m) := by
  have joined : r.read (rest.take (n + m)) = (r.record q []).read ((rest.drop n).take m) := by
    rw [List.take_add, Reader.read_append, read]
  have same : ∀ parser report, (r.record q []).record parser report = r.record parser report := by
    intro parser report
    simp [Reader.record]
  cases calls with
  | refused inside result message silent ready tracks fewer =>
    rw [List.length_drop] at inside
    refine .refused (by omega) result message ?_ ?_ ?_ (by omega)
    · rw [joined]
      exact silent.trans (same _ _)
    · rw [joined]
      exact ready
    · rw [joined]
      exact tracks
  | read inside _ result came fewer =>
    rw [List.length_drop] at inside
    refine .read (by omega) (fun _ => by omega) result ?_ (by omega)
    rw [joined, came, same]

theorem cells_tail_ne_nil (formed : part.Formed) (within : n < part.length) :
    part.cells.drop n ≠ [] := by
  have length := Part.cells_length formed
  intro none
  have := congrArg List.length none
  simp only [List.length_drop, List.length_nil] at this
  omega

theorem Calls.mono (answers : ledger.answers.length ≤ before.answers.length) (calls : Calls r rest ledger fed n) :
    Calls r rest before fed n := by
  cases calls with
  | refused inside result message silent ready tracks fewer =>
    exact .refused inside result message silent ready tracks (by omega)
  | read inside some result came fewer => exact .read inside some result came (by omega)

theorem Calls.nothing {after : Ledger Charge} (some : rest ≠ []) (ready : r.parser.Ready) (tracks : r.Tracks p)
    (result : progress.result = .refused) (message : progress.message = none)
    (answers : after.answers.length < ledger.answers.length) : Calls r rest ledger ⟨p, after, progress⟩ 0 :=
  .refused (List.length_pos_iff.mpr some) result message
    (by simpa using (Reader.record_self r).symm) (by simpa using ready) (by simpa using tracks) answers

def turns (p : Parser) (endsAt : Nat) : Nat := endsAt - p.next + if p.phase = .betweenMessages then 1 else 0

inductive Turn (r : Reader) (rest : Part) (s : Reading) : Prop where
  | goes (n : Nat) (positive : 0 < n) (within : n ≤ rest.length) (silent : s.event = none)
      (ready : s.parser.Ready) (inside : s.parser.phase ≠ .betweenMessages)
      (next : s.parser.next = rest.offset + n)
      (read : r.read (rest.cells.take n) = r.record s.parser [])
  | returns (n : Nat) (positive : 0 < n) (within : n ≤ rest.length) (progress : Progress)
      (event : s.event = some progress) (result : progress.result ≠ .refused)
      (open? : progress.result.stopped = false) (next : s.parser.next = rest.offset + n)
      (read : r.read (rest.cells.take n) = (r.record s.parser progress.report).respond)
  | stops (progress : Progress) (event : s.event = some progress) (result : progress.result ≠ .refused)
      (stopped : progress.result.stopped = true)
      (read : r.read rest.cells =
        (r.record { s.parser with next := rest.offset + rest.length } progress.report).respond)

theorem Outcome.not_refused {s : Reading} (outcome : Outcome p n s) (event : s.event = some progress) : progress.result ≠ .refused := by
  cases outcome with
  | quiet _ _ silent =>
    rw [event] at silent
    cases silent
  | headed _ _ head =>
    rw [event] at head
    cases head
    simp [headEvent]
  | handed q result _ _ handed ends =>
    rw [event] at handed
    cases handed
    rintro rfl
    simp [Result.stopped] at ends

theorem step_turn {rest : Part} (formed : rest.Formed) (ready : r.parser.Ready)
    (tracks : r.Tracks p) (inside : p.phase ≠ .betweenMessages) (stands : rest.offset = p.next) :
    Turn r rest (p.step rest) := by
  have begun : p = r.parser.begun := by
    rcases tracks with same | same
    · rw [same] at inside
      rw [same, begun_of_inside inside]
    · exact same
  have sound : p.Sound := begun ▸ sound_begun ready.sound ready.open?
  have open? : p.stop = .needInput := by rw [begun, begun_stop, ready.open?]
  have reading : p.phase ≠ .awaitingAnswer := begun ▸ begun_reading ready.reading
  obtain ⟨m, outcome⟩ : ∃ m, Outcome p m (p.step rest) := by
    rcases step_outcome formed sound inside reading with ⟨m, outcome, _⟩ | ⟨outcome, _⟩
    · exact ⟨m, outcome⟩
    · exact ⟨0, outcome⟩
  have after := sound_step sound rest open?
  have read : ∀ n, 0 < n → n ≤ rest.length →
      (r.record p []).read (rest.cells.take n) = r.read (rest.cells.take n) := by
    intro n some within
    have length := Part.cells_length formed
    have nonempty : rest.cells.take n ≠ [] := by
      intro none
      have := congrArg List.length none
      simp only [List.length_take, List.length_nil] at this
      omega
    rw [← Reader.read_begun ready.open? nonempty, ← begun, Reader.record, List.append_nil]
  have record : ∀ parser report, (r.record p []).record parser report = r.record parser report := by
    intro parser report
    simp [Reader.record]
  cases Reader.read_step (r := r.record p []) formed sound stands open? inside reading with
  | reads n stepped =>
    have came := stepped.read
    rw [read n stepped.some stepped.within, record, Reader.parser_record] at came
    have next : (p.step rest).parser.next = rest.offset + n := by
      rw [stands]
      exact stepped.next
    cases event : (p.step rest).event with
    | none =>
      obtain ⟨stop, inside', reading'⟩ := outcome.silent event
      refine .goes n stepped.some stepped.within event ⟨after.parser, stepped.open?, reading'⟩ inside' next ?_
      rw [came, Reading.report, event]
      exact Reader.respond_of_phase reading'
    | some progress =>
      have stops := (outcome.stops open? event).1
      refine .returns n stepped.some stepped.within progress event (Outcome.not_refused outcome event) ?_ next ?_
      · cases stopped : progress.result.stopped with
        | false => rfl
        | true => exact absurd stepped.open? (stops.mp stopped)
      · rw [came, Reading.report, event]
        rfl
  | stops stopped idle came =>
    have whole : rest.cells.take rest.length = rest.cells := by
      rw [← Part.cells_length formed, List.take_length]
    have same := read rest.length formed.covers (Nat.le_refl _)
    rw [whole] at same
    rw [same, record, Reader.parser_record] at came
    cases event : (p.step rest).event with
    | none =>
      rw [Reader.parser_record, (outcome.silent event).1] at stopped
      exact absurd open? stopped
    | some progress =>
      refine .stops progress event (Outcome.not_refused outcome event) ((outcome.stops open? event).1.mpr stopped) ?_
      rw [came, Reading.report, event]
      refine (Reader.respond_of_phase ?_).symm
      rw [Reader.parser_record]
      simp only [Reader.parser_record] at idle
      simp [idle]

theorem feedLoop_calls (formed : part.Formed) (fuel : Nat) (ledger : Ledger Charge) (ready : r.parser.Ready)
    (tracks : p = r.parser ∨ (p = r.parser.begun ∧ p.next < part.offset + part.length))
    (begins : part.offset ≤ p.next) (within : p.next ≤ part.offset + part.length)
    (enough : p.turns (part.offset + part.length) < fuel) :
    ∃ n, Calls r (part.cells.drop (p.next - part.offset)) ledger (feedLoop part fuel p ledger) n ∧
      (feedLoop part fuel p ledger).parser.next = p.next + n ∧
      (feedLoop part fuel p ledger).progress.consumed = p.next + n - part.offset := by
  induction fuel generalizing p ledger r with
  | zero => omega
  | succ fuel ih =>
    have length := Part.cells_length formed
    have next : p.next = r.parser.next := by
      rcases tracks with rfl | ⟨rfl, _⟩
      · rfl
      · exact Parser.begun_next _
    unfold feedLoop
    by_cases more : p.next < part.offset + part.length
    · rw [if_pos more]
      have some := cells_tail_ne_nil (n := p.next - part.offset) formed (by omega)
      have tracking : r.Tracks p := tracks.imp_right And.left
      have settled := p.settle_settled ledger (p.step (part.tail (p.next - part.offset)))
      generalize p.settle ledger (p.step (part.tail (p.next - part.offset))) = out at settled ⊢
      by_cases between : p.phase = .betweenMessages
      · rw [step_between between] at settled
        have same : p = r.parser := by
          rcases tracks with same | ⟨rfl, _⟩
          · exact same
          · exact absurd between (begun_inside _)
        cases settled with
        | granted after answers =>
          have begun : p.begin.parser = r.parser.begun := by rw [← same, begun, if_pos between]
          obtain ⟨n, calls, reached⟩ := @ih p.begin.parser r after ready (.inr ⟨begun, more⟩) begins
            within (by
              simp only [turns, between, ↓reduceIte] at enough
              simp only [turns, begin, reduceCtorEq, ↓reduceIte]
              omega)
          exact ⟨n, calls.mono answers, reached⟩
        | refused after answers =>
          exact ⟨0, .nothing some ready tracking rfl rfl answers, rfl, rfl⟩
      · cases settled with
        | granted after answers =>
          have offset : (part.tail (p.next - part.offset)).offset = p.next := by
            simp only [Part.tail]
            omega
          have left : (part.tail (p.next - part.offset)).length = part.offset + part.length - p.next := by
            simp only [Part.tail]
            omega
          have formed' := Part.tail_formed formed (n := p.next - part.offset) (by omega)
          have all := Part.cells_length formed'
          have cells := Part.tail_cells part (p.next - part.offset)
          have turn := step_turn formed' ready tracking between offset
          rw [← cells] at some ⊢
          generalize part.tail (p.next - part.offset) = rest at offset left all cells turn some ⊢
          cases turn with
          | goes n positive inside silent ready' inside' reached read =>
            obtain ⟨m, calls, next', consumed⟩ := @ih (p.step rest).parser (r.record (p.step rest).parser []) after
              ready' (.inl rfl) (by omega) (by omega) (by
                simp only [turns, between, inside', ↓reduceIte] at enough ⊢
                omega)
            rw [silent]
            dsimp only
            refine ⟨n + m, .after (by omega) positive read answers ?_, by omega, by omega⟩
            have reach : p.next - part.offset + n = (p.step rest).parser.next - part.offset := by omega
            rw [cells, List.drop_drop, reach]
            exact calls
          | returns n positive inside progress event result open? reached read =>
            rw [event]
            simp only [open?, Bool.false_eq_true, ↓reduceIte]
            exact ⟨n, .read (by omega) (fun _ => positive) result read answers, by omega, by omega⟩
          | stops progress event result stopped read =>
            rw [event]
            simp only [stopped, ↓reduceIte]
            refine ⟨rest.length, .read (by omega) (fun _ => by omega) result ?_ answers, by omega, by omega⟩
            have ends : rest.offset + rest.length = part.offset + part.length := by omega
            rw [← all, List.take_length, read, ends]
            rfl
        | refused after answers =>
          exact ⟨0, .nothing some ready tracking rfl rfl answers, rfl, rfl⟩
    · rw [if_neg more]
      have same : p = r.parser := by
        rcases tracks with same | ⟨_, inside⟩
        · exact same
        · exact absurd inside more
      have none : part.cells.drop (p.next - part.offset) = [] := by
        apply List.drop_of_length_le
        omega
      refine ⟨0, .read (Nat.zero_le _) (fun some => absurd none some) (by simp) ?_ (Nat.le_refl _),
        rfl, by simp only []; omega⟩
      simp only [List.take_zero, Reader.read_nil, Progress.report, same, Reader.record_self]
      exact (Reader.respond_of_phase ready.reading).symm

theorem feedLoop_called (formed : part.Formed) (ledger : Ledger Charge) (ready : r.parser.Ready) (tracks : r.Tracks p)
    (begins : part.offset = p.next) (covers : 0 < part.length) :
    ∃ n, Calls r part.cells ledger (feedLoop part (2 * part.length + 1) p ledger) n ∧
      (feedLoop part (2 * part.length + 1) p ledger).progress.consumed = n := by
  obtain ⟨n, calls, _, consumed⟩ := feedLoop_calls formed (2 * part.length + 1) ledger ready
    (tracks.imp_right fun begun => ⟨begun, by omega⟩) (by omega) (by omega) (by unfold turns; split <;> omega)
  have start : p.next - part.offset = 0 := by omega
  rw [start, List.drop_zero] at calls
  exact ⟨n, calls, by omega⟩

end Parser

/-! ## A caller -/

namespace Reader

/-- A part fed until none of it is left: what a call did not consume is fed
again, and each response's head answered. The fuel bounds the calls. -/
def feedPart : Nat → Reader → Ledger Charge → Part → Reader × Ledger Charge
  | 0, r, ledger, _ => (r, ledger)
  | fuel + 1, r, ledger, part =>
    if part.length = 0 then (r, ledger)
    else match r.parser.feed ledger part with
      | .error _ => (r, ledger)
      | .ok fed =>
        feedPart fuel (r.record fed.parser fed.progress.report).respond fed.ledger (part.tail fed.progress.consumed)

def feedParts (r : Reader) (ledger : Ledger Charge) : List Part → Reader × Ledger Charge
  | [] => (r, ledger)
  | part :: parts =>
    let fed := r.feedPart (part.length + ledger.answers.length + 1) ledger part
    fed.1.feedParts fed.2 parts

end Reader

namespace Parser

theorem admits_ok {p : Parser} {part : Part} (valid : part.Valid) (ended : p.ended = false)
    (stands : p.started = true → part.offset = p.next) : p.admits part = .ok () := by
  have reaches := valid.reaches
  have accepted := (Part.validate_eq_ok_iff (show part.length ≤ maxUint64 by omega)).mpr valid
  unfold admits
  rw [if_neg (by simp [ended]), accepted]
  dsimp only
  by_cases started : p.started = true
  · rw [if_neg (by simp [stands started])]
  · rw [if_neg (by simp [started])]

theorem feed_started {p : Parser} (ledger : Ledger Charge) {part : Part} (valid : part.Valid)
    (ended : p.ended = false) (started : p.started = true) (stands : part.offset = p.next) :
    p.feed ledger part = .ok (
      if p.stop ≠ .needInput then
        ⟨{ p with next := p.next + part.length }, ledger, { consumed := part.length, result := p.stop }⟩
      else if p.phase = .awaitingAnswer then ⟨p, ledger, { result := .needRequest }⟩
      else feedLoop part (2 * part.length + 1) p ledger) := by
  unfold feed
  rw [admits_ok valid ended fun _ => stands]
  dsimp only
  simp only [started, ↓reduceIte]
  split
  · rfl
  · split <;> rfl

end Parser

namespace Reader

def Follows (spec code : Reader) : Prop :=
  code = spec ∨ (spec.parser.stop = .needInput ∧ code = { spec with parser := spec.parser.begun })

theorem Follows.parser {spec code : Reader} (follows : Follows spec code) :
    spec.Tracks code.parser ∧ code.methods = spec.methods ∧ code.events = spec.events := by
  rcases follows with rfl | ⟨_, rfl⟩
  · exact ⟨.inl rfl, rfl, rfl⟩
  · exact ⟨.inr rfl, rfl, rfl⟩

theorem Follows.record {spec code : Reader} (follows : Follows spec code) (parser : Parser)
    (report : List Event) : code.record parser report = spec.record parser report := by
  rcases follows with rfl | ⟨_, rfl⟩
  · rfl
  · rfl

variable {ledger : Ledger Charge} {fuel : Nat} {part : Part} {r spec : Reader}

theorem record_begun (silent : r = spec.record r.parser []) :
    spec.record r.parser.begun [] = { r with parser := r.parser.begun } := by
  obtain ⟨parser, methods, events⟩ := r
  simp only [record, mk.injEq, true_and] at silent ⊢
  exact ⟨silent.1.symm, silent.2.symm⟩

theorem feedPart_nothing (fuel : Nat) (r : Reader) (ledger : Ledger Charge)
    (empty : part.length = 0) : r.feedPart fuel ledger part = (r, ledger) := by
  cases fuel with
  | zero => rfl
  | succ fuel => rw [feedPart, if_pos empty]

theorem read_take_drop (r : Reader) (cells : List Cell) (n : Nat) :
    (r.read (cells.take n)).read (cells.drop n) = r.read cells := by
  rw [← read_append, List.take_append_drop]

theorem feedPart_stopped (valid : part.Valid) (stands : r.Stands) (begins : part.offset = r.parser.next)
    (stopped : r.parser.stop ≠ .needInput) : (r.feedPart (fuel + 1) ledger part).1 = r.read part.cells := by
  have idle := stands.sound.stopped stopped
  have covers := valid.covers
  have fed := Parser.feed_started ledger valid stands.ended stands.started begins
  rw [if_pos stopped] at fed
  rw [feedPart, if_neg (Nat.ne_of_gt covers), fed]
  dsimp only
  rw [feedPart_nothing _ _ _ (by simp [Part.tail]), read_stopped stopped idle, Part.cells_length valid.toFormed]
  rw [respond_of_phase (by simp [record, idle])]
  simp [record, Progress.report]

theorem feedPart_reads {code : Reader}
    (valid : part.Valid) (stands : spec.Stands) (begins : part.offset = spec.parser.next)
    (follows : Follows spec code) (enough : part.length + ledger.answers.length < fuel) :
    (code.feedPart fuel ledger part).1 = spec.read part.cells := by
  induction fuel generalizing spec code ledger part with
  | zero => omega
  | succ fuel ih =>
    by_cases open? : spec.parser.stop = .needInput
    · have covers := valid.covers
      have length := Part.cells_length valid.toFormed
      have ready : spec.parser.Ready := ⟨stands.sound, open?, stands.reading⟩
      have tracks : spec.Tracks code.parser := follows.parser.1
      have code_next : code.parser.next = spec.parser.next := by
        rcases tracks with same | same <;> simp [same]
      have code_stop : code.parser.stop = .needInput := by
        rcases tracks with same | same <;> simp [same, open?]
      have code_reading := tracks.reading stands.reading
      have code_ended : code.parser.ended = false := by
        rcases tracks with same | same <;> simp [same, spec.parser.frame_begun.ended, stands.ended]
      have code_started : code.parser.started = true := by
        rcases tracks with same | same <;> simp [same, spec.parser.frame_begun.started, stands.started]
      have called := Parser.feed_started ledger valid code_ended code_started (begins.trans code_next.symm)
      rw [if_neg (by simpa using code_stop), if_neg code_reading] at called
      obtain ⟨n, calls, consumed⟩ := Parser.feedLoop_called valid.toFormed ledger ready tracks
        (begins.trans code_next.symm) covers
      rw [feedPart, if_neg (Nat.ne_of_gt covers), called]
      dsimp only
      rw [consumed, follows.record]
      generalize Parser.feedLoop part (2 * part.length + 1) code.parser ledger = fed at calls consumed ⊢
      obtain ⟨after, frame⟩ := read_stands (part.cells.take n) stands
        fun cell member => Part.cells_real (List.mem_of_mem_take member)
      have next := frame.next
      cases calls with
      | refused within result message silent ready tracks answers =>
        rw [length] at within
        have report : fed.progress.report = [] := by rw [Progress.report, message]
        have phase : (spec.record fed.parser []).parser.phase ≠ .awaitingAnswer := tracks.reading ready.reading
        have follows' : Follows (spec.read (part.cells.take n)) (spec.record fed.parser []) := by
          rcases tracks with same | same
          · exact .inl (by rw [silent, ← same])
          · exact .inr ⟨ready.open?, by rw [same, record_begun silent]⟩
        rw [report, respond_of_phase phase, ih (Part.tail_valid valid within) after ?_ follows' ?_,
          Part.tail_cells, read_take_drop]
        · rw [next, List.length_take, Part.tail]
          simp only []
          omega
        · simp only [Part.tail]
          omega
      | read within some result came answers =>
        rw [length] at within
        have positive := some (by rw [← List.length_pos_iff]; omega)
        rw [← came]
        by_cases whole : n = part.length
        · rw [feedPart_nothing _ _ _ (by simp [Part.tail, whole]), whole, ← length, List.take_length]
        rw [ih (Part.tail_valid valid (by omega)) after ?_ (.inl rfl) ?_, Part.tail_cells, read_take_drop]
        · rw [next, List.length_take, Part.tail]
          simp only []
          omega
        · simp only [Part.tail]
          omega
    · rcases follows with rfl | ⟨open', _⟩
      · exact feedPart_stopped valid stands begins open?
      · exact absurd open' open?

theorem feedPart_answers (fuel : Nat) (r : Reader) (ledger : Ledger Charge) (part : Part) :
    (r.feedPart fuel ledger part).2.answers.length ≤ ledger.answers.length := by
  induction fuel generalizing r ledger part with
  | zero => exact Nat.le_refl _
  | succ fuel ih =>
    unfold feedPart
    split
    · exact Nat.le_refl _
    split
    · exact Nat.le_refl _
    · rename_i fed called
      exact Nat.le_trans (ih _ _ _) (Parser.feed_answers called)

theorem feedParts_reads {parts : List Part} (ledger : Ledger Charge) (stands : r.Stands)
    (contiguous : Contiguous r.parser.next parts) :
    (r.feedParts ledger parts).1 = r.read (cellsOf parts) := by
  induction parts generalizing r ledger with
  | nil => rfl
  | cons part parts ih =>
    obtain ⟨valid, begins, rest⟩ := contiguous
    obtain ⟨after, frame⟩ := read_stands part.cells stands fun cell => Part.cells_real
    have next := frame.next
    have fed : (r.feedPart (part.length + ledger.answers.length + 1) ledger part).1 = r.read part.cells :=
      feedPart_reads valid stands begins (.inl rfl) (Nat.lt_succ_self _)
    rw [Part.cells_length valid.toFormed] at next
    rw [feedParts, cellsOf_cons, read_append, fed]
    exact ih _ after (next ▸ rest)

def opened (r : Reader) (offset : Nat) : Reader :=
  { r with parser := { r.parser with started := true, next := offset, settled := offset } }

theorem feedPart_opened (fuel : Nat) (ledger : Ledger Charge) (valid : part.Valid)
    (ended : r.parser.ended = false) (fresh : r.parser.started = false) :
    r.feedPart (fuel + 1) ledger part = (r.opened part.offset).feedPart (fuel + 1) ledger part := by
  have admitted := Parser.admits_ok (p := r.parser) valid ended (by simp [fresh])
  have admitted' := Parser.admits_ok (p := (r.opened part.offset).parser) valid ended (fun _ => rfl)
  have fed : r.parser.feed ledger part = (r.opened part.offset).parser.feed ledger part := by
    unfold Parser.feed
    rw [admitted, admitted']
    simp [fresh, opened]
  have called := Parser.feed_started (p := (r.opened part.offset).parser) ledger valid ended rfl rfl
  have covers := valid.covers
  rw [feedPart, feedPart, if_neg (by omega), if_neg (by omega), fed, called]
  rfl

end Reader

def newReader (kind : Kind) (limits : Limits) (methods : List Bytes) : Reader :=
  { parser := newParser kind limits, methods }

theorem newReader_opened (kind : Kind) (limits : Limits) (methods : List Bytes) (offset : Nat) :
    ((newReader kind limits methods).opened offset).Stands := by
  have sound := newParser_sound kind limits
  exact ⟨{ sound with }, by simp [newReader, newParser, Reader.opened], rfl, rfl⟩

theorem newReader_feedParts {kind : Kind} {limits : Limits} {methods : List Bytes} {offset : Nat}
    {part : Part} {parts : List Part} (ledger : Ledger Charge) (contiguous : Contiguous offset (part :: parts)) :
    ((newReader kind limits methods).feedParts ledger (part :: parts)).1 =
      ((newReader kind limits methods).opened offset).read (cellsOf (part :: parts)) := by
  have stands := newReader_opened kind limits methods offset
  have valid := contiguous.1
  have begins := contiguous.2.1
  rw [← Reader.feedParts_reads ledger stands (by exact contiguous), Reader.feedParts, Reader.feedParts,
    Reader.feedPart_opened _ _ valid rfl rfl, begins]

end EdgeObserver.Http1
