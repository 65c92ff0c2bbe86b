import EdgeObserver.Http1.Phases

/-!
# Charges are conserved

Whatever calls a parser is given and whatever its account answers, what the
account has out is what the parser retains and what went with the messages it
handed over.
-/

set_option autoImplicit false

namespace EdgeObserver.Http1

open Library EdgeObserver.Stream Text

/-!
## A call that is taken

What one call comes to, from the parser it is made on and the part it is given.
-/

namespace Parser

variable {fed : Fed} {ledger : Ledger Charge} {p : Parser} {part : Part}

theorem feed_taken (called : p.feed ledger part = .ok fed) :
    part.Formed ∧ p.ended = false ∧ (p.started = true → part.offset = p.next) := by
  unfold feed at called
  cases admitted : p.admits part with
  | error refusal => simp [admitted] at called
  | ok taken =>
    unfold admits at admitted
    split at admitted
    · cases admitted
    rename_i open?
    split at admitted
    · cases admitted
    rename_i accepted
    split at admitted
    · cases admitted
    · rename_i stands
      refine ⟨Part.formed_of_validate accepted, by simpa using open?, fun started => ?_⟩
      simpa [started] using stands

def startedAt (p : Parser) (offset : Nat) : Parser :=
  if p.started then p else { p with started := true, next := offset, settled := offset }

theorem sound_startedAt (sound : p.Sound) (offset : Nat) : (p.startedAt offset).Sound := by
  unfold startedAt
  split
  · exact sound
  · exact { sound with }

theorem feed_eq (called : p.feed ledger part = .ok fed) :
    let q := p.startedAt part.offset
    fed = if q.stop ≠ .needInput then
        ⟨{ q with next := q.next + part.length }, ledger, { consumed := part.length, result := q.stop }⟩
      else if q.phase = .awaitingAnswer then ⟨q, ledger, { result := .needRequest }⟩
      else feedLoop part (2 * part.length + 1) q ledger := by
  unfold feed at called
  split at called
  · cases called
  dsimp only at called ⊢
  unfold startedAt
  generalize (if p.started = true then p
    else { p with started := true, next := part.offset, settled := part.offset }) = q at called ⊢
  split at called
  · rename_i stopped
    cases called
    rw [if_pos stopped]
  · rename_i open?
    rw [if_neg open?]
    split at called
    · rename_i awaiting
      cases called
      rw [if_pos awaiting]
    · rename_i reading
      cases called
      rw [if_neg reading]

theorem startedAt_of_started (started : p.started = true) (offset : Nat) : p.startedAt offset = p := if_pos started

@[simp] theorem startedAt_charge (p : Parser) (offset : Nat) : (p.startedAt offset).charge = p.charge := by
  unfold startedAt
  split <;> rfl

@[simp] theorem startedAt_ended (p : Parser) (offset : Nat) : (p.startedAt offset).ended = p.ended := by
  unfold startedAt
  split <;> rfl

@[simp] theorem startedAt_stop (p : Parser) (offset : Nat) : (p.startedAt offset).stop = p.stop := by
  unfold startedAt
  split <;> rfl

@[simp] theorem startedAt_phase (p : Parser) (offset : Nat) : (p.startedAt offset).phase = p.phase := by
  unfold startedAt
  split <;> rfl

@[simp] theorem startedAt_started (p : Parser) (offset : Nat) : (p.startedAt offset).started = true := by
  unfold startedAt
  split
  · assumption
  · rfl

theorem startedAt_next (stands : p.started = true → part.offset = p.next) :
    (p.startedAt part.offset).next = part.offset := by
  unfold startedAt
  split
  · rename_i started
    exact (stands started).symm
  · rfl

theorem answer_eq {method : Bytes} {answered : Reading} (called : p.answer method = .ok answered) :
    p.phase = .awaitingAnswer ∧ p.ended = false ∧ answered = p.frame (equalFold method (ascii "HEAD")) := by
  unfold answer at called
  split at called
  · cases called
  rename_i taken
  push Not at taken
  cases called
  exact ⟨taken.1, by simpa using taken.2, rfl⟩

/-- What a call that is taken comes to: a direction that has stopped counts the
part, one that waits on an answer asks for it, and any other reads some of the
part or is refused growth. -/
inductive Fed.Came (p : Parser) (part : Part) (fed : Fed) : Prop where
  | counted (stopped : p.stop ≠ .needInput) (progress : fed.progress = { consumed := part.length, result := p.stop })
  | waited (open? : p.stop = .needInput) (awaiting : p.phase = .awaitingAnswer)
      (parser : fed.parser = p.startedAt part.offset) (progress : fed.progress = { result := .needRequest })
  | ran (open? : p.stop = .needInput) (reading : p.phase ≠ .awaitingAnswer) (within : fed.progress.consumed ≤ part.length)
      (some : fed.progress.result ≠ .refused → 0 < fed.progress.consumed)
      (short : fed.progress.result = .refused → fed.progress.consumed < part.length)
      (returns : Fed.Returns (p.startedAt part.offset) fed)

theorem feed_came (sound : p.Sound)
    (called : p.feed ledger part = .ok fed) : Fed.Came p part fed := by
  obtain ⟨formed, ended, stands⟩ := feed_taken called
  have came := feed_eq called
  have next := startedAt_next stands
  have length := Part.cells_length formed
  have covers := formed.covers
  dsimp only at came
  rw [startedAt_stop, startedAt_phase] at came
  by_cases open? : p.stop = .needInput
  · rw [if_neg (by simpa using open?)] at came
    by_cases awaiting : p.phase = .awaitingAnswer
    · rw [if_pos awaiting] at came
      exact .waited open? awaiting (by rw [came]) (by rw [came])
    rw [if_neg awaiting] at came
    have ready : (p.startedAt part.offset).Ready :=
      ⟨sound_startedAt sound _, by simpa using open?, by simpa using awaiting⟩
    have ⟨returns, _⟩ := feedLoop_returns formed (2 * part.length + 1) ledger ready (Nat.le_of_eq next.symm)
    obtain ⟨n, calls, _, consumed⟩ := feedLoop_calls (p := p.startedAt part.offset)
      (r := ⟨p.startedAt part.offset, [], []⟩) formed
      (2 * part.length + 1) ledger ready (.inl rfl) (by omega) (by omega)
      (by unfold turns; split <;> omega)
    rw [← came] at calls consumed returns
    rw [next, Nat.sub_self, List.drop_zero] at calls
    have count : fed.progress.consumed = n := by omega
    cases calls with
    | refused within result message silent ready tracks answers =>
      exact .ran open? awaiting (by omega) (fun some => absurd result some) (fun _ => by omega) returns
    | read within some result read answers =>
      have positive := some (List.length_pos_iff.mp (by omega))
      exact .ran open? awaiting (by omega) (fun _ => by omega) (fun refused => absurd refused result) returns
  · rw [if_pos open?] at came
    exact .counted open? (by rw [came])

theorem Fed.Came.message {p : Parser} {part : Part} {fed : Fed} (came : Fed.Came p part fed) {m : Message}
    (carries : fed.progress.message = some m) :
    fed.progress.result = .head ∨ fed.progress.result = .framed ∨ fed.progress.result.stopped = true := by
  cases came with
  | counted _ progress | waited _ _ _ progress => simp [progress] at carries
  | ran _ _ _ _ _ returns =>
    cases returns with
    | quiet none => simp [none] at carries
    | head _ _ result => exact .inl result
    | framed _ _ result => exact .inr (.inl result)
    | stopped _ _ result => exact .inr (.inr result)

end Parser

/-! ## What a call keeps -/

def Progress.handsOver (progress : Progress) : List Charge :=
  if progress.message.isSome ∧ progress.result ≠ .head then [progress.charge] else []

def Reading.handsOver (r : Reading) : List Charge := (r.event.map Progress.handsOver).getD []

def Reading.Conserves (p : Parser) (r : Reading) : Prop := r.parser.charge + r.handsOver.sum = p.charge + r.growth

theorem Outcome.conserves {p : Parser} {n : Nat} {r : Reading} (outcome : Outcome p n r) :
    r.Conserves p := by
  unfold Reading.Conserves Reading.handsOver
  cases outcome with
  | quiet moved _ silent => simp [silent, moved.charged]
  | headed moved _ event =>
    simp [event, Parser.headEvent, Progress.handsOver, moved.charged]
  | handed q result moved parser event ends =>
    have message : result ≠ .head := by
      rintro rfl
      simp [Result.stopped] at ends
    simp [parser, event, Parser.handOver, Progress.handsOver, message, moved.charged]

namespace Parser

theorem settle_conserves {p : Parser} (ledger : Ledger Charge) {r : Reading} (conserves : r.Conserves p) :
    let out := p.settle ledger r
    out.1.charge + ((out.2.2.map Progress.handsOver).getD []).sum - out.2.1.balance = p.charge - ledger.balance := by
  have came : r.parser.charge + ((r.event.map Progress.handsOver).getD []).sum =
      p.charge + (r.asks - r.released.sum) := conserves
  unfold settle
  split
  · rename_i free
    simp only [Ledger.balance_releaseAll, came, free]
    abel
  · cases reserved : ledger.reserve r.asks with
    | mk granted after =>
      cases granted with
      | true =>
        simp only [Ledger.balance_releaseAll, Ledger.balance_reserve_granted reserved, came]
        abel
      | false =>
        simp [Ledger.balance_reserve_refused reserved, Progress.handsOver]

end Parser

structure Session where
  parser : Parser
  ledger : Ledger Charge := {}
  handed : List Charge := []

inductive Call where
  | feed (part : Part)
  | answer (method : Bytes)
  | finish

namespace Session

def settle (s : Session) (r : Reading) : Session where
  parser := r.parser
  ledger := s.ledger.releaseAll r.released
  handed := s.handed ++ r.handsOver

def call (s : Session) : Call → Session
  | .feed part =>
    match s.parser.feed s.ledger part with
    | .error _ => s
    | .ok fed => ⟨fed.parser, fed.ledger, s.handed ++ fed.progress.handsOver⟩
  | .answer method =>
    match s.parser.answer method with
    | .error _ => s
    | .ok answered => s.settle answered
  | .finish => s.settle s.parser.finish

structure Books (s : Session) : Prop where
  sound : s.parser.Sound
  balance : s.ledger.balance = s.parser.retained + s.handed.sum
  handed : ∀ charge ∈ s.handed, charge.Nonneg
  ended : s.parser.ended = true → s.parser.retained = 0

end Session

namespace Parser

/-- A call's outcome keeps the books: the parser sound, what it handed over not
negative, and its charge moved as the account did. -/
structure Keeps (p : Parser) (ledger : Ledger Charge) (fed : Fed) : Prop where
  sound : fed.parser.Sound
  ended : fed.parser.ended = p.ended
  handed : ∀ charge ∈ fed.progress.handsOver, charge.Nonneg
  balance : fed.parser.charge + fed.progress.handsOver.sum - fed.ledger.balance = p.charge - ledger.balance

theorem handsOver_nonneg {progress : Progress} (nonneg : progress.charge.Nonneg) :
    ∀ charge ∈ progress.handsOver, charge.Nonneg := by
  unfold Progress.handsOver
  split
  · simpa using nonneg
  · simp

variable {p : Parser} {part : Part}

theorem feedLoop_keeps (formed : part.Formed) (fuel : Nat)
    (ledger : Ledger Charge) (ready : p.Ready) (begins : part.offset ≤ p.next) :
    Keeps p ledger (feedLoop part fuel p ledger) := by
  induction fuel generalizing p ledger with
  | zero => exact ⟨ready.sound, rfl, by simp [feedLoop, Progress.handsOver],
      by simp [feedLoop, Progress.handsOver]⟩
  | succ fuel ih =>
    unfold feedLoop
    split
    · have rest := Part.tail_formed (n := p.next - part.offset) formed (by omega)
      obtain ⟨n, outcome⟩ := step_came rest ready
      have balance := settle_conserves ledger outcome.conserves
      have sound := sound_step ready.sound (part.tail (p.next - part.offset)) ready.open?
      have settled := p.settle_settled ledger (p.step (part.tail (p.next - part.offset)))
      dsimp only at balance
      generalize p.settle ledger (p.step (part.tail (p.next - part.offset))) = out at settled balance ⊢
      cases settled with
      | refused after _ =>
        exact ⟨ready.sound, rfl, by simp [Progress.handsOver], balance⟩
      | granted after _ =>
        cases event : (p.step (part.tail (p.next - part.offset))).event with
        | none =>
          obtain ⟨ready', n, frame⟩ := step_silent rest ready event
          have next := frame.next
          have later := ih after ready' (by omega)
          refine ⟨later.sound, later.ended.trans frame.ended, later.handed, later.balance.trans ?_⟩
          simpa [event] using balance
        | some progress =>
          have nonneg := handsOver_nonneg (sound.handed progress event)
          rw [event] at balance
          dsimp only
          split
          · exact ⟨sound.parser.moved _, outcome.frame.ended, nonneg, balance⟩
          · exact ⟨sound.parser, outcome.frame.ended, nonneg, balance⟩
    · exact ⟨ready.sound, rfl, by simp [Progress.handsOver], by simp [Progress.handsOver]⟩

theorem feed_keeps {ledger : Ledger Charge} {fed : Fed} (sound : p.Sound)
    (called : p.feed ledger part = .ok fed) : Keeps p ledger fed := by
  obtain ⟨formed, ended, stands⟩ := feed_taken called
  have came := feed_eq called
  have sound' := sound_startedAt sound part.offset
  have charge := startedAt_charge p part.offset
  have same := startedAt_ended p part.offset
  have begins := Nat.le_of_eq (startedAt_next stands).symm
  dsimp only at came
  generalize p.startedAt part.offset = q at came sound' charge same begins
  rw [came]
  split
  · exact ⟨sound'.moved _, same, by simp [Progress.handsOver], by simp [Progress.handsOver, charge]⟩
  rename_i open?
  split
  · exact ⟨sound', same, by simp [Progress.handsOver], by simp [Progress.handsOver, charge]⟩
  rename_i reading
  have kept := feedLoop_keeps formed (2 * part.length + 1) ledger ⟨sound', by simpa using open?, reading⟩ begins
  exact ⟨kept.sound, kept.ended.trans same, kept.handed, by rw [kept.balance, charge]⟩

structure KeepsFree (p : Parser) (r : Reading) : Prop where
  free : r.asks = 0
  sound : r.Sound
  conserves : r.Conserves p

theorem frame_keeps (covers : p.Covers 0) (noBody : Bool) : KeepsFree p (p.frame noBody) := by
  refine ⟨frame_asks p noBody, sound_frame covers noBody, ?_⟩
  unfold Reading.Conserves Reading.handsOver Reading.growth
  cases p.frame_outcome noBody with
  | follows moved _ event _ whole =>
    have none : Progress.handsOver (if p.kind = .response then { result := .needInput }
        else (p.frame noBody).parser.headEvent) = [] := by
      split <;> simp [Progress.handsOver, headEvent]
    simp [event, none, whole, moved.charged]
  | handed q result reading moved ends =>
    have message : result ≠ .head := by
      rintro rfl
      simp [Result.stopped] at ends
    simp [reading, handOver, Progress.handsOver, message, moved.charged]

theorem covers_awaiting (sound : p.Sound) (awaiting : p.phase = .awaitingAnswer) :
    p.Covers 0 := by
  have covered := sound.covered
  refine ⟨sound.lined (by rw [awaiting]; rfl), sound.begun (by simp [awaiting]), by omega, ?_⟩
  by_contra stopped
  have between := sound.stopped stopped
  rw [awaiting] at between
  cases between

theorem answer_keeps {method : Bytes} {answered : Reading} (sound : p.Sound) (called : p.answer method = .ok answered) :
    KeepsFree p answered ∧ answered.parser.ended = false ∧
      ∀ progress, answered.event = some progress → progress.result ≠ .head := by
  obtain ⟨awaiting, open?, rfl⟩ := answer_eq called
  refine ⟨frame_keeps (covers_awaiting sound awaiting) _, ?_⟩
  cases p.frame_outcome (equalFold method (ascii "HEAD")) with
  | follows moved _ event _ _ =>
    rw [if_pos (sound.awaits awaiting)] at event
    refine ⟨moved.ended.trans open?, fun progress returned => ?_⟩
    rw [event] at returned
    cases returned
    simp
  | handed q result reading moved ends =>
    rw [reading]
    refine ⟨moved.ended.trans open?, fun progress returned => ?_⟩
    cases returned
    rintro rfl
    simp [Result.stopped] at ends

theorem endedInside_keeps (sound : p.Sound) (inside : p.phase ≠ .betweenMessages) :
    p.endedInside.1.charge = p.charge - p.endedInside.2.sum ∧ p.endedInside.1.charge.Nonneg ∧
      p.endedInside.1.line = [] := by
  have covered := sound.covered
  have begun := sound.begun inside
  have whole : p.phase.readsLine = false → p.charge.Nonneg := by
    intro _
    constructor <;> omega
  have dropped : (p.charge - .ofBytes p.line.length).Nonneg := by
    constructor <;> simp <;> omega
  unfold endedInside
  cases phase : p.phase with
  | betweenMessages => exact absurd phase inside
  | inStartLine | inFields | inChunkSize | inTrailers =>
    exact ⟨by simp [dropLine, release], by simpa [dropLine, release] using dropped, rfl⟩
  | inDeclaredBody | inChunkEnd | awaitingAnswer =>
    have lined := sound.lined (by rw [phase]; rfl)
    exact ⟨by simp, whole (by rw [phase]; rfl), lined⟩
  | inChunkData =>
    have lined := sound.lined (by rw [phase]; rfl)
    have kept := sound.kept phase
    refine ⟨by simp [release], ?_, lined⟩
    constructor <;> simp [release] <;> omega

theorem endMessage_keeps (sound : p.Sound) :
    KeepsFree p p.endMessage ∧ p.endMessage.parser.charge = 0 := by
  unfold endMessage
  by_cases between : p.phase = .betweenMessages
  · have empty := (sound.idle between).1
    rw [if_pos between]
    refine ⟨⟨rfl, ⟨sound, ?_⟩, ?_⟩, empty⟩
    · rintro progress ⟨⟩
      exact Charge.nonneg_zero
    · simp [Reading.Conserves, Reading.handsOver, Progress.handsOver, Reading.growth]
  · rw [if_neg between]
    obtain ⟨charge, nonneg, lined⟩ := endedInside_keeps sound between
    generalize p.endedInside = ended at charge nonneg lined ⊢
    obtain ⟨q, released⟩ := ended
    dsimp only at charge nonneg lined ⊢
    refine ⟨⟨rfl, ⟨?_, ?_⟩, ?_⟩, rfl⟩
    · exact
        { idle := fun _ => ⟨rfl, rfl⟩
          begun := fun inside => absurd rfl inside
          lined := fun _ => lined
          covered := by simp [lined]
          kept := by simp
          remains := by simp
          awaits := by simp
          stopped := fun _ => rfl }
    · rintro progress ⟨⟩
      exact nonneg
    · simp [Reading.Conserves, Reading.handsOver, Progress.handsOver, Reading.growth, charge, sub_eq_add_neg]

theorem Sound.declared (sound : p.Sound) : ({ p with ended := true } : Parser).Sound :=
  { sound with }

theorem endMessage_ended (p : Parser) : p.endMessage.parser.ended = p.ended := by
  unfold endMessage
  split
  · rfl
  · dsimp only [endedInside]
    split <;> rfl

theorem endMessage_declared (sound : p.Sound) :
    KeepsFree p { p with ended := true }.endMessage ∧
      ({ p with ended := true } : Parser).endMessage.parser.ended = true ∧
      ({ p with ended := true } : Parser).endMessage.parser.charge = 0 := by
  obtain ⟨keeps, charge⟩ := endMessage_keeps sound.declared
  exact ⟨{ keeps with }, endMessage_ended _, charge⟩

theorem finish_keeps (sound : p.Sound) (ended : p.ended = true → p.charge = 0) :
    KeepsFree p p.finish ∧ p.finish.parser.ended = true ∧ p.finish.parser.charge = 0 := by
  unfold finish
  by_cases past : p.ended = true
  · rw [if_pos past]
    refine ⟨⟨rfl, ⟨sound, ?_⟩, ?_⟩, past, ended past⟩
    · rintro progress ⟨⟩
      exact Charge.nonneg_zero
    · simp [Reading.Conserves, Reading.handsOver, Progress.handsOver, Reading.growth]
  · rw [if_neg past]
    by_cases awaiting : p.phase = .awaitingAnswer
    · have keeps := frame_keeps (covers_awaiting sound awaiting) (equalFold [] (ascii "HEAD"))
      have answered : p.answer [] = .ok (p.frame (equalFold [] (ascii "HEAD"))) := by
        simp [answer, awaiting, past]
      rw [answered]
      dsimp only
      cases p.frame_outcome (equalFold [] (ascii "HEAD")) with
      | follows moved _ event _ whole =>
        rw [if_pos (sound.awaits awaiting)] at event
        rw [event]
        obtain ⟨later, past, charge⟩ := endMessage_declared keeps.sound.parser
        refine ⟨⟨later.free, later.sound, ?_⟩, past, charge⟩
        have conserved := later.conserves
        unfold Reading.Conserves at conserved ⊢
        rw [conserved, moved.charged, add_zero]
      | handed q result reading moved ends =>
        rw [reading] at keeps ⊢
        have nonneg : q.charge.Nonneg := keeps.sound.handed _ rfl
        refine ⟨⟨rfl, ⟨keeps.sound.parser.declared, ?_⟩, ?_⟩, rfl, rfl⟩
        · rintro progress ⟨⟩
          exact nonneg
        · simp [Reading.Conserves, Reading.handsOver, Progress.handsOver, Reading.growth, handOver, moved.charged]
    · have refused : p.answer [] = .error .answer := by simp [answer, awaiting]
      rw [refused]
      exact endMessage_declared sound

end Parser

namespace Session

theorem books_new (kind : Kind) (limits : Limits) (answers : List Bool) :
    Books { parser := newParser kind limits, ledger := { answers } } :=
  ⟨newParser_sound kind limits, rfl, by simp, by simp [newParser]⟩

theorem Books.settle {s : Session} {r : Reading} (books : s.Books) (keeps : Parser.KeepsFree s.parser r)
    (ended : r.parser.ended = true → r.parser.retained = 0) : (s.settle r).Books := by
  refine ⟨keeps.sound.parser, ?_, ?_, ended⟩
  · have conserved := keeps.conserves
    have balance := books.balance
    unfold Reading.Conserves Reading.growth at conserved
    rw [keeps.free] at conserved
    simp only [Session.settle, Ledger.balance_releaseAll, List.sum_append, Parser.retained] at balance ⊢
    rw [balance, add_left_comm, conserved]
    abel
  · intro charge member
    simp only [Session.settle, List.mem_append] at member
    rcases member with before | handed
    · exact books.handed charge before
    unfold Reading.handsOver at handed
    cases event : r.event with
    | none => simp [event] at handed
    | some progress =>
      rw [event] at handed
      exact Parser.handsOver_nonneg (keeps.sound.handed progress event) charge handed

theorem Books.feed {s : Session} {part : Part} {fed : Parser.Fed} (books : s.Books)
    (called : s.parser.feed s.ledger part = .ok fed) :
    Books ⟨fed.parser, fed.ledger, s.handed ++ fed.progress.handsOver⟩ := by
  have keeps := Parser.feed_keeps books.sound called
  refine ⟨keeps.sound, ?_, ?_, fun ended => ?_⟩
  · have balance := books.balance
    have moved := keeps.balance
    rw [balance, Parser.retained, sub_eq_iff_eq_add] at moved
    simp only [Parser.retained, List.sum_append]
    have together : fed.parser.charge + (s.handed.sum + fed.progress.handsOver.sum) =
        fed.parser.charge + fed.progress.handsOver.sum + s.handed.sum := by abel
    rw [together, moved]
    abel
  · intro charge member
    rcases List.mem_append.mp member with before | handed
    · exact books.handed charge before
    · exact keeps.handed charge handed
  · have open? := keeps.ended.symm.trans ended
    rw [(Parser.feed_taken called).2.1] at open?
    cases open?

theorem Books.answer {s : Session} {method : Bytes} {answered : Reading} (books : s.Books)
    (called : s.parser.answer method = .ok answered) : (s.settle answered).Books := by
  obtain ⟨keeps, open?, _⟩ := Parser.answer_keeps books.sound called
  exact books.settle keeps fun ended => by simp [open?] at ended

theorem Books.call {s : Session} (books : s.Books) (call : Call) : (s.call call).Books := by
  cases call with
  | feed part =>
    cases called : s.parser.feed s.ledger part with
    | error refusal => simpa only [Session.call, called] using books
    | ok fed => simpa only [Session.call, called] using books.feed called
  | answer method =>
    cases called : s.parser.answer method with
    | error refusal => simpa only [Session.call, called] using books
    | ok answered => simpa only [Session.call, called] using books.answer called
  | finish =>
    obtain ⟨keeps, _, charge⟩ := Parser.finish_keeps books.sound books.ended
    exact books.settle keeps fun _ => charge

/-- Over every run of calls, whatever the account answers: what it has out is what the
parser retains, at least the line and the body being read, and what went with the
messages; a direction that is over retains nothing. -/
theorem charges_conserved (kind : Kind) (limits : Limits) (answers : List Bool) (calls : List Call) :
    let s := calls.foldl call { parser := newParser kind limits, ledger := { answers } }
    s.ledger.balance = s.parser.retained + s.handed.sum ∧ (∀ charge ∈ s.handed, charge.Nonneg) ∧
      (s.parser.line.length : Int) + s.parser.message.body.length ≤ s.parser.retained.bytes ∧
      (s.parser.ended = true → s.parser.retained = 0) := by
  have books := List.foldlRecOn calls call (motive := Books) (books_new kind limits answers)
    fun _ books given _ => books.call given
  exact ⟨books.balance, books.handed, books.sound.covered, books.ended⟩

end Session

end EdgeObserver.Http1
