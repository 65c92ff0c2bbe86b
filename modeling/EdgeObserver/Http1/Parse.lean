import EdgeObserver.Http1.Phases

/-!
# A direction already whole

Parsing a stream that is all there: its parts fed one by one to a parser whose
account grants everything, each response's head answered at once. It goes one
step further than a reader of an open connection: a body that only a close would
end is the rest of the stream.
-/

set_option autoImplicit false

namespace EdgeObserver.Http1

open Library EdgeObserver.Stream Text

structure Parsed where
  messages : List Message := []
  unplaced : Nat := 0

def Message.readUntilClose (m : Message) (cursor : Cursor) (limits : Limits) : Message × Cursor :=
  let reach := cursor.remaining
  let (taken, cursor) := cursor.take reach limits.maxBodyBytes
  let (body, holed) := taken.getD ([], 0)
  ({ m with
      body, bodyHoled := holed, bodyLength := reach
      bodyElided := reach - holed - body.length
      defect := .streamEnded
      detail := "the body ends with the connection, and a fragment carries no close" }, cursor)

structure Parse where
  parser : Parser
  ledger : Ledger Charge := {}
  messages : List Message := []

namespace Parse

def finish (s : WholeStream) (messages : List Message) : Parsed where
  messages
  unplaced := match messages.getLast? with
    | none => s.endsAt - s.start
    | some m => s.endsAt - m.endsAt

/-- A message handed over is kept. One whose body only a close would end is read
to the end of the stream, and the parse is over. -/
def take (s : WholeStream) (limits : Limits) (messages : List Message) (progress : Progress) :
    Except Parsed (List Message) :=
  match progress.message with
  | none => .ok messages
  | some m =>
    if progress.result = .head then .ok messages
    else if progress.result = .unsupported ∧ m.framing = .untilClose then
      let m := match (newCursor s).take (m.endsAt - s.start) 0 with
        | (some _, cursor) =>
          let (m, cursor) := m.readUntilClose cursor limits
          { m with endsAt := cursor.pos }
        | (none, _) => m
      .error { messages := messages ++ [m], unplaced := s.endsAt - m.endsAt }
    else .ok (messages ++ [m])

/-- A response's head answered with the method its request is known to have had,
as far as it decides whether a body follows. -/
def answer (kind : Kind) (bodiless : List Bool) (messages : List Message) (fed : Parser.Fed) : Parser × Progress :=
  if fed.progress.result = .head ∧ kind = .response then
    match fed.parser.answer (if bodiless.getD messages.length false then ascii "HEAD" else []) with
    | .ok answered => (answered.parser, answered.event.getD {})
    | .error _ => (fed.parser, {})
  else (fed.parser, fed.progress)

def part (s : WholeStream) (kind : Kind) (bodiless : List Bool) : Nat → Parse → Part → Except Parsed Parse
  | 0, parse, _ => .ok parse
  | fuel + 1, parse, rest =>
    if rest.length = 0 then .ok parse
    else match parse.parser.feed parse.ledger rest with
      | .error _ => .error (finish s parse.messages)
      | .ok fed =>
        let answered := answer kind bodiless parse.messages fed
        match take s answered.1.limits parse.messages answered.2 with
        | .error parsed => .error parsed
        | .ok messages =>
          part s kind bodiless fuel { parser := answered.1, ledger := fed.ledger, messages }
            (rest.tail fed.progress.consumed)

def parts (s : WholeStream) (kind : Kind) (bodiless : List Bool) (parse : Parse) : List Part → Except Parsed Parse
  | [] => .ok parse
  | rest :: more =>
    match part s kind bodiless (rest.length + parse.ledger.answers.length + 1) parse rest with
    | .error parsed => .error parsed
    | .ok parse => parts s kind bodiless parse more

end Parse

def parse (s : WholeStream) (kind : Kind) (limits : Limits) (bodiless : List Bool) : Parsed :=
  match Parse.parts s kind bodiless { parser := newParser kind limits } s.parts with
  | .error parsed => parsed
  | .ok parse =>
    match Parse.take s parse.parser.limits parse.messages (parse.parser.finish.event.getD {}) with
    | .error parsed => parsed
    | .ok messages => Parse.finish s messages

def parseStream (s : WholeStream) (kind : Kind) (limits : Limits) : Parsed := parse s kind limits []

def parseResponses (s : WholeStream) (limits : Limits) (bodiless : List Bool) : Parsed :=
  parse s .response limits bodiless

/-! ## It reads what a reader of an open connection reads -/

def handed (events : List Event) : List Event := events.filter (·.result ≠ .head)

@[simp] theorem handed_append (first second : List Event) :
    handed (first ++ second) = handed first ++ handed second := List.filter_append ..

/-- What a message was read as: the one handed over, or, where only a close would
end its body, the same with whatever body the rest of the stream made. -/
def ReadAs (m : Message) (event : Event) : Prop :=
  m = event.message ∨
    (event.result = .unsupported ∧ event.message.framing = .untilClose ∧
      ∃ body bodyLength bodyHoled bodyElided defect detail endsAt,
        m = { event.message with body, bodyLength, bodyHoled, bodyElided, defect, detail, endsAt })

def Reader.Aligned (methods : List Bytes) (r : Reader) : Prop :=
  r.parser.kind = .response → r.parser.stop = .needInput →
    r.methods = methods.drop ((handed r.events).length + r.parser.phase.inBody.toNat)

structure Locked (methods : List Bytes) (parse : Parse) (r : Reader) : Prop where
  parser : parse.parser = r.parser
  messages : parse.messages = (handed r.events).map (·.message)
  aligned : r.Aligned methods

structure Over (parsed : Parsed) (r : Reader) : Prop where
  messages : List.Forall₂ ReadAs parsed.messages (handed r.events)
  stopped : r.parser.stop ≠ .needInput

theorem forall₂_readAs (events : List Event) : List.Forall₂ ReadAs (events.map (·.message)) events := by
  induction events with
  | nil => exact .nil
  | cons event events ih => exact .cons (.inl rfl) ih

namespace Parse

variable {kind : Kind} {methods : List Bytes} {m : Message} {n : Nat} {parse : Parse} {parsed : Parsed}
  {fed : Parser.Fed} {rest : Part} {r : Reader} {s : WholeStream}

theorem take_handed (s : WholeStream) (limits : Limits) (events : List Event) {progress : Progress} (carries : progress.message = some m) (result : progress.result ≠ .head) :
    take s limits (events.map (·.message)) progress = .ok ((events ++ progress.report).map (·.message)) ∨
      (progress.result.stopped = true ∧
        ∃ parsed, take s limits (events.map (·.message)) progress = .error parsed ∧
          List.Forall₂ ReadAs parsed.messages (events ++ progress.report)) := by
  unfold take Progress.report
  rw [carries]
  simp only [result, ↓reduceIte]
  split
  · rename_i close
    refine .inr ⟨by rw [close.1]; rfl, _, rfl, ?_⟩
    refine List.rel_append (forall₂_readAs events) (.cons (.inr ⟨close.1, close.2, ?_⟩) .nil)
    split <;> exact ⟨_, _, _, _, _, _, _, rfl⟩
  · exact .inl (by simp)

inductive Beside (methods : List Bytes) (taken : Except Parsed (List Message)) (parser : Parser)
    (ledger : Ledger Charge) (r : Reader) : Prop where
  | goes (messages : List Message) (took : taken = .ok messages)
      (locked : Locked methods { parser, ledger, messages } r)
  | past (parsed : Parsed) (took : taken = .error parsed) (past : Over parsed r)

theorem bodiless_eq (methods : List Bytes) (n : Nat) :
    equalFold (if (methods.map (equalFold · (ascii "HEAD"))).getD n false then ascii "HEAD" else []) (ascii "HEAD") =
      equalFold ((methods.drop n).headD []) (ascii "HEAD") := by
  have head : equalFold (ascii "HEAD") (ascii "HEAD") = true := by decide
  have none : equalFold [] (ascii "HEAD") = false := by decide
  induction methods generalizing n with
  | nil => simp [none]
  | cons method methods ih =>
    cases n with
    | zero =>
      simp only [List.map_cons, List.getD_cons_zero, List.drop_zero, List.headD_cons]
      cases forbids : equalFold method (ascii "HEAD") with
      | true => simpa using head
      | false => simpa using none
    | succ n => simpa using ih n

theorem beside_handed {limits : Limits} {parser : Parser} {ledger : Ledger Charge} (progress : Progress)
    (carries : progress.message = some m) (result : progress.result ≠ .head)
    (idle : parser.phase = .betweenMessages)
    (stops : progress.result.stopped = true → parser.stop ≠ .needInput)
    (aligned : parser.kind = .response → parser.stop = .needInput →
      r.methods = methods.drop ((handed r.events).length + 1)) :
    Beside methods (take s limits ((handed r.events).map (·.message)) progress) parser ledger
      (r.record parser progress.report) := by
  have report : handed progress.report = progress.report := by
    simp [Progress.report, carries, handed, result]
  have one : progress.report.length = 1 := by simp [Progress.report, carries]
  rcases take_handed s limits (handed r.events) carries result with kept | ⟨stopped, parsed, past, reads⟩
  · refine .goes _ kept ⟨rfl, ?_, ?_⟩
    · simp [Reader.record, report]
    · intro response open?
      simp only [Reader.record, handed_append, report, List.length_append, one, idle, Phase.inBody,
        Bool.toNat_false, Nat.add_zero]
      exact aligned response open?
  · refine .past parsed past ⟨?_, stops stopped⟩
    simpa [Reader.record, report] using reads

theorem beside_answered (same : r.parser.kind = kind) (response : r.parser.kind = .response)
    (aligned : r.Aligned methods) (open? : r.parser.stop = .needInput) (ended : r.parser.ended = false)
    (result : fed.progress.result = .head) (waits : fed.parser.phase = .awaitingAnswer)
    (side : r.parser.phase.inBody = false)
    (report : handed fed.progress.report = []) (frame : Frame r.parser n fed.parser) :
    let answered := answer kind (methods.map (equalFold · (ascii "HEAD"))) ((handed r.events).map (·.message)) fed
    Beside methods (take s answered.1.limits ((handed r.events).map (·.message)) answered.2) answered.1
      fed.ledger (r.record fed.parser fed.progress.report).respond := by
  have left := aligned response open?
  rw [side, Bool.toNat_false, Nat.add_zero] at left
  have ended' : fed.parser.ended = false := frame.ended.trans ended
  have answers : ∀ method, fed.parser.answer method = .ok (fed.parser.frame (equalFold method (ascii "HEAD"))) := by
    intro method
    simp [Parser.answer, waits, ended']
  obtain ⟨noBody, head⟩ : ∃ noBody, equalFold (r.methods.headD []) (ascii "HEAD") = noBody := ⟨_, rfl⟩
  have responded : (r.record fed.parser fed.progress.report).respond =
      { r.record fed.parser fed.progress.report with methods := r.methods.tail }.record
        (fed.parser.frame noBody).parser (fed.parser.frame noBody).report := by
    unfold Reader.respond
    rw [Reader.parser_record, answers, ← head]
    rfl
  have kept : handed ({ r.record fed.parser fed.progress.report with methods := r.methods.tail } : Reader).events =
      handed r.events := by
    simp [Reader.record, report]
  have answered : answer kind (methods.map (equalFold · (ascii "HEAD"))) ((handed r.events).map (·.message)) fed =
      ((fed.parser.frame noBody).parser, (fed.parser.frame noBody).event.getD {}) := by
    have responding : kind = .response := same ▸ response
    unfold answer
    rw [if_pos ⟨result, responding⟩, answers, List.length_map, bodiless_eq, ← left, head]
  have next : r.methods.tail = methods.drop ((handed r.events).length + 1) := by
    rw [left, List.tail_drop]
  rw [responded, answered]
  dsimp only
  rw [← kept]
  rw [← kept] at next
  cases fed.parser.frame_outcome noBody with
  | follows moved stands event body whole =>
    have quiet : (fed.parser.frame noBody).event = some { result := .needInput } := by
      rw [event, if_pos (frame.kind.trans response)]
    have silent : (fed.parser.frame noBody).report = [] := by rw [Reading.report, quiet]; rfl
    rw [quiet, silent]
    refine .goes _ rfl ⟨rfl, by simp [Reader.record], ?_⟩
    intro _ _
    have inBody : (fed.parser.frame noBody).parser.phase.inBody = true := by
      rcases body with phase | phase <;> rw [phase] <;> rfl
    simpa [Reader.record, inBody] using next
  | handed q outcome reading moved ends =>
    rw [reading]
    refine beside_handed (r := { r.record fed.parser fed.progress.report with methods := r.methods.tail })
      { result := outcome, message := some { q.message with endsAt := q.next }, charge := q.charge }
      rfl ?_ rfl ?_ fun _ _ => next
    · rintro rfl
      simp [Result.stopped] at ends
    · intro stopped
      rcases ends with ⟨framed, _⟩ | ⟨_, stop⟩
      · rw [framed] at stopped
        cases stopped
      · rw [show (q.handOver outcome).parser.stop = q.stop from rfl, stop]
        rintro rfl
        cases stopped

theorem call_beside (same : r.parser.kind = kind) (aligned : r.Aligned methods)
    (returns : Parser.Fed.Returns r.parser fed) (frame : Frame r.parser n fed.parser)
    (open? : r.parser.stop = .needInput) (ended : r.parser.ended = false) :
    let answered := answer kind (methods.map (equalFold · (ascii "HEAD"))) ((handed r.events).map (·.message)) fed
    Beside methods (take s answered.1.limits ((handed r.events).map (·.message)) answered.2) answered.1
      fed.ledger (r.record fed.parser fed.progress.report).respond := by
  cases returns with
  | quiet message result ready side =>
    have event : fed.progress.result ≠ .head := by rcases result with result | result <;> simp [result]
    have report : fed.progress.report = [] := by rw [Progress.report, message]
    simp only [answer, event, false_and, ↓reduceIte, report, take, message]
    rw [Reader.respond_of_phase (by exact ready.reading)]
    refine .goes _ rfl ⟨rfl, by simp [Reader.record], ?_⟩
    intro response _
    simp only [Reader.record, List.append_nil, side]
    exact aligned (frame.kind ▸ response) open?
  | head message carries result stop waits side =>
    have report : handed fed.progress.report = [] := by simp [Progress.report, carries, handed, result]
    by_cases response : r.parser.kind = .response
    · exact beside_answered same response aligned open? ended result (waits.mpr response) side report frame
    have other : kind ≠ .response := same ▸ response
    simp only [answer, other, and_false, ↓reduceIte, take, carries, result]
    rw [Reader.respond_of_phase (by simpa [Reader.parser_record] using fun waiting => response (waits.mp waiting))]
    refine .goes _ rfl ⟨rfl, by simp [Reader.record, report], ?_⟩
    exact fun responding => absurd (frame.kind ▸ responding) response
  | framed message carries result stop idle side =>
    have event : fed.progress.result ≠ .head := by simp [result]
    simp only [answer, event, false_and, ↓reduceIte]
    rw [Reader.respond_of_phase (by simp [idle])]
    refine beside_handed _ carries event idle (by simp [result, Result.stopped]) ?_
    intro response _
    have responding : r.parser.kind = .response := frame.kind ▸ response
    have answered := aligned responding open?
    rwa [side responding] at answered
  | stopped message carries result stop idle =>
    have event : fed.progress.result ≠ .head := by
      intro head
      rw [head] at result
      cases result
    simp only [answer, event, false_and, ↓reduceIte]
    rw [Reader.respond_of_phase (by simp [idle])]
    exact beside_handed _ carries event idle (fun _ => stop) fun _ open? => absurd open? stop

inductive Fares (methods : List Bytes) (fed : Reader × Ledger Charge) : Except Parsed Parse → Prop where
  | goes {parse : Parse} (locked : Locked methods parse fed.1) (ledger : parse.ledger = fed.2) :
      Fares methods fed (.ok parse)
  | past {parsed : Parsed} (past : Over parsed fed.1) : Fares methods fed (.error parsed)

theorem over_read (past : Over parsed r) (stands : r.Stands)
    (cells : List Cell) : Over parsed (r.read cells) := by
  rw [Reader.read_stopped past.stopped (stands.sound.stopped past.stopped)]
  exact { past with }

theorem answer_idle (kind : Kind) (bodiless : List Bool) (messages : List Message) (fed : Parser.Fed)
    (message : fed.progress.message = none) (idle : fed.parser.phase = .betweenMessages) :
    (answer kind bodiless messages fed).1 = fed.parser ∧ (answer kind bodiless messages fed).2.message = none := by
  unfold answer
  split
  · simp [Parser.answer, idle]
  · exact ⟨rfl, message⟩

theorem part_nothing (s : WholeStream) (kind : Kind) (bodiless : List Bool) (fuel : Nat) (parse : Parse) (empty : rest.length = 0) : part s kind bodiless fuel parse rest = .ok parse := by
  cases fuel with
  | zero => rfl
  | succ fuel => rw [part, if_pos empty]

theorem part_stopped {bodiless : List Bool} {fuel : Nat} (valid : rest.Valid) (stands : r.Stands)
    (begins : rest.offset = r.parser.next) (stopped : r.parser.stop ≠ .needInput)
    (locked : Locked methods parse r) :
    Fares methods (r.feedPart (fuel + 1) parse.ledger rest) (part s kind bodiless (fuel + 1) parse rest) := by
  have idle := stands.sound.stopped stopped
  have covers := valid.covers
  have fed := Parser.feed_started parse.ledger valid stands.ended stands.started begins
  rw [if_pos stopped] at fed
  have whole : (rest.tail rest.length).length = 0 := by simp [Part.tail]
  rw [Reader.feedPart, part, if_neg (by omega), if_neg (by omega), locked.parser, fed]
  dsimp only
  obtain ⟨same, none⟩ := answer_idle kind bodiless parse.messages
    ⟨{ r.parser with next := r.parser.next + rest.length }, parse.ledger,
      { consumed := rest.length, result := r.parser.stop }⟩ rfl idle
  rw [Reader.feedPart_nothing _ _ _ whole, take, none]
  dsimp only
  rw [part_nothing _ _ _ _ _ whole, Reader.respond_of_phase (by simp [idle])]
  refine .goes ⟨same, ?_, ?_⟩ rfl
  · simpa [Reader.record, Progress.report] using locked.messages
  · exact fun _ open? => absurd open? stopped

theorem over_feedPart (fuel : Nat) (ledger : Ledger Charge) (past : Over parsed r) (stands : r.Stands)
    (left : rest.length = 0 ∨ (rest.Valid ∧ rest.offset = r.parser.next)) :
    Over parsed (r.feedPart fuel ledger rest).1 := by
  rcases left with none | ⟨valid, begins⟩
  · rw [Reader.feedPart_nothing _ _ _ none]
    exact past
  cases fuel with
  | zero => exact past
  | succ fuel =>
    rw [Reader.feedPart_stopped valid stands begins past.stopped]
    exact over_read past stands _

theorem part_fares (fuel : Nat) (valid : rest.Valid) (stands : r.Stands)
    (begins : rest.offset = r.parser.next) (grants : parse.ledger.answers = [])
    (same : r.parser.kind = kind) (locked : Locked methods parse r) :
    Fares methods (r.feedPart fuel parse.ledger rest)
      (part s kind (methods.map (equalFold · (ascii "HEAD"))) fuel parse rest) := by
  induction fuel generalizing parse r rest with
  | zero => exact .goes locked rfl
  | succ fuel ih =>
    by_cases open? : r.parser.stop = .needInput
    · have covers := valid.covers
      have length := Part.cells_length valid.toFormed
      have ready : r.parser.Ready := ⟨stands.sound, open?, stands.reading⟩
      have called := Parser.feed_started parse.ledger valid stands.ended stands.started begins
      rw [if_neg (by simpa using open?), if_neg stands.reading] at called
      obtain ⟨returns, _, frame⟩ := Parser.feedLoop_returns valid.toFormed (2 * rest.length + 1) parse.ledger ready
        (Nat.le_of_eq begins)
      obtain ⟨n, calls, consumed⟩ := Parser.feedLoop_called valid.toFormed parse.ledger ready (.inl rfl) begins covers
      rw [Reader.feedPart, part, if_neg (by omega), if_neg (by omega), locked.parser, called]
      dsimp only
      rw [consumed, locked.messages]
      generalize Parser.feedLoop rest (2 * rest.length + 1) r.parser parse.ledger = fed at *
      cases calls with
      | refused _ _ _ _ _ _ answers => simp [grants] at answers
      | read within some _ came answers =>
        rw [length] at within
        have positive := some (by rw [← List.length_pos_iff]; omega)
        have beside := call_beside (s := s) same locked.aligned returns frame open? stands.ended
        obtain ⟨after, moved⟩ := Reader.read_stands (rest.cells.take n) stands
          fun cell member => Part.cells_real (List.mem_of_mem_take member)
        have left : (rest.tail n).length = 0 ∨
            ((rest.tail n).Valid ∧ (rest.tail n).offset = (r.read (rest.cells.take n)).parser.next) := by
          by_cases whole : n = rest.length
          · exact .inl (by simp [Part.tail, whole])
          refine .inr ⟨Part.tail_valid valid (by omega), ?_⟩
          rw [moved.next, List.length_take, Part.tail]
          dsimp only
          omega
        rw [← came] at beside ⊢
        cases beside with
        | past parsed took past =>
          rw [took]
          exact .past (over_feedPart _ _ past after left)
        | goes messages took locked' =>
          rw [took]
          rcases left with none | ⟨rest, begins'⟩
          · rw [Reader.feedPart_nothing _ _ _ none]
            dsimp only
            rw [part_nothing _ _ _ _ _ none]
            exact .goes locked' rfl
          · exact ih rest after begins' (List.length_eq_zero_iff.mp (by simpa [grants] using answers))
              (moved.kind.trans same) locked'
    · exact part_stopped valid stands begins open? locked

theorem parts_over {rest : List Part} (ledger : Ledger Charge)
    (past : Over parsed r) (stands : r.Stands) (contiguous : Contiguous r.parser.next rest) :
    Over parsed (r.feedParts ledger rest).1 := by
  rw [Reader.feedParts_reads ledger stands contiguous]
  exact over_read past stands _

theorem parts_fares {rest : List Part} (stands : r.Stands) (contiguous : Contiguous r.parser.next rest)
    (grants : parse.ledger.answers = []) (same : r.parser.kind = kind) (locked : Locked methods parse r) :
    Fares methods (r.feedParts parse.ledger rest)
      (parts s kind (methods.map (equalFold · (ascii "HEAD"))) parse rest) := by
  induction rest generalizing parse r with
  | nil => exact .goes locked rfl
  | cons first rest ih =>
    obtain ⟨valid, begins, after⟩ := contiguous
    have read : (r.feedPart (first.length + parse.ledger.answers.length + 1) parse.ledger first).1 =
        r.read first.cells := Reader.feedPart_reads valid stands begins (.inl rfl) (Nat.lt_succ_self _)
    obtain ⟨stands', moved⟩ := Reader.read_stands first.cells stands fun cell => Part.cells_real
    have next := moved.next
    rw [Part.cells_length valid.toFormed] at next
    have answers := Reader.feedPart_answers (first.length + parse.ledger.answers.length + 1) r parse.ledger first
    have fares := part_fares (s := s) (first.length + parse.ledger.answers.length + 1) valid stands begins
      grants same locked
    rw [Reader.feedParts, parts]
    generalize r.feedPart (first.length + parse.ledger.answers.length + 1) parse.ledger first = fed at *
    rw [← read] at stands' moved next
    generalize part s kind _ _ parse first = result at fares ⊢
    cases fares with
    | past past =>
      exact .past (parts_over _ past stands' (next ▸ after))
    | goes locked' ledger =>
      rw [← ledger]
      refine ih stands' (next ▸ after) ?_ (moved.kind.trans same) locked'
      rw [ledger]
      exact List.length_eq_zero_iff.mp (by simpa [grants] using answers)

end Parse

theorem parse_bodiless (s : WholeStream) {kind : Kind} (limits : Limits) (bodiless other : List Bool)
    (request : kind ≠ .response) : parse s kind limits bodiless = parse s kind limits other := by
  have answered : ∀ messages fed, Parse.answer kind bodiless messages fed = Parse.answer kind other messages fed := by
    intro messages fed
    simp [Parse.answer, request]
  have part : ∀ fuel parse rest, Parse.part s kind bodiless fuel parse rest = Parse.part s kind other fuel parse rest := by
    intro fuel
    induction fuel with
    | zero => intros; rfl
    | succ fuel ih =>
      intro parse rest
      simp only [Parse.part, answered, ih]
  have parts : ∀ rest parse, Parse.parts s kind bodiless parse rest = Parse.parts s kind other parse rest := by
    intro rest
    induction rest with
    | nil => intros; rfl
    | cons first rest ih =>
      intro parse
      simp only [Parse.parts, part, ih]
  simp only [parse, parts]

theorem Parser.finish_event (p : Parser) :
    ∃ message charge, p.finish.event = some { result := .ended, message, charge } := by
  have ended : ∀ q : Parser, ∃ message charge, q.endMessage.event = some { result := .ended, message, charge } := by
    intro q
    unfold endMessage
    split
    · exact ⟨none, 0, rfl⟩
    · exact ⟨_, _, rfl⟩
  unfold finish
  split
  · exact ⟨none, 0, rfl⟩
  split
  · exact ended _
  · split
    · exact ⟨_, _, rfl⟩
    · exact ended _

theorem Over.finish {parsed : Parsed} {r : Reader} (past : Over parsed r) (sound : r.parser.Sound) :
    List.Forall₂ ReadAs parsed.messages (handed r.finish.events) := by
  have idle := sound.stopped past.stopped
  have nothing : r.parser.finish.report = [] := by
    unfold Parser.finish
    split
    · rfl
    · simp [Parser.answer, Parser.endMessage, Reading.report, Progress.report, idle]
  rw [Reader.finish, nothing, Reader.record, List.append_nil]
  exact past.messages

theorem Locked.finish {methods : List Bytes} {parse : Parse} {r : Reader}
    (locked : Locked methods parse r) (s : WholeStream) (limits : Limits) :
    ∃ messages, Parse.take s limits parse.messages (parse.parser.finish.event.getD {}) = .ok messages ∧
      List.Forall₂ ReadAs messages (handed r.finish.events) := by
  obtain ⟨message, charge, event⟩ := r.parser.finish_event
  have report : r.parser.finish.report = Progress.report { result := .ended, message, charge } := by
    rw [Reading.report, event]
    rfl
  rw [locked.parser, locked.messages, event, Reader.finish, Reader.record, report]
  cases message with
  | none =>
    refine ⟨_, rfl, ?_⟩
    simpa [Progress.report] using forall₂_readAs (handed r.events)
  | some m =>
    refine ⟨(handed r.events).map (·.message) ++ [m], by simp [Parse.take], ?_⟩
    rw [handed_append]
    exact List.rel_append (forall₂_readAs (handed r.events)) (.cons (.inl rfl) .nil)

namespace Parse

theorem parts_opened {s : WholeStream} {kind : Kind} {bodiless : List Bool} {parse : Parse} {first : Part}
    (rest : List Part) (valid : first.Valid) (ended : parse.parser.ended = false)
    (fresh : parse.parser.started = false) :
    parts s kind bodiless parse (first :: rest) =
      parts s kind bodiless
        { parse with parser := { parse.parser with started := true, next := first.offset, settled := first.offset } }
        (first :: rest) := by
  have admitted := Parser.admits_ok (p := parse.parser) valid ended (by simp [fresh])
  have admitted' := Parser.admits_ok
    (p := { parse.parser with started := true, next := first.offset, settled := first.offset }) valid ended
    (fun _ => rfl)
  have fed : parse.parser.feed parse.ledger first =
      ({ parse.parser with started := true, next := first.offset, settled := first.offset } : Parser).feed
        parse.ledger first := by
    unfold Parser.feed
    rw [admitted, admitted']
    simp [fresh]
  have called := Parser.feed_started
    (p := { parse.parser with started := true, next := first.offset, settled := first.offset })
    parse.ledger valid ended rfl rfl
  have covers := valid.covers
  simp only [parts, part, if_neg (Nat.ne_of_gt covers), fed, called]

end Parse

theorem parse_reads {s : WholeStream} {offset : Nat} (contiguous : Contiguous offset s.parts) (kind : Kind)
    (limits : Limits) (methods : List Bytes) :
    List.Forall₂ ReadAs (parse s kind limits (methods.map (equalFold · (ascii "HEAD")))).messages
      (handed ((newReader kind limits methods).feedParts {} s.parts).1.finish.events) := by
  unfold parse
  cases parts : s.parts with
  | nil =>
    have locked : Locked methods { parser := newParser kind limits } (newReader kind limits methods) :=
      ⟨rfl, rfl, fun _ _ => rfl⟩
    obtain ⟨messages, took, reads⟩ := locked.finish s (newParser kind limits).limits
    rw [Parse.parts]
    dsimp only
    rw [took]
    exact reads
  | cons first rest =>
    rw [parts] at contiguous
    have valid := contiguous.1
    have begins := contiguous.2.1
    have stands := newReader_opened kind limits methods offset
    have locked : Locked methods { parser := ((newReader kind limits methods).opened offset).parser }
        ((newReader kind limits methods).opened offset) := ⟨rfl, rfl, fun _ _ => rfl⟩
    have fares : Parse.Fares methods (((newReader kind limits methods).opened offset).feedParts {} (first :: rest))
        (Parse.parts s kind (methods.map (equalFold · (ascii "HEAD")))
          { parser := ((newReader kind limits methods).opened offset).parser } (first :: rest)) :=
      Parse.parts_fares stands contiguous rfl rfl locked
    have opened := Reader.feedParts_reads {} stands contiguous
    obtain ⟨stands', _⟩ := Reader.read_stands (cellsOf (first :: rest)) stands fun _ member => cellsOf_real member
    have begun : Parse.parts s kind (methods.map (equalFold · (ascii "HEAD")))
        { parser := newParser kind limits } (first :: rest) =
        Parse.parts s kind (methods.map (equalFold · (ascii "HEAD")))
          { parser := ((newReader kind limits methods).opened offset).parser } (first :: rest) := by
      rw [Parse.parts_opened rest valid rfl rfl, begins]
      rfl
    rw [begun, newReader_feedParts {} contiguous, ← opened]
    rw [← opened] at stands'
    generalize Parse.parts s _ _ _ _ = result at fares ⊢
    cases fares with
    | past past => exact past.finish stands'.sound
    | @goes parse locked' ledger =>
      obtain ⟨messages, took, reads⟩ := locked'.finish s parse.parser.limits
      dsimp only
      rw [took]
      exact reads

/-!
## A direction, whatever it is cut into

A new parser fed a direction's parts and told that its input is over. What it
hands over, where it stops and what it leaves unplaced are the direction's own:
neither the parts it came in nor what the account refused on the way has a part
in them.
-/

def readDirection (kind : Kind) (limits : Limits) (methods : List Bytes) (ledger : Ledger Charge)
    (parts : List Part) : Reader :=
  ((newReader kind limits methods).feedParts ledger parts).1.finish

theorem cellsOf_eq_nil {offset : Nat} {parts : List Part} (contiguous : Contiguous offset parts)
    (none : cellsOf parts = []) : parts = [] := by
  cases parts with
  | nil => rfl
  | cons part parts =>
    have length := Part.cells_length contiguous.1.toFormed
    have covers := contiguous.1.covers
    rw [cellsOf_cons, List.append_eq_nil_iff] at none
    rw [none.1, List.length_nil] at length
    omega

theorem readDirection_of_cells (kind : Kind) (limits : Limits) (methods : List Bytes) {offset : Nat}
    {parts others : List Part} (ledger account : Ledger Charge) (contiguous : Contiguous offset parts)
    (contiguous' : Contiguous offset others) (same : cellsOf parts = cellsOf others) :
    readDirection kind limits methods ledger parts = readDirection kind limits methods account others := by
  cases parts with
  | nil =>
    rw [cellsOf_eq_nil contiguous' same.symm]
    rfl
  | cons part parts =>
    cases others with
    | nil =>
      have none := cellsOf_eq_nil contiguous same
      cases none
    | cons other others =>
      rw [readDirection, readDirection, newReader_feedParts ledger contiguous,
        newReader_feedParts account contiguous', same]

/-- However a direction is cut into parts, and whatever its accounts answer, the
same messages are handed over, the same result stops it and as much of it is left
unplaced. They are the messages of the whole stream parsed at once, but for a
response whose body only a close would end. -/
theorem readDirection_of_cut (kind : Kind) (limits : Limits) (methods : List Bytes) {offset : Nat}
    {s : WholeStream} {cut other : List Part} (ledger account : Ledger Charge)
    (contiguous : Contiguous offset s.parts) (cuts : Cut s.parts cut) (cuts' : Cut s.parts other) :
    let read := readDirection kind limits methods ledger cut
    let again := readDirection kind limits methods account other
    handed read.events = handed again.events ∧ read.parser.stop = again.parser.stop ∧
      read.parser.unplaced = again.parser.unplaced ∧
      (kind = .request → List.Forall₂ ReadAs (parseStream s .request limits).messages (handed read.events)) ∧
      (kind = .response → List.Forall₂ ReadAs
        (parseResponses s limits (methods.map (equalFold · (ascii "HEAD")))).messages (handed read.events)) := by
  have whole := readDirection_of_cells kind limits methods ledger {} (cuts.contiguous contiguous) contiguous cuts.cells
  have again := readDirection_of_cells kind limits methods account {} (cuts'.contiguous contiguous) contiguous
    cuts'.cells
  have parsed := parse_reads contiguous kind limits methods
  dsimp only
  rw [whole, again]
  refine ⟨rfl, rfl, rfl, ?_, ?_⟩
  · rintro rfl
    rw [parseStream, parse_bodiless s limits [] (methods.map (equalFold · (ascii "HEAD"))) (by simp)]
    exact parsed
  · rintro rfl
    exact parsed

/-- A response with a chunked body, cut inside its chunk size and not at all. -/
theorem readDirection_of_cut_chunked :
    let part := Part.ofBytes 3 (ascii "HTTP/1.1 200 OK\r\nTransfer-Encoding: chunked\r\n\r\n2\r\nab\r\n0\r\n\r\n")
    let cut := [part.head 48, part.tail 48]
    (handed (readDirection .response {} [ascii "GET"] {} cut).events).map (·.message.body) = [ascii "ab"] ∧
      handed (readDirection .response {} [ascii "GET"] {} cut).events =
        handed (readDirection .response {} [ascii "GET"] {} [part]).events := by
  intro part cut
  have contiguous : Contiguous 3 ({ parts := [part], start := 3, endsAt := 62 } : WholeStream).parts :=
    ⟨by decide, rfl, trivial⟩
  have read := readDirection_of_cut .response {} [ascii "GET"] {} {} contiguous
    (.split 48 (by decide) (by decide) (.keep .nil)) (.keep .nil)
  exact ⟨by decide +kernel, read.1⟩

end EdgeObserver.Http1
