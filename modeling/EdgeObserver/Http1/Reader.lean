import EdgeObserver.Http1.Split

/-!
# A direction read offset by offset

What a parser comes to over a direction, with no account and no parts: each
offset read on its own, and each response's head answered with the next method.
However a direction is cut into parts, and whatever its account refuses on the
way, feeding it comes to this.
-/

set_option autoImplicit false

namespace EdgeObserver.Http1

open EdgeObserver.Stream Text

structure Event where
  result : Result
  message : Message
  charge : Charge
  deriving DecidableEq

def Progress.report (progress : Progress) : List Event :=
  match progress.message with
  | none => []
  | some message => [{ result := progress.result, message, charge := progress.charge }]

def Reading.report (r : Reading) : List Event := (r.event.map Progress.report).getD []

namespace Parser

def begun (p : Parser) : Parser := if p.phase = .betweenMessages then p.begin.parser else p

def readCell (p : Parser) (cell : Cell) : Reading :=
  if p.stop ≠ .needInput then { parser := { p with next := p.next + 1 } }
  else
    let r := p.begun.step (cell.part p.next)
    if r.parser.stop ≠ .needInput then { r with parser := { r.parser with next := p.next + 1 } } else r

end Parser

structure Reader where
  parser : Parser
  methods : List Bytes := []
  events : List Event := []
  deriving DecidableEq

namespace Reader

def record (r : Reader) (parser : Parser) (report : List Event) : Reader :=
  { r with parser, events := r.events ++ report }

def respond (r : Reader) : Reader :=
  match r.parser.answer (r.methods.headD []) with
  | .error _ => r
  | .ok answered => { r with methods := r.methods.tail }.record answered.parser answered.report

def readCell (r : Reader) (cell : Cell) : Reader :=
  (r.record (r.parser.readCell cell).parser (r.parser.readCell cell).report).respond

def read (r : Reader) (cells : List Cell) : Reader := cells.foldl readCell r

def finish (r : Reader) : Reader := r.record r.parser.finish.parser r.parser.finish.report

@[simp] theorem read_nil (r : Reader) : r.read [] = r := rfl

@[simp] theorem read_cons (r : Reader) (cell : Cell) (cells : List Cell) :
    r.read (cell :: cells) = (r.readCell cell).read cells := rfl

theorem read_append (r : Reader) (first second : List Cell) :
    r.read (first ++ second) = (r.read first).read second := List.foldl_append

@[simp] theorem parser_record (r : Reader) (parser : Parser) (report : List Event) :
    (r.record parser report).parser = parser := rfl

theorem record_self (r : Reader) : r.record r.parser [] = r := by
  simp [record]

theorem respond_of_phase {r : Reader} (reading : r.parser.phase ≠ .awaitingAnswer) : r.respond = r := by
  simp [respond, Parser.answer, reading]

end Reader

/-! ## What an outcome says -/

structure Frame (p : Parser) (n : Nat) (q : Parser) : Prop where
  kind : q.kind = p.kind
  limits : q.limits = p.limits
  started : q.started = p.started
  ended : q.ended = p.ended
  next : q.next = p.next + n

theorem Frame.trans {p q r : Parser} {n m : Nat} (first : Frame p n q) (second : Frame q m r) : Frame p (n + m) r :=
  ⟨second.kind.trans first.kind, second.limits.trans first.limits, second.started.trans first.started,
    second.ended.trans first.ended, by rw [second.next, first.next, Nat.add_assoc]⟩

theorem Outcome.frame {p : Parser} {n : Nat} {r : Reading} (outcome : Outcome p n r) :
    Frame p n r.parser := by
  cases outcome with
  | quiet moved | headed moved => exact { moved with }
  | handed q result moved parser =>
    rw [parser]
    exact { moved with }

theorem Outcome.silent {p : Parser} {n : Nat} {r : Reading} (outcome : Outcome p n r) (silent : r.event = none) :
    r.parser.stop = p.stop ∧ r.parser.phase ≠ .betweenMessages ∧ r.parser.phase ≠ .awaitingAnswer := by
  cases outcome with
  | quiet _ stands _ inside reading => exact ⟨stands, inside, reading⟩
  | headed _ _ event | handed q result _ _ event =>
    rw [event] at silent
    cases silent

theorem Outcome.stops {p : Parser} {n : Nat} {r : Reading} (outcome : Outcome p n r)
    (open? : p.stop = .needInput) {progress : Progress} (event : r.event = some progress) :
    (progress.result.stopped = true ↔ r.parser.stop ≠ .needInput) ∧
      (r.parser.stop ≠ .needInput → r.parser.phase = .betweenMessages) := by
  cases outcome with
  | quiet _ _ silent =>
    rw [event] at silent
    cases silent
  | headed _ stands head =>
    rw [event] at head
    cases head
    simp [Parser.headEvent, Result.stopped, stands, open?]
  | handed q result _ parser handed ends =>
    rw [event] at handed
    cases handed
    rw [parser]
    refine ⟨?_, fun _ => rfl⟩
    rcases ends with ⟨framed, stands⟩ | ⟨stopped, stop⟩
    · simp [Parser.handOver, framed, Result.stopped, stands, open?]
    · simp only [Parser.handOver, stop, stopped, true_iff]
      rintro rfl
      cases stopped

/-! ## A step, offset by offset -/

namespace Parser

theorem begun_inside (p : Parser) : p.begun.phase ≠ .betweenMessages := by
  unfold begun
  split
  · simp [begin]
  · assumption

theorem begun_of_inside {p : Parser} (inside : p.phase ≠ .betweenMessages) : p.begun = p := if_neg inside

@[simp] theorem begun_begun (p : Parser) : p.begun.begun = p.begun := begun_of_inside p.begun_inside

@[simp] theorem begun_next (p : Parser) : p.begun.next = p.next := by
  unfold begun
  split <;> rfl

@[simp] theorem begun_stop (p : Parser) : p.begun.stop = p.stop := by
  unfold begun
  split <;> rfl

theorem frame_begun (p : Parser) : Frame p 0 p.begun := by
  unfold begun
  split <;> exact ⟨rfl, rfl, rfl, rfl, rfl⟩

theorem begun_reading {p : Parser} (reading : p.phase ≠ .awaitingAnswer) :
    p.begun.phase ≠ .awaitingAnswer := by
  unfold begun
  split
  · simp [begin]
  · exact reading

theorem Sound.moved {p : Parser} (sound : p.Sound) (next : Nat) : ({ p with next } : Parser).Sound :=
  { sound with }

theorem sound_begun {p : Parser} (sound : p.Sound) (open? : p.stop = .needInput) : p.begun.Sound := by
  unfold begun
  split
  · rename_i between
    exact (sound_begin sound between open?).parser
  · exact sound

theorem readCell_begun {p : Parser} (open? : p.stop = .needInput) (cell : Cell) :
    p.begun.readCell cell = p.readCell cell := by
  simp [readCell, open?]

end Parser

namespace Reader

variable {cell : Cell} {rest : Part} {r : Reader}

theorem read_stopped (stopped : r.parser.stop ≠ .needInput)
    (idle : r.parser.phase = .betweenMessages) (cells : List Cell) :
    r.read cells = { r with parser := { r.parser with next := r.parser.next + cells.length } } := by
  induction cells generalizing r with
  | nil => rfl
  | cons cell cells ih =>
    have counted : r.readCell cell = { r with parser := { r.parser with next := r.parser.next + 1 } } := by
      simp [readCell, Parser.readCell, stopped, Reading.report, record, respond, Parser.answer, idle]
    rw [read_cons, counted, ih (by exact stopped) (by exact idle)]
    simp [Nat.add_comm, Nat.add_left_comm]

theorem read_begun (open? : r.parser.stop = .needInput) {cells : List Cell}
    (some : cells ≠ []) : ({ r with parser := r.parser.begun } : Reader).read cells = r.read cells := by
  cases cells with
  | nil => exact absurd rfl some
  | cons cell cells =>
    have first : ({ r with parser := r.parser.begun } : Reader).readCell cell = r.readCell cell := by
      simp only [readCell, Parser.readCell_begun open?]
      rfl
    rw [read_cons, read_cons, first]

structure Stepped (r : Reader) (rest : Part) (s : Reading) (n : Nat) : Prop where
  some : 0 < n
  within : n ≤ rest.length
  next : s.parser.next = r.parser.next + n
  open? : s.parser.stop = .needInput
  read : r.read (rest.cells.take n) = (r.record s.parser s.report).respond

/-- What a step into what is left of a part comes to: so many of its offsets
read, or the direction stopped there and all of them left behind it. -/
inductive Steps (r : Reader) (rest : Part) (s : Reading) : Prop where
  | reads (n : Nat) (stepped : Stepped r rest s n)
  | stops (stopped : s.parser.stop ≠ .needInput) (idle : s.parser.phase = .betweenMessages)
      (read : r.read rest.cells = r.record { s.parser with next := rest.offset + rest.length } s.report)

theorem readCell_inside (cell : Cell) (open? : r.parser.stop = .needInput)
    (inside : r.parser.phase ≠ .betweenMessages) :
    let first := r.parser.step (cell.part r.parser.next)
    r.readCell cell =
      if first.parser.stop ≠ .needInput then
        (r.record { first.parser with next := r.parser.next + 1 } first.report).respond
      else (r.record first.parser first.report).respond := by
  dsimp only
  unfold readCell Parser.readCell
  rw [Parser.begun_of_inside inside, if_neg (by simpa using open?)]
  dsimp only
  split <;> rfl

theorem Steps.resumed {q : Parser} {s later : Reading}
    (formed : rest.Formed) (cells : rest.cells = cell :: (rest.tail 1).cells)
    (first : r.readCell cell = r.record q []) (next : q.next = r.parser.next + 1)
    (agrees : s.Agrees later) (steps : Steps (r.record q []) (rest.tail 1) later) : Steps r rest s := by
  have covers := formed.covers
  have report : s.report = later.report := by simp only [Reading.report, agrees.event]
  have same : ∀ parser report, (r.record q []).record parser report = r.record parser report := by
    intro parser report
    simp [record]
  cases steps with
  | reads n stepped =>
    have within := stepped.within
    have read := stepped.read
    simp only [Part.tail] at within
    refine .reads (n + 1) ⟨by omega, by omega, ?_, ?_, ?_⟩
    · rw [agrees.parser, stepped.next, parser_record, next]
      omega
    · rw [agrees.parser]
      exact stepped.open?
    · rw [cells, List.take_succ_cons, read_cons, first, read, same, agrees.parser, report]
  | stops stopped idle read =>
    refine .stops (by rw [agrees.parser]; exact stopped) (by rw [agrees.parser]; exact idle) ?_
    have ends : (rest.tail 1).offset + (rest.tail 1).length = rest.offset + rest.length := by
      simp only [Part.tail]
      omega
    rw [cells, read_cons, first, read, same, agrees.parser, report, ends]

section Step

variable (formed : rest.Formed) (sound : r.parser.Sound) (stands : rest.offset = r.parser.next)
  (open? : r.parser.stop = .needInput) (inside : r.parser.phase ≠ .betweenMessages)
  (reading : r.parser.phase ≠ .awaitingAnswer)

include formed sound stands open? inside reading

theorem read_step_first : Steps r rest (r.parser.step (rest.head 1)) := by
  obtain ⟨cell, cells, covers⟩ := Part.cells_cons formed
  rw [stands] at covers
  have length := Part.cells_length formed
  have read := readCell_inside cell open? inside
  dsimp only at read
  rw [covers] at read
  by_cases stopped : (r.parser.step (rest.head 1)).parser.stop = .needInput
  · rw [if_neg (by simpa using stopped)] at read
    refine .reads 1 ⟨Nat.one_pos, formed.covers, ?_, stopped, ?_⟩
    · rcases Parser.step_outcome (Part.head_formed formed Nat.one_pos formed.covers) sound inside reading
        with ⟨n, outcome, within, some⟩ | ⟨_, cut⟩
      · have one : n = 1 := by
          simp only [Part.head] at within
          omega
        rw [outcome.frame.next, one]
      · rw [cut] at stopped
        cases stopped
    · rw [cells, List.take_succ_cons, List.take_zero, read_cons, read_nil, read]
  · rw [if_pos stopped] at read
    have idle := (Parser.sound_step sound (rest.head 1) open?).parser.stopped stopped
    rw [respond_of_phase (by rw [parser_record]; simp [idle])] at read
    refine .stops stopped idle ?_
    rw [cells, read_cons, read, read_stopped (by exact stopped) (by exact idle)]
    have count : r.parser.next + 1 + (rest.tail 1).cells.length = rest.offset + rest.length := by
      rw [cells, List.length_cons] at length
      omega
    simp only [record, count]

theorem read_step : Steps r rest (r.parser.step rest) := by
  induction length : rest.length generalizing r rest with
  | zero => exact absurd length (Nat.ne_of_gt formed.covers)
  | succ more ih =>
    have first := read_step_first formed sound stands open? inside reading
    by_cases long : 1 < rest.length
    · cases Parser.step_resumes formed long sound inside reading with
      | already same => rwa [same]
      | resumed silent phase limits agrees =>
        obtain ⟨cell, cells, covers⟩ := Part.cells_cons formed
        have one := Part.head_formed formed Nat.one_pos formed.covers
        obtain ⟨n, outcome, within⟩ : ∃ n, Outcome r.parser n (r.parser.step (rest.head 1)) ∧ n = 1 := by
          rcases Parser.step_outcome one sound inside reading with ⟨n, outcome, within, some⟩ | ⟨outcome, cut⟩
          · exact ⟨n, outcome, by simp only [Part.head] at within; omega⟩
          · rw [(outcome.silent silent).1, open?] at cut
            cases cut
        subst within
        obtain ⟨stop, inside', reading'⟩ := outcome.silent silent
        rw [open?] at stop
        have read : r.readCell cell = r.record (r.parser.step (rest.head 1)).parser [] := by
          have read := readCell_inside cell open? inside
          dsimp only at read
          rw [← stands, covers, if_neg (by simpa using stop), Reading.report, silent] at read
          rw [read, respond_of_phase (by exact reading')]
          rfl
        refine Steps.resumed formed cells read outcome.frame.next agrees (ih ?_ ?_ ?_ stop inside' reading' ?_)
        · exact Part.tail_formed formed long
        · exact (Parser.sound_step sound (rest.head 1) open?).parser
        · rw [parser_record, outcome.frame.next, Part.tail, stands]
        · simp only [Part.tail]
          omega
    · have one : rest.length = 1 := by
        have covers := formed.covers
        omega
      have whole : rest.head 1 = rest := one ▸ Part.head_all formed
      rwa [whole] at first

end Step

/-! ## What reading keeps -/

structure Stands (r : Reader) : Prop where
  sound : r.parser.Sound
  reading : r.parser.phase ≠ .awaitingAnswer
  started : r.parser.started = true
  ended : r.parser.ended = false

theorem respond_stands (sound : r.parser.Sound) (started : r.parser.started = true)
    (ended : r.parser.ended = false) : r.respond.Stands ∧ Frame r.parser 0 r.respond.parser := by
  by_cases awaiting : r.parser.phase = .awaitingAnswer
  · have lined := sound.lined (by rw [awaiting]; rfl)
    have covered := sound.covered
    have reading : r.parser.stop = .needInput := by
      by_contra stopped
      have between := sound.stopped stopped
      rw [awaiting] at between
      cases between
    have covers : r.parser.Covers 0 := ⟨lined, sound.begun (by simp [awaiting]), by omega, reading⟩
    have answered : r.respond = { r with methods := r.methods.tail }.record
        (r.parser.frame (equalFold (r.methods.headD []) (ascii "HEAD"))).parser
        (r.parser.frame (equalFold (r.methods.headD []) (ascii "HEAD"))).report := by
      simp [respond, Parser.answer, awaiting, ended]
    rw [answered]
    generalize equalFold (r.methods.headD []) (ascii "HEAD") = noBody
    have framed := Parser.sound_frame covers noBody
    cases Parser.frame_outcome r.parser noBody with
    | follows moved _ _ body _ =>
      refine ⟨⟨framed.parser, ?_, moved.started.trans started, moved.ended.trans ended⟩,
        moved.kind, moved.limits, moved.started, moved.ended, moved.next⟩
      rcases body with phase | phase <;> simp [phase]
    | handed q result reading moved ends =>
      rw [reading] at framed ⊢
      exact ⟨⟨framed.parser, by simp [Parser.handOver], moved.started.trans started,
        moved.ended.trans ended⟩, moved.kind, moved.limits, moved.started, moved.ended, moved.next⟩
  · rw [respond_of_phase awaiting]
    exact ⟨⟨sound, awaiting, started, ended⟩, rfl, rfl, rfl, rfl, rfl⟩

theorem readCell_stands (stands : r.Stands) (real : cell ≠ .hole .none) :
    (r.readCell cell).Stands ∧ Frame r.parser 1 (r.readCell cell).parser := by
  by_cases open? : r.parser.stop = .needInput
  · have formed := cell.part_formed r.parser.next real
    have sound := Parser.sound_begun stands.sound open?
    have reading := Parser.begun_reading stands.reading
    have stopped : r.parser.begun.stop = .needInput := by rw [Parser.begun_stop, open?]
    have begun := Parser.begun_inside r.parser
    have kept := (Parser.sound_step sound (cell.part r.parser.next) stopped).parser
    have one : (cell.part r.parser.next).length = 1 := by cases cell <;> rfl
    obtain ⟨n, outcome, reaches⟩ : ∃ n, Outcome r.parser.begun n (r.parser.begun.step (cell.part r.parser.next)) ∧
        (n = 1 ∨ (r.parser.begun.step (cell.part r.parser.next)).parser.stop ≠ .needInput) := by
      rcases Parser.step_outcome formed sound begun reading with ⟨n, outcome, within, some⟩ | ⟨outcome, cut⟩
      · exact ⟨n, outcome, .inl (by omega)⟩
      · exact ⟨0, outcome, .inr (by simp [cut])⟩
    have frame := r.parser.frame_begun.trans outcome.frame
    rw [Nat.zero_add] at frame
    unfold readCell Parser.readCell
    rw [if_neg (by simpa using open?)]
    generalize r.parser.begun.step (cell.part r.parser.next) = first at kept reaches frame ⊢
    have started := frame.started.trans stands.started
    have ended := frame.ended.trans stands.ended
    dsimp only
    split
    · have counted : Frame r.parser 1 { first.parser with next := r.parser.next + 1 } :=
        { frame with next := rfl }
      obtain ⟨after, same⟩ := respond_stands
        (r := r.record { first.parser with next := r.parser.next + 1 } first.report) (kept.moved _) started ended
      exact ⟨after, counted.trans same⟩
    · rename_i reads
      obtain ⟨after, same⟩ := respond_stands (r := r.record first.parser first.report) kept started ended
      rcases reaches with rfl | stops
      · exact ⟨after, frame.trans same⟩
      · exact absurd stops reads
  · have idle := stands.sound.stopped open?
    have counted := read_stopped open? idle [cell]
    rw [read_cons, read_nil] at counted
    rw [counted]
    exact ⟨{ stands with sound := stands.sound.moved _ }, rfl, rfl, rfl, rfl, rfl⟩

theorem read_stands (cells : List Cell) (stands : r.Stands) (real : ∀ cell ∈ cells, cell ≠ .hole .none) :
    (r.read cells).Stands ∧ Frame r.parser cells.length (r.read cells).parser := by
  induction cells generalizing r with
  | nil => exact ⟨stands, rfl, rfl, rfl, rfl, rfl⟩
  | cons cell cells ih =>
    obtain ⟨after, first⟩ := readCell_stands stands (real cell (by simp))
    obtain ⟨kept, rest⟩ := ih after fun other member => real other (by simp [member])
    rw [List.length_cons, Nat.add_comm]
    exact ⟨kept, first.trans rest⟩

end Reader

end EdgeObserver.Http1
