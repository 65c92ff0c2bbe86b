import EdgeObserver.Http1.Line

/-!
# What one step can do

Everything a step of the parser can come to, said once. A step moves the parser
on by the offsets it read and its charge by what it asked for less what it gave
back; it then goes on with the message, returns its head, or hands it over.
-/

set_option autoImplicit false

namespace EdgeObserver.Http1

open Text

structure Moves (p : Parser) (n : Nat) (charge : Charge) (q : Parser) : Prop where
  kind : q.kind = p.kind
  limits : q.limits = p.limits
  started : q.started = p.started
  ended : q.ended = p.ended
  next : q.next = p.next + n
  charged : q.charge = p.charge + charge

theorem Moves.trans {p q r : Parser} {n m : Nat} {first second : Charge}
    (before : Moves p n first q) (after : Moves q m second r) : Moves p (n + m) (first + second) r :=
  ⟨after.kind.trans before.kind, after.limits.trans before.limits,
    after.started.trans before.started, after.ended.trans before.ended,
    by rw [after.next, before.next, Nat.add_assoc],
    by rw [after.charged, before.charged, add_assoc]⟩

def Reading.growth (r : Reading) : Charge := r.asks - r.released.sum

inductive Outcome (p : Parser) (n : Nat) (r : Reading) : Prop where
  | quiet (moved : Moves p n r.growth r.parser) (stands : r.parser.stop = p.stop)
      (silent : r.event = none) (inside : r.parser.phase ≠ .betweenMessages)
      (reading : r.parser.phase ≠ .awaitingAnswer)
  | headed (moved : Moves p n r.growth r.parser) (stands : r.parser.stop = p.stop)
      (event : r.event = some r.parser.headEvent) (inside : r.parser.phase ≠ .betweenMessages)
      (waits : r.parser.phase = .awaitingAnswer ↔ p.kind = .response)
  | handed (q : Parser) (result : Result) (moved : Moves p n r.growth q)
      (parser : r.parser = (q.handOver result).parser) (event : r.event = (q.handOver result).event)
      (ends : (result = .framed ∧ q.stop = p.stop) ∨ (result.stopped = true ∧ q.stop = result))

theorem Outcome.after {p q : Parser} {n m : Nat} {charge : Charge} {r r' : Reading}
    (outcome : Outcome q m r) (parser : r'.parser = r.parser) (event : r'.event = r.event)
    (moved : Moves p n charge q) (stands : q.stop = p.stop)
    (growth : r'.growth = charge + r.growth) : Outcome p (n + m) r' := by
  cases outcome with
  | quiet continued stood silent inside reading =>
    exact .quiet (by rw [parser, growth]; exact moved.trans continued)
      (by rw [parser, stood, stands]) (event.trans silent) (by rwa [parser]) (by rwa [parser])
  | headed continued stood headed inside waits =>
    exact .headed (by rw [parser, growth]; exact moved.trans continued)
      (by rw [parser, stood, stands]) (by rw [event, headed, parser]) (by rwa [parser])
      (by rw [parser, waits, moved.kind])
  | handed past result continued left handed ends =>
    refine .handed past result (by rw [growth]; exact moved.trans continued) (parser.trans left) (event.trans handed) ?_
    rcases ends with ⟨framed, stood⟩ | stopped
    · exact .inl ⟨framed, stood.trans stands⟩
    · exact .inr stopped

@[simp] theorem sum_givenBack (n : Nat) : (givenBack n).sum = Charge.ofBytes n := by
  unfold givenBack
  split
  · rename_i none
    subst none
    rfl
  · simp

namespace Parser

theorem moves_refl (p : Parser) : Moves p 0 0 p := ⟨rfl, rfl, rfl, rfl, rfl, by simp⟩

theorem moves_release (p : Parser) (n : Nat) : Moves p 0 (-.ofBytes n) (p.release n) :=
  ⟨rfl, rfl, rfl, rfl, rfl, sub_eq_add_neg _ _⟩

theorem moves_takeLine (p : Parser) : Moves p 0 0 p.takeLine.2 := ⟨rfl, rfl, rfl, rfl, rfl, by simp [takeLine]⟩

theorem moves_dropLine (p : Parser) : Moves p 0 (-.ofBytes p.line.length) p.dropLine :=
  ⟨rfl, rfl, rfl, rfl, rfl, sub_eq_add_neg _ _⟩

theorem stopFor_stopped (defect : Defect) : (stopFor defect).stopped = true := by
  cases defect <;> rfl

theorem outcome_handOver {p : Parser} {q : Parser} {n : Nat} {result : Result} (moved : Moves p n 0 q)
    (ends : (result = .framed ∧ q.stop = p.stop) ∨ (result.stopped = true ∧ q.stop = result)) :
    Outcome p n (q.handOver result) :=
  .handed q result (by simpa [Reading.growth, handOver] using moved) rfl rfl ends

theorem outcome_refuse (p : Parser) (defect : Defect) (detail : String) : Outcome p 0 (p.refuse defect detail) :=
  outcome_handOver ⟨rfl, rfl, rfl, rfl, rfl, by simp⟩ (.inr ⟨stopFor_stopped defect, rfl⟩)

theorem outcome_refuseLine {p q : Parser} (moved : Moves p 0 0 q) (stands : q.stop = p.stop) (line : Bytes)
    (defect : Defect) (detail : String) : Outcome p 0 (q.refuseLine line defect detail) :=
  (outcome_refuse (q.release line.length) defect detail).after rfl rfl (moved.trans (q.moves_release line.length)) stands
    (by simp [Reading.growth, refuseLine, refuse, handOver])

theorem outcome_begin (p : Parser) (empty : p.charge = 0) : Outcome p 0 p.begin :=
  .quiet ⟨rfl, rfl, rfl, rfl, rfl, by simp [begin, Reading.growth, empty]⟩ rfl rfl
    (by simp [begin]) (by simp [begin])

theorem outcome_startLine (p : Parser) : Outcome p 0 p.startLine := by
  have taken := p.moves_takeLine
  unfold startLine
  dsimp only
  split
  · split
    · exact .quiet ⟨rfl, rfl, rfl, rfl, rfl, by simp [takeLine, Reading.growth]⟩ rfl rfl (by simp) (by simp)
    · exact outcome_refuseLine taken rfl _ _ _
  · split
    · exact .quiet ⟨rfl, rfl, rfl, rfl, rfl, by simp [takeLine, Reading.growth]⟩ rfl rfl (by simp) (by simp)
    · exact outcome_refuseLine taken rfl _ _ _
  · exact outcome_refuseLine taken rfl _ _ _

theorem chunkSizeNext_cases (p : Parser) :
    (∃ detail, p.chunkSizeNext = p.refuse .limit detail) ∨
      p.chunkSizeNext = { parser := { p with phase := .inChunkSize } } := by
  unfold chunkSizeNext
  split
  · exact .inl ⟨_, rfl⟩
  · exact .inr rfl

theorem outcome_chunkSizeNext (p : Parser) : Outcome p 0 p.chunkSizeNext := by
  rcases p.chunkSizeNext_cases with ⟨detail, refused⟩ | sized
  · rw [refused]
    exact outcome_refuse _ _ _
  · rw [sized]
    exact .quiet ⟨rfl, rfl, rfl, rfl, rfl, by simp [Reading.growth]⟩ rfl rfl (by simp) (by simp)

theorem outcome_bodyStep (p : Parser) (inside : p.phase ≠ .betweenMessages)
    (reading : p.phase ≠ .awaitingAnswer) : Outcome p 0 p.bodyStep := by
  unfold bodyStep
  split
  · exact .quiet (by simpa [Reading.growth] using p.moves_refl) rfl rfl inside reading
  · split
    · exact .quiet ⟨rfl, rfl, rfl, rfl, rfl, by simp [Reading.growth]⟩ rfl rfl (by simp) (by simp)
    · exact outcome_handOver ⟨rfl, rfl, rfl, rfl, rfl, by simp⟩ (.inl ⟨rfl, rfl⟩)

theorem bodyStep_asks (p : Parser) : p.bodyStep.asks = 0 := by
  unfold bodyStep
  split
  · rfl
  · split <;> rfl

inductive FrameOutcome (p : Parser) (r : Reading) : Prop where
  | follows (moved : Moves p 0 0 r.parser) (stands : r.parser.stop = p.stop)
      (event : r.event = some (if p.kind = .response then { result := .needInput } else r.parser.headEvent))
      (body : r.parser.phase = .inDeclaredBody ∨ r.parser.phase = .inChunkSize)
      (whole : r.asks = 0 ∧ r.released = [])
  | handed (q : Parser) (result : Result) (reading : r = q.handOver result) (moved : Moves p 0 0 q)
      (ends : (result = .framed ∧ q.stop = p.stop) ∨ (result.stopped = true ∧ q.stop = result))

theorem frame_outcome (p : Parser) (noBody : Bool) : FrameOutcome p (p.frame noBody) := by
  unfold frame
  generalize p.message.frame p.kind noBody = framed
  obtain ⟨framing, length, detail⟩ := framed
  dsimp only
  cases framing with
  | ambiguous =>
    exact .handed _ _ rfl ⟨rfl, rfl, rfl, rfl, rfl, by simp⟩ (.inr ⟨rfl, rfl⟩)
  | none =>
    dsimp only
    split
    · exact .handed _ _ rfl ⟨rfl, rfl, rfl, rfl, rfl, by simp⟩ (.inr ⟨rfl, rfl⟩)
    · exact .handed _ _ rfl ⟨rfl, rfl, rfl, rfl, rfl, by simp⟩ (.inl ⟨rfl, rfl⟩)
  | contentLength =>
    dsimp only
    split
    · rename_i none
      subst none
      exact .handed _ _ rfl ⟨rfl, rfl, rfl, rfl, rfl, by simp⟩ (.inl ⟨rfl, rfl⟩)
    · exact .follows ⟨rfl, rfl, rfl, rfl, rfl, by simp⟩ rfl rfl (.inl rfl) ⟨rfl, rfl⟩
  | chunked =>
    dsimp only
    rcases chunkSizeNext_cases { p with message := { p.message with framing := .chunked } } with
      ⟨detail, refused⟩ | sized
    · rw [refused, if_pos (by simp [refuse, handOver])]
      exact .handed _ _ rfl ⟨rfl, rfl, rfl, rfl, rfl, by simp⟩ (.inr ⟨rfl, rfl⟩)
    · rw [sized, if_neg (by simp)]
      exact .follows ⟨rfl, rfl, rfl, rfl, rfl, by simp⟩ rfl rfl (.inr rfl) ⟨rfl, rfl⟩
  | untilClose =>
    exact .handed _ _ rfl ⟨rfl, rfl, rfl, rfl, rfl, by simp⟩ (.inr ⟨rfl, rfl⟩)

theorem frame_asks (p : Parser) (noBody : Bool) : (p.frame noBody).asks = 0 := by
  cases p.frame_outcome noBody with
  | follows _ _ _ _ whole => exact whole.1
  | handed q result reading _ _ =>
    rw [reading]
    rfl

theorem outcome_fieldsEnded (p : Parser) : Outcome p 0 p.fieldsEnded := by
  unfold fieldsEnded
  split
  · rename_i response
    exact .headed ⟨rfl, rfl, rfl, rfl, rfl, by simp [Reading.growth]⟩ rfl rfl (by simp) (by simp [response])
  · rename_i request
    cases p.frame_outcome false with
    | follows moved stands event body whole =>
      refine .headed (by simpa [Reading.growth, whole] using moved) stands (by rw [event, if_neg request]) ?_ ?_
      · rcases body with phase | phase <;> simp [phase]
      · rcases body with phase | phase <;> simp [phase, request]
    | handed q result reading moved ends =>
      rw [reading]
      exact outcome_handOver moved ends

theorem outcome_fieldLine (p : Parser) (inside : p.phase ≠ .betweenMessages)
    (reading : p.phase ≠ .awaitingAnswer) : Outcome p 0 p.fieldLine := by
  have taken := p.moves_takeLine
  have counted : Moves p 0 0 { p.takeLine.2 with headerBytes := p.takeLine.2.headerBytes + p.takeLine.1.length } :=
    ⟨rfl, rfl, rfl, rfl, rfl, by simp [takeLine]⟩
  unfold fieldLine
  dsimp only
  split
  · exact (outcome_fieldsEnded _).after rfl rfl taken rfl (by simp)
  split
  · exact outcome_refuseLine taken rfl _ _ _
  split
  · exact outcome_refuseLine counted rfl _ _ _
  split
  · exact outcome_refuseLine counted rfl _ _ _
  · exact .quiet ⟨rfl, rfl, rfl, rfl, rfl, by simp [takeLine, Reading.growth]⟩ rfl rfl inside reading

theorem outcome_trailerLine (p : Parser) (inside : p.phase ≠ .betweenMessages)
    (reading : p.phase ≠ .awaitingAnswer) : Outcome p 0 p.trailerLine := by
  have taken := p.moves_takeLine
  unfold trailerLine
  dsimp only
  split
  · exact outcome_handOver ⟨rfl, rfl, rfl, rfl, rfl, by simp [takeLine]⟩ (.inl ⟨rfl, rfl⟩)
  split
  · exact outcome_refuseLine taken rfl _ _ _
  split
  · exact outcome_refuseLine taken rfl _ _ _
  · exact .quiet ⟨rfl, rfl, rfl, rfl, rfl, by simp [takeLine, Reading.growth]⟩ rfl rfl inside reading

theorem outcome_chunkSizeLine (p : Parser) : Outcome p 0 p.chunkSizeLine := by
  have dropped := p.moves_dropLine
  unfold chunkSizeLine
  dsimp only
  split
  · exact (outcome_refuse _ _ _).after rfl rfl dropped rfl (by simp [Reading.growth, refuse, handOver])
  all_goals exact .quiet ⟨rfl, rfl, rfl, rfl, rfl, by
    simp [dropLine, release, Reading.growth, sub_eq_add_neg]⟩ rfl rfl (by simp) (by simp)

theorem outcome_chunkEnd (p : Parser) (b : UInt8) (inside : p.phase ≠ .betweenMessages)
    (reading : p.phase ≠ .awaitingAnswer) : Outcome p 1 (p.chunkEnd b) := by
  unfold chunkEnd
  dsimp only
  split
  · exact .quiet ⟨rfl, rfl, rfl, rfl, rfl, by simp [Reading.growth]⟩ rfl rfl inside reading
  split
  · exact (outcome_refuse _ _ _).after rfl rfl ⟨rfl, rfl, rfl, rfl, rfl, (add_zero _).symm⟩ rfl (zero_add _).symm
  · exact (outcome_chunkSizeNext _).after rfl rfl
      ⟨rfl, rfl, rfl, rfl, rfl, (add_zero _).symm⟩ rfl (zero_add _).symm

theorem startLine_asks (p : Parser) : p.startLine.asks = 0 := by
  unfold startLine
  dsimp only
  split
  · split <;> rfl
  · split <;> rfl
  · rfl

theorem fieldLine_asks (p : Parser) : p.fieldLine.asks = 0 := by
  unfold fieldLine fieldsEnded
  dsimp only
  split
  · split
    · rfl
    · exact frame_asks _ _
  · split
    · rfl
    · split
      · rfl
      · split <;> rfl

theorem trailerLine_asks (p : Parser) : p.trailerLine.asks = 0 := by
  unfold trailerLine
  dsimp only
  split
  · rfl
  · split
    · rfl
    · split <;> rfl

theorem chunkSizeLine_asks (p : Parser) : p.chunkSizeLine.asks = 0 := by
  unfold chunkSizeLine
  dsimp only
  split <;> rfl

theorem outcome_line (p : Parser) (input : Bytes) (max : Int) (context : String)
    (take : Parser → Reading) (inside : p.phase ≠ .betweenMessages)
    (reading : p.phase ≠ .awaitingAnswer)
    (taken : ∀ q, q.phase = p.phase → Outcome q 0 (take q)) (free : ∀ q, (take q).asks = 0) :
    Outcome p (lineScan max input p.line p.sawCR).1 ((p.readLine input max context).ended take) := by
  rw [readLine_eq]
  generalize (lineScan max input p.line p.sawCR).1 = n
  generalize (lineScan max input p.line p.sawCR).2 = state
  unfold lineRead
  split
  · rw [LineRead.ended, if_pos (by simp [lineTooLong, refuse, handOver])]
    exact (outcome_refuse _ _ _).after rfl rfl ⟨rfl, rfl, rfl, rfl, rfl, sub_eq_add_neg _ _⟩ rfl
      (by simp [lineTooLong, Reading.growth, refuse, handOver])
  · have grown : Moves p n (.ofBytes (state.text.length - p.line.length))
        (p.lineGrown state.text (state.text.length - p.line.length) state.holdsCR n).parser :=
      ⟨rfl, rfl, rfl, rfl, rfl, rfl⟩
    unfold LineRead.ended
    dsimp only
    split
    · exact .quiet (by simpa [Reading.growth, lineGrown] using grown) rfl rfl inside reading
    · refine (taken _ ?_).after rfl rfl grown rfl ?_
      · rfl
      · simp [Reading.growth, lineGrown, free, sub_eq_add_neg]

theorem outcome_body (p : Parser) (input : Bytes) (inside : p.phase ≠ .betweenMessages)
    (reading : p.phase ≠ .awaitingAnswer) :
    Outcome p (min input.length p.remaining) (p.body input) := by
  unfold body
  dsimp only
  refine (outcome_bodyStep _ ?_ ?_).after rfl rfl ⟨rfl, rfl, rfl, rfl, rfl, rfl⟩ rfl ?_
  · exact inside
  · exact reading
  · simp [Reading.growth, bodyStep_asks, sub_eq_add_neg]

end Parser

end EdgeObserver.Http1
