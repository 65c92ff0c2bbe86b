import EdgeObserver.Http1.Feed

/-!
# Heads and messages alternate

A step that returns nothing stays on its side of a message's head, a head is
returned only from before it, and a response is framed only from after it. Every
response read to its end was therefore answered once, and answered in order.
-/

set_option autoImplicit false

namespace EdgeObserver.Http1

open Library EdgeObserver.Stream

def Phase.inBody : Phase → Bool
  | .inDeclaredBody | .inChunkSize | .inChunkData | .inChunkEnd | .inTrailers => true
  | _ => false

structure Reading.Phased (inBody : Bool) (kind : Kind) (r : Reading) : Prop where
  silent : r.event = none → r.parser.phase.inBody = inBody
  head : ∀ progress ∈ r.event, progress.result = .head →
    inBody = false ∧ (kind = .request → r.parser.phase.inBody = true)
  framed : ∀ progress ∈ r.event, progress.result = .framed → kind = .response → inBody = true

namespace Parser

variable {inBody : Bool} {kind : Kind}

variable {p : Parser} {part rest : Part} {progress : Progress} {r : Reading}

theorem phased_quiet (silent : r.event = none) (stays : r.parser.phase.inBody = inBody) : r.Phased inBody kind :=
  ⟨fun _ => stays, by simp [silent], by simp [silent]⟩

theorem phased_event (event : r.event = some progress)
    (head : progress.result = .head → inBody = false ∧ (kind = .request → r.parser.phase.inBody = true))
    (framed : progress.result = .framed → kind = .response → inBody = true) : r.Phased inBody kind :=
  ⟨by simp [event], by simpa [event] using head, by simpa [event] using framed⟩

theorem phased_stops (event : r.event = some progress)
    (stopped : progress.result.stopped = true) : r.Phased inBody kind := by
  refine phased_event event ?_ ?_
  · intro head
    rw [head] at stopped
    cases stopped
  · intro framed
    rw [framed] at stopped
    cases stopped

theorem phased_refuse (p : Parser) (defect : Defect) (detail : String) :
    (p.refuse defect detail).Phased inBody kind := phased_stops rfl (stopFor_stopped defect)

theorem phased_refuseLine (p : Parser) (line : Bytes) (defect : Defect) (detail : String) :
    (p.refuseLine line defect detail).Phased inBody kind := phased_stops rfl (stopFor_stopped defect)

theorem phased_framed (p : Parser) : (p.handOver .framed).Phased true kind := phased_event rfl (by simp) (by simp)

theorem phased_startLine (p : Parser) : p.startLine.Phased false kind := by
  unfold startLine
  dsimp only
  split
  · split
    · exact phased_quiet rfl rfl
    · exact phased_refuseLine _ _ _ _
  · split
    · exact phased_quiet rfl rfl
    · exact phased_refuseLine _ _ _ _
  · exact phased_refuseLine _ _ _ _

theorem phased_chunkSizeNext (p : Parser) : p.chunkSizeNext.Phased true kind := by
  unfold chunkSizeNext
  split
  · exact phased_refuse _ _ _
  · exact phased_quiet rfl rfl

theorem phased_bodyStep (body : p.phase.inBody = true) : p.bodyStep.Phased true kind := by
  unfold bodyStep
  split
  · exact phased_quiet rfl body
  · split
    · exact phased_quiet rfl rfl
    · exact phased_framed _

theorem phased_fieldsEnded (p : Parser) : p.fieldsEnded.Phased false p.kind := by
  unfold fieldsEnded
  split
  · rename_i response
    exact phased_event rfl (fun _ => ⟨rfl, by simp [response]⟩) (by simp [headEvent])
  rename_i request
  cases p.frame_outcome false with
  | follows moved _ event body _ =>
    refine phased_event event (fun _ => ⟨rfl, fun _ => ?_⟩) fun _ response => absurd response request
    rcases body with phase | phase <;> rw [phase] <;> rfl
  | handed q result reading _ ends =>
    rw [reading]
    refine phased_event rfl (fun head => ?_) fun _ response => absurd response request
    rw [show result = .head from head] at ends
    simp [Result.stopped] at ends

theorem phased_fieldLine (fields : p.phase = .inFields) : p.fieldLine.Phased false p.kind := by
  unfold fieldLine
  dsimp only
  split
  · exact phased_fieldsEnded p.takeLine.2
  split
  · exact phased_refuseLine _ _ _ _
  split
  · exact phased_refuseLine _ _ _ _
  · split
    · exact phased_refuseLine _ _ _ _
    · exact phased_quiet rfl (by simp [takeLine, fields, Phase.inBody])

theorem phased_trailerLine (trailers : p.phase = .inTrailers) :
    p.trailerLine.Phased true kind := by
  unfold trailerLine
  dsimp only
  split
  · exact phased_framed _
  split
  · exact phased_refuseLine _ _ _ _
  · split
    · exact phased_refuseLine _ _ _ _
    · exact phased_quiet rfl (by simp [takeLine, trailers, Phase.inBody])

theorem phased_chunkSizeLine (p : Parser) : p.chunkSizeLine.Phased true kind := by
  unfold chunkSizeLine
  dsimp only
  split
  · exact phased_stops rfl rfl
  · exact phased_quiet rfl rfl
  · exact phased_quiet rfl rfl

theorem phased_chunkEnd (after : p.phase = .inChunkEnd) (b : UInt8) :
    (p.chunkEnd b).Phased true kind := by
  unfold chunkEnd
  dsimp only
  split
  · exact phased_quiet rfl (by simp [after, Phase.inBody])
  · split
    · exact phased_refuse _ _ _
    · exact phased_chunkSizeNext _

theorem phased_line (side : p.phase.inBody = inBody) (input : Bytes) (max : Int)
    (context : String) (take : Parser → Reading)
    (taken : ∀ q : Parser, q.phase = p.phase → q.kind = p.kind → (take q).Phased inBody kind) :
    ((p.readLine input max context).ended take).Phased inBody kind := by
  rw [readLine_eq]
  generalize (lineScan max input p.line p.sawCR).1 = n
  generalize (lineScan max input p.line p.sawCR).2 = state
  unfold lineRead
  split
  · exact phased_stops rfl rfl
  unfold LineRead.ended
  dsimp only
  split
  · exact phased_quiet rfl side
  · obtain ⟨silent, head, framed⟩ := taken
      (p.lineGrown state.text (state.text.length - p.line.length) state.holdsCR n).parser rfl rfl
    exact ⟨silent, head, framed⟩

theorem phased_bytes (reading : p.phase ≠ .awaitingAnswer) (input : Bytes) :
    (p.bytes input).Phased p.phase.inBody p.kind := by
  unfold bytes
  cases phase : p.phase with
  | betweenMessages => exact phased_quiet rfl rfl
  | awaitingAnswer => exact absurd phase reading
  | inStartLine =>
    exact phased_line (by rw [phase]) _ _ _ _ fun q _ _ => phased_startLine q
  | inFields =>
    exact phased_line (by rw [phase]) _ _ _ _ fun q same kind => by
      rw [← kind]
      exact phased_fieldLine (same.trans phase)
  | inDeclaredBody | inChunkData =>
    have phased : (p.takeBody input (min input.length p.remaining)
        (min (min input.length p.remaining) p.room)).bodyStep.Phased true p.kind :=
      phased_bodyStep (by rw [takeBody_phase, phase]; rfl)
    exact { phased with }
  | inChunkSize =>
    exact phased_line (by rw [phase]) _ _ _ _ fun q _ _ => phased_chunkSizeLine q
  | inChunkEnd => exact phased_chunkEnd phase _
  | inTrailers =>
    exact phased_line (by rw [phase]) _ _ _ _ fun q same _ => phased_trailerLine (same.trans phase)

theorem phased_step (reading : p.phase ≠ .awaitingAnswer) (rest : Part) :
    (p.step rest).Phased p.phase.inBody p.kind := by
  unfold step
  split
  · exact phased_bytes reading _
  unfold hole
  cases phase : p.phase with
  | betweenMessages => exact phased_quiet rfl rfl
  | inDeclaredBody | inChunkData => exact phased_bodyStep (by simp only [takeHole, phase]; rfl)
  | inStartLine | inFields | awaitingAnswer | inChunkSize | inChunkEnd | inTrailers =>
    exact phased_stops rfl rfl

inductive Fed.Returns (p : Parser) (fed : Fed) : Prop where
  | quiet (message : fed.progress.message = none)
      (result : fed.progress.result = .needInput ∨ fed.progress.result = .refused)
      (ready : fed.parser.Ready) (side : fed.parser.phase.inBody = p.phase.inBody)
  | head (message : Message) (carries : fed.progress.message = some message)
      (result : fed.progress.result = .head) (stop : fed.parser.stop = .needInput)
      (waits : fed.parser.phase = .awaitingAnswer ↔ p.kind = .response) (side : p.phase.inBody = false)
      (body : p.kind = .request → fed.parser.phase.inBody = true)
  | framed (message : Message) (carries : fed.progress.message = some message)
      (result : fed.progress.result = .framed) (stop : fed.parser.stop = .needInput)
      (idle : fed.parser.phase = .betweenMessages) (side : p.kind = .response → p.phase.inBody = true)
  | stopped (message : Message) (carries : fed.progress.message = some message)
      (result : fed.progress.result.stopped = true) (stop : fed.parser.stop ≠ .needInput)
      (idle : fed.parser.phase = .betweenMessages)

theorem step_came (formed : rest.Formed) (ready : p.Ready) :
    ∃ n, Outcome p n (p.step rest) := by
  by_cases between : p.phase = .betweenMessages
  · rw [step_between between]
    exact ⟨0, outcome_begin p (ready.sound.idle between).1⟩
  · rcases step_outcome formed ready.sound between ready.reading with ⟨n, outcome, _⟩ | ⟨outcome, _⟩
    · exact ⟨n, outcome⟩
    · exact ⟨0, outcome⟩

theorem step_silent (formed : rest.Formed) (ready : p.Ready) (silent : (p.step rest).event = none) :
    (p.step rest).parser.Ready ∧ ∃ n, Frame p n (p.step rest).parser := by
  obtain ⟨n, outcome⟩ := step_came formed ready
  obtain ⟨stop, _, reading⟩ := outcome.silent silent
  have sound := (sound_step ready.sound rest ready.open?).parser
  exact ⟨⟨sound, stop.trans ready.open?, reading⟩, n, outcome.frame⟩

theorem step_returns (formed : rest.Formed) (ready : p.Ready) (event : (p.step rest).event = some progress) (endsAt consumed : Nat)
    (ledger : Ledger Charge) :
    Fed.Returns p
      ⟨if progress.result.stopped then { (p.step rest).parser with next := endsAt } else (p.step rest).parser,
        ledger, { progress with consumed }⟩ := by
  have phased := phased_step ready.reading rest
  obtain ⟨n, outcome⟩ := step_came formed ready
  cases outcome with
  | quiet _ _ silent =>
    rw [event] at silent
    cases silent
  | headed _ stands headed _ waits =>
    rw [event] at headed
    cases headed
    obtain ⟨side, body⟩ := phased.head _ event rfl
    exact .head _ rfl rfl (stands.trans ready.open?) waits side body
  | handed q result _ parser handed ends =>
    rw [event] at handed
    cases handed
    rcases ends with ⟨framed, stands⟩ | ⟨stopped, stop⟩
    · subst framed
      refine .framed _ rfl rfl ?_ ?_ (phased.framed _ event rfl)
      · simp only [Result.stopped, Bool.false_eq_true, ↓reduceIte, parser]
        exact stands.trans ready.open?
      · simp only [Result.stopped, Bool.false_eq_true, ↓reduceIte, parser]
        rfl
    · refine .stopped _ rfl stopped ?_ ?_
      · simp only [stopped, ↓reduceIte, parser]
        intro reads
        rw [show q.stop = .needInput from reads] at stop
        rw [← stop] at stopped
        cases stopped
      · simp only [stopped, ↓reduceIte, parser]
        rfl

theorem feedLoop_returns (formed : part.Formed) (fuel : Nat)
    (ledger : Ledger Charge) (ready : p.Ready) (begins : part.offset ≤ p.next) :
    Fed.Returns p (feedLoop part fuel p ledger) ∧ ∃ n, Frame p n (feedLoop part fuel p ledger).parser := by
  induction fuel generalizing p ledger with
  | zero => exact ⟨.quiet rfl (.inl rfl) ready rfl, 0, rfl, rfl, rfl, rfl, rfl⟩
  | succ fuel ih =>
    unfold feedLoop
    split
    · rename_i more
      have rest := Part.tail_formed (n := p.next - part.offset) formed (by omega)
      have settled := p.settle_settled ledger (p.step (part.tail (p.next - part.offset)))
      generalize p.settle ledger (p.step (part.tail (p.next - part.offset))) = out at settled ⊢
      cases settled with
      | refused after _ => exact ⟨.quiet rfl (.inr rfl) ready rfl, 0, rfl, rfl, rfl, rfl, rfl⟩
      | granted after _ =>
        cases event : (p.step (part.tail (p.next - part.offset))).event with
        | none =>
          obtain ⟨ready', n, frame⟩ := step_silent rest ready event
          have kind := frame.kind
          have next := frame.next
          have side := (phased_step ready.reading _).silent event
          obtain ⟨returns, m, later⟩ := ih after ready' (by omega)
          refine ⟨?_, n + m, frame.trans later⟩
          dsimp only
          cases returns with
          | quiet message result ready same => exact .quiet message result ready (same.trans side)
          | head message carries result stop waits before body =>
            exact .head message carries result stop (kind ▸ waits) (side ▸ before) (kind ▸ body)
          | framed message carries result stop idle body =>
            exact .framed message carries result stop idle (kind ▸ side ▸ body)
          | stopped message carries result stop idle =>
            exact .stopped message carries result stop idle
        | some progress =>
          obtain ⟨n, outcome⟩ := step_came rest ready
          have frame := outcome.frame
          refine ⟨step_returns rest ready event _ _ _, ?_⟩
          dsimp only
          split
          · exact ⟨part.offset + part.length - p.next, frame.kind, frame.limits, frame.started,
              frame.ended, by simp only []; omega⟩
          · exact ⟨n, frame⟩
    · exact ⟨.quiet rfl (.inl rfl) ready rfl, 0, rfl, rfl, rfl, rfl, rfl⟩

end Parser

end EdgeObserver.Http1
