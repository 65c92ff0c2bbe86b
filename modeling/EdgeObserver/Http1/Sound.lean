import EdgeObserver.Http1.Step

/-!
# What holds wherever a call leaves the parser

Between messages nothing is held. Inside one, the message itself is charged once
and its charge covers at least the line in progress and the body bytes kept, so
that nothing handed over or given back ever exceeds it.
-/

set_option autoImplicit false

namespace EdgeObserver.Http1

open EdgeObserver.Stream

def Phase.readsLine : Phase → Bool
  | .inStartLine | .inFields | .inChunkSize | .inTrailers => true
  | _ => false

theorem Phase.inside_of_readsLine {phase : Phase} (reads : phase.readsLine = true) : phase ≠ .betweenMessages := by
  rintro rfl
  cases reads

structure Parser.Sound (p : Parser) : Prop where
  idle : p.phase = .betweenMessages → p.charge = 0 ∧ p.message = {}
  begun : p.phase ≠ .betweenMessages → p.charge.messages = 1
  lined : p.phase.readsLine = false → p.line = []
  covered : (p.line.length : Int) + p.message.body.length ≤ p.charge.bytes
  kept : p.phase = .inChunkData → p.chunkKept ≤ p.message.body.length
  remains : p.phase = .inDeclaredBody ∨ p.phase = .inChunkData → 0 < p.remaining
  awaits : p.phase = .awaitingAnswer → p.kind = .response
  stopped : p.stop ≠ .needInput → p.phase = .betweenMessages

structure Reading.Sound (r : Reading) : Prop where
  parser : r.parser.Sound
  handed : ∀ progress ∈ r.event, progress.charge.Nonneg

structure Parser.Covers (p : Parser) (n : Nat) : Prop where
  lined : p.line = []
  begun : p.charge.messages = 1
  covered : (n : Int) + p.message.body.length ≤ p.charge.bytes
  reading : p.stop = .needInput

theorem newParser_sound (kind : Kind) (limits : Limits) : (newParser kind limits).Sound where
  idle _ := ⟨rfl, rfl⟩
  begun inside := absurd rfl inside
  lined _ := rfl
  covered := by simp [newParser]
  kept := by simp [newParser]
  remains := by simp [newParser]
  awaits := by simp [newParser]
  stopped _ := rfl

namespace Message

theorem readRequestLine_body {m read : Message} {line : Bytes}
    (found : m.readRequestLine line = some read) : read.body = m.body := by
  unfold readRequestLine at found
  split at found
  · split at found
    · cases found
      rfl
    · cases found
  · cases found

theorem readStatusLine_body {m read : Message} {line : Bytes}
    (found : m.readStatusLine line = some read) : read.body = m.body := by
  unfold readStatusLine at found
  split at found
  · cases found
  dsimp only at found
  split at found
  · split at found
    · cases found
      rfl
    · cases found
  · cases found

end Message

namespace Parser

variable {n : Nat} {p : Parser}

theorem Covers.nonneg (covers : p.Covers n) : p.charge.Nonneg := by
  have covered := covers.covered
  have begun := covers.begun
  constructor <;> omega

theorem Covers.weaken (covers : p.Covers n) : p.Covers 0 :=
  { covers with covered := by have := covers.covered; omega }

theorem sound_handOver (nonneg : p.charge.Nonneg) (result : Result) :
    (p.handOver result).Sound where
  parser :=
    { idle := fun _ => ⟨rfl, rfl⟩
      begun := fun inside => absurd rfl inside
      lined := fun _ => rfl
      covered := by simp [handOver]
      kept := by simp [handOver]
      remains := by simp [handOver]
      awaits := by simp [handOver]
      stopped := fun _ => rfl }
  handed := by simpa [handOver] using nonneg

theorem sound_refuse (nonneg : p.charge.Nonneg) (defect : Defect) (detail : String) : (p.refuse defect detail).Sound :=
  sound_handOver (p := { p with message := { p.message with defect, detail }, stop := stopFor defect }) nonneg _

theorem sound_refuseLine {line : Bytes} (covers : p.Covers line.length)
    (defect : Defect) (detail : String) : (p.refuseLine line defect detail).Sound := by
  have covered := covers.covered
  have begun := covers.begun
  have nonneg : (p.release line.length).charge.Nonneg := by
    constructor <;> simp [release] <;> omega
  exact { sound_refuse nonneg defect detail with }

theorem sound_inside (covers : p.Covers 0) (inside : p.phase ≠ .betweenMessages)
    (kept : p.phase = .inChunkData → p.chunkKept ≤ p.message.body.length)
    (remains : p.phase = .inDeclaredBody ∨ p.phase = .inChunkData → 0 < p.remaining)
    (awaits : p.phase = .awaitingAnswer → p.kind = .response) : p.Sound where
  idle between := absurd between inside
  begun _ := covers.begun
  lined _ := covers.lined
  covered := by
    have covered := covers.covered
    rw [covers.lined]
    simpa using covered
  kept := kept
  remains := remains
  awaits := awaits
  stopped stopped := absurd covers.reading stopped

theorem sound_begin (sound : p.Sound) (between : p.phase = .betweenMessages)
    (reading : p.stop = .needInput) : p.begin.Sound where
  parser := by
    have lined := sound.lined (by rw [between]; rfl)
    exact sound_inside ⟨lined, rfl, by simp [begin], reading⟩ (by simp [begin]) (by simp [begin])
      (by simp [begin]) (by simp [begin])
  handed := by simp [begin]

theorem covers_takeLine (sound : p.Sound) (inside : p.phase ≠ .betweenMessages)
    (reading : p.stop = .needInput) : p.takeLine.2.Covers p.takeLine.1.length :=
  ⟨rfl, sound.begun inside, sound.covered, reading⟩

theorem covers_dropLine (sound : p.Sound) (inside : p.phase ≠ .betweenMessages)
    (reading : p.stop = .needInput) : p.dropLine.Covers 0 := by
  have covered := sound.covered
  refine ⟨rfl, ?_, ?_, reading⟩
  · simpa [dropLine, release] using sound.begun inside
  · simp only [dropLine, release, Charge.sub_bytes, Charge.ofBytes_bytes]
    omega

theorem sound_startLine (sound : p.Sound) (inside : p.phase ≠ .betweenMessages)
    (reading : p.stop = .needInput) : p.startLine.Sound := by
  have covers := covers_takeLine sound inside reading
  have started : ∀ message : Message, message.body = p.message.body →
      ({ parser := { p.takeLine.2 with message, phase := .inFields } } : Reading).Sound := by
    intro message body
    refine ⟨sound_inside ⟨rfl, covers.begun, ?_, reading⟩ (by simp) (by simp) (by simp) (by simp),
      by simp⟩
    have covered := covers.weaken.covered
    simpa [takeLine, body] using covered
  unfold startLine
  dsimp only
  split
  · split
    · rename_i message found
      exact started message (Message.readRequestLine_body found)
    · exact sound_refuseLine covers _ _
  · split
    · rename_i message found
      exact started message (Message.readStatusLine_body found)
    · exact sound_refuseLine covers _ _
  · exact sound_refuseLine covers _ _

theorem sound_chunkSizeNext (covers : p.Covers 0) : p.chunkSizeNext.Sound := by
  rcases p.chunkSizeNext_cases with ⟨detail, refused⟩ | sized
  · rw [refused]
    exact sound_refuse (by exact covers.nonneg) _ _
  · rw [sized]
    exact ⟨sound_inside { covers with } (by simp)
      (by simp) (by simp) (by simp), by simp⟩

theorem sound_bodyStep (covers : p.Covers 0) (inside : p.phase ≠ .betweenMessages)
    (kept : p.phase = .inChunkData → p.chunkKept ≤ p.message.body.length)
    (reading : p.phase ≠ .awaitingAnswer) : p.bodyStep.Sound := by
  unfold bodyStep
  split
  · rename_i remaining
    exact ⟨sound_inside covers inside kept (fun _ => Nat.pos_of_ne_zero remaining)
      (fun awaiting => absurd awaiting reading), by simp⟩
  · split
    · exact ⟨sound_inside { covers with } (by simp)
        (by simp) (by simp) (by simp), by simp⟩
    · exact sound_handOver (by exact covers.nonneg) _

theorem sound_frame (covers : p.Covers 0) (noBody : Bool) : (p.frame noBody).Sound := by
  have follows : ∀ kind : Kind, ∀ q : Parser,
      (if kind = .response then ({ result := .needInput } : Progress) else q.headEvent).charge.Nonneg := by
    intro kind q
    split <;> exact Charge.nonneg_zero
  unfold frame
  generalize p.message.frame p.kind noBody = framed
  obtain ⟨framing, length, detail⟩ := framed
  dsimp only
  cases framing with
  | ambiguous => exact sound_refuse (by exact covers.nonneg) _ _
  | none =>
    dsimp only
    split
    · exact sound_refuse (by exact covers.nonneg) _ _
    · exact sound_handOver (by exact covers.nonneg) _
  | contentLength =>
    dsimp only
    split
    · exact sound_bodyStep { covers with } (by simp) (by simp) (by simp)
    rename_i some
    refine ⟨sound_inside { covers with } (by simp)
      (by simp) (fun _ => Nat.pos_of_ne_zero some) (by simp), ?_⟩
    rintro progress ⟨⟩
    exact follows _ _
  | chunked =>
    dsimp only
    have sized := sound_chunkSizeNext (p := { p with message := { p.message with framing := .chunked } })
      { covers with }
    split
    · exact sized
    · refine ⟨sized.parser, ?_⟩
      rintro progress ⟨⟩
      exact follows _ _
  | untilClose => exact sound_handOver (by exact covers.nonneg) _

theorem sound_fieldsEnded (covers : p.Covers 0) : p.fieldsEnded.Sound := by
  unfold fieldsEnded
  split
  · rename_i response
    refine ⟨sound_inside { covers with } (by simp)
      (by simp) (by simp) (fun _ => response), ?_⟩
    rintro progress ⟨⟩
    exact Charge.nonneg_zero
  · exact sound_frame covers false

theorem sound_fieldLine (sound : p.Sound) (fields : p.phase = .inFields)
    (reading : p.stop = .needInput) : p.fieldLine.Sound := by
  have covers := covers_takeLine sound (by simp [fields]) reading
  have phase : p.takeLine.2.phase = .inFields := fields
  unfold fieldLine
  dsimp only
  split
  · exact sound_fieldsEnded covers.weaken
  split
  · exact sound_refuseLine covers _ _
  have counted : ({ p.takeLine.2 with
      headerBytes := p.takeLine.2.headerBytes + p.takeLine.1.length } : Parser).Covers
      p.takeLine.1.length := ⟨rfl, covers.begun, covers.covered, reading⟩
  split
  · exact sound_refuseLine counted _ _
  split
  · exact sound_refuseLine counted _ _
  · exact ⟨sound_inside ⟨rfl, covers.begun, covers.weaken.covered, reading⟩ (by simp [phase])
      (by simp [phase]) (by simp [phase]) (by simp [phase]), by simp⟩

theorem sound_trailerLine (sound : p.Sound) (trailers : p.phase = .inTrailers)
    (reading : p.stop = .needInput) : p.trailerLine.Sound := by
  have covers := covers_takeLine sound (by simp [trailers]) reading
  have phase : p.takeLine.2.phase = .inTrailers := trailers
  unfold trailerLine
  dsimp only
  split
  · exact sound_handOver (by exact covers.nonneg) _
  split
  · exact sound_refuseLine covers _ _
  split
  · exact sound_refuseLine covers _ _
  · exact ⟨sound_inside ⟨rfl, covers.begun, covers.weaken.covered, reading⟩ (by simp [phase])
      (by simp [phase]) (by simp [phase]) (by simp [phase]), by simp⟩

theorem sound_chunkSizeLine (sound : p.Sound) (inside : p.phase ≠ .betweenMessages)
    (reading : p.stop = .needInput) : p.chunkSizeLine.Sound := by
  have covers := covers_dropLine sound inside reading
  unfold chunkSizeLine
  dsimp only
  split
  · exact { sound_refuse covers.nonneg _ _ with }
  · exact ⟨sound_inside ⟨rfl, covers.begun, covers.covered, reading⟩ (by simp) (by simp) (by simp) (by simp), by simp⟩
  · rename_i size positive _
    exact ⟨sound_inside ⟨rfl, covers.begun, covers.covered, reading⟩ (by simp) (by simp)
      (fun _ => Nat.pos_of_ne_zero (fun none => positive none)) (by simp), by simp⟩

theorem sound_chunkEnd (sound : p.Sound) (after : p.phase = .inChunkEnd)
    (reading : p.stop = .needInput) (b : UInt8) : (p.chunkEnd b).Sound := by
  have lined := sound.lined (by rw [after]; rfl)
  have begun := sound.begun (by simp [after])
  have covered := sound.covered
  have covers : p.Covers 0 := ⟨lined, begun, by omega, reading⟩
  unfold chunkEnd
  dsimp only
  split
  · exact ⟨sound_inside ⟨lined, begun, covers.covered, reading⟩ (by simp [after]) (by simp [after])
      (by simp [after]) (by simp [after]), by simp⟩
  · split
    · exact sound_refuse (by exact covers.nonneg) _ _
    · exact sound_chunkSizeNext ⟨lined, begun, covers.covered, reading⟩

theorem sound_line (sound : p.Sound) (input : Bytes) (max : Int) (context : String)
    (take : Parser → Reading) (inside : p.phase.readsLine = true) (reading : p.stop = .needInput)
    (taken : ∀ q : Parser, q.Sound → q.phase = p.phase → q.stop = .needInput → (take q).Sound) :
    ((p.readLine input max context).ended take).Sound := by
  have between := Phase.inside_of_readsLine inside
  rw [readLine_eq]
  have grows : (lineScan max input p.line p.sawCR).2.isTooLong = false →
      p.line.length ≤ (lineScan max input p.line p.sawCR).2.text.length :=
    fun open? => (lineScan_grows open?).1
  generalize (lineScan max input p.line p.sawCR).1 = n
  generalize (lineScan max input p.line p.sawCR).2 = state at grows ⊢
  unfold lineRead
  split
  · have covers := covers_dropLine sound between reading
    have nonneg : ({ p with next := p.next + n }.dropLine).charge.Nonneg := covers.nonneg
    rw [LineRead.ended, if_pos (by simp [lineTooLong, refuse, handOver])]
    exact { sound_refuse nonneg _ _ with }
  · rename_i open?
    have longer := grows (by simpa using open?)
    have covered := sound.covered
    have grown : (p.lineGrown state.text (state.text.length - p.line.length) state.holdsCR n).parser.Sound :=
      { idle := fun idle => absurd idle between
        begun := fun _ => by simpa [lineGrown] using sound.begun between
        lined := fun idle => by simp [lineGrown, inside] at idle
        covered := by
          simp only [lineGrown, Charge.add_bytes, Charge.ofBytes_bytes]
          omega
        kept := fun chunk => sound.kept chunk
        remains := fun body => sound.remains body
        awaits := fun awaiting => sound.awaits awaiting
        stopped := fun stopped => absurd reading stopped }
    unfold LineRead.ended
    dsimp only
    split
    · exact ⟨grown, by simp [lineGrown]⟩
    · have read := taken _ grown rfl reading
      exact { read with }

theorem sound_body (sound : p.Sound) (input : Bytes)
    (body : p.phase = .inDeclaredBody ∨ p.phase = .inChunkData) (reading : p.stop = .needInput) :
    (p.body input).Sound := by
  have lined : p.line = [] := sound.lined (by rcases body with phase | phase <;> rw [phase] <;> rfl)
  have between : p.phase ≠ .betweenMessages := by rcases body with phase | phase <;> simp [phase]
  have covered := sound.covered
  have covers : ∀ take keep, keep ≤ input.length → (p.takeBody input take keep).Covers 0 := by
    intro take keep within
    refine ⟨lined, by simpa [takeBody] using sound.begun between, ?_, reading⟩
    simp only [takeBody, List.length_append, List.length_take, Charge.add_bytes, Charge.ofBytes_bytes]
    omega
  have kept : ∀ take keep, keep ≤ input.length → p.phase = .inChunkData →
      (p.takeBody input take keep).chunkKept ≤ (p.takeBody input take keep).message.body.length := by
    intro take keep within chunk
    have kept := sound.kept chunk
    simp only [takeBody, chunk, reduceCtorEq, ↓reduceIte, List.length_append, List.length_take]
    omega
  have within : min (min input.length p.remaining) p.room ≤ input.length := by omega
  have read := sound_bodyStep (covers (min input.length p.remaining) _ within) between
    (kept _ _ within) (by rcases body with phase | phase <;> simp [takeBody, phase])
  exact { read with }

theorem sound_hole (sound : p.Sound) (gap : GapReason) (n : Nat)
    (reading : p.stop = .needInput) : (p.hole gap n).Sound := by
  have covered := sound.covered
  have cut : p.phase ≠ .betweenMessages → ∀ detail : String,
      ({ p.dropLine.refuse .hole detail with released := givenBack p.line.length } : Reading).Sound := by
    intro inside detail
    have covers := covers_dropLine sound inside reading
    exact { sound_refuse covers.nonneg _ _ with }
  have body : p.phase = .inDeclaredBody ∨ p.phase = .inChunkData →
      (p.takeHole (min n p.remaining)).bodyStep.Sound := by
    intro body
    have inside : p.phase ≠ .betweenMessages := by rcases body with phase | phase <;> simp [phase]
    have lined : p.line = [] := sound.lined (by rcases body with phase | phase <;> rw [phase] <;> rfl)
    refine sound_bodyStep ⟨lined, sound.begun inside, by simp only [takeHole]; omega, reading⟩ inside
      (fun chunk => sound.kept chunk) ?_
    rcases body with phase | phase <;> simp [takeHole, phase]
  unfold hole
  split
  · rename_i between
    exact sound_begin sound between reading
  · rename_i declared
    exact body (.inl declared)
  · rename_i chunk
    exact body (.inr chunk)
  · rename_i between _ _
    exact cut between _

theorem sound_bytes (sound : p.Sound) (input : Bytes) (reading : p.stop = .needInput) :
    (p.bytes input).Sound := by
  unfold bytes
  split <;> rename_i phase
  · exact sound_begin sound phase reading
  · exact sound_line sound _ _ _ _ (by rw [phase]; rfl) reading
      fun q sound same reading => sound_startLine sound (by simp [same, phase]) reading
  · exact sound_line sound _ _ _ _ (by rw [phase]; rfl) reading
      fun q sound same reading => sound_fieldLine sound (same.trans phase) reading
  · exact sound_body sound input (.inl phase) reading
  · exact sound_body sound input (.inr phase) reading
  · exact sound_line sound _ _ _ _ (by rw [phase]; rfl) reading
      fun q sound same reading => sound_chunkSizeLine sound (by simp [same, phase]) reading
  · exact sound_chunkEnd sound phase reading _
  · exact sound_line sound _ _ _ _ (by rw [phase]; rfl) reading
      fun q sound same reading => sound_trailerLine sound (same.trans phase) reading
  · refine ⟨sound, ?_⟩
    rintro progress ⟨⟩
    exact Charge.nonneg_zero

theorem sound_step (sound : p.Sound) (rest : Part) (reading : p.stop = .needInput) :
    (p.step rest).Sound := by
  unfold step
  split
  · exact sound_bytes sound _ reading
  · exact sound_hole sound _ _ reading

/-! ## How far a step reads -/

theorem step_between (between : p.phase = .betweenMessages) (rest : Part) :
    p.step rest = p.begin := by
  unfold step bytes hole
  simp only [between]
  split <;> rfl

theorem outcome_bytes (input : Bytes) (some : input ≠ []) (sound : p.Sound)
    (inside : p.phase ≠ .betweenMessages) (reading : p.phase ≠ .awaitingAnswer) :
    ∃ n, Outcome p n (p.bytes input) ∧ n ≤ input.length ∧ 0 < n := by
  have line : ∀ (max : Int) (context : String) (take : Parser → Reading),
      (∀ q : Parser, q.phase = p.phase → Outcome q 0 (take q)) → (∀ q, (take q).asks = 0) →
      ∃ n, Outcome p n ((p.readLine input max context).ended take) ∧ n ≤ input.length ∧ 0 < n :=
    fun max context take taken free =>
      ⟨_, outcome_line p input max context take inside reading taken free,
        lineScan_consumed_le _ _ _ _, lineScan_consumed_pos some⟩
  have positive : 0 < input.length := List.length_pos_iff.mpr some
  have body : p.phase = .inDeclaredBody ∨ p.phase = .inChunkData →
      ∃ n, Outcome p n (p.body input) ∧ n ≤ input.length ∧ 0 < n := by
    intro body
    have remains := sound.remains body
    exact ⟨_, outcome_body p input inside reading, Nat.min_le_left _ _, by omega⟩
  unfold bytes
  split <;> rename_i phase
  · exact absurd phase inside
  · exact line _ _ _ (fun q _ => outcome_startLine q) startLine_asks
  · exact line _ _ _ (fun q same => outcome_fieldLine q (by simp [same, phase]) (by simp [same, phase])) fieldLine_asks
  · exact body (.inl phase)
  · exact body (.inr phase)
  · exact line _ _ _ (fun q _ => outcome_chunkSizeLine q) chunkSizeLine_asks
  · exact ⟨1, outcome_chunkEnd p _ inside reading, positive, Nat.one_pos⟩
  · exact line _ _ _ (fun q same => outcome_trailerLine q (by simp [same, phase]) (by simp [same, phase]))
      trailerLine_asks
  · exact absurd phase reading

theorem outcome_hole (gap : GapReason) (some : 0 < n) (sound : p.Sound)
    (inside : p.phase ≠ .betweenMessages) (reading : p.phase ≠ .awaitingAnswer) :
    (∃ m, Outcome p m (p.hole gap n) ∧ m ≤ n ∧ 0 < m) ∨
      (Outcome p 0 (p.hole gap n) ∧ (p.hole gap n).parser.stop = .cut) := by
  have body : p.phase = .inDeclaredBody ∨ p.phase = .inChunkData →
      ∃ m, Outcome p m (p.takeHole (min n p.remaining)).bodyStep ∧ m ≤ n ∧ 0 < m := by
    intro body
    have remains := sound.remains body
    refine ⟨min n p.remaining, ?_, Nat.min_le_left _ _, by omega⟩
    exact (outcome_bodyStep _ (by exact inside) (by exact reading)).after rfl rfl
      ⟨rfl, rfl, rfl, rfl, rfl, (add_zero _).symm⟩ rfl (zero_add _).symm
  unfold hole
  split
  · rename_i between
    exact absurd between inside
  · rename_i declared
    exact .inl (body (.inl declared))
  · rename_i chunk
    exact .inl (body (.inr chunk))
  · refine .inr ⟨?_, rfl⟩
    exact (outcome_refuse _ _ _).after rfl rfl p.moves_dropLine rfl (by simp [Reading.growth, refuse, handOver])

theorem step_outcome {rest : Part} (formed : rest.Formed) (sound : p.Sound)
    (inside : p.phase ≠ .betweenMessages) (reading : p.phase ≠ .awaitingAnswer) :
    (∃ n, Outcome p n (p.step rest) ∧ n ≤ rest.length ∧ 0 < n) ∨
      (Outcome p 0 (p.step rest) ∧ (p.step rest).parser.stop = .cut) := by
  unfold step
  split
  · rename_i carried
    have length := formed.carried carried
    have some : rest.bytes ≠ [] := by
      have covers := formed.covers
      intro none
      rw [none, List.length_nil] at length
      omega
    rw [← length]
    exact .inl (outcome_bytes rest.bytes some sound inside reading)
  · exact outcome_hole rest.gap formed.covers sound inside reading

end Parser

end EdgeObserver.Http1
