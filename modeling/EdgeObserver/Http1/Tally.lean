import EdgeObserver.Http1.Head

/-!
# Tiling and accounting

The messages a parser hands over lie end to end from where the direction began,
and what lies past the last of them once the direction has stopped is unplaced.
Each accounts for its body's offsets: kept, holed or elided.
-/

set_option autoImplicit false

namespace EdgeObserver.Http1

open Library EdgeObserver.Stream Text

def Header.size (header : Header) : Nat := header.name.length + 1 + header.value.length

namespace Message

def Balanced (m : Message) : Prop := m.bodyLength = m.body.length + m.bodyHoled + m.bodyElided

structure Unread (m : Message) : Prop where
  framing : m.framing = .none
  body : m.body = []
  length : m.bodyLength = 0
  holed : m.bodyHoled = 0
  elided : m.bodyElided = 0

structure Within (limits : Limits) (m : Message) : Prop where
  body : (m.body.length : Int) ≤ limits.maxBodyBytes
  headers : (m.headers.length : Int) ≤ limits.maxHeaders
  headerBytes : ((m.headers.map Header.size).sum : Int) ≤ limits.maxHeaderBytes
  headerLines : ∀ header ∈ m.headers, (header.size : Int) ≤ limits.maxHeaderLine
  trailers : (m.trailers.length : Int) ≤ limits.maxTrailers
  trailerLines : ∀ trailer ∈ m.trailers, (trailer.size : Int) ≤ limits.maxHeaderLine

structure Tallied (limits : Limits) (m : Message) : Prop where
  extent : m.offset ≤ m.endsAt
  account : m.framed = true ∨ m.framing = .chunked → m.Balanced
  complete : m.complete = true ↔ m.framed = true ∧ m.bodyHoled = 0
  within : m.Within limits

end Message

structure Limits.Positive (limits : Limits) : Prop where
  startLine : 0 < limits.maxStartLine
  headerLine : 0 < limits.maxHeaderLine
  headers : 0 < limits.maxHeaders
  headerBytes : 0 < limits.maxHeaderBytes
  bodyBytes : 0 < limits.maxBodyBytes
  chunks : 0 < limits.maxChunks
  trailers : 0 < limits.maxTrailers

theorem Limits.orDefaults_positive (limits : Limits) : limits.orDefaults.Positive := by
  have bound : ∀ given default : Int, 0 < default → 0 < (if given ≤ 0 then default else given) := by
    intro given default positive
    split
    · exact positive
    · omega
  constructor <;> exact bound _ _ (by decide)

namespace Parser

/-- What is accounted of the body in progress, in each phase. The chunk in
progress counts beside the message until its data is in. -/
def Account (p : Parser) : Prop :=
  match p.phase with
  | .betweenMessages | .inStartLine | .inFields | .awaitingAnswer => p.message.Unread
  | .inDeclaredBody =>
    p.message.framing = .contentLength ∧
      p.message.body.length + p.message.bodyHoled + p.message.bodyElided + p.remaining = p.message.bodyLength
  | .inChunkSize | .inTrailers => p.message.framing = .chunked ∧ p.message.Balanced
  | .inChunkData =>
    p.message.framing = .chunked ∧
      p.message.bodyLength + p.chunkKept = p.message.body.length + p.message.bodyHoled + p.message.bodyElided ∧
      p.chunkKept + p.chunkHoled + p.chunkElided + p.remaining = p.chunkSize ∧
      p.chunkKept ≤ p.message.body.length ∧ p.settled ≤ p.chunkStart ∧ p.chunkStart ≤ p.next
  | .inChunkEnd =>
    p.message.framing = .chunked ∧ p.message.Balanced ∧ p.settled + p.endSeen ≤ p.next

def lineBound (p : Parser) : Int :=
  if p.phase = .inStartLine then p.limits.maxStartLine else p.limits.maxHeaderLine

structure Stands (p : Parser) : Prop where
  positive : p.limits.Positive
  within : p.message.Within p.limits
  unframed : p.message.framed = false ∧ p.message.complete = false
  begun : p.phase ≠ .betweenMessages → p.message.offset = p.settled
  settled : p.settled ≤ p.next
  idle : p.phase = .betweenMessages → p.stop = .needInput → p.ended = false → p.settled = p.next

structure Tally (p : Parser) : Prop extends p.Stands where
  account : p.Account
  line : (p.line.length : Int) ≤ p.lineBound
  counted : p.phase = .inStartLine ∨ p.phase = .inFields →
    (p.message.headers.map Header.size).sum ≤ p.headerBytes ∧ (p.headerBytes : Int) ≤ p.limits.maxHeaderBytes

end Parser

/-- A reading as it leaves the parser: a message handed over is tallied, begins
where the last one ended, and ends where the next one begins. -/
structure Reading.Tallies (p : Parser) (r : Reading) : Prop where
  parser : r.parser.Tally
  limits : r.parser.limits = p.limits
  handed : ∀ progress ∈ r.event, progress.result ≠ .head → ∀ m ∈ progress.message,
    m.Tallied p.limits ∧ m.offset = p.settled ∧ r.parser.settled = m.endsAt
  kept : (∀ progress ∈ r.event, progress.result = .head ∨ progress.message = none) → r.parser.settled = p.settled

theorem Reading.Tallies.after {p q : Parser} {r : Reading} (tallies : r.Tallies q)
    (limits : q.limits = p.limits) (settled : q.settled = p.settled) : r.Tallies p :=
  ⟨tallies.parser, tallies.limits.trans limits, by rw [← limits, ← settled]; exact tallies.handed,
    fun kept => (tallies.kept kept).trans settled⟩

theorem forall_concat {P : Header → Prop} {headers : List Header} {header : Header}
    (every : ∀ each ∈ headers, P each) (last : P header) : ∀ each ∈ headers ++ [header], P each := by
  intro each member
  rcases List.mem_append.mp member with old | new
  · exact every each old
  · exact List.mem_singleton.mp new ▸ last

theorem Message.Within.field {limits : Limits} {m : Message} {header : Header} (within : m.Within limits)
    (room : (m.headers.length : Int) < limits.maxHeaders)
    (total : (((m.headers ++ [header]).map Header.size).sum : Int) ≤ limits.maxHeaderBytes)
    (line : (header.size : Int) ≤ limits.maxHeaderLine) :
    Message.Within limits { m with headers := m.headers ++ [header] } := by
  refine ⟨within.body, ?_, total, forall_concat within.headerLines line, within.trailers, within.trailerLines⟩
  rw [List.length_append, List.length_singleton]
  omega

theorem Message.Within.trailer {limits : Limits} {m : Message} {trailer : Header} (within : m.Within limits)
    (room : (m.trailers.length : Int) < limits.maxTrailers)
    (line : (trailer.size : Int) ≤ limits.maxHeaderLine) :
    Message.Within limits { m with trailers := m.trailers ++ [trailer] } := by
  refine { within with trailers := ?_, trailerLines := forall_concat within.trailerLines line }
  rw [List.length_append, List.length_singleton]
  omega

/-!
## Lines and what is read from them
-/

section Lines

variable {m read : Message} {line : Bytes}

theorem cut_length {separator : UInt8} {text before after : Bytes}
    (found : cut separator text = (before, after, true)) :
    before.length + 1 + after.length = text.length := by
  have whole := List.takeWhile_append_dropWhile (p := (· != separator)) (l := text)
  unfold cut at found
  split at found
  · cases found
  rename_i first rest dropped
  cases found
  have lengths := congrArg List.length whole
  rw [List.length_append, dropped, List.length_cons] at lengths
  omega

theorem readHeader_size {header : Header} (found : readHeader line = some header) :
    header.size ≤ line.length := by
  unfold readHeader at found
  split at found
  · rename_i name rest parted
    split at found
    · cases found
      have length := cut_length parted
      have shorter := (trimBlanks_within rest).length_le
      simp only [Header.size]
      omega
    · cases found
  · cases found

theorem readRequestLine_eq (found : m.readRequestLine line = some read) :
    ∃ method target protocol, read = { m with method, target, protocol } := by
  unfold Message.readRequestLine at found
  split at found
  · split at found
    · cases found
      exact ⟨_, _, _, rfl⟩
    · cases found
  · cases found

end Lines

/-!
## Steps
-/

namespace Parser

variable {p q : Parser} {r : Reading}

variable {method : Bytes} {ledger : Ledger Charge} {limits : Limits} {m : Message} {next : Nat} {part : Part}
  {phase : Phase} {progress : Progress} {answered : Reading}

theorem within_empty (positive : limits.Positive) : Message.Within limits {} := by
  obtain ⟨_, _, headers, bytes, body, _, trailers⟩ := positive
  exact ⟨Int.le_of_lt body, Int.le_of_lt headers, Int.le_of_lt bytes, by simp, Int.le_of_lt trailers, by simp⟩

theorem lineBound_pos (positive : p.limits.Positive) : 0 < p.lineBound := by
  unfold lineBound
  split
  · exact positive.startLine
  · exact positive.headerLine

theorem tallies_quiet (silent : r.event = none) (tally : r.parser.Tally)
    (limits : r.parser.limits = p.limits) (settled : r.parser.settled = p.settled) : r.Tallies p :=
  ⟨tally, limits, by simp [silent], fun _ => settled⟩

theorem tallies_returns (event : r.event = some progress)
    (kept : progress.result = .head ∨ progress.message = none) (tally : r.parser.Tally)
    (limits : r.parser.limits = p.limits) (settled : r.parser.settled = p.settled) : r.Tallies p := by
  refine ⟨tally, limits, ?_, fun _ => settled⟩
  intro returned is other m carried
  rw [event] at is
  cases is
  rcases kept with head | none_
  · exact absurd head other
  · rw [none_] at carried
    cases carried

theorem tallies_handOver {result : Result} (positive : q.limits.Positive) (limits : q.limits = p.limits)
    (offset : q.message.offset = p.settled)
    (tallied : Message.Tallied q.limits { q.message with endsAt := q.next })
    (other : result ≠ .head) : (q.handOver result).Tallies p := by
  refine ⟨⟨⟨positive, within_empty positive, ⟨rfl, rfl⟩, fun inside => absurd rfl inside,
    Nat.le_refl _, fun _ _ _ => rfl⟩, ⟨rfl, rfl, rfl, rfl, rfl⟩, ?_, by simp [handOver]⟩, limits, ?_, ?_⟩
  · exact Int.le_of_lt (lineBound_pos positive)
  · rintro progress ⟨⟩ _ m ⟨⟩
    exact ⟨limits ▸ tallied, offset, rfl⟩
  · intro kept
    rcases kept _ rfl with head | none_
    · exact absurd head other
    · cases none_

theorem stopFor_ne_head (defect : Defect) : stopFor defect ≠ .head := by
  cases defect <;> simp [stopFor]

theorem tallies_refuse (stands : p.Stands) (inside : p.phase ≠ .betweenMessages)
    (balanced : p.message.framing = .chunked → p.message.Balanced) (defect : Defect) (detail : String) :
    (p.refuse defect detail).Tallies p := by
  have offset := stands.begun inside
  obtain ⟨unframed, incomplete⟩ := stands.unframed
  refine tallies_handOver stands.positive rfl offset ⟨?_, ?_, ?_, ?_⟩ (stopFor_ne_head defect)
  · exact Nat.le_trans (Nat.le_of_eq offset) stands.settled
  · rintro (framed | chunked)
    · simp [unframed] at framed
    · exact balanced chunked
  · simp [unframed, incomplete]
  · exact { stands.within with }

theorem Stands.congr (stands : p.Stands) (limits : q.limits = p.limits)
    (within : q.message.Within p.limits) (offset : q.message.offset = p.message.offset)
    (unframed : q.message.framed = false ∧ q.message.complete = false)
    (inside : q.phase ≠ .betweenMessages) (before : p.phase ≠ .betweenMessages)
    (settled : q.settled = p.settled) (next : p.next ≤ q.next) : q.Stands :=
  ⟨limits ▸ stands.positive, limits ▸ within, unframed, fun _ => by rw [offset, settled]; exact stands.begun before,
    settled ▸ Nat.le_trans stands.settled next, fun between => absurd between inside⟩

theorem Stands.moved (stands : p.Stands) (before : p.phase ≠ .betweenMessages) (limits : q.limits = p.limits)
    (message : q.message = p.message) (inside : q.phase ≠ .betweenMessages) (settled : q.settled = p.settled)
    (next : p.next ≤ q.next) : q.Stands :=
  stands.congr limits (message ▸ stands.within) (message ▸ rfl) (message ▸ stands.unframed) inside before settled next

/-- What is accounted in the phase the parser is in. -/
theorem Tally.inPhase (tally : p.Tally) (is : p.phase = phase) : ({ p with phase } : Parser).Account :=
  is ▸ tally.account

theorem Tally.lineAt (tally : p.Tally) (is : p.phase = phase) (other : phase ≠ .inStartLine) :
    (p.line.length : Int) ≤ p.limits.maxHeaderLine := by
  have line := tally.line
  rwa [lineBound, if_neg (is ▸ other)] at line

theorem inside_body (body : p.phase = .inDeclaredBody ∨ p.phase = .inChunkData) : p.phase ≠ .betweenMessages := by
  rcases body with is | is <;> simp [is]

theorem Tally.takeLine (tally : p.Tally) : p.takeLine.2.Tally :=
  ⟨{ tally with }, tally.account,
    Int.le_of_lt (lineBound_pos tally.positive), tally.counted⟩

theorem Tally.dropLine (tally : p.Tally) : p.dropLine.Tally :=
  ⟨{ tally with }, tally.account,
    Int.le_of_lt (lineBound_pos tally.positive), tally.counted⟩

theorem Stands.release (stands : p.Stands) (n : Nat) : (p.release n).Stands :=
  { stands with }

theorem tallies_refuseLine (stands : p.Stands) (inside : p.phase ≠ .betweenMessages)
    (balanced : p.message.framing = .chunked → p.message.Balanced) (line : Bytes) (defect : Defect)
    (detail : String) : (p.refuseLine line defect detail).Tallies p := by
  have refused := tallies_refuse (stands.release line.length) inside balanced defect detail
  exact { refused with }

theorem tallies_begin (tally : p.Tally) (between : p.phase = .betweenMessages)
    (reading : p.stop = .needInput) (open? : p.ended = false) (unlined : p.line = []) :
    p.begin.Tallies p := by
  have level := tally.idle between reading open?
  have positive := tally.positive
  have empty := within_empty positive
  refine tallies_quiet rfl ⟨⟨positive, ?_, ⟨rfl, rfl⟩, fun _ => level.symm, Nat.le_of_eq level,
    fun idle => by cases idle⟩, ⟨rfl, rfl, rfl, rfl, rfl⟩, ?_,
    fun _ => ⟨Nat.le_refl _, Int.le_of_lt positive.headerBytes⟩⟩ rfl rfl
  · exact { empty with }
  · simp only [Parser.begin, unlined]
    exact Int.le_of_lt positive.startLine

theorem tally_started (tally : p.Tally) (starts : p.phase = .inStartLine) {message : Message}
    (same : ∃ method target protocol status reason,
      message = { p.message with method, target, protocol, status, reason }) :
    ({ p.takeLine.2 with message, phase := .inFields } : Parser).Tally := by
  obtain ⟨method, target, protocol, status, reason, rfl⟩ := same
  have inside : p.phase ≠ .betweenMessages := by simp [starts]
  have unread : p.message.Unread := tally.inPhase starts
  have within := tally.within
  refine ⟨tally.toStands.congr rfl ?_ rfl tally.unframed (by simp) inside rfl (Nat.le_refl _),
    ?_, Int.le_of_lt tally.positive.headerLine, fun _ => tally.counted (.inl starts)⟩
  · exact { within with }
  · exact { unread with }

theorem tallies_startLine (tally : p.Tally) (starts : p.phase = .inStartLine) : p.startLine.Tallies p := by
  have inside : p.phase ≠ .betweenMessages := by simp [starts]
  have unread : p.message.Unread := tally.inPhase starts
  have unchunked : p.message.framing = .chunked → p.message.Balanced := by simp [unread.framing]
  have refused : ∀ line detail, (p.takeLine.2.refuseLine line .malformed detail).Tallies p :=
    fun line detail =>
      (tallies_refuseLine tally.takeLine.toStands inside unchunked line .malformed detail).after rfl rfl
  unfold startLine
  dsimp only
  split
  · split
    · rename_i read found
      obtain ⟨method, target, protocol, rfl⟩ := readRequestLine_eq found
      exact tallies_quiet rfl (tally_started tally starts ⟨_, _, _, _, _, rfl⟩) rfl rfl
    · exact refused _ _
  · split
    · rename_i read found
      obtain ⟨protocol, x, y, z, tail, reason, _, _, _, rfl⟩ := readStatusLine_eq found
      exact tallies_quiet rfl (tally_started tally starts ⟨_, _, _, _, _, rfl⟩) rfl rfl
    · exact refused _ _
  · exact refused _ _

theorem chunkSizeNext_tallies (stands : p.Stands) (inside : p.phase ≠ .betweenMessages)
    (chunked : p.message.framing = .chunked) (balanced : p.message.Balanced)
    (line : (p.line.length : Int) ≤ p.limits.maxHeaderLine) : p.chunkSizeNext.Tallies p := by
  rcases p.chunkSizeNext_cases with ⟨detail, refused⟩ | sized
  · rw [refused]
    exact tallies_refuse stands inside (fun _ => balanced) _ _
  · rw [sized]
    refine tallies_quiet rfl ⟨?_, ⟨chunked, balanced⟩, line, by simp⟩ rfl rfl
    exact stands.congr rfl stands.within rfl stands.unframed (by simp) inside rfl (Nat.le_refl _)

theorem tallied_framedWhole (unframed : m.complete = false)
    (balanced : m.Balanced) (within : m.Within limits) {endsAt : Nat} (extent : m.offset ≤ endsAt) :
    Message.Tallied limits { framedWhole m with endsAt } := by
  unfold framedWhole
  split
  · rename_i holed
    refine ⟨extent, fun _ => balanced, ?_, ?_⟩
    · simp only [unframed, Bool.false_eq_true, true_and, false_iff]
      omega
    · exact { within with }
  · rename_i whole
    refine ⟨extent, fun _ => balanced, ?_, ?_⟩
    · simp only [true_and, true_iff]
      omega
    · exact { within with }

theorem tallies_framedWhole (stands : p.Stands) (inside : p.phase ≠ .betweenMessages) (balanced : p.message.Balanced) :
    ({ p with message := framedWhole p.message }.handOver .framed).Tallies p := by
  have offset : (framedWhole p.message).offset = p.message.offset := by
    unfold framedWhole
    split <;> rfl
  have begun := stands.begun inside
  refine tallies_handOver stands.positive rfl (offset.trans begun) ?_ (by simp)
  refine tallied_framedWhole stands.unframed.2 balanced stands.within ?_
  exact Nat.le_trans (Nat.le_of_eq begun) stands.settled

theorem tallies_bodyStep (stands : p.Stands) (account : p.Account)
    (body : p.phase = .inDeclaredBody ∨ p.phase = .inChunkData)
    (line : (p.line.length : Int) ≤ p.limits.maxHeaderLine) : p.bodyStep.Tallies p := by
  have inside := inside_body body
  have bound : p.lineBound = p.limits.maxHeaderLine := by
    unfold lineBound
    rcases body with is | is <;> simp [is]
  unfold bodyStep
  split
  · refine tallies_quiet rfl ⟨stands, account, by rw [bound]; exact line, ?_⟩ rfl rfl
    rcases body with is | is <;> simp [is]
  rename_i ended
  have none_ : p.remaining = 0 := by omega
  unfold Account at account
  split
  · rename_i data
    rw [data] at account
    obtain ⟨chunked, kept, sized, _, begun⟩ := account
    refine tallies_quiet rfl ⟨?_, ⟨chunked, ?_, ?_⟩, line, by simp⟩ rfl rfl
    · exact stands.congr rfl { stands.within with } rfl
        stands.unframed (by simp) inside rfl (Nat.le_refl _)
    · simp only [Message.Balanced]
      omega
    · exact stands.settled
  · rename_i other
    have declared : p.phase = .inDeclaredBody := body.resolve_right other
    rw [declared] at account
    refine tallies_framedWhole stands inside ?_
    unfold Message.Balanced
    omega

theorem tallied_unread {n : Message} (unread : m.Unread) (within : m.Within limits)
    (same : n = { m with
      framing := n.framing, framed := n.framed, complete := n.framed, defect := n.defect
      detail := n.detail, endsAt := n.endsAt })
    (extent : m.offset ≤ n.endsAt) : n.Tallied limits := by
  rw [same]
  refine ⟨extent, fun _ => ?_, ?_, { within with }⟩
  · simp only [Message.Balanced, unread.body, unread.length, unread.holed, unread.elided]
    rfl
  · simp [unread.holed]

theorem tallies_frame (stands : p.Stands) (unread : p.message.Unread)
    (inside : p.phase ≠ .betweenMessages) (line : (p.line.length : Int) ≤ p.limits.maxHeaderLine)
    (noBody : Bool) : (p.frame noBody).Tallies p := by
  have extent : p.message.offset ≤ p.next := Nat.le_trans (Nat.le_of_eq (stands.begun inside)) stands.settled
  have follows : ∀ q : Parser, q.Tally → q.limits = p.limits → q.settled = p.settled →
      Reading.Tallies p { parser := q, event := some (if q.kind = .response then { result := .needInput } else q.headEvent) } := by
    intro q tally limits settled
    refine tallies_returns rfl ?_ tally limits settled
    split
    · exact .inr rfl
    · exact .inl rfl
  unfold frame
  generalize p.message.frame p.kind noBody = framed
  obtain ⟨framing, length, detail⟩ := framed
  have noted : ({ p with message := { p.message with framing } } : Parser).Stands :=
    { stands with within := { stands.within with } }
  dsimp only
  cases framing with
  | ambiguous => exact (tallies_refuse noted inside (fun chunked => by cases chunked) _ _).after rfl rfl
  | none =>
    dsimp only
    split
    · exact (tallies_refuse noted inside (fun chunked => by cases chunked) _ _).after rfl rfl
    · exact tallies_handOver stands.positive rfl (stands.begun inside)
        (tallied_unread unread stands.within rfl extent) (by simp)
  | contentLength =>
    have declared : ({ p with
        message := { p.message with framing := .contentLength, bodyLength := length }
        remaining := length, phase := .inDeclaredBody } : Parser).Stands :=
      noted.congr rfl { stands.within with } rfl stands.unframed (by simp)
        inside rfl (Nat.le_refl _)
    have account : ({ p with
        message := { p.message with framing := .contentLength, bodyLength := length }
        remaining := length, phase := .inDeclaredBody } : Parser).Account := by
      refine ⟨rfl, ?_⟩
      simp [unread.body, unread.holed, unread.elided]
    dsimp only
    split
    · exact (tallies_bodyStep declared account (.inl rfl) line).after rfl rfl
    · exact follows _ ⟨declared, account, line, by simp⟩ rfl rfl
  | chunked =>
    have balanced : Message.Balanced { p.message with framing := .chunked } := by
      simp [Message.Balanced, unread.body, unread.length, unread.holed, unread.elided]
    have sized := chunkSizeNext_tallies noted inside rfl balanced line
    dsimp only
    split
    · exact sized.after rfl rfl
    rename_i silent
    refine follows _ sized.parser sized.limits (sized.kept ?_)
    intro progress is
    rw [is] at silent
    simp at silent
  | untilClose =>
    exact tallies_handOver stands.positive rfl (stands.begun inside)
      ⟨extent, by simp [stands.unframed.1], by simp [stands.unframed.1, stands.unframed.2],
        { stands.within with }⟩ (by simp)

theorem tallies_fieldsEnded (tally : p.Tally) (fields : p.phase = .inFields) : p.fieldsEnded.Tallies p := by
  have inside : p.phase ≠ .betweenMessages := by simp [fields]
  have unread : p.message.Unread := tally.inPhase fields
  have line := tally.lineAt fields (by simp)
  unfold fieldsEnded
  split
  · refine tallies_returns rfl (.inl rfl) ⟨?_, unread, line, by simp⟩ rfl rfl
    exact tally.toStands.congr rfl tally.within rfl tally.unframed (by simp) inside rfl (Nat.le_refl _)
  · exact tallies_frame tally.toStands unread inside line false

theorem tallies_fieldLine (tally : p.Tally) (fields : p.phase = .inFields) : p.fieldLine.Tallies p := by
  have inside : p.phase ≠ .betweenMessages := by simp [fields]
  have taken := tally.takeLine
  have unread : p.message.Unread := tally.inPhase fields
  have unchunked : p.message.framing = .chunked → p.message.Balanced := by simp [unread.framing]
  have bounded := tally.lineAt fields (by simp)
  unfold fieldLine
  dsimp only
  split
  · exact (tallies_fieldsEnded taken fields).after rfl rfl
  split
  · exact (tallies_refuseLine taken.toStands inside unchunked _ _ _).after rfl rfl
  rename_i room
  have counted : ({ p.takeLine.2 with
      headerBytes := p.takeLine.2.headerBytes + p.takeLine.1.length } : Parser).Stands :=
    { tally with }
  split
  · exact (tallies_refuseLine counted inside unchunked _ _ _).after rfl rfl
  rename_i short
  split
  · exact (tallies_refuseLine counted inside unchunked _ _ _).after rfl rfl
  rename_i header found
  have size := readHeader_size found
  have sizes : ((p.message.headers ++ [header]).map Header.size).sum ≤
      p.headerBytes + p.line.length := by
    rw [List.map_append, List.sum_append, List.map_singleton, List.sum_singleton]
    exact Nat.add_le_add (tally.counted (.inr fields)).1 size
  have bytes : ((p.headerBytes + p.line.length : Nat) : Int) ≤ p.limits.maxHeaderBytes := Int.not_lt.mp short
  refine tallies_quiet rfl ⟨{ tally with within := ?_ }, ?_, Int.le_of_lt (lineBound_pos tally.positive), fun _ => ⟨sizes, bytes⟩⟩ rfl rfl
  · refine tally.within.field (Int.not_le.mp room) (Int.le_trans (Int.ofNat_le.mpr sizes) bytes) ?_
    exact Int.le_trans (Int.ofNat_le.mpr size) bounded
  · unfold Account
    rw [show p.takeLine.2.phase = .inFields from fields]
    exact { unread with }

theorem tallies_trailerLine (tally : p.Tally) (ending : p.phase = .inTrailers) :
    p.trailerLine.Tallies p := by
  have inside : p.phase ≠ .betweenMessages := by simp [ending]
  have taken := tally.takeLine
  obtain ⟨chunked, balanced⟩ := tally.inPhase ending
  have bounded := tally.lineAt ending (by simp)
  unfold trailerLine
  dsimp only
  split
  · exact (tallies_framedWhole taken.toStands inside balanced).after rfl rfl
  split
  · exact (tallies_refuseLine taken.toStands inside (fun _ => balanced) _ _ _).after rfl rfl
  rename_i room
  split
  · exact (tallies_refuseLine taken.toStands inside (fun _ => balanced) _ _ _).after rfl rfl
  rename_i trailer found
  refine tallies_quiet rfl ⟨{ tally with within := ?_ }, ?_, Int.le_of_lt (lineBound_pos tally.positive), ?_⟩ rfl rfl
  · refine tally.within.trailer (Int.not_le.mp room) ?_
    exact Int.le_trans (Int.ofNat_le.mpr (readHeader_size found)) bounded
  · unfold Account
    rw [show p.takeLine.2.phase = .inTrailers from ending]
    exact ⟨chunked, balanced⟩
  · rw [show p.takeLine.2.phase = .inTrailers from ending]
    simp

theorem tallies_chunkSizeLine (tally : p.Tally) (sizing : p.phase = .inChunkSize) :
    p.chunkSizeLine.Tallies p := by
  have inside : p.phase ≠ .betweenMessages := by simp [sizing]
  have dropped := tally.dropLine
  obtain ⟨chunked, balanced⟩ := tally.inPhase sizing
  unfold chunkSizeLine
  dsimp only
  split
  · have refused := tallies_refuse dropped.toStands inside (fun _ => balanced) .malformed
      "a chunk size no decoder would accept"
    exact Reading.Tallies.after { refused with } rfl rfl
  · refine tallies_quiet rfl ⟨tally.toStands.moved inside rfl rfl (by simp) rfl (Nat.le_refl _), ⟨chunked, balanced⟩, ?_, by simp⟩ rfl rfl
    exact Int.le_of_lt tally.positive.headerLine
  · refine tallies_quiet rfl ⟨tally.toStands.moved inside rfl rfl (by simp) rfl (Nat.le_refl _), ⟨chunked, ?_, ?_, Nat.zero_le _,
      tally.settled, Nat.le_refl _⟩, ?_, by simp⟩ rfl rfl
    · exact balanced
    · simp
    · exact Int.le_of_lt tally.positive.headerLine

theorem tallies_chunkEnd (tally : p.Tally) (after : p.phase = .inChunkEnd) (b : UInt8) :
    (p.chunkEnd b).Tallies p := by
  have inside : p.phase ≠ .betweenMessages := by simp [after]
  obtain ⟨chunked, balanced, seen⟩ := tally.inPhase after
  have line := tally.lineAt after (by simp)
  have moved : ∀ {q : Parser}, q.limits = p.limits → q.message = p.message → q.phase = p.phase →
      q.settled = p.settled → q.next = p.next + 1 → q.Stands := fun limits message phase settled next =>
    tally.toStands.moved inside limits message (phase ▸ inside) settled (by omega)
  unfold chunkEnd
  dsimp only
  split
  · rename_i none_
    refine tallies_quiet rfl ⟨moved rfl rfl rfl rfl rfl, ?_, ?_, by simp [after]⟩ rfl rfl
    · unfold Account
      dsimp only
      rw [after]
      exact ⟨chunked, balanced, Nat.add_le_add tally.settled (Nat.le_refl 1)⟩
    · simpa [lineBound, after] using line
  · split
    · have stands := moved (q := { p with next := p.next + 1, endSeen := 0 }) rfl rfl rfl rfl rfl
      exact (tallies_refuse stands inside (fun _ => balanced) _ _).after rfl rfl
    · have stands := moved (q := { p with next := p.next + 1, endSeen := 0, chunks := p.chunks + 1 }) rfl rfl rfl rfl rfl
      exact (chunkSizeNext_tallies stands inside chunked balanced line).after rfl rfl

theorem tally_line (tally : p.Tally) (body : p.phase = .inDeclaredBody ∨ p.phase = .inChunkData) :
    (p.line.length : Int) ≤ p.limits.maxHeaderLine :=
  body.elim (fun is => tally.lineAt is (by simp)) fun is => tally.lineAt is (by simp)

theorem tallies_body (tally : p.Tally) (body : p.phase = .inDeclaredBody ∨ p.phase = .inChunkData)
    (input : Bytes) : (p.body input).Tallies p := by
  have inside := inside_body body
  have account := tally.account
  have within := tally.within
  generalize taken : min input.length p.remaining = take
  generalize held : min take p.room = keep
  have room : (p.message.body.length : Int) + keep ≤ p.limits.maxBodyBytes := by
    have bounded := within.body
    have fits : keep ≤ p.room := by omega
    unfold Parser.room at fits
    omega
  have length : (p.message.body ++ input.take keep).length = p.message.body.length + keep := by
    rw [List.length_append, List.length_take, Nat.min_eq_left (by omega)]
  have stands : (p.takeBody input take keep).Stands := by
    refine tally.toStands.congr rfl ?_ rfl tally.unframed inside inside rfl (Nat.le_add_right _ _)
    refine { within with body := ?_ }
    simp only [takeBody, length]
    omega
  have accounted : (p.takeBody input take keep).Account := by
    unfold Account at account ⊢
    rcases body with declared | data
    · rw [takeBody_phase, declared]
      rw [declared] at account
      obtain ⟨framing, sum⟩ := account
      refine ⟨framing, ?_⟩
      simp only [takeBody, length, declared, if_true]
      omega
    · rw [takeBody_phase, data]
      rw [data] at account
      obtain ⟨framing, sum, sized, kept, begun, passed⟩ := account
      refine ⟨framing, ?_, ?_, ?_, begun, Nat.le_trans passed (Nat.le_add_right _ _)⟩
      · simp only [takeBody, length, data, reduceCtorEq, if_false]
        omega
      · simp only [takeBody, data, reduceCtorEq, if_false]
        omega
      · simp only [takeBody, length, data, reduceCtorEq, if_false]
        omega
  have line := tally_line tally body
  have stepped := tallies_bodyStep stands accounted (by rwa [takeBody_phase]) line
  unfold Parser.body
  dsimp only
  rw [taken, held]
  exact Reading.Tallies.after { stepped with } rfl rfl

theorem tallies_takeHole (tally : p.Tally) (body : p.phase = .inDeclaredBody ∨ p.phase = .inChunkData)
    {take : Nat} (few : take ≤ p.remaining) : (p.takeHole take).bodyStep.Tallies p := by
  have inside := inside_body body
  have account := tally.account
  have stands : (p.takeHole take).Stands :=
    tally.toStands.congr rfl { tally.within with } rfl tally.unframed inside inside
      rfl (Nat.le_add_right _ _)
  have accounted : (p.takeHole take).Account := by
    unfold Account at account ⊢
    rcases body with declared | data
    · rw [show (p.takeHole take).phase = .inDeclaredBody from declared]
      rw [declared] at account
      obtain ⟨framing, sum⟩ := account
      refine ⟨framing, ?_⟩
      simp only [takeHole, declared, if_true]
      omega
    · rw [show (p.takeHole take).phase = .inChunkData from data]
      rw [data] at account
      obtain ⟨framing, sum, sized, kept, begun, passed⟩ := account
      refine ⟨framing, ?_, ?_, kept, begun, Nat.le_trans passed (Nat.le_add_right _ _)⟩
      · simpa only [takeHole, data, reduceCtorEq, if_false] using sum
      · simp only [takeHole, data, reduceCtorEq, if_false]
        omega
  have line := tally_line tally body
  exact (tallies_bodyStep stands accounted body line).after rfl rfl

theorem Tally.balanced (tally : p.Tally) (outside : p.phase ≠ .inChunkData)
    (chunked : p.message.framing = .chunked) : p.message.Balanced := by
  cases phase : p.phase with
  | betweenMessages | inStartLine | inFields | awaitingAnswer =>
    have unread : p.message.Unread := tally.inPhase phase
    simp [unread.framing] at chunked
  | inDeclaredBody =>
    have framing : p.message.framing = .contentLength := (tally.inPhase phase).1
    simp [framing] at chunked
  | inChunkSize | inTrailers => exact (tally.inPhase phase).2
  | inChunkData => exact absurd phase outside
  | inChunkEnd => exact (tally.inPhase phase).2.1

theorem Tally.grown (tally : p.Tally) {line : Bytes} {sawCR : Bool} {charge : Charge}
    (bound : (line.length : Int) ≤ p.lineBound) (moved : p.next ≤ next)
    (reads : p.phase.readsLine = true) :
    ({ p with line, charge, sawCR, next } : Parser).Tally := by
  have inside := Phase.inside_of_readsLine reads
  have account := tally.account
  refine ⟨tally.toStands.congr rfl tally.within rfl tally.unframed inside inside rfl moved, ?_, bound, tally.counted⟩
  unfold Account at account ⊢
  cases phase : p.phase with
  | inStartLine | inFields | inChunkSize | inTrailers =>
    rw [phase] at account
    exact account
  | betweenMessages | awaitingAnswer | inDeclaredBody | inChunkData | inChunkEnd =>
    rw [phase] at reads
    cases reads

theorem tallies_line (tally : p.Tally) (input : Bytes) (context : String) (take : Parser → Reading)
    (reads : p.phase.readsLine = true)
    (taken : ∀ q : Parser, q.Tally → q.phase = p.phase → (take q).Tallies q) {max : Int} (bound : max = p.lineBound) :
    ((p.readLine input max context).ended take).Tallies p := by
  subst bound
  have inside := Phase.inside_of_readsLine reads
  have unchunked : p.phase ≠ .inChunkData := by
    intro data
    rw [data] at reads
    cases reads
  rw [readLine_eq]
  have bounded : (lineScan p.lineBound input p.line p.sawCR).2.isTooLong = false →
      ((lineScan p.lineBound input p.line p.sawCR).2.text.length : Int) ≤ p.lineBound :=
    fun open? => (lineScan_grows open?).2 tally.line
  generalize (lineScan p.lineBound input p.line p.sawCR).1 = n
  generalize (lineScan p.lineBound input p.line p.sawCR).2 = state at bounded ⊢
  unfold lineRead
  split
  · have stands : ({ p with next := p.next + n } : Parser).dropLine.Stands :=
      tally.toStands.congr rfl tally.within rfl tally.unframed inside inside rfl (Nat.le_add_right _ _)
    have refused := tallies_refuse stands inside (tally.balanced unchunked) .limit
      (context ++ ": the read reached its bound")
    rw [LineRead.ended, if_pos (by simp [lineTooLong, refuse, handOver])]
    exact Reading.Tallies.after { refused with } rfl rfl
  · rename_i open?
    have grown : (p.lineGrown state.text (state.text.length - p.line.length) state.holdsCR n).parser.Tally :=
      tally.grown (bounded (by simpa using open?)) (Nat.le_add_right _ _) reads
    unfold LineRead.ended
    dsimp only
    split
    · exact tallies_quiet rfl grown rfl rfl
    · have ended := taken _ grown rfl
      exact Reading.Tallies.after { ended with } rfl rfl

theorem tallies_bytes (sound : p.Sound) (tally : p.Tally) (reading : p.stop = .needInput)
    (open? : p.ended = false) (input : Bytes) : (p.bytes input).Tallies p := by
  unfold bytes
  cases phase : p.phase with
  | betweenMessages =>
    exact tallies_begin tally phase reading open? (sound.lined (by rw [phase]; rfl))
  | inStartLine =>
    refine tallies_line tally input _ _ (by rw [phase]; rfl) (fun q whole same => ?_) (by simp [lineBound, phase])
    exact tallies_startLine whole (same.trans phase)
  | inFields =>
    refine tallies_line tally input _ _ (by rw [phase]; rfl) (fun q whole same => ?_) (by simp [lineBound, phase])
    exact tallies_fieldLine whole (same.trans phase)
  | awaitingAnswer => exact tallies_returns rfl (.inr rfl) tally rfl rfl
  | inDeclaredBody => exact tallies_body tally (.inl phase) input
  | inChunkData => exact tallies_body tally (.inr phase) input
  | inChunkSize =>
    refine tallies_line tally input _ _ (by rw [phase]; rfl) (fun q whole same => ?_) (by simp [lineBound, phase])
    exact tallies_chunkSizeLine whole (same.trans phase)
  | inChunkEnd => exact tallies_chunkEnd tally phase _
  | inTrailers =>
    refine tallies_line tally input _ _ (by rw [phase]; rfl) (fun q whole same => ?_) (by simp [lineBound, phase])
    exact tallies_trailerLine whole (same.trans phase)

theorem tallies_hole (sound : p.Sound) (tally : p.Tally) (reading : p.stop = .needInput)
    (open? : p.ended = false) (gap : GapReason) (n : Nat) : (p.hole gap n).Tallies p := by
  unfold hole
  cases phase : p.phase with
  | betweenMessages =>
    exact tallies_begin tally phase reading open? (sound.lined (by rw [phase]; rfl))
  | inDeclaredBody => exact tallies_takeHole tally (.inl phase) (Nat.min_le_right _ _)
  | inChunkData => exact tallies_takeHole tally (.inr phase) (Nat.min_le_right _ _)
  | inStartLine | inFields | awaitingAnswer | inChunkSize | inChunkEnd | inTrailers =>
    have inside : p.phase ≠ .betweenMessages := by simp [phase]
    have refused := tallies_refuse tally.dropLine.toStands inside (tally.balanced (by simp [phase])) .hole
    exact Reading.Tallies.after { refused _ with } rfl rfl

theorem tallies_step (sound : p.Sound) (tally : p.Tally) (reading : p.stop = .needInput)
    (open? : p.ended = false) (rest : Part) : (p.step rest).Tallies p := by
  unfold step
  split
  · exact tallies_bytes sound tally reading open? _
  · exact tallies_hole sound tally reading open? _ _

/-!
## Calls
-/

theorem step_reads {rest : Part} (formed : rest.Formed) (ready : p.Ready) :
    ∃ n, Outcome p n (p.step rest) ∧ n ≤ rest.length := by
  by_cases between : p.phase = .betweenMessages
  · rw [step_between between]
    exact ⟨0, outcome_begin p (ready.sound.idle between).1, Nat.zero_le _⟩
  · rcases step_outcome formed ready.sound between ready.reading with ⟨n, outcome, few, _⟩ | ⟨outcome, _⟩
    · exact ⟨n, outcome, few⟩
    · exact ⟨0, outcome, Nat.zero_le _⟩

theorem Outcome.past {n : Nat} {progress : Progress} (outcome : Outcome p n r)
    (event : r.event = some progress) (stopped : progress.result.stopped = true) :
    r.parser.phase = .betweenMessages ∧ r.parser.stop ≠ .needInput := by
  cases outcome with
  | quiet _ _ silent =>
    rw [event] at silent
    cases silent
  | headed _ _ headed =>
    rw [event] at headed
    cases headed
    cases stopped
  | handed q result _ parser handed ends =>
    rw [event] at handed
    cases handed
    rw [parser]
    refine ⟨rfl, ?_⟩
    rcases ends with ⟨framed, _⟩ | ⟨past, stop⟩
    · cases framed
      cases stopped
    show q.stop ≠ .needInput
    rw [stop]
    rintro rfl
    cases past

theorem Tally.stopped (tally : p.Tally) (between : p.phase = .betweenMessages)
    (stop : p.stop ≠ .needInput) (moved : p.next ≤ next) : ({ p with next } : Parser).Tally := by
  have account := tally.account
  refine ⟨{ tally with settled := Nat.le_trans tally.settled moved, idle := fun _ reading => absurd reading stop }, ?_, tally.line, tally.counted⟩
  unfold Account at account ⊢
  dsimp only
  rw [between] at account ⊢
  exact account

structure Fed.Tallies (p : Parser) (part : Part) (fed : Fed) : Prop where
  parser : fed.parser.Tally
  limits : fed.parser.limits = p.limits
  handed : fed.progress.result ≠ .head → ∀ m ∈ fed.progress.message,
    m.Tallied p.limits ∧ m.offset = p.settled ∧ fed.parser.settled = m.endsAt
  kept : fed.progress.result = .head ∨ fed.progress.message = none → fed.parser.settled = p.settled
  moved : part.offset + fed.progress.consumed = fed.parser.next
  started : fed.parser.started = p.started
  ended : fed.parser.ended = p.ended

theorem fed_tallies_same (tally : p.Tally)
    (none_ : progress.message = none) (moved : part.offset + progress.consumed = p.next) :
    Fed.Tallies p part ⟨p, ledger, progress⟩ := by
  refine ⟨tally, rfl, fun _ m carried => ?_, fun _ => rfl, moved, rfl, rfl⟩
  rw [show progress.message = none from none_] at carried
  cases carried

theorem feedLoop_tallies (formed : part.Formed) (fuel : Nat) (ledger : Ledger Charge)
    (ready : p.Ready) (tally : p.Tally) (open? : p.ended = false) (begins : part.offset ≤ p.next)
    (within : p.next ≤ part.offset + part.length) :
    Fed.Tallies p part (feedLoop part fuel p ledger) := by
  induction fuel generalizing p ledger with
  | zero => exact fed_tallies_same tally rfl (Nat.add_sub_cancel' begins)
  | succ fuel ih =>
    unfold feedLoop
    split
    · rename_i more
      have rest := Part.tail_formed (n := p.next - part.offset) formed (by omega)
      have length : (part.tail (p.next - part.offset)).length = part.length - (p.next - part.offset) := rfl
      have tallies := tallies_step ready.sound tally ready.open? open? (part.tail (p.next - part.offset))
      obtain ⟨n, outcome, few⟩ := step_reads rest ready
      have frame := outcome.frame
      have next := frame.next
      have settled := p.settle_settled ledger (p.step (part.tail (p.next - part.offset)))
      generalize p.settle ledger (p.step (part.tail (p.next - part.offset))) = out at settled ⊢
      cases settled with
      | refused after _ => exact fed_tallies_same tally rfl (Nat.add_sub_cancel' begins)
      | granted after _ =>
        cases event : (p.step (part.tail (p.next - part.offset))).event with
        | none =>
          obtain ⟨ready', _⟩ := step_silent rest ready event
          have same := tallies.kept (by simp [event])
          have later := ih after ready' tallies.parser (frame.ended.trans open?) (by omega) (by omega)
          refine ⟨later.parser, later.limits.trans tallies.limits, ?_, ?_, later.moved,
            later.started.trans frame.started, later.ended.trans frame.ended⟩
          · rw [← tallies.limits, ← same]
            exact later.handed
          · exact fun kept => (later.kept kept).trans same
        | some progress =>
          dsimp only
          have handed := tallies.handed progress event
          have kept := fun kept => tallies.kept fun each is => by rw [event] at is; cases is; exact kept
          by_cases stopped : progress.result.stopped = true
          · rw [if_pos stopped]
            obtain ⟨between, stop⟩ := Outcome.past outcome event stopped
            refine ⟨tallies.parser.stopped between stop (by omega), tallies.limits, handed, kept, ?_,
              frame.started, frame.ended⟩
            dsimp only
            omega
          · rw [if_neg stopped]
            refine ⟨tallies.parser, tallies.limits, handed, kept, ?_, frame.started, frame.ended⟩
            dsimp only
            omega
    · exact fed_tallies_same tally rfl (by dsimp only; omega)

@[simp] theorem startedAt_limits (p : Parser) (offset : Nat) : (p.startedAt offset).limits = p.limits := by
  unfold Parser.startedAt
  split <;> rfl

theorem Tally.startedAt (tally : p.Tally) {offset : Nat}
    (fresh : p.started = false → p.phase = .betweenMessages) : (p.startedAt offset).Tally := by
  unfold Parser.startedAt
  split
  · exact tally
  rename_i unstarted
  have between := fresh (by simpa using unstarted)
  have account := tally.account
  refine ⟨{ tally with begun := fun inside => absurd between inside, settled := Nat.le_refl _, idle := fun _ _ _ => rfl }, ?_, tally.line, tally.counted⟩
  unfold Account at account ⊢
  dsimp only
  rw [between] at account ⊢
  exact account

theorem feed_tallies {fed : Fed} (sound : p.Sound) (tally : p.Tally)
    (fresh : p.started = false → p.phase = .betweenMessages)
    (called : p.feed ledger part = .ok fed) : Fed.Tallies (p.startedAt part.offset) part fed := by
  obtain ⟨formed, ended, stands⟩ := feed_taken called
  have came := feed_eq called
  have sound' := sound_startedAt sound part.offset
  have tally' : (p.startedAt part.offset).Tally := tally.startedAt fresh
  have same := startedAt_ended p part.offset
  have begins := startedAt_next stands
  dsimp only at came
  generalize p.startedAt part.offset = q at came sound' tally' same begins
  rw [came]
  split
  · rename_i stop
    have between := sound'.stopped stop
    refine ⟨tally'.stopped between stop (Nat.le_add_right _ _), rfl, by simp, fun _ => rfl, ?_, rfl, rfl⟩
    dsimp only
    omega
  · rename_i reads
    split
    · exact fed_tallies_same tally' rfl (by dsimp only; omega)
    · rename_i reading
      exact feedLoop_tallies formed _ ledger ⟨sound', by simpa using reads, reading⟩ tally'
        (same.trans ended) (Nat.le_of_eq begins.symm) (by omega)

theorem Tally.declared (tally : p.Tally) : ({ p with ended := true } : Parser).Tally :=
  ⟨{ tally with idle := fun _ _ open? => by cases open? }, tally.account, tally.line, tally.counted⟩

theorem endedInside_tallied (tally : p.Tally) (inside : p.phase ≠ .betweenMessages) :
    p.endedInside.1.message.Tallied p.limits ∧ p.endedInside.1.message.offset = p.settled ∧
      p.endedInside.1.message.endsAt ≤ p.next := by
  have offset := tally.begun inside
  have settled := tally.settled
  have within := tally.within
  obtain ⟨unframed, incomplete⟩ := tally.unframed
  have balanced := tally.balanced
  have account := tally.account
  have plain : ∀ m : Message, m.Within p.limits → m.offset = p.message.offset →
      m.framed = false → m.complete = false → (m.framing = .chunked → m.Balanced) →
      p.settled ≤ m.endsAt → m.endsAt ≤ p.next →
        m.Tallied p.limits ∧ m.offset = p.settled ∧ m.endsAt ≤ p.next := by
    intro m held same unframed incomplete balanced low high
    refine ⟨⟨by omega, ?_, by simp [unframed, incomplete], held⟩, same.trans offset, high⟩
    rintro (framed | chunked)
    · simp [unframed] at framed
    · exact balanced chunked
  unfold endedInside
  unfold Account at account
  cases phase : p.phase with
  | betweenMessages => exact absurd phase inside
  | inStartLine | inFields | inChunkSize | inTrailers | awaitingAnswer | inDeclaredBody =>
    exact plain _ { within with } rfl unframed incomplete
      (balanced (by simp [phase])) settled (Nat.le_refl _)
  | inChunkData =>
    rw [phase] at account
    obtain ⟨_, sum, _, kept, begun, passed⟩ := account
    have shorter n := Int.le_trans (Int.ofNat_le.mpr (List.length_take_le' n p.message.body)) within.body
    refine plain _ { within with body := shorter _ } rfl unframed incomplete ?_ begun passed
    intro _
    simp only [Message.Balanced, List.length_take]
    omega
  | inChunkEnd =>
    rw [phase] at account
    obtain ⟨_, whole, seen⟩ := account
    refine plain _ { within with } rfl unframed incomplete (fun _ => whole) ?_ ?_
    · dsimp only
      omega
    · dsimp only
      omega

@[simp] theorem endedInside_limits (p : Parser) : p.endedInside.1.limits = p.limits := by
  unfold endedInside
  cases p.phase <;> rfl

@[simp] theorem endedInside_next (p : Parser) : p.endedInside.1.next = p.next := by
  unfold endedInside
  cases p.phase <;> rfl

theorem endedInside_line (tally : p.Tally) :
    (p.endedInside.1.line.length : Int) ≤ p.limits.maxHeaderLine := by
  have line := tally.line
  have none : (([] : Bytes).length : Int) ≤ p.limits.maxHeaderLine := Int.le_of_lt tally.positive.headerLine
  unfold lineBound at line
  unfold endedInside
  cases phase : p.phase with
  | inStartLine | inFields | inChunkSize | inTrailers => exact none
  | betweenMessages | awaitingAnswer | inDeclaredBody | inChunkData | inChunkEnd =>
    rw [if_neg (by simp [phase])] at line
    exact line

theorem tallies_endMessage (tally : p.Tally) (ended : p.ended = true) :
    p.endMessage.Tallies p ∧ p.endMessage.parser.next = p.next := by
  unfold endMessage
  split
  · exact ⟨tallies_returns rfl (.inr rfl) tally rfl rfl, rfl⟩
  rename_i inside
  obtain ⟨tallied, offset, passed⟩ := endedInside_tallied tally inside
  have line := endedInside_line tally
  have limits := p.endedInside_limits
  have next := p.endedInside_next
  have still : p.endedInside.1.ended = true := by
    rw [← ended]
    unfold endedInside
    cases p.phase <;> rfl
  have positive := tally.positive
  generalize p.endedInside = inner at tallied offset passed line limits next still
  obtain ⟨q, released⟩ := inner
  dsimp only at tallied offset passed line limits next still ⊢
  rw [← limits] at positive line
  refine ⟨⟨⟨⟨positive, within_empty positive, ⟨rfl, rfl⟩, fun inside => absurd rfl inside,
    by rw [next]; exact passed, fun _ _ open? => by simp [still] at open?⟩, ⟨rfl, rfl, rfl, rfl, rfl⟩, line,
    by simp⟩, limits, ?_, ?_⟩, next⟩
  · simp only [Option.mem_def, Option.some.injEq]
    rintro progress rfl _ m carried
    cases carried
    exact ⟨tallied, offset, rfl⟩
  · intro kept
    have none := kept _ rfl
    simp at none

theorem answer_tallies (tally : p.Tally) (called : p.answer method = .ok answered) :
    answered.Tallies p ∧ answered.parser.next = p.next := by
  obtain ⟨awaiting, _, rfl⟩ := answer_eq called
  refine ⟨tallies_frame tally.toStands (tally.inPhase awaiting) (by simp [awaiting])
    (tally.lineAt awaiting (by simp)) _, ?_⟩
  cases p.frame_outcome (equalFold method (ascii "HEAD")) with
  | follows moved => exact moved.next
  | handed q result reading moved =>
    rw [reading]
    exact moved.next

theorem endMessage_between (p : Parser) : p.endMessage.parser.phase = .betweenMessages := by
  unfold endMessage
  split
  · assumption
  · rfl

theorem endMessage_result (p : Parser) : ∀ progress ∈ p.endMessage.event, progress.result = .ended := by
  unfold endMessage
  split
  all_goals
    rintro _ ⟨⟩
    rfl

theorem finish_result (p : Parser) : ∀ progress ∈ p.finish.event, progress.result = .ended := by
  unfold finish
  split
  · rintro _ ⟨⟩
    rfl
  split
  · exact endMessage_result _
  split
  · rintro _ ⟨⟩
    rfl
  · exact endMessage_result _

theorem finish_tallies (sound : p.Sound) (tally : p.Tally) (past : p.ended = true → p.phase = .betweenMessages) :
    p.finish.Tallies p ∧ p.finish.parser.next = p.next ∧ p.finish.parser.phase = .betweenMessages := by
  unfold finish
  by_cases ended : p.ended = true
  · rw [if_pos ended]
    exact ⟨tallies_returns rfl (.inr rfl) tally rfl rfl, rfl, past ended⟩
  rw [if_neg ended]
  cases called : p.answer [] with
  | error refusal =>
    obtain ⟨tallies, next⟩ := tallies_endMessage tally.declared rfl
    exact ⟨tallies.after rfl rfl, next, endMessage_between _⟩
  | ok answered =>
    obtain ⟨tallies, next⟩ := answer_tallies tally called
    obtain ⟨awaiting, _, rfl⟩ := answer_eq called
    dsimp only
    generalize equalFold [] (ascii "HEAD") = noBody at tallies next ⊢
    cases p.frame_outcome noBody with
    | follows moved _ event =>
      rw [if_pos (sound.awaits awaiting)] at event
      obtain ⟨ends, still⟩ := tallies_endMessage tallies.parser.declared rfl
      rw [event]
      refine ⟨ends.after tallies.limits (tallies.kept ?_), still.trans next, endMessage_between _⟩
      rw [event]
      simp
    | handed q result reading moved ending =>
      have other : result ≠ .head := by
        rcases ending with ⟨framed, _⟩ | ⟨stopped, _⟩
        · simp [framed]
        · rintro rfl
          cases stopped
      have came := tallies.handed { result, message := some { q.message with endsAt := q.next }, charge := q.charge }
        (by rw [reading]; rfl) other _ rfl
      rw [reading] at tallies next came ⊢
      refine ⟨⟨tallies.parser.declared, tallies.limits, ?_, ?_⟩, next, rfl⟩
      · simp only [handOver, Option.mem_def, Option.some.injEq]
        rintro progress rfl _ m carried
        cases carried
        exact came
      · intro kept
        have none := kept _ rfl
        simp at none

theorem answer_started (called : p.answer method = .ok answered) :
    answered.parser.started = p.started ∧ answered.parser.ended = p.ended := by
  obtain ⟨_, _, rfl⟩ := answer_eq called
  cases p.frame_outcome (equalFold method (ascii "HEAD")) with
  | follows moved => exact ⟨moved.started, moved.ended⟩
  | handed q result reading moved =>
    rw [reading]
    exact ⟨moved.started, moved.ended⟩

@[simp] theorem endMessage_started (p : Parser) : p.endMessage.parser.started = p.started := by
  unfold endMessage
  split
  · rfl
  · unfold endedInside
    cases p.phase <;> rfl

theorem finish_started (p : Parser) : p.finish.parser.started = p.started := by
  unfold finish
  split
  · rfl
  cases called : p.answer [] with
  | error refusal => exact endMessage_started _
  | ok answered =>
    obtain ⟨started, _⟩ := answer_started called
    dsimp only
    split
    · exact started
    · exact (endMessage_started _).trans started

end Parser

def Progress.delivers (progress : Progress) : List Message :=
  if progress.result = .head then [] else progress.message.toList

def Tiles (start : Nat) : List Message → Nat → Prop
  | [], settled => start = settled
  | m :: rest, settled => m.offset = start ∧ m.offset ≤ m.endsAt ∧ Tiles m.endsAt rest settled

theorem Tiles.append {start middle settled : Nat} {first second : List Message}
    (before : Tiles start first middle) (after : Tiles middle second settled) :
    Tiles start (first ++ second) settled := by
  induction first generalizing start with
  | nil =>
    cases before
    exact after
  | cons m rest ih =>
    obtain ⟨offset, extent, before⟩ := before
    exact ⟨offset, extent, ih before⟩

theorem tiles_delivers {event : Option Progress} {limits : Limits} {settled after : Nat}
    (handed : ∀ progress ∈ event, progress.result ≠ .head → ∀ m ∈ progress.message,
      m.Tallied limits ∧ m.offset = settled ∧ after = m.endsAt)
    (kept : (∀ progress ∈ event, progress.result = .head ∨ progress.message = none) → after = settled) :
    Tiles settled (event.toList.flatMap Progress.delivers) after ∧
      ∀ m ∈ event.toList.flatMap Progress.delivers, m.Tallied limits := by
  have nothing : (∀ progress ∈ event, progress.result = .head ∨ progress.message = none) →
      event.toList.flatMap Progress.delivers = [] := by
    intro silent
    simp only [List.flatMap_eq_nil_iff, Option.mem_toList]
    intro progress is
    unfold Progress.delivers
    rcases silent progress is with head | none
    · rw [if_pos head]
    · rw [none]
      split <;> rfl
  by_cases silent : ∀ progress ∈ event, progress.result = .head ∨ progress.message = none
  · rw [nothing silent, kept silent]
    exact ⟨rfl, by simp⟩
  push Not at silent
  obtain ⟨progress, is, other, carries⟩ := silent
  obtain ⟨m, carried⟩ := Option.ne_none_iff_exists'.mp carries
  obtain ⟨tallied, offset, rfl⟩ := handed progress is other m carried
  cases is
  have alone : progress.delivers = [m] := by
    simp [Progress.delivers, other, carried]
  simp only [Option.toList_some, List.flatMap_cons, List.flatMap_nil, List.append_nil, alone,
    List.mem_singleton, forall_eq]
  exact ⟨⟨offset, tallied.extent, rfl⟩, tallied⟩

theorem Tiles.span {start settled : Nat} {messages : List Message} (tiles : Tiles start messages settled) :
    start + (messages.map fun m => m.endsAt - m.offset).sum = settled := by
  induction messages generalizing start with
  | nil => exact tiles
  | cons m rest ih =>
    obtain ⟨offset, extent, after⟩ := tiles
    have later := ih after
    simp only [List.map_cons, List.sum_cons]
    omega

namespace Session

def delivered (s : Session) (call : Call) : List Message := (s.returned call).toList.flatMap Progress.delivers

def consumed (s : Session) : Call → Nat
  | .feed part => ((s.returned (.feed part)).map Progress.consumed).getD 0
  | _ => 0

def messages (s : Session) : List Call → List Message
  | [] => []
  | call :: rest => s.delivered call ++ (s.call call).messages rest

def offsets (s : Session) : List Call → Nat
  | [] => 0
  | call :: rest => s.consumed call + (s.call call).offsets rest

structure Tiled (s : Session) (limits : Limits) (messages : List Message) (offsets : Nat) : Prop where
  books : s.Books
  bounds : s.parser.limits = limits
  tally : s.parser.Tally
  tiles : ∃ start, Tiles start messages s.parser.settled ∧ start + offsets = s.parser.next
  fresh : s.parser.started = false → s.parser.phase = .betweenMessages ∧ messages = [] ∧ offsets = 0
  handed : ∀ m ∈ messages, m.Tallied limits
  ended : s.parser.ended = true → s.parser.phase = .betweenMessages

variable {s : Session} {limits : Limits} {messages : List Message} {offsets : Nat}

theorem Tiled.start (kind : Kind) (limits : Limits) (answers : List Bool) :
    Tiled { parser := newParser kind limits, ledger := { answers } } limits.orDefaults [] 0 where
  books := books_new kind limits answers
  bounds := rfl
  tally := by
    have positive := limits.orDefaults_positive
    exact ⟨⟨positive, Parser.within_empty positive, ⟨rfl, rfl⟩, fun inside => absurd rfl inside, Nat.le_refl _,
      fun _ _ _ => rfl⟩, ⟨rfl, rfl, rfl, rfl, rfl⟩, Int.le_of_lt positive.headerLine, by simp [newParser]⟩
  tiles := ⟨0, rfl, rfl⟩
  fresh _ := ⟨rfl, rfl, rfl⟩
  handed := by simp
  ended := by simp [newParser]

theorem Tiled.fed {part : Part} {fed : Parser.Fed} (tiled : s.Tiled limits messages offsets)
    (called : s.parser.feed s.ledger part = .ok fed)
    (books : Books ⟨fed.parser, fed.ledger, s.handed ++ fed.progress.handsOver⟩) :
    Tiled ⟨fed.parser, fed.ledger, s.handed ++ fed.progress.handsOver⟩ limits
      (messages ++ fed.progress.delivers) (offsets + fed.progress.consumed) := by
  have tallies := Parser.feed_tallies tiled.books.sound tiled.tally (fun fresh => (tiled.fresh fresh).1) called
  obtain ⟨_, open?, stands⟩ := Parser.feed_taken called
  have bounds : fed.parser.limits = limits := by
    rw [tallies.limits, Parser.startedAt_limits, tiled.bounds]
  have begun : fed.parser.started = true := by
    rw [tallies.started, Parser.startedAt_started]
  have still : fed.parser.ended = false := by
    rw [tallies.ended, Parser.startedAt_ended, open?]
  have handed : ∀ progress ∈ some fed.progress, progress.result ≠ .head → ∀ m ∈ progress.message,
      m.Tallied limits ∧ m.offset = (s.parser.startedAt part.offset).settled ∧ fed.parser.settled = m.endsAt := by
    rintro _ ⟨⟩
    rw [← bounds, tallies.limits]
    exact tallies.handed
  have delivers := tiles_delivers handed (fun silent => tallies.kept (silent _ rfl))
  rw [Option.toList_some, List.flatMap_singleton] at delivers
  obtain ⟨after, tallied⟩ := delivers
  have moved := tallies.moved
  refine ⟨books, bounds, tallies.parser, ?_, ?_, ?_, ?_⟩
  · by_cases started : s.parser.started = true
    · obtain ⟨start, before, stood⟩ := tiled.tiles
      rw [Parser.startedAt_of_started started] at after
      refine ⟨start, before.append after, ?_⟩
      have stands := stands started
      dsimp only
      omega
    · -- The first part says where the direction begins.
      obtain ⟨_, none, nothing⟩ := tiled.fresh (by simpa using started)
      subst none
      refine ⟨part.offset, ?_, by dsimp only; omega⟩
      rw [Parser.startedAt, if_neg started] at after
      exact after
  · intro unstarted
    simp [begun] at unstarted
  · intro m member
    rcases List.mem_append.mp member with old | new
    · exact tiled.handed m old
    · exact tallied m new
  · intro ended
    simp [still] at ended

theorem Tiled.reads {r : Reading} (tiled : s.Tiled limits messages offsets) (tallies : r.Tallies s.parser)
    (next : r.parser.next = s.parser.next) (started : r.parser.started = s.parser.started)
    (fresh : s.parser.started = false →
      r.parser.phase = .betweenMessages ∧ r.event.toList.flatMap Progress.delivers = [])
    (ended : r.parser.ended = true → r.parser.phase = .betweenMessages) (books : (s.settle r).Books) :
    (s.settle r).Tiled limits (messages ++ r.event.toList.flatMap Progress.delivers) offsets := by
  obtain ⟨after, tallied⟩ := tiles_delivers tallies.handed tallies.kept
  obtain ⟨start, before, moved⟩ := tiled.tiles
  refine ⟨books, tallies.limits.trans tiled.bounds, tallies.parser, ⟨start, before.append after, moved.trans next.symm⟩,
    ?_, ?_, ended⟩
  · intro unstarted
    have was : s.parser.started = false := started.symm.trans unstarted
    obtain ⟨_, none, nothing⟩ := tiled.fresh was
    obtain ⟨between, silent⟩ := fresh was
    exact ⟨between, by rw [none, silent]; rfl, nothing⟩
  · intro m member
    rcases List.mem_append.mp member with old | new
    · exact tiled.handed m old
    · exact tiled.bounds ▸ tallied m new

theorem Tiled.call (tiled : s.Tiled limits messages offsets) (call : Call) :
    (s.call call).Tiled limits (messages ++ s.delivered call) (offsets + s.consumed call) := by
  have books := tiled.books.call call
  unfold delivered
  cases call with
  | feed part =>
    unfold consumed
    cases called : s.parser.feed s.ledger part with
    | error refusal => simpa [Session.call, returned, called] using tiled
    | ok fed =>
      simp only [Session.call, called] at books
      simpa [Session.call, returned, called] using tiled.fed called books
  | answer method =>
    cases called : s.parser.answer method with
    | error refusal => simpa [Session.call, returned, called, consumed] using tiled
    | ok answered =>
      simp only [Session.call, called] at books
      simp only [Session.call, returned, called, consumed, Nat.add_zero]
      obtain ⟨tallies, next⟩ := Parser.answer_tallies tiled.tally called
      obtain ⟨started, same⟩ := Parser.answer_started called
      obtain ⟨awaiting, open?, _⟩ := Parser.answer_eq called
      refine tiled.reads tallies next started ?_ ?_ books
      · intro fresh
        rw [(tiled.fresh fresh).1] at awaiting
        cases awaiting
      · intro ended
        simp [same, open?] at ended
  | finish =>
    obtain ⟨tallies, next, between⟩ := Parser.finish_tallies tiled.books.sound tiled.tally tiled.ended
    refine tiled.reads tallies next (Parser.finish_started _) ?_ (fun _ => between) books
    intro fresh
    refine ⟨between, ?_⟩
    rw [Parser.finish_between (tiled.fresh fresh).1]
    rfl

theorem Tiled.calls (tiled : s.Tiled limits messages offsets) (calls : List Call) :
    (calls.foldl Session.call s).Tiled limits (messages ++ s.messages calls) (offsets + s.offsets calls) := by
  induction calls generalizing s messages offsets with
  | nil => simpa [Session.messages, Session.offsets] using tiled
  | cons call rest ih =>
    have later := ih (tiled.call call)
    rwa [List.append_assoc, Nat.add_assoc] at later

end Session

end EdgeObserver.Http1
