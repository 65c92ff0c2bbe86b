import EdgeObserver.Http1.Sound
import EdgeObserver.Stream.Cell

/-!
# Where a part ends is of no account

A step into the whole of a part is a step into its first offset, or a silent one
there taken up again in what follows. What was asked for and given back on the
way differs; the parser and the event it comes to do not.
-/

set_option autoImplicit false

namespace EdgeObserver.Http1

open EdgeObserver.Stream

structure Reading.Agrees (r s : Reading) : Prop where
  parser : r.parser = s.parser
  event : r.event = s.event

/-- A reading of the whole that a reading of its first offset already is, or that
is taken up in the same phase, within the same limits, from what a silent one
left. -/
inductive Resumes (p : Parser) (whole first : Reading) (next : Parser → Reading) : Prop where
  | already (same : whole = first)
  | resumed (silent : first.event = none) (phase : first.parser.phase = p.phase)
      (limits : first.parser.limits = p.limits) (agrees : whole.Agrees (next first.parser))

theorem Resumes.of_phase {p : Parser} {whole first : Reading} {next next' : Parser → Reading}
    (resumes : Resumes p whole first next)
    (same : ∀ q : Parser, q.phase = p.phase → q.limits = p.limits → next q = next' q) :
    Resumes p whole first next' := by
  cases resumes with
  | already equal => exact .already equal
  | resumed silent phase limits agrees =>
    exact .resumed silent phase limits (same _ phase limits ▸ agrees)

namespace Charge

theorem ofBytes_add (n m : Nat) : ofBytes (n + m) = ofBytes n + ofBytes m := by
  ext <;> simp

end Charge

namespace Parser

/-! ## Lines -/

def lineHeld (p : Parser) (line : Bytes) (sawCR : Bool) : Parser :=
  (p.lineGrown line (line.length - p.line.length) sawCR 1).parser

variable {keep n : Nat} {p : Parser}

theorem lineRead_held {line : Bytes} (sawCR : Bool) (context : String) (n : Nat)
    {state : LineState} (grew : p.line.length ≤ line.length)
    (grows : state.isTooLong = false → line.length ≤ state.text.length) :
    ((p.lineHeld line sawCR).lineRead context n state).done = (p.lineRead context (n + 1) state).done ∧
      (p.lineRead context (n + 1) state).reading.Agrees ((p.lineHeld line sawCR).lineRead context n state).reading := by
  have next : p.next + 1 + n = p.next + (n + 1) := by omega
  unfold lineRead
  split
  · have charge : p.charge + .ofBytes (line.length - p.line.length) - .ofBytes line.length =
        p.charge - .ofBytes p.line.length := by
      ext <;> simp <;> omega
    refine ⟨rfl, ?_, ?_⟩
    · simp [lineTooLong, lineHeld, lineGrown, dropLine, release, refuse, handOver, next]
    · simp [lineTooLong, lineHeld, lineGrown, dropLine, release, refuse, handOver, next, charge]
  · rename_i within
    have longer := grows (by simpa using within)
    have charge : p.charge + .ofBytes (line.length - p.line.length) + .ofBytes (state.text.length - line.length) =
        p.charge + .ofBytes (state.text.length - p.line.length) := by
      ext <;> simp <;> omega
    refine ⟨rfl, ?_, rfl⟩
    simp [lineHeld, lineGrown, next, charge]

theorem ended_agrees {whole later : LineRead} (take : Parser → Reading) (done : later.done = whole.done)
    (agrees : whole.reading.Agrees later.reading) : (whole.ended take).Agrees (later.ended take) := by
  unfold LineRead.ended
  rw [done, agrees.event]
  split
  · exact agrees
  · exact ⟨by simp only [agrees.parser], by simp only [agrees.parser]⟩

theorem line_resumes (p : Parser) (b : UInt8) (rest : Bytes) (max : Int) (context : String) (take : Parser → Reading) :
    Resumes p ((p.readLine (b :: rest) max context).ended take) ((p.readLine [b] max context).ended take)
      (fun q => (q.readLine rest max context).ended take) := by
  simp only [readLine_eq, lineScan]
  cases read : lineByte max p.line p.sawCR b with
  | done line | tooLong => exact .already rfl
  | more line sawCR =>
    have grew := (lineByte_grows read rfl).1
    obtain ⟨done, agrees⟩ := lineRead_held sawCR context (lineScan max rest line sawCR).1 grew fun open? => (lineScan_grows open?).1
    refine .resumed rfl rfl rfl ?_
    exact ended_agrees take done agrees

/-! ## Bodies -/

@[simp] theorem takeBody_phase (p : Parser) (input : Bytes) (take keep : Nat) :
    (p.takeBody input take keep).phase = p.phase := rfl

@[simp] theorem takeBody_remaining (p : Parser) (input : Bytes) (take keep : Nat) :
    (p.takeBody input take keep).remaining = p.remaining - take := rfl

theorem takeBody_room (p : Parser) (input : Bytes) (take : Nat) (some : keep ≤ input.length) :
    (p.takeBody input take keep).room = p.room - keep := by
  simp only [room, takeBody, List.length_append, List.length_take]
  omega

theorem takeBody_takeBody (p : Parser) (first second : Bytes) {take : Nat} (take' keep' : Nat)
    (kept : keep ≤ take) (kept' : keep' ≤ take') (fits : keep ≤ first.length)
    (full : keep < first.length → keep' = 0) :
    (p.takeBody first take keep).takeBody second take' keep' =
      p.takeBody (first ++ second) (take + take') (keep + keep') := by
  have body : (first ++ second).take (keep + keep') = first.take keep ++ second.take keep' := by
    by_cases whole : keep = first.length
    · subst whole
      rw [List.take_length_add_append, List.take_length]
    have none := full (by omega)
    subst none
    have within : keep ≤ first.length := fits
    simp [List.take_append_of_le_length within]
  have elided : take + take' - (keep + keep') = (take - keep) + (take' - keep') := by omega
  unfold takeBody
  simp only [body, elided, List.append_assoc, Charge.ofBytes_add, add_assoc, Nat.add_assoc, Nat.sub_sub]
  by_cases declared : p.phase = .inDeclaredBody <;> simp [declared, Nat.add_assoc]

theorem body_resumes (b : UInt8) (rest : Bytes) (remains : 0 < p.remaining) :
    Resumes p (p.body (b :: rest)) (p.body [b]) (fun q => q.body rest) := by
  by_cases last : p.remaining = 1
  · have same : (b :: rest).take (min 1 p.room) = [b].take (min 1 p.room) := by
      rcases Nat.lt_or_ge 0 p.room with fits | full
      · rw [Nat.min_eq_left fits]
        rfl
      · rw [Nat.le_zero.mp full]
        rfl
    refine .already ?_
    have take : min (b :: rest).length p.remaining = 1 := by simp [last]
    have take' : min [b].length p.remaining = 1 := by simp [last]
    simp only [body, take, take', takeBody, same]
  · have one : min [b].length p.remaining = 1 := by simp; omega
    have fits : min 1 p.room ≤ [b].length := Nat.min_le_left _ _
    have first : p.body [b] =
        { parser := p.takeBody [b] 1 (min 1 p.room), asks := .ofBytes (min 1 p.room) } := by
      have more : ¬ (p.takeBody [b] 1 (min 1 p.room)).remaining = 0 := by
        rw [takeBody_remaining]
        omega
      simp only [body, one, bodyStep, ne_eq, more, not_false_eq_true, ↓reduceIte]
    have joined : (p.takeBody [b] 1 (min 1 p.room)).takeBody rest (min rest.length (p.remaining - 1))
        (min (min rest.length (p.remaining - 1)) (p.room - min 1 p.room)) =
        p.takeBody (b :: rest) (min (b :: rest).length p.remaining)
          (min (min (b :: rest).length p.remaining) p.room) := by
      rw [takeBody_takeBody p [b] rest _ _ (Nat.min_le_left _ _) (Nat.min_le_left _ _)
        fits (by simp only [List.length_singleton]; omega)]
      have take : 1 + min rest.length (p.remaining - 1) = min (b :: rest).length p.remaining := by
        simp only [List.length_cons]
        omega
      have keep : min 1 p.room + min (min rest.length (p.remaining - 1)) (p.room - min 1 p.room) =
          min (min (b :: rest).length p.remaining) p.room := by
        simp only [List.length_cons]
        omega
      rw [take, keep]
      rfl
    rw [first]
    refine .resumed rfl rfl rfl ?_
    simp only [body, takeBody_remaining, takeBody_room p [b] 1 fits, joined]
    exact ⟨rfl, rfl⟩

theorem bodyStep_open (open? : p.remaining ≠ 0) : p.bodyStep = { parser := p } := by
  rw [bodyStep, if_pos open?]

theorem takeHole_takeHole (p : Parser) (take take' : Nat) :
    (p.takeHole take).takeHole take' = p.takeHole (take + take') := by
  unfold takeHole
  by_cases declared : p.phase = .inDeclaredBody <;> simp [declared, Nat.add_assoc, Nat.sub_sub]

theorem takeHole_resumes (remains : 0 < p.remaining) (long : 1 < n) :
    Resumes p (p.takeHole (min n p.remaining)).bodyStep (p.takeHole (min 1 p.remaining)).bodyStep
      (fun q => (q.takeHole (min (n - 1) q.remaining)).bodyStep) := by
  have one : min 1 p.remaining = 1 := by omega
  by_cases last : p.remaining = 1
  · have whole : min n p.remaining = 1 := by omega
    exact .already (by rw [one, whole])
  have open? : (p.takeHole 1).remaining ≠ 0 := by
    simp only [takeHole]
    omega
  have joined : 1 + min (n - 1) (p.takeHole 1).remaining = min n p.remaining := by
    simp only [takeHole]
    omega
  rw [one, bodyStep_open open?]
  refine .resumed rfl rfl rfl ?_
  simp only [takeHole_takeHole, joined]
  exact ⟨rfl, rfl⟩

/-! ## Steps -/

theorem hole_resumes (sound : p.Sound) (gap : GapReason) (long : 1 < n) (inside : p.phase ≠ .betweenMessages) :
    Resumes p (p.hole gap n) (p.hole gap 1) (fun q => q.hole gap (n - 1)) := by
  cases phase : p.phase with
  | betweenMessages => exact absurd phase inside
  | inDeclaredBody =>
    have resumes := takeHole_resumes (sound.remains (.inl phase)) long
    simp only [hole, phase]
    exact resumes.of_phase fun q same _ => by rw [same, phase]
  | inChunkData =>
    have resumes := takeHole_resumes (sound.remains (.inr phase)) long
    simp only [hole, phase]
    exact resumes.of_phase fun q same _ => by rw [same, phase]
  | inStartLine | inFields | awaitingAnswer | inChunkSize | inChunkEnd | inTrailers =>
    exact .already (by simp only [hole, phase])

theorem bytes_resumes (sound : p.Sound) (b : UInt8) (rest : Bytes)
    (inside : p.phase ≠ .betweenMessages) (reading : p.phase ≠ .awaitingAnswer) :
    Resumes p (p.bytes (b :: rest)) (p.bytes [b]) (fun q => q.bytes rest) := by
  cases phase : p.phase with
  | betweenMessages => exact absurd phase inside
  | awaitingAnswer => exact absurd phase reading
  | inDeclaredBody =>
    have resumes := body_resumes b rest (sound.remains (.inl phase))
    simp only [bytes, phase]
    exact resumes.of_phase fun q same _ => by rw [same, phase]
  | inChunkData =>
    have resumes := body_resumes b rest (sound.remains (.inr phase))
    simp only [bytes, phase]
    exact resumes.of_phase fun q same _ => by rw [same, phase]
  | inChunkEnd => exact .already (by simp only [bytes, phase, List.headD_cons])
  | inStartLine | inFields | inChunkSize | inTrailers =>
    simp only [bytes, phase]
    exact (p.line_resumes b rest _ _ _).of_phase fun q same limits => by rw [same, phase, limits]

theorem step_resumes {rest : Part} (formed : rest.Formed) (long : 1 < rest.length)
    (sound : p.Sound) (inside : p.phase ≠ .betweenMessages) (reading : p.phase ≠ .awaitingAnswer) :
    Resumes p (p.step rest) (p.step (rest.head 1)) (fun q => q.step (rest.tail 1)) := by
  by_cases carried : rest.gap = .none
  · have length := formed.carried carried
    cases bytes : rest.bytes with
    | nil =>
      rw [bytes, List.length_nil] at length
      omega
    | cons b more =>
      simpa [step, Part.head, Part.tail, carried, bytes] using bytes_resumes sound b more inside reading
  · simpa [step, Part.head, Part.tail, carried] using hole_resumes sound rest.gap long inside

end Parser

end EdgeObserver.Http1
