import EdgeObserver.ContentCoding.Output

/-!
# Decoding one body

The decoders are libraries this program calls: what they return is given, a
panic among it. What is modelled is what it does around them: the framing it
reads itself, the checks at the end, and every reservation and release.
-/

set_option autoImplicit false

namespace EdgeObserver.ContentCoding

open Library (reserve release)

structure Input where
  b : Bytes
  pos : Nat

namespace Input

def remaining (input : Input) : Nat := input.b.length - input.pos

def advance (input : Input) (n : Nat) : Input :=
  { input with pos := max input.pos (min (input.pos + n) input.b.length) }

def next (input : Input) (n : Nat) : Option (Bytes × Input) :=
  if input.b.length - input.pos < n then none
  else some ((input.b.drop input.pos).take n, { input with pos := input.pos + n })

def pastZero (input : Input) : Option Input :=
  match (input.b.drop input.pos).findIdx? (fun b => b == 0) with
  | none => none
  | some i => some { input with pos := input.pos + i + 1 }

end Input

inductive Made (σ : Type) where
  | fault
  | failed
  | made (decoder : σ)

inductive Reading (σ : Type) where
  | fault
  | answered (answer : Answer) (decoder : σ)

structure Decoders (σ : Type) where
  make : Coding → Input → Made σ × Nat
  reset : σ → Input → Made σ × Nat
  read : σ → Input → Nat → Reading σ × Nat
  closeFaults : σ → Input → Bool
  crc32 : Bytes → Nat
  adler32 : Bytes → Nat

section Stages

variable {σ : Type} (lib : Decoders σ) (limit : Nat) (grants : Grants)

structure Guarded (σ : Type) where
  decoder : σ
  input : Input
  faulted : Bool

def Guarded.read (g : Guarded σ) (space : Nat) : Answer × Guarded σ :=
  if g.faulted then (.read [] (some .decoderFault), g)
  else
    match lib.read g.decoder g.input space with
    | (.fault, n) =>
      (.read [] (some .decoderFault), { g with input := g.input.advance n, faulted := true })
    | (.answered answer decoder, n) =>
      (answer, { decoder, input := g.input.advance n, faulted := false })

def Guarded.close (g : Guarded σ) : Guarded σ :=
  if g.faulted then g else { g with faulted := lib.closeFaults g.decoder g.input }

structure Staged where
  outcome : Outcome
  faulted : Bool
  output : Output
  log : Log

def gzipExtraField (flags : Nat) (input : Input) : Option Input :=
  if flags / 4 % 2 = 0 then some input
  else do
    let (size, input) ← input.next 2
    let (_, input) ← input.next (littleEndian size)
    return input

def gzipText (present : Bool) (input : Input) : Option Input :=
  if present then input.pastZero else some input

def gzipHeader (input : Input) : Option Input := do
  let (fixed, after) ← input.next 10
  let flags := (fixed.getD 3 0).toNat
  if fixed.getD 0 0 ≠ 0x1f ∨ fixed.getD 1 0 ≠ 0x8b ∨ fixed.getD 2 0 ≠ 8 ∨ flags ≥ 32 then none
  else
    let after ← gzipExtraField flags after
    let after ← gzipText (flags / 8 % 2 == 1) after
    let after ← gzipText (flags / 16 % 2 == 1) after
    if flags / 2 % 2 = 0 then some after
    else
      let sum := lib.crc32 ((input.b.take after.pos).drop input.pos)
      let (stored, after) ← after.next 2
      if littleEndian stored ≠ sum % 2 ^ 16 then none else some after

def gzipInflater (inflater : Option σ) (input : Input) : Made σ × Nat :=
  match inflater with
  | none => lib.make .gzip input
  | some decoder => lib.reset decoder input

def Input.Follows (input later : Input) : Prop := later.b = input.b ∧ input.pos ≤ later.pos

theorem Input.Follows.refl (input : Input) : input.Follows input := ⟨rfl, Nat.le_refl _⟩

theorem Input.Follows.trans {first second third : Input} (one : first.Follows second)
    (two : second.Follows third) : first.Follows third :=
  ⟨two.1.trans one.1, Nat.le_trans one.2 two.2⟩

theorem Input.advance_follows (input : Input) (n : Nat) : input.Follows (input.advance n) := ⟨rfl, Nat.le_max_left _ _⟩

theorem Input.next_follows {input later : Input} {n : Nat} {taken : Bytes} (is : input.next n = some (taken, later)) :
    later.b = input.b ∧ later.pos = input.pos + n ∧ n ≤ input.remaining := by
  unfold Input.next at is
  split at is
  · cases is
  · cases is
    exact ⟨rfl, rfl, by unfold Input.remaining; omega⟩

theorem gzipExtraField_follows {flags : Nat} {input later : Input}
    (is : gzipExtraField flags input = some later) : input.Follows later := by
  unfold gzipExtraField at is
  split at is
  · cases is
    exact .refl _
  obtain ⟨⟨size, between⟩, first, is⟩ := Option.bind_eq_some_iff.mp is
  obtain ⟨⟨skipped, last⟩, second, is⟩ := Option.bind_eq_some_iff.mp is
  cases is
  obtain ⟨same, moved, _⟩ := Input.next_follows first
  obtain ⟨same', moved', _⟩ := Input.next_follows second
  exact ⟨same'.trans same, by omega⟩

theorem gzipText_follows {present : Bool} {input later : Input}
    (is : gzipText present input = some later) : input.Follows later := by
  unfold gzipText Input.pastZero at is
  split at is
  · split at is
    · cases is
    · cases is
      exact ⟨rfl, by dsimp only; omega⟩
  · cases is
    exact .refl _

theorem gzipHeader_follows {input later : Input} (is : gzipHeader lib input = some later) :
    input.Follows later ∧ later.remaining < input.remaining := by
  obtain ⟨⟨fixed, after⟩, first, is⟩ := Option.bind_eq_some_iff.mp is
  obtain ⟨same, moved, enough⟩ := Input.next_follows first
  have shorter : ∀ {last : Input}, after.Follows last →
      input.Follows last ∧ last.remaining < input.remaining := by
    intro last follows
    refine ⟨⟨follows.1.trans same, by have := follows.2; omega⟩, ?_⟩
    have further := follows.2
    unfold Input.remaining at enough ⊢
    rw [follows.1, same]
    omega
  dsimp only at is
  split at is
  · cases is
  obtain ⟨extra, second, is⟩ := Option.bind_eq_some_iff.mp is
  obtain ⟨name, third, is⟩ := Option.bind_eq_some_iff.mp is
  obtain ⟨comment, fourth, is⟩ := Option.bind_eq_some_iff.mp is
  have follows := ((gzipExtraField_follows second).trans (gzipText_follows third)).trans (gzipText_follows fourth)
  split at is
  · cases is
    exact shorter follows
  obtain ⟨⟨stored, last⟩, fifth, is⟩ := Option.bind_eq_some_iff.mp is
  obtain ⟨same', moved', _⟩ := Input.next_follows fifth
  dsimp only at is
  split at is
  · cases is
  · cases is
    exact shorter (follows.trans ⟨same', by omega⟩)

theorem Guarded.read_follows (g : Guarded σ) (space : Nat) :
    g.input.Follows (g.read lib space).2.input := by
  unfold Guarded.read
  split
  · exact .refl _
  · split
    · exact g.input.advance_follows _
    · exact g.input.advance_follows _

theorem fill_follows (o : Output) (g : Guarded σ) (log : Log) :
    g.input.Follows (o.fill limit grants (Guarded.read lib) 0 g log).reader.input :=
  Output.fill_keeps limit grants (Guarded.read lib)
    (P := fun _ later _ => g.input.Follows later.input) (fun holds _ => holds)
    (fun holds _ => holds) (fun space holds => holds.trans (Guarded.read_follows lib _ space))
    (fun _ holds _ => holds) 0 o g log (.refl _)

structure Members (σ : Type) where
  outcome : Outcome
  inflater : Option σ
  input : Input
  faulted : Bool
  output : Output
  log : Log

/-- Decodes one member after another until the input ends. -/
def gzipMembers (first : Bool) (inflater : Option σ) (input : Input) (faulted : Bool) (o : Output)
    (log : Log) : Members σ :=
  if input.remaining = 0 then
    { outcome := if first then .decodingFailed else .decoded, inflater, input, faulted, output := o,
      log }
  else
    match found : gzipHeader lib input with
    | none => { outcome := .decodingFailed, inflater, input, faulted, output := o, log }
    | some after =>
      match gzipInflater lib inflater after with
      | (.fault, n) =>
        { outcome := .decodingFailed, inflater, input := after.advance n, faulted := true,
          output := o, log }
      | (.failed, n) =>
        { outcome := .decodingFailed, inflater, input := after.advance n, faulted, output := o,
          log }
      | (.made decoder, n) =>
        let g : Guarded σ := { decoder, input := after.advance n, faulted }
        let filled := o.fill limit grants (Guarded.read lib) 0 g log
        let ended (outcome : Outcome) : Members σ :=
          { outcome, inflater := some filled.reader.decoder, input := filled.reader.input,
            faulted := filled.reader.faulted, output := filled.output, log := filled.log }
        if filled.outcome ≠ .decoded then ended filled.outcome
        else
          match trailing : filled.reader.input.next 8 with
          | none => ended .decodingFailed
          | some (trailer, later) =>
            let content := filled.output.buf.drop o.buf.length
            if littleEndian (trailer.take 4) ≠ lib.crc32 content ∨
                littleEndian (trailer.drop 4) ≠ content.length % 2 ^ 32 then
              ended .decodingFailed
            else
              gzipMembers false (some filled.reader.decoder) later filled.reader.faulted filled.output filled.log
termination_by input.remaining
decreasing_by
  obtain ⟨_, shorter⟩ := gzipHeader_follows lib found
  have follows : after.Follows filled.reader.input := (after.advance_follows n).trans
    (fill_follows lib limit grants o { decoder, input := after.advance n, faulted } log)
  obtain ⟨same, moved, _⟩ := Input.next_follows trailing
  obtain ⟨same', further⟩ := follows
  unfold Input.remaining at shorter ⊢
  rw [same, same']
  omega

def gzipStage (input : Input) (o : Output) (log : Log) : Staged :=
  let members := gzipMembers lib limit grants true none input false o log
  let faulted :=
    match members.inflater with
    | none => members.faulted
    | some decoder =>
      (Guarded.close lib { decoder, input := members.input, faulted := members.faulted }).faulted
  { outcome := members.outcome, faulted, output := members.output, log := members.log }

def zlibHeader (cmf flg : UInt8) : Bool :=
  decide (cmf.toNat % 16 = 8 ∧ cmf.toNat / 16 ≤ 7 ∧ (cmf.toNat * 256 + flg.toNat) % 31 = 0)

def bigEndian (bytes : Bytes) : Nat := bytes.foldl (fun rest b => rest * 256 + b.toNat) 0

/-- Makes a decoder, reads it to its end and closes it where it is one to close.
What it comes to is decided by what reading it left. -/
def runDecoder (coding : Coding) (closes : Bool) (verdict : Filled (Guarded σ) → Outcome)
    (input : Input) (o : Output) (log : Log) : Staged :=
  match lib.make coding input with
  | (.fault, _) => { outcome := .decodingFailed, faulted := true, output := o, log }
  | (.failed, _) => { outcome := .decodingFailed, faulted := false, output := o, log }
  | (.made decoder, n) =>
    let filled := o.fill limit grants (Guarded.read lib) 0 { decoder, input := input.advance n, faulted := false } log
    let reader := if closes then filled.reader.close lib else filled.reader
    { outcome := verdict filled, faulted := reader.faulted, output := filled.output,
      log := filled.log }

def isWrapped : Bytes → Bool
  | cmf :: flg :: _ => zlibHeader cmf flg
  | _ => false

def deflateEnd (wrapped : Bool) (filled : Filled (Guarded σ)) : Outcome :=
  if filled.outcome ≠ .decoded then filled.outcome
  else
    let rest :=
      if wrapped then
        match filled.reader.input.next 4 with
        | none => none
        | some (sum, later) =>
          if bigEndian sum ≠ lib.adler32 filled.output.buf then none else some later
      else some filled.reader.input
    match rest with
    | none => .decodingFailed
    | some later => if later.remaining ≠ 0 then .decodingFailed else .decoded

def deflateStage (input : Input) (o : Output) (log : Log) : Staged :=
  let wrapped := isWrapped input.b
  if wrapped && (input.b.getD 1 0).toNat / 32 % 2 == 1 then
    { outcome := .decodingFailed, faulted := false, output := o, log }
  else
    runDecoder lib limit grants .deflate true (deflateEnd lib wrapped)
      (if wrapped then { input with pos := 2 } else input) o log

def brotliHeader (input : Bytes) (bound : Nat) : Option Outcome :=
  match input with
  | [] => some .decodingFailed
  | first :: _ =>
    match brotliWindowBits first with
    | none => some .decodingFailed
    | some bits =>
      if 2 ^ bits - 16 > max bound brotliSmallestWindow then some .decodedTooLarge else none

def brotliEnd (filled : Filled (Guarded σ)) : Outcome :=
  if filled.outcome = .decodingFailed ∧ filled.error = some .tooCostly then .decodingTooCostly
  else if filled.outcome ≠ .decoded then filled.outcome
  else if filled.reader.input.remaining ≠ 0 then .decodingFailed
  else .decoded

def brotliStage (input : Input) (o : Output) (log : Log) : Staged :=
  runDecoder lib limit grants .brotli false brotliEnd input o log

def zstdFrameRest (b : Bytes) : Option Bytes :=
  if b.length < 4 then none
  else
    let magic := littleEndian (b.take 4)
    if isSkippable magic then
      if b.length < 8 then none
      else
        let size := littleEndian ((b.drop 4).take 4)
        if size > b.length - 8 then none else some (b.drop (8 + size))
    else if magic ≠ zstdMagic ∨ b.length < 5 then none
    else
      let descriptor := (b.getD 4 0).toNat
      let header := zstdHeaderLength descriptor
      if b.length < header then none
      else (zstdFrameEnd (b.drop header) (hasChecksum descriptor)).1

def zstdFramesRest : Nat → Bytes → Bytes
  | 0, b => b
  | fuel + 1, b =>
    match zstdFrameRest b with
    | none => b
    | some rest => zstdFramesRest fuel rest

def zstdFrameAt (left : Nat) : Nat → Bytes → Bytes
  | 0, b => b
  | fuel + 1, b =>
    match zstdFrameRest b with
    | none => b
    | some rest => if rest.length ≤ left then b else zstdFrameAt left fuel rest

def zstdDeclaresMore (b : Bytes) (read limit : Nat) : Bool :=
  if read = 0 ∨ b.length < read then false
  else
    match zstdDeclaredWindow (zstdFrameAt (b.length - read) (b.length + 1) b) with
    | none => false
    | some window => decide (window > limit)

def zstdEnd (b : Bytes) (cut : Bool) (window : Nat) (filled : Filled (Guarded σ)) : Outcome :=
  match filled.outcome with
  | .decoded =>
    if zstdFramesRest (b.length + 1) b ≠ [] then .decodingFailed
    else if cut then .decodingTooCostly
    else .decoded
  | .decodingFailed =>
    if (filled.error = some .windowExceeded ∨ filled.error = some .sizeExceeded) ∧
        zstdDeclaresMore b filled.reader.input.pos window = true then .decodedTooLarge
    else .decodingFailed
  | other => other

/-- Undoes zstd. Where the frames would make the history a fourth time the input
is cut before that frame, and a clean end of what comes before is too costly. -/
def zstdStage (bound : Nat) (input : Input) (o : Output) (log : Log) : Staged :=
  if input.b = [] then { outcome := .decodingFailed, faulted := false, output := o, log }
  else
    let window := zstdWindow bound
    let cut := (zstdPlanned input.b window).cut
    let b :=
      match cut with
      | none => input.b
      | some pos => input.b.take pos
    runDecoder lib limit grants .zstd true (zstdEnd b cut.isSome window) { input with b } o log

def runStage (coding : Coding) (bound : Nat) (input : Input) (o : Output) (log : Log) : Staged :=
  match coding with
  | .gzip => gzipStage lib limit grants input o log
  | .deflate => deflateStage lib limit grants input o log
  | .brotli => brotliStage lib limit grants input o log
  | .zstd => zstdStage lib limit grants bound input o log

end Stages

structure Ended where
  output : Option Output
  outcome : Outcome
  fault : Bool
  log : Log

section Decode

variable {σ : Type} (lib : Decoders σ) (grants : Grants)

/-- Runs one coding over some bytes. The workspace is reserved before the decoder
exists and released before the stage ends; the output's charge stays with it. -/
def stage (coding : Coding) (input : Bytes) (bound : Nat) (log : Log) : Ended :=
  match if coding = .brotli then brotliHeader input bound else none with
  | some outcome => { output := none, outcome, fault := false, log }
  | none =>
    let workspace := (plan coding input bound).1
    match reserve grants .workspace workspace log with
    | (false, log) => { output := none, outcome := .refused, fault := false, log }
    | (true, log) =>
      let staged := runStage lib (bound + 1) grants coding bound { b := input, pos := 0 } {} log
      { output := some staged.output
        outcome := if staged.faulted then .decodingFailed else staged.outcome
        fault := staged.faulted
        log := release .workspace workspace staged.log }

structure Result where
  outcome : Outcome
  body : Option Bytes := none
  charge : Nat := 0
  stage : Nat := 0
  fault : Bool := false
  log : Log := []

def decode (coding : Option Coding) (encoded : Bytes) (bound : Int) : Result :=
  match coding with
  | none => { outcome := .identity }
  | some coding =>
    let ended := stage lib grants coding encoded (clampBound bound) []
    match ended.outcome, ended.output with
    | .decoded, some o =>
      { outcome := .decoded, body := some o.buf, charge := o.charge, log := ended.log }
    | outcome, output =>
      { outcome
        stage := 1
        fault := ended.fault
        log :=
          match output with
          | none => ended.log
          | some o => release .output o.charge ended.log }

end Decode

end EdgeObserver.ContentCoding
