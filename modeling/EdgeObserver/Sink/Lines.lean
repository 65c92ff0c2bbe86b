import EdgeObserver.Sink.Queue

/-!
# Lines in a file

A destination with the file it writes to. What the file takes of each write is
given, a count of bytes and an error; the marks of the destination and of its
file are all that keeps a line off the torn end of another.
-/

set_option autoImplicit false

namespace EdgeObserver.Sink

def AtLineEnd (out : Bytes) : Prop := out = [] ∨ out.getLast? = some Text.lf

structure File where
  out : Bytes := []
  dirty : Bool := false
  deriving DecidableEq

structure Taken where
  n : Nat
  failed : Bool
  deriving DecidableEq

def File.put (f : File) (bytes : Bytes) (taken : Taken) : File × Wrote :=
  let n := min taken.n bytes.length
  ({ f with out := f.out ++ bytes.take n }, ⟨n, taken.failed || n != bytes.length⟩)

/-- `fileSink.Write`. -/
def File.write (f : File) (line : Bytes) (repair taken : Taken) : File × Wrote :=
  if f.dirty then
    let (f, wrote) := f.put [Text.lf] repair
    if wrote.failed then (f, ⟨0, true⟩) else File.put { f with dirty := false } line taken
  else f.put line taken

/-- The answers of the file to one `writeLine`, and what its context says. -/
structure Answers where
  expired : Bool := false
  separator : Taken × Taken := (⟨1, false⟩, ⟨1, false⟩)
  expiredAgain : Bool := false
  line : Taken × Taken
  deriving DecidableEq

structure Output where
  destination : Destination := {}
  file : File := {}

def Output.writeLine (o : Output) (line : Bytes) (answers : Answers) : Wrote × Output :=
  let (separated, repair) := if answers.expired || !o.destination.dirty then (o.file, ⟨0, false⟩)
    else o.file.write [Text.lf] answers.separator.1 answers.separator.2
  let (file, answer) := separated.write line answers.line.1 answers.line.2
  let (wrote, destination, given) := o.destination.writeLine line answers.expired repair answers.expiredAgain answer
  (wrote, { destination, file := if given then file else separated })

/-- `reopen` over `replace`: what the path holds now, where it could be opened, and
whether closing the old file failed. A file that is not regular is not read. -/
def Output.reopen (o : Output) (found : Option (Bytes × Bool)) (unclosed : Bool) : Output :=
  match found with
  | none => o
  | some (out, regular) =>
    { destination := if unclosed then o.destination else { o.destination with dirty := false }
      file := { out, dirty := regular && out != [] && out.getLast? != some Text.lf } }

inductive Step where
  | write (line : Bytes) (answers : Answers)
  | reopen (found : Option (Bytes × Bool)) (unclosed : Bool)

def Output.step (o : Output) : Step → Output
  | .write line answers => (o.writeLine line answers).2
  | .reopen found unclosed => o.reopen found unclosed

def Step.Seen : Step → Prop
  | .write _ _ => True
  | .reopen found _ => ∀ one ∈ found, one.2 = true ∨ AtLineEnd one.1

def File.Ready (f : File) : Prop := AtLineEnd f.out ∨ f.dirty = true

def Output.Marked (o : Output) : Prop := o.file.Ready ∨ o.destination.dirty = true

def Lands (o : Output) (line : Bytes) (result : Wrote × Output) : Prop :=
  o.file.out <+: result.2.file.out ∧
    (0 < result.1.n ∨ result.1.failed = false → ∃ before, AtLineEnd before ∧ o.file.out <+: before ∧
      result.2.file.out = before ++ line.take result.1.n.toNat) ∧
    (result.1.failed = false → result.1.n = line.length)

variable {bytes : Bytes} {f : File} {o : Output} {taken : Taken}

theorem atLineEnd_append (out : Bytes) (ends : bytes.getLast? = some Text.lf) :
    AtLineEnd (out ++ bytes) := .inr (by rw [List.getLast?_append, ends]; rfl)

theorem put_whole (whole : (f.put bytes taken).2.failed = false) :
    (f.put bytes taken).1.out = f.out ++ bytes ∧ (f.put bytes taken).2.n = bytes.length := by
  simp only [File.put, Bool.or_eq_false_iff, bne_eq_false_iff_eq] at whole ⊢
  exact ⟨by rw [whole.2, List.take_length], by rw [whole.2]⟩

/-- A write fails in the file's own repair, or is put behind it. -/
theorem write_cases (f : File) (line : Bytes) (repair taken : Taken) :
    (f.dirty = true ∧ f.out <+: (f.write line repair taken).1.out ∧ (f.write line repair taken).1.dirty = true ∧
        (f.write line repair taken).2 = ⟨0, true⟩) ∨
      ∃ before : File, (f.Ready → AtLineEnd before.out) ∧ f.out <+: before.out ∧
        f.write line repair taken = before.put line taken := by
  unfold File.write File.Ready
  cases marked : f.dirty with
  | false => exact .inr ⟨f, by simp, List.prefix_rfl, rfl⟩
  | true =>
    have grows : f.out <+: (f.put [Text.lf] repair).1.out := List.prefix_append _ _
    cases failed : (f.put [Text.lf] repair).2.failed with
    | true =>
      simp only [failed, if_true]
      exact .inl ⟨trivial, grows, marked, trivial⟩
    | false =>
      simp only [failed, if_true, Bool.false_eq_true, if_false]
      have ends : AtLineEnd (f.put [Text.lf] repair).1.out := (put_whole failed).1 ▸ atLineEnd_append _ rfl
      exact .inr ⟨{ (f.put [Text.lf] repair).1 with dirty := false }, fun _ => ends, grows, rfl⟩

theorem write_grows (f : File) (line : Bytes) (repair taken : Taken) :
    f.out <+: (f.write line repair taken).1.out := by
  obtain ⟨-, grows, -⟩ | ⟨before, -, grows, put⟩ := write_cases f line repair taken
  · exact grows
  · exact put ▸ grows.trans (List.prefix_append _ _)

/-- A separator that was taken leaves the file at a line end. -/
theorem write_separator {repair : Taken} (taken? : ¬((f.write [Text.lf] repair taken).2.failed = true ∨
    (f.write [Text.lf] repair taken).2.n ≠ 1)) : AtLineEnd (f.write [Text.lf] repair taken).1.out := by
  obtain ⟨-, -, -, refused⟩ | ⟨before, -, -, put⟩ := write_cases f [Text.lf] repair taken
  · simp [refused] at taken?
  · rw [put] at taken? ⊢
    exact (put_whole (by simpa using (not_or.mp taken?).1)).1 ▸ atLineEnd_append _ rfl

/-- A line put at a line end, short or whole: the mark tells whether it tore. -/
theorem put_marked (before line : Bytes) (n : Nat) (within : n ≤ line.length) (some? : 0 < n) : AtLineEnd (before ++ line.take n) ∨ ((line)[n - 1]? != some Text.lf) = true := by
  by_cases torn : (line)[n - 1]? = some Text.lf
  · refine .inl (atLineEnd_append _ ?_)
    rw [List.getLast?_eq_getElem?, List.length_take, Nat.min_eq_left within, List.getElem?_take_of_lt (by omega), torn]
  · exact .inr (by simpa using torn)

/-- The line itself, given to a file that is ready for it. -/
theorem given_lands (ready : f.Ready) (grows : o.file.out <+: f.out) (d : Destination)
    (line : Bytes) (repair taken : Taken) :
    let (wrote, d, _) := Destination.writeLine { d with dirty := false } line false ⟨0, false⟩ false
      (f.write line repair taken).2
    Lands o line (wrote, ⟨d, (f.write line repair taken).1⟩) ∧ Output.Marked ⟨d, (f.write line repair taken).1⟩ := by
  obtain ⟨-, longer, marked, refused⟩ | ⟨before, ends, longer, put⟩ := write_cases f line repair taken
  · simp only [Destination.writeLine, refused]
    exact ⟨⟨grows.trans longer, by simp, by simp⟩, .inl (.inr marked)⟩
  · have within := Nat.min_le_right taken.n line.length
    have count : ¬((min taken.n line.length : Nat) : Int) > line.length := by omega
    rw [put]
    simp only [Destination.writeLine, File.put, Bool.false_eq_true, false_and, if_false, count, or_false,
      Int.natCast_nonneg, not_lt.mpr]
    refine ⟨⟨(grows.trans longer).trans (List.prefix_append _ _),
      fun _ => ⟨before.out, ends ready, grows.trans longer, rfl⟩, ?_⟩, ?_⟩
    · simp
    · split
      · obtain stands | torn := put_marked before.out line _ within (by omega)
        · exact .inl (.inl stands)
        · exact .inr torn
      · have none : min taken.n line.length = 0 := by omega
        exact .inl (.inl (by simpa [none] using ends ready))

theorem writeLine_lands (marked : o.Marked) (line : Bytes) (answers : Answers) :
    Lands o line (o.writeLine line answers) ∧ (o.writeLine line answers).2.Marked := by
  have refused : ∀ after : Output, o.file.out <+: after.file.out → Lands o line (⟨0, true⟩, after) := fun _ grows =>
    ⟨grows, by simp, by simp⟩
  -- With the mark cleared, only the second expiry stands before the line.
  have given : ∀ f : File, f.Ready → o.file.out <+: f.out →
      let (wrote, d, given) := Destination.writeLine { o.destination with dirty := false } line false ⟨0, false⟩
        answers.expiredAgain (f.write line answers.line.1 answers.line.2).2
      let after : Output := ⟨d, if given then (f.write line answers.line.1 answers.line.2).1 else f⟩
      Lands o line (wrote, after) ∧ after.Marked := by
    intro f ready grows
    cases again : answers.expiredAgain with
    | true => exact ⟨refused _ grows, .inl ready⟩
    | false => exact given_lands ready grows o.destination line answers.line.1 answers.line.2
  unfold Output.writeLine
  cases expired : answers.expired with
  | true => exact ⟨refused _ List.prefix_rfl, marked⟩
  | false =>
    cases dirty : o.destination.dirty with
    | false =>
      have ready : o.file.Ready := by simpa [Output.Marked, dirty] using marked
      have same : { o.destination with dirty := false } = o.destination := by rw [← dirty]
      simpa [same] using given o.file ready List.prefix_rfl
    | true =>
      have grows := write_grows o.file [Text.lf] answers.separator.1 answers.separator.2
      by_cases bad : (o.file.write [Text.lf] answers.separator.1 answers.separator.2).2.failed = true ∨
          (o.file.write [Text.lf] answers.separator.1 answers.separator.2).2.n ≠ 1
      · simp only [Destination.writeLine, dirty, bad, Bool.not_true, Bool.or_false, Bool.false_eq_true, if_false,
          true_and, if_true]
        exact ⟨refused _ grows, .inr dirty⟩
      · have next := given _ (.inl (write_separator bad)) grows
        simpa only [Destination.writeLine, dirty, bad, Bool.not_true, Bool.or_false, Bool.false_eq_true, if_false,
          and_false, false_and] using next

theorem reopen_marked (marked : o.Marked) {found : Option (Bytes × Bool)} (unclosed : Bool)
    (seen : (Step.reopen found unclosed).Seen) : (o.reopen found unclosed).Marked := by
  cases found with
  | none => exact marked
  | some one =>
    left
    obtain regular | ends := seen one rfl
    · by_cases ends : AtLineEnd one.1
      · exact .inl ends
      · exact .inr (by simpa [Output.reopen, regular, AtLineEnd] using ends)
    · exact .inl ends

theorem run_marked {o : Output} (marked : o.Marked) : ∀ {steps : List Step}, (∀ step ∈ steps, step.Seen) →
    (steps.foldl Output.step o).Marked
  | [], _ => marked
  | .write line answers :: _, seen =>
    run_marked (writeLine_lands marked line answers).2 fun step mem => seen step (.tail _ mem)
  | .reopen _ unclosed :: _, seen =>
    run_marked (reopen_marked marked unclosed (seen _ (.head _))) fun step mem => seen step (.tail _ mem)

/-- However the writes went before, a line starts on a line of its own, and one
counted as written ends there too. -/
theorem lines_apart (o : Output) (start : AtLineEnd o.file.out) (steps : List Step) (seen : ∀ step ∈ steps, step.Seen)
    (line : Bytes) (ends : line.getLast? = some Text.lf) (answers : Answers) :
    Lands (steps.foldl Output.step o) line ((steps.foldl Output.step o).writeLine line answers) ∧
      (((steps.foldl Output.step o).writeLine line answers).1.failed = false →
        AtLineEnd ((steps.foldl Output.step o).writeLine line answers).2.file.out) := by
  have lands := (writeLine_lands (run_marked (.inl (.inl start)) seen) line answers).1
  refine ⟨lands, fun written => ?_⟩
  obtain ⟨before, -, -, stands⟩ := lands.2.1 (.inr written)
  have whole : line.take ((steps.foldl Output.step o).writeLine line answers).1.n.toNat = line := by
    rw [lands.2.2 written, Int.toNat_natCast, List.take_length]
  exact stands ▸ whole.symm ▸ atLineEnd_append before ends

/-- A short line, a file reopened where it is, and the next line. -/
theorem lines_apart_reopened :
    let line (digit : UInt8) : Bytes := [123, digit, 125, Text.lf]
    let whole : Answers := ⟨false, (⟨1, false⟩, ⟨1, false⟩), false, (⟨1, false⟩, ⟨4, false⟩)⟩
    let short : Answers := { whole with line := (⟨1, false⟩, ⟨2, false⟩) }
    let after := [.write (line 49) short, .reopen (some ([123, 49], true)) false].foldl Output.step {}
    (after.writeLine (line 50) whole).2.file.out = [123, 49, Text.lf, 123, 50, 125, Text.lf] ∧
      Lands after (line 50) (after.writeLine (line 50) whole) :=
  ⟨by decide, (lines_apart {} (.inl rfl) _ (by simp [Step.Seen]) _ (by decide) _).1⟩

/-- The same over a stream, which reopening leaves as it is: the next line is
counted as written and stands on the torn one. -/
theorem lines_merged :
    let line (digit : UInt8) : Bytes := [123, digit, 125, Text.lf]
    let whole : Answers := ⟨false, (⟨1, false⟩, ⟨1, false⟩), false, (⟨1, false⟩, ⟨4, false⟩)⟩
    let short : Answers := { whole with line := (⟨1, false⟩, ⟨2, false⟩) }
    let torn := Output.step {} (.write (line 49) short)
    let after := torn.step (.reopen (some (torn.file.out, false)) false)
    torn.destination.dirty = true ∧ (after.writeLine (line 50) whole).1 = ⟨4, false⟩ ∧
      (after.writeLine (line 50) whole).2.file.out = [123, 49, 123, 50, 125, Text.lf] := by
  decide

end EdgeObserver.Sink
