import EdgeObserver.Http1.Parser
import EdgeObserver.Stream.Cursor

/-!
# Lines read byte by byte

The parser scans a line over as much input as it has and copies what the line
gains at once. Here the same line is read one byte at a time, where a boundary
between two pieces of input is of no account, and the scan is shown to agree.
-/

set_option autoImplicit false

namespace EdgeObserver.Http1

open Text

inductive LineState where
  | more (line : Bytes) (sawCR : Bool)
  | done (line : Bytes)
  | tooLong

namespace LineState

def text : LineState → Bytes
  | more line _ => line
  | done line => line
  | tooLong => []

def holdsCR : LineState → Bool
  | more _ sawCR => sawCR
  | _ => false

def isDone : LineState → Bool
  | done _ => true
  | _ => false

def isTooLong : LineState → Bool
  | tooLong => true
  | _ => false

end LineState

def lineByte (max : Int) (line : Bytes) (sawCR : Bool) (b : UInt8) : LineState :=
  if sawCR && b == lf then .done line
  else
    let line := if sawCR then line ++ [cr] else line
    if sawCR && (line.length : Int) > max then .tooLong
    else if b == cr then .more line true
    else if ((line.length + 1 : Nat) : Int) > max then .tooLong
    else .more (line ++ [b]) false

def lineScan (max : Int) : Bytes → Bytes → Bool → Nat × LineState
  | [], line, sawCR => (0, .more line sawCR)
  | b :: rest, line, sawCR =>
    match lineByte max line sawCR b with
    | .more line sawCR => ((lineScan max rest line sawCR).1 + 1, (lineScan max rest line sawCR).2)
    | state => (1, state)

theorem lineScan_consumed_le (max : Int) (input line : Bytes) (sawCR : Bool) :
    (lineScan max input line sawCR).1 ≤ input.length := by
  induction input generalizing line sawCR with
  | nil => simp [lineScan]
  | cons b rest ih =>
    simp only [lineScan]
    split
    · rename_i next held read
      have tail := ih next held
      simp only [List.length_cons]
      omega
    · simp

variable {sawCR : Bool} {input line : Bytes} {max : Int}

theorem lineScan_consumed_pos (nonempty : input ≠ []) :
    0 < (lineScan max input line sawCR).1 := by
  cases input with
  | nil => exact absurd rfl nonempty
  | cons b rest =>
    simp only [lineScan]
    split <;> simp

/-- A line that is not refused never gets shorter, and stays within its bound. -/
theorem lineByte_grows {b : UInt8} {state : LineState}
    (read : lineByte max line sawCR b = state) (open? : state.isTooLong = false) :
    line.length ≤ state.text.length ∧ ((line.length : Int) ≤ max → (state.text.length : Int) ≤ max) := by
  have joined : line.length ≤ (if sawCR then line ++ [cr] else line).length ∧
      (sawCR = false → (if sawCR then line ++ [cr] else line).length = line.length) := by
    cases sawCR <;> simp
  unfold lineByte at read
  dsimp only at read
  generalize (if sawCR then line ++ [cr] else line) = line' at joined read
  split at read
  · subst read
    exact ⟨Nat.le_refl _, id⟩
  split at read
  · subst read
    cases open?
  rename_i bounded
  have within : (line.length : Int) ≤ max → (line'.length : Int) ≤ max := by
    cases sawCR with
    | false => exact joined.2 rfl ▸ id
    | true => exact fun _ => by simpa using bounded
  split at read
  · subst read
    exact ⟨joined.1, within⟩
  split at read
  · subst read
    cases open?
  · subst read
    simp only [LineState.text, List.length_append, List.length_singleton]
    omega

theorem lineScan_grows (open? : (lineScan max input line sawCR).2.isTooLong = false) :
    line.length ≤ (lineScan max input line sawCR).2.text.length ∧
      ((line.length : Int) ≤ max → ((lineScan max input line sawCR).2.text.length : Int) ≤ max) := by
  induction input generalizing line sawCR with
  | nil => exact ⟨Nat.le_refl _, id⟩
  | cons b rest ih =>
    simp only [lineScan] at open? ⊢
    cases read : lineByte max line sawCR b with
    | more next held =>
      simp only [read] at open? ⊢
      obtain ⟨longer, bounded⟩ := lineByte_grows read rfl
      exact ⟨Nat.le_trans longer (ih open?).1, fun short => (ih open?).2 (bounded short)⟩
    | done ended => exact lineByte_grows read rfl
    | tooLong => simp [read, LineState.isTooLong] at open?

/-! ## The scan agrees -/

private def heldCR (prependCR : Bool) : Bytes := if prependCR then [cr] else []

/-- A carriage return the scan holds is the last byte before where it stands, or
was held before the input began; copied up to there, the line is what it is byte
by byte. -/
private structure ScanStands (input line₀ line : Bytes) (i : Nat) (sawCR prependCR : Bool) : Prop where
  copied : line = line₀ ++ heldCR prependCR ++ input.take (if sawCR then i - 1 else i)
  returned : sawCR = true → i ≠ 0 → input[i - 1]? = some cr
  fresh : i = 0 → prependCR = false
  within : i ≤ input.length

/-- A held carriage return that turns out to be part of the line is copied with
the input, or before it where it was held from before. -/
private theorem ScanStands.flushed {line₀ : Bytes} {i : Nat} {prependCR : Bool}
    (stands : ScanStands input line₀ line i sawCR prependCR) :
    (if sawCR then line ++ [cr] else line) = line₀ ++ heldCR (prependCR || (sawCR && i == 0)) ++ input.take i := by
  cases sawCR with
  | false => simpa using stands.copied
  | true =>
    have copied := stands.copied
    by_cases start : i = 0
    · have unheld := stands.fresh start
      subst start unheld
      simp only [heldCR, Bool.false_eq_true, ↓reduceIte, List.append_nil, Nat.zero_sub, List.take_zero] at copied
      simp [heldCR, copied]
    · have last := stands.returned rfl start
      obtain ⟨k, rfl⟩ : ∃ k, i = k + 1 := ⟨i - 1, by omega⟩
      simp only [Nat.add_sub_cancel, ↓reduceIte] at copied last
      rw [List.take_add_one, last]
      simp [copied]

private theorem ScanStands.scanned (max : Int) {input line₀ : Bytes} (rest : Bytes) :
    ∀ {line : Bytes} {i : Nat} {sawCR prependCR : Bool},
      input.drop i = rest → ScanStands input line₀ line i sawCR prependCR →
      let s := Parser.scanFrom max rest i line.length sawCR prependCR
      let l := lineScan max rest line sawCR
      s.consumed = i + l.1 ∧ s.done = l.2.isDone ∧ s.tooLong = l.2.isTooLong ∧ s.sawCR = l.2.holdsCR ∧
        s.upTo ≤ input.length ∧
        (l.2.isTooLong = false → l.2.text = line₀ ++ heldCR s.prependCR ++ input.take s.upTo) := by
  induction rest with
  | nil =>
    intro line i sawCR prependCR _ stands
    have within := stands.within
    refine ⟨rfl, rfl, rfl, rfl, ?_, fun _ => stands.copied⟩
    simp only [Parser.scanFrom]
    split <;> omega
  | cons b rest ih =>
    intro line i sawCR prependCR dropped stands
    have found : input[i]? = some b := by
      have := congrArg (·[0]?) dropped
      simpa [List.getElem?_drop] using this
    have dropped' : input.drop (i + 1) = rest := by
      have := congrArg List.tail dropped
      simpa [List.tail_drop] using this
    have flushed := stands.flushed
    have reached : i + 1 ≤ input.length := (List.getElem?_eq_some_iff.mp found).1
    dsimp only
    simp only [Parser.scanFrom, lineScan, lineByte]
    by_cases ended : (sawCR && b == lf) = true
    · have held : sawCR = true := by
        cases sawCR
        · simp at ended
        · rfl
      have copied := stands.copied
      rw [held] at copied
      simp only [ended, ↓reduceIte, LineState.isDone, LineState.isTooLong, LineState.holdsCR,
        LineState.text, true_and, forall_const]
      exact ⟨by omega, copied⟩
    · simp only [ended, Bool.false_eq_true, ↓reduceIte]
      have lengths : (if sawCR = true then line ++ [cr] else line).length =
          if sawCR = true then line.length + 1 else line.length := by
        split <;> simp
      rw [← lengths, flushed]
      generalize joined : line₀ ++ heldCR (prependCR || (sawCR && i == 0)) ++ input.take i = line'
      generalize prepended : (prependCR || (sawCR && i == 0)) = prependCR' at joined ⊢
      by_cases past : (sawCR && decide ((line'.length : Int) > max)) = true
      · simp [past, LineState.isDone, LineState.isTooLong, LineState.holdsCR]
      simp only [past, Bool.false_eq_true, ↓reduceIte]
      by_cases returns : (b == cr) = true
      · simp only [returns, ↓reduceIte]
        have next : ScanStands input line₀ line' (i + 1) true prependCR' :=
          ⟨by simpa using joined.symm, fun _ _ => by
            rw [Nat.add_sub_cancel, found]
            simpa using returns, by simp, reached⟩
        obtain ⟨consumed, others⟩ := ih dropped' next
        exact ⟨by simp only [consumed]; omega, others⟩
      · simp only [returns, Bool.false_eq_true, ↓reduceIte]
        by_cases long : ((line'.length + 1 : Nat) : Int) > max
        · simp only [long, ↓reduceIte]
          simp [LineState.isDone, LineState.isTooLong, LineState.holdsCR]
        simp only [long, ↓reduceIte]
        have next : ScanStands input line₀ (line' ++ [b]) (i + 1) false prependCR' :=
          ⟨by simp [← joined, List.take_add_one, found], by simp, by simp, reached⟩
        have scanned := ih dropped' next
        simp only [List.length_append, List.length_cons, List.length_nil, Nat.zero_add] at scanned
        obtain ⟨consumed, others⟩ := scanned
        exact ⟨by simp only [consumed]; omega, others⟩

def Parser.lineRead (p : Parser) (context : String) (n : Nat) (state : LineState) : Parser.LineRead :=
  if state.isTooLong then { done := false, reading := p.lineTooLong n context }
  else
    { done := state.isDone
      reading := p.lineGrown state.text (state.text.length - p.line.length) state.holdsCR n }

theorem Parser.readLine_eq (p : Parser) (input : Bytes) (max : Int) (context : String) :
    p.readLine input max context =
      p.lineRead context (lineScan max input p.line p.sawCR).1 (lineScan max input p.line p.sawCR).2 := by
  have stands : ScanStands input p.line p.line 0 p.sawCR false := ⟨by simp [heldCR], by simp, by simp, by simp⟩
  obtain ⟨consumed, done, tooLong, sawCR, within, text⟩ := ScanStands.scanned max input (by simp) stands
  simp only [Nat.zero_add] at consumed
  unfold Parser.readLine Parser.scanLine Parser.lineRead
  simp only [consumed, done, tooLong, sawCR]
  split
  · rfl
  rename_i open?
  have copied := text (by simpa using open?)
  have grown : (lineScan max input p.line p.sawCR).2.text.length - p.line.length =
      (heldCR (scanFrom max input 0 p.line.length p.sawCR false).prependCR).length +
        (scanFrom max input 0 p.line.length p.sawCR false).upTo := by
    rw [copied]
    simp only [List.length_append, List.length_take, Nat.min_eq_left within]
    omega
  rw [grown, copied]
  rfl

/-! ## A line whole -/

open EdgeObserver.Stream (Cursor)

def LineState.outcome : LineState → Except Cursor.LineError Bytes
  | more _ _ => .error .short
  | done line => .ok line
  | tooLong => .error .tooLong

theorem lineScan_append (input rest line : Bytes) (sawCR : Bool) :
    lineScan max (input ++ rest) line sawCR =
      match (lineScan max input line sawCR).2 with
      | .more line' sawCR' =>
        ((lineScan max input line sawCR).1 + (lineScan max rest line' sawCR').1, (lineScan max rest line' sawCR').2)
      | state => ((lineScan max input line sawCR).1, state) := by
  induction input generalizing line sawCR with
  | nil => simp [lineScan]
  | cons b input ih =>
    simp only [List.cons_append, lineScan]
    cases lineByte max line sawCR b with
    | more line' sawCR' =>
      simp only [ih]
      cases (lineScan max input line' sawCR').2 with
      | more => simp [Nat.add_right_comm]
      | _ => rfl
    | _ => rfl

/-- A line read from one piece of input after another, until it ends. -/
def Parser.readPieces (max : Int) (context : String) : List Bytes → Parser → Except Cursor.LineError Bytes × Parser
  | [], p => (.error .short, p)
  | piece :: rest, p =>
    let read := p.readLine piece max context
    if read.done then (.ok read.reading.parser.line, read.reading.parser)
    else if read.reading.event.isSome then (.error .tooLong, read.reading.parser)
    else readPieces max context rest read.reading.parser

theorem Parser.readPieces_eq (context : String) (pieces : List Bytes) (p : Parser) :
    (p.readPieces max context pieces).1 = (lineScan max pieces.flatten p.line p.sawCR).2.outcome ∧
      (p.readPieces max context pieces).2.next = p.next + (lineScan max pieces.flatten p.line p.sawCR).1 := by
  induction pieces generalizing p with
  | nil => exact ⟨rfl, rfl⟩
  | cons piece rest ih =>
    rw [readPieces, List.flatten_cons, lineScan_append, readLine_eq]
    cases (lineScan max piece p.line p.sawCR).2 with
    | done line | tooLong => exact ⟨rfl, rfl⟩
    | more line sawCR =>
      obtain ⟨outcome, next⟩ := ih (p.lineGrown line (line.length - p.line.length) sawCR (lineScan max piece p.line p.sawCR).1).parser
      exact ⟨outcome, next.trans (Nat.add_assoc _ _ _)⟩

theorem linePart_eq (c : Cursor) :
    Cursor.linePart max input c line sawCR =
      ({ c with pos := c.pos + (lineScan max input line sawCR).1 },
        match (lineScan max input line sawCR).2 with
        | .more line sawCR => .inr (line, sawCR)
        | state => .inl state.outcome) := by
  induction input generalizing c line sawCR with
  | nil => rfl
  | cons b rest ih =>
    simp only [Cursor.linePart, lineScan, lineByte, List.length_append, List.length_singleton]
    generalize (if sawCR then line ++ [cr] else line) = joined
    split
    · rfl
    split
    · rfl
    split
    · rw [ih, Nat.add_assoc, Nat.add_comm 1]
    split
    · rfl
    · rw [ih, Nat.add_assoc, Nat.add_comm 1]

theorem readLine_whole (bytes : Bytes) :
    (Cursor.ofBytes bytes).readLine max =
      ((lineScan max bytes [] false).2.outcome, { Cursor.ofBytes bytes with pos := (lineScan max bytes [] false).1 }) := by
  cases bytes with
  | nil => rfl
  | cons b rest =>
    have whole : (Cursor.ofBytes (b :: rest)).part = some (.ofBytes 0 (b :: rest)) := rfl
    show Cursor.readLineLoop max 1 (.ofBytes (b :: rest)) [] false = _
    rw [Cursor.readLineLoop, if_neg nofun, whole]
    dsimp only
    rw [if_neg (fun gap => gap rfl), linePart_eq]
    have start : (Cursor.ofBytes (b :: rest)).pos + (lineScan max (b :: rest) [] false).1 =
        (lineScan max (b :: rest) [] false).1 := Nat.zero_add _
    rw [show (Stream.Part.ofBytes 0 (b :: rest)).bytes.drop _ = b :: rest from rfl, start]
    cases (lineScan max (b :: rest) [] false).2 <;> rfl

/-- A line read in pieces, however the input is cut, is the line read whole. -/
theorem line_cut_is_whole (p : Parser) (pieces : List Bytes) (max : Int) (context : String) :
    (p.takeLine.2.readPieces max context pieces).1 = ((Cursor.ofBytes pieces.flatten).readLine max).1 ∧
      (p.takeLine.2.readPieces max context pieces).2.next =
        p.next + ((Cursor.ofBytes pieces.flatten).readLine max).2.pos := by
  rw [readLine_whole]
  exact Parser.readPieces_eq context pieces p.takeLine.2

end EdgeObserver.Http1
