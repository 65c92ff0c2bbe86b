import EdgeObserver.ContentCoding.Ceiling
import EdgeObserver.ContentCoding.Stage

/-!
# Walking zstd frames

The plan and the framing check walk the same frames. Both are written again here
with every read checked, an out-of-range one giving nothing, and shown to read
inside their input, to come to an end and to agree.
-/

set_option autoImplicit false

namespace EdgeObserver.ContentCoding

/-! ## Checked reads -/

def field? (b : Bytes) (start n : Nat) : Option Nat :=
  if start + n ≤ b.length then some (littleEndian ((b.drop start).take n)) else none

def from? (b : Bytes) (start : Nat) : Option Bytes := if start ≤ b.length then some (b.drop start) else none

def zstdDeclaredWindow? (b : Bytes) : Option (Option Nat) := do
  if b.length < 5 then return none
  if (← field? b 0 4) ≠ zstdMagic then return none
  let descriptor ← field? b 4 1
  if isSingleSegment descriptor = false then
    if b.length < 6 then return none
    let byte ← field? b 5 1
    let base := 2 ^ (10 + byte / 8)
    return some (base + base / 8 * (byte % 8))
  let pos := 5 + dictionaryBytes descriptor
  let size := 2 ^ (descriptor / 64)
  if b.length - pos < size then return none
  let content ← field? b pos size
  return some (max (if size = 2 then content + 256 else content) zstdSmallestWindow)

def zstdBlocks? : Nat → Bytes → Nat → Option (Option Bytes × Nat)
  | 0, _, read => some (none, read)
  | fuel + 1, b, read => do
      if b.length < 3 then return (none, read + b.length)
      let header ← field? b 0 3
      let rest ← from? b 3
      if header / 2 % 4 = 3 then return (none, read + 3)
      let size := if header / 2 % 4 = 1 then 1 else header / 8
      if rest.length < size then return (none, read + 3)
      let rest ← from? rest size
      if header % 2 = 1 then return (some rest, read + 3)
      zstdBlocks? fuel rest (read + 3)

def zstdFrameEnd? (b : Bytes) (checksum : Bool) : Option (Option Bytes × Nat) := do
  match ← zstdBlocks? (b.length + 1) b 0 with
  | (none, read) => return (none, read)
  | (some rest, read) =>
    if checksum then
      if rest.length < 4 then return (none, read)
      return (some (← from? rest 4), read)
    return (some rest, read)

def zstdFrameRest? (b : Bytes) : Option (Option Bytes) := do
  if b.length < 4 then return none
  let magic ← field? b 0 4
  if isSkippable magic then
    if b.length < 8 then return none
    let size ← field? b 4 4
    if size > b.length - 8 then return none
    return some (← from? b (8 + size))
  if magic ≠ zstdMagic ∨ b.length < 5 then return none
  let descriptor ← field? b 4 1
  if b.length < zstdHeaderLength descriptor then return none
  return (← zstdFrameEnd? (← from? b (zstdHeaderLength descriptor)) (hasChecksum descriptor)).1

def zstdFramesRest? : Nat → Bytes → Option Bytes
  | 0, b => some b
  | fuel + 1, b => do
      match ← zstdFrameRest? b with
      | none => return b
      | some rest => zstdFramesRest? fuel rest

def zstdWalk? (total limit : Nat) : Nat → Bytes → Walk → Option ZstdPlan
  | 0, _, w => some (w.stop 0)
  | fuel + 1, b, w => do
      if b.length < 4 then return w.stop b.length
      let magic ← field? b 0 4
      if isSkippable magic then
        if b.length < 8 then return w.stop b.length
        let size ← field? b 4 4
        if size > b.length - 8 then return w.stop 8
        zstdWalk? total limit fuel (← from? b (8 + size)) { w with read := w.read + 8 }
      else if magic ≠ zstdMagic ∨ b.length < 5 then return w.stop 4
      else
        let descriptor ← field? b 4 1
        let header := zstdHeaderLength descriptor
        if b.length < header then return w.stop b.length
        let window := (← zstdDeclaredWindow? b).getD 0
        if window > limit then return w.stop header
        match w.history (zstdHistory window) with
        | none => return { held := w.held, read := w.read + header, cut := some (total - b.length) }
        | some w =>
          match ← zstdFrameEnd? (← from? b header) (hasChecksum descriptor) with
          | (none, blocks) => return w.stop (header + blocks)
          | (some rest, blocks) => zstdWalk? total limit fuel rest { w with read := w.read + header + blocks }

section Checked

variable {b : Bytes}

theorem field?_eq {start n : Nat} (inside : start + n ≤ b.length) :
    field? b start n = some (littleEndian ((b.drop start).take n)) := if_pos inside

theorem from?_eq {start : Nat} (inside : start ≤ b.length) : from? b start = some (b.drop start) := if_pos inside

theorem byte?_eq {start : Nat} (inside : start < b.length) : field? b start 1 = some (b.getD start 0).toNat := by
  rw [field?_eq inside, List.drop_eq_getElem_cons inside, List.take_succ_cons, List.take_zero]
  simp [littleEndian, inside]

theorem zstdDeclaredWindow?_eq (b : Bytes) : zstdDeclaredWindow? b = some (zstdDeclaredWindow b) := by
  unfold zstdDeclaredWindow? zstdDeclaredWindow
  by_cases short : b.length < 5
  · simp [short]
  simp only [short, false_or, if_false, field?_eq (show 0 + 4 ≤ b.length by omega),
    byte?_eq (show 4 < b.length by omega), List.drop_zero]
  have positive : 0 < 2 ^ ((b.getD 4 0).toNat / 64) := Nat.two_pow_pos _
  generalize (b.getD 4 0).toNat = descriptor at *
  simp only [Option.pure_def, Option.bind_eq_bind, Option.bind_some]
  repeat' split
  all_goals first | rfl | contradiction | skip
  · rw [byte?_eq (by omega)]
    rfl
  · rw [field?_eq (by omega)]
    rfl
  · rw [field?_eq (by omega)]
    rfl

theorem zstdBlocks?_eq (fuel : Nat) (b : Bytes) (read : Nat) : zstdBlocks? fuel b read = some (zstdBlocks fuel b read) := by
  induction fuel generalizing b read with
  | zero => rfl
  | succ fuel ih =>
    unfold zstdBlocks? zstdBlocks
    by_cases short : b.length < 3
    · simp [short]
    simp only [short, if_false, field?_eq (show 0 + 3 ≤ b.length by omega), from?_eq (show 3 ≤ b.length by omega),
      List.drop_zero, Option.pure_def, Option.bind_eq_bind, Option.bind_some]
    generalize (if littleEndian (b.take 3) / 2 % 4 = 1 then 1 else littleEndian (b.take 3) / 8) = size
    split
    · rfl
    split
    · rfl
    rw [from?_eq (by omega), Option.bind_some]
    split
    · rfl
    · exact ih _ _

theorem zstdFrameEnd?_eq (b : Bytes) (checksum : Bool) : zstdFrameEnd? b checksum = some (zstdFrameEnd b checksum) := by
  unfold zstdFrameEnd? zstdFrameEnd
  rw [zstdBlocks?_eq]
  generalize zstdBlocks (b.length + 1) b 0 = walked
  obtain ⟨_ | rest, read⟩ := walked
  · rfl
  · simp only [Option.bind_eq_bind, Option.bind_some]
    split
    · split
      · rfl
      · rw [from?_eq (by omega)]
        rfl
    · rfl

theorem zstdFrameRest?_eq (b : Bytes) : zstdFrameRest? b = some (zstdFrameRest b) := by
  unfold zstdFrameRest? zstdFrameRest
  by_cases short : b.length < 4
  · simp [short]
  simp only [short, if_false, field?_eq (show 0 + 4 ≤ b.length by omega), List.drop_zero, Option.pure_def,
    Option.bind_eq_bind, Option.bind_some]
  split
  · split
    · rfl
    rw [field?_eq (by omega), Option.bind_some]
    split
    · rfl
    · rw [from?_eq (by omega)]
      rfl
  · split
    · rfl
    rw [byte?_eq (by omega), Option.bind_some]
    split
    · rfl
    · rw [from?_eq (by omega), Option.bind_some, zstdFrameEnd?_eq]
      rfl

theorem zstdFramesRest?_eq (fuel : Nat) (b : Bytes) : zstdFramesRest? fuel b = some (zstdFramesRest fuel b) := by
  induction fuel generalizing b with
  | zero => rfl
  | succ fuel ih =>
    unfold zstdFramesRest? zstdFramesRest
    rw [zstdFrameRest?_eq]
    cases zstdFrameRest b with
    | none => rfl
    | some rest => exact ih rest

theorem zstdWalk?_eq (total limit fuel : Nat) (b : Bytes) (w : Walk) :
    zstdWalk? total limit fuel b w = some (zstdWalk total limit fuel b w) := by
  induction fuel generalizing b w with
  | zero => rfl
  | succ fuel ih =>
    unfold zstdWalk? zstdWalk
    by_cases short : b.length < 4
    · simp [short]
    simp only [short, if_false, field?_eq (show 0 + 4 ≤ b.length by omega), List.drop_zero, Option.pure_def,
      Option.bind_eq_bind, Option.bind_some]
    split
    · split
      · rfl
      rw [field?_eq (by omega), Option.bind_some]
      split
      · rfl
      · rw [from?_eq (by omega), Option.bind_some, ih]
    · split
      · rfl
      rw [byte?_eq (by omega), Option.bind_some]
      split
      · rfl
      rw [zstdDeclaredWindow?_eq, Option.bind_some]
      split
      · rfl
      cases w.history (zstdHistory ((zstdDeclaredWindow b).getD 0)) with
      | none => rfl
      | some w =>
        simp only [from?_eq (show zstdHeaderLength (b.getD 4 0).toNat ≤ b.length by omega), Option.bind_some,
          zstdFrameEnd?_eq]
        generalize zstdFrameEnd _ _ = walked
        obtain ⟨_ | rest, blocks⟩ := walked
        · rfl
        · exact ih rest _

end Checked

/-! ## One frame, whatever follows it -/

/-- One block: its header's three bytes decide how far it reaches. -/
theorem zstdBlocks_header {header : Bytes} (three : header.length = 3) :
    ∃ size, ∀ (fuel : Nat) (more : Bytes) (read : Nat),
      (zstdBlocks (fuel + 1) (header ++ more) read).1 =
        if littleEndian header / 2 % 4 = 3 ∨ more.length < size then none
        else if littleEndian header % 2 = 1 then some (more.drop size)
        else (zstdBlocks fuel (more.drop size) (read + 3)).1 := by
  refine ⟨if littleEndian header / 2 % 4 = 1 then 1 else littleEndian header / 8, fun fuel more read => ?_⟩
  rw [zstdBlocks, if_neg (by simp only [List.length_append]; omega), List.take_left' three, List.drop_left' three]
  dsimp only
  generalize (if littleEndian header / 2 % 4 = 1 then 1 else littleEndian header / 8) = size
  by_cases reserved : littleEndian header / 2 % 4 = 3
  · simp [reserved]
  by_cases short : more.length < size
  · simp [reserved, short]
  · by_cases last : littleEndian header % 2 = 1
    · simp [reserved, short, last]
    · simp [reserved, short, last]

variable {b rest : Bytes} {fuel limit read total : Nat} {w : Walk}

theorem zstdBlocks_split (is : (zstdBlocks fuel b read).1 = some rest) :
    ∃ blocks, b = blocks ++ rest ∧
      ∀ (more : Bytes) (read extra : Nat), (zstdBlocks (fuel + extra) (blocks ++ more) read).1 = some more := by
  induction fuel generalizing b read with
  | zero => cases is
  | succ fuel ih =>
    by_cases short : b.length < 3
    · rw [zstdBlocks, if_pos short] at is
      cases is
    obtain ⟨header, three, after, rfl⟩ : ∃ header : Bytes, header.length = 3 ∧ ∃ after, b = header ++ after :=
      ⟨b.take 3, by simp; omega, b.drop 3, (List.take_append_drop 3 b).symm⟩
    obtain ⟨size, next⟩ := zstdBlocks_header three
    rw [next] at is
    split at is
    · cases is
    rename_i readable
    have length : (after.take size).length = size := by simp only [List.length_take]; omega
    have still : ∀ more : Bytes, ¬(littleEndian header / 2 % 4 = 3 ∨ (after.take size ++ more).length < size) := by
      intro more
      simp only [List.length_append]
      omega
    split at is
    · rename_i last
      cases is
      refine ⟨header ++ after.take size, by rw [List.append_assoc, List.take_append_drop], fun more read extra => ?_⟩
      rw [Nat.add_right_comm, List.append_assoc, next, if_neg (still more), if_pos last, List.drop_left' length]
    · rename_i last
      obtain ⟨blocks, parts, walks⟩ := ih is
      refine ⟨header ++ (after.take size ++ blocks), ?_, fun more read extra => ?_⟩
      · rw [List.append_assoc, List.append_assoc, ← parts, List.take_append_drop]
      · rw [Nat.add_right_comm, List.append_assoc, List.append_assoc, next, if_neg (still _), if_neg last,
          List.drop_left' length]
        exact walks more _ extra

theorem zstdBlocks_enough (extra : Nat) (enough : b.length < fuel) :
    zstdBlocks (fuel + extra) b read = zstdBlocks fuel b read := by
  induction extra with
  | zero => rfl
  | succ extra ih => rw [← Nat.add_assoc, ← zstdBlocks_fuel _ _ _ (by omega), ih]

theorem zstdFrameEnd_split {checksum : Bool} (is : (zstdFrameEnd b checksum).1 = some rest) :
    ∃ blocks, b = blocks ++ rest ∧ ∀ more, (zstdFrameEnd (blocks ++ more) checksum).1 = some more := by
  unfold zstdFrameEnd at is
  generalize found : zstdBlocks (b.length + 1) b 0 = walked at is
  obtain ⟨_ | last, read⟩ := walked
  · cases is
  · obtain ⟨blocks, rfl, walks⟩ := zstdBlocks_split (congrArg Prod.fst found)
    -- More fuel than the bytes that are there changes nothing, so the walk's own fuel will do.
    have walked : ∀ more : Bytes, (zstdBlocks ((blocks ++ more).length + 1) (blocks ++ more) 0).1 = some more := by
      intro more
      rw [← zstdBlocks_enough ((blocks ++ last).length + 1) (Nat.lt_succ_self _), Nat.add_comm]
      exact walks more 0 _
    have ends : ∀ more : Bytes, (zstdFrameEnd (blocks ++ more) checksum).1 =
        if checksum then if more.length < 4 then none else some (more.drop 4) else some more := by
      intro more
      have is := walked more
      unfold zstdFrameEnd
      generalize zstdBlocks _ (blocks ++ more) 0 = walk at is
      obtain ⟨_, _⟩ := walk
      cases is
      dsimp only
      split
      · split <;> rfl
      · rfl
    dsimp only at is
    split at is
    · rename_i checked
      split at is
      · cases is
      cases is
      have four : (last.take 4).length = 4 := by simp only [List.length_take]; omega
      refine ⟨blocks ++ last.take 4, by rw [List.append_assoc, List.take_append_drop], fun more => ?_⟩
      rw [List.append_assoc, ends, if_pos checked, if_neg (by simp only [List.length_append]; omega),
        List.drop_left' four]
    · rename_i unchecked
      cases is
      exact ⟨blocks, rfl, fun more => by rw [ends, if_neg unchecked]⟩

theorem zstdHeaderLength_least (descriptor : Nat) : 5 ≤ zstdHeaderLength descriptor := by
  unfold zstdHeaderLength
  dsimp only
  omega

theorem zstdFrameRest_split (is : zstdFrameRest b = some rest) :
    ∃ frame, b = frame ++ rest ∧ frame ≠ [] ∧ ∀ more, zstdFrameRest (frame ++ more) = some more := by
  unfold zstdFrameRest at is
  dsimp only at is
  split at is
  · cases is
  split at is
  · rename_i skippable
    split at is
    · cases is
    split at is
    · cases is
    rename_i whole
    obtain rfl := Option.some.inj is
    generalize sized : 8 + littleEndian ((b.drop 4).take 4) = size
    have length : (b.take size).length = size := by simp only [List.length_take]; omega
    refine ⟨b.take size, (List.take_append_drop size b).symm, ?_, fun more => ?_⟩
    · intro empty
      rw [empty] at length
      simp at length
      omega
    · have front : (b.take size ++ more).take 4 = b.take 4 := by
        rw [List.take_append_of_le_length (by omega), List.take_take, Nat.min_eq_left (by omega)]
      have declared : ((b.take size ++ more).drop 4).take 4 = (b.drop 4).take 4 := by
        rw [List.drop_append_of_le_length (by omega), List.take_append_of_le_length (by simp; omega),
          List.drop_take, List.take_take, Nat.min_eq_left (by omega)]
      unfold zstdFrameRest
      simp only [front, declared, skippable, sized, List.length_append, length, List.drop_left' length, if_true]
      rw [if_neg (by omega), if_neg (by omega), if_neg (by omega)]
  · rename_i unskippable
    split at is
    · cases is
    rename_i magic
    split at is
    · cases is
    rename_i whole
    have least := zstdHeaderLength_least (b.getD 4 0).toNat
    obtain ⟨blocks, parts, walks⟩ := zstdFrameEnd_split is
    generalize sized : zstdHeaderLength (b.getD 4 0).toNat = header at *
    have length : (b.take header).length = header := by simp only [List.length_take]; omega
    refine ⟨b.take header ++ blocks, ?_, ?_, fun more => ?_⟩
    · rw [List.append_assoc, ← parts, List.take_append_drop]
    · intro empty
      have none : (b.take header ++ blocks).length = 0 := by rw [empty]; rfl
      simp only [List.length_append] at none
      omega
    · have front : (b.take header ++ (blocks ++ more)).take 4 = b.take 4 := by
        rw [List.take_append_of_le_length (by omega), List.take_take, Nat.min_eq_left (by omega)]
      have descriptor : (b.take header ++ (blocks ++ more)).getD 4 0 = b.getD 4 0 := by
        simp only [List.getD, List.getElem?_append_left (show 4 < (b.take header).length by omega),
          List.getElem?_take_of_lt (show 4 < header by omega)]
      rw [List.append_assoc]
      unfold zstdFrameRest
      simp only [front, descriptor, sized, unskippable, List.drop_left' length, List.length_append, length]
      rw [if_neg (by omega), if_neg (by simp), if_neg (by omega), if_neg (by omega)]
      exact walks more

/-! ## The two walks agree -/

/-- The plan either walks past the frame that is there, to the same end, or
returns: where none is, or for a frame's window or its history. -/
theorem zstdWalk_step (total limit : Nat) (b : Bytes) (w : Walk) :
    (∃ rest next, zstdFrameRest b = some rest ∧
      ∀ fuel, zstdWalk total limit (fuel + 1) b w = zstdWalk total limit fuel rest next) ∨
    ∃ plan, (∀ fuel, zstdWalk total limit (fuel + 1) b w = plan) ∧
      (plan.cut = none ∨ plan.cut = some (total - b.length)) ∧
      (zstdFrameRest b = none ∨ limit < (zstdDeclaredWindow b).getD 0 ∨
        w.history (zstdHistory ((zstdDeclaredWindow b).getD 0)) = none) := by
  simp only [zstdWalk]
  unfold zstdFrameRest
  dsimp only
  by_cases short : b.length < 4
  · simp only [if_pos short]
    exact .inr ⟨_, fun _ => rfl, .inl rfl, .inl trivial⟩
  simp only [if_neg short]
  by_cases skippable : isSkippable (littleEndian (b.take 4)) = true
  · simp only [if_pos skippable]
    split
    · exact .inr ⟨_, fun _ => rfl, .inl rfl, .inl rfl⟩
    · split
      · exact .inr ⟨_, fun _ => rfl, .inl rfl, .inl rfl⟩
      · exact .inl ⟨_, _, rfl, fun _ => rfl⟩
  · simp only [if_neg skippable]
    split
    · exact .inr ⟨_, fun _ => rfl, .inl rfl, .inl rfl⟩
    split
    · exact .inr ⟨_, fun _ => rfl, .inl rfl, .inl rfl⟩
    split
    · rename_i past
      exact .inr ⟨_, fun _ => rfl, .inl rfl, .inr (.inl past)⟩
    cases history : w.history (zstdHistory ((zstdDeclaredWindow b).getD 0)) with
    | none => exact .inr ⟨_, fun _ => rfl, .inr rfl, .inr (.inr rfl)⟩
    | some next =>
      generalize zstdFrameEnd _ _ = walked
      obtain ⟨_ | rest, blocks⟩ := walked
      · exact .inr ⟨_, fun _ => rfl, .inl rfl, .inl rfl⟩
      · exact .inl ⟨_, _, rfl, fun _ => rfl⟩

theorem zstdFramesRest_enough (extra fuel : Nat) (b : Bytes) (enough : b.length < fuel) :
    zstdFramesRest (fuel + extra) b = zstdFramesRest fuel b := by
  induction fuel generalizing b with
  | zero => exact absurd enough (Nat.not_lt_zero _)
  | succ fuel ih =>
    rw [Nat.add_right_comm, zstdFramesRest, zstdFramesRest]
    cases framed : zstdFrameRest b with
    | none => rfl
    | some rest =>
      obtain ⟨frame, rfl, nonempty, -⟩ := zstdFrameRest_split framed
      have shorter := List.length_pos_iff.mpr nonempty
      simp only [List.length_append] at enough
      exact ih rest (by omega)

theorem zstdWalk_enough (extra : Nat) (enough : b.length < fuel) :
    zstdWalk total limit (fuel + extra) b w = zstdWalk total limit fuel b w := by
  induction extra with
  | zero => rfl
  | succ extra ih => rw [← Nat.add_assoc, ← zstdWalk_fuel _ _ _ (by omega), ih]

/-- Before a cut stand whole frames. -/
theorem zstdWalk_cut {cut : Nat} (is : (zstdWalk total limit fuel b w).cut = some cut) :
    ∃ frames left, b = frames ++ left ∧ cut = total - left.length ∧
      ∀ fuel, frames.length < fuel → zstdFramesRest fuel frames = [] := by
  induction fuel generalizing b w with
  | zero => cases is
  | succ fuel ih =>
    rcases zstdWalk_step total limit b w with ⟨rest, next, framed, goes⟩ | ⟨plan, returns, cut, -⟩
    · rw [goes] at is
      obtain ⟨frames, left, parts, place, whole⟩ := ih is
      obtain ⟨frame, rfl, nonempty, alone⟩ := zstdFrameRest_split framed
      refine ⟨frame ++ frames, left, by rw [parts, List.append_assoc], place, fun fuel enough => ?_⟩
      have shorter := List.length_pos_iff.mpr nonempty
      simp only [List.length_append] at enough
      cases fuel with
      | zero => omega
      | succ fuel =>
        rw [zstdFramesRest, alone]
        exact whole fuel (by omega)
    · rw [returns] at is
      refine ⟨[], b, rfl, ?_, fun fuel _ => by cases fuel <;> rfl⟩
      rcases cut with none | cut
      · rw [none] at is
        cases is
      · rw [cut] at is
        exact (Option.some.inj is).symm

def zstdPlanned? (b : Bytes) (limit : Nat) : Option ZstdPlan := zstdWalk? b.length limit (b.length + 1) b {}

def zstdFramesEnd (b : Bytes) : Nat := b.length - (zstdFramesRest (b.length + 1) b).length

def zstdFramesEnd? (b : Bytes) : Option Nat := do return b.length - (← zstdFramesRest? (b.length + 1) b).length

/-- Both walks read inside their input and are done with the fuel they are given,
what the plan cuts off follows whole frames, and a frame has one end for both. -/
theorem zstd_walks_agree (b : Bytes) (limit : Nat) :
    zstdPlanned? b limit = some (zstdPlanned b limit) ∧ zstdFramesEnd? b = some (zstdFramesEnd b) ∧
      (∀ extra, zstdWalk b.length limit (b.length + 1 + extra) b {} = zstdPlanned b limit ∧
        zstdFramesRest (b.length + 1 + extra) b = zstdFramesRest (b.length + 1) b ∧
        zstdBlocks (b.length + 1 + extra) b 0 = zstdBlocks (b.length + 1) b 0) ∧
      (∀ cut, (zstdPlanned b limit).cut = some cut → cut ≤ b.length ∧ zstdFramesEnd (b.take cut) = cut) ∧
      ∀ (total : Nat) (w : Walk),
        (∃ rest next, zstdFrameRest b = some rest ∧
          ∀ fuel, zstdWalk total limit (fuel + 1) b w = zstdWalk total limit fuel rest next) ∨
        ∃ plan, (∀ fuel, zstdWalk total limit (fuel + 1) b w = plan) ∧
          (plan.cut = none ∨ plan.cut = some (total - b.length)) ∧
          (zstdFrameRest b = none ∨ limit < (zstdDeclaredWindow b).getD 0 ∨
            w.history (zstdHistory ((zstdDeclaredWindow b).getD 0)) = none) := by
  refine ⟨zstdWalk?_eq .., ?_, fun extra => ?_, fun cut is => ?_, fun total w => zstdWalk_step total limit b w⟩
  · unfold zstdFramesEnd?
    rw [zstdFramesRest?_eq]
    rfl
  · have enough := Nat.lt_succ_self b.length
    exact ⟨zstdWalk_enough extra enough, zstdFramesRest_enough extra _ b enough, zstdBlocks_enough extra enough⟩
  · obtain ⟨frames, left, parts, place, framed⟩ := zstdWalk_cut is
    have length : cut = frames.length := by rw [place, parts, List.length_append]; omega
    have front : b.take cut = frames := by rw [parts, List.take_left' length.symm]
    refine ⟨by rw [length, parts, List.length_append]; omega, ?_⟩
    rw [front, zstdFramesEnd, framed _ (Nat.lt_succ_self _), length]
    rfl

end EdgeObserver.ContentCoding
