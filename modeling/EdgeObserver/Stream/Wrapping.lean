import EdgeObserver.Stream.Coverage

/-!
# Reassembly in 64 bits

The program adds offsets in 64 bits, and a sum past the last offset comes out
small. Here records are placed with those sums. A record that ends within the
offsets there are is placed as without them; one that does not adds at most a
hole up to its offset and, where they end within the offsets, its bytes.
-/

set_option autoImplicit false

namespace EdgeObserver.Stream.Wrapping

open Fragment

def sum (a b : Nat) : Nat := (a + b) % 2 ^ 64

def difference (a b : Nat) : Nat := (a + (2 ^ 64 - b)) % 2 ^ 64

def append (parts : List Part) (p : Part) : List Part :=
  if p.length = 0 then parts
  else
    match parts.getLast? with
    | none => parts ++ [p]
    | some last =>
      if p.gap ≠ .none ∧ last.gap = p.gap ∧ sum last.offset last.length = p.offset then
        parts.dropLast ++ [{ last with length := sum last.length p.length }]
      else parts ++ [p]

def agreesAt : List Part → Nat → Bytes → Bool
  | [], _, _ => true
  | p :: rest, offset, want =>
    if want = [] then true
    else if offset ≥ sum p.offset p.length ∨ offset < p.offset then agreesAt rest offset want
    else
      let within := difference offset p.offset
      let n := min want.length (difference p.length within)
      if p.gap = .none ∧ (p.bytes.drop within).take n ≠ want.take n then false
      else agreesAt rest (sum offset n) (want.drop n)

def finish (record : Record) : Nat := sum record.offset record.length.toNat

def keptEnd (record : Record) : Nat := sum record.offset record.payload.length

def hole (b : Building) (upTo : Nat) (gap : GapReason) : Building :=
  if upTo > b.next then
    { b with
      parts := append b.parts { offset := b.next, length := difference upTo b.next, gap }
      next := upTo }
  else b

def carry (b : Building) (record : Record) : Building :=
  if keptEnd record > b.next then
    let skip := difference b.next record.offset
    { b with
      parts := append b.parts
        { offset := b.next
          length := difference record.payload.length skip
          bytes := record.payload.drop skip }
      next := keptEnd record }
  else b

def overlap (b : Building) (record : Record) : Nat := difference (min b.next (keptEnd record)) record.offset

def agrees (b : Building) (record : Record) : Bool :=
  !(decide (record.offset < b.next) && decide (record.payload.length > 0) && decide (overlap b record > 0) &&
    !agreesAt b.parts record.offset (record.payload.take (overlap b record)))

def compare (b : Building) (record : Record) : Building :=
  if agrees b record then b
  else { b with
    conflicts := b.conflicts ++ [{ offset := record.offset, length := overlap b record }] }

def place (b : Building) (record : Record) : Building × Option Bool :=
  if finish record ≤ b.next then (compare b record, some (agrees b record))
  else
    (hole (carry (hole (compare b record) record.offset .missing) record) (finish record) .truncated, none)

def placeAll (b : Building) : List (Record × Nat) → Building × List Duplicate
  | [] => (b, [])
  | (record, index) :: rest =>
    let (b, placed) := place b record
    let (b, duplicates) := placeAll b rest
    match placed with
    | none => (b, duplicates)
    | some agrees =>
      (b, { index, offset := record.offset, length := record.length.toNat, agrees } :: duplicates)

def oneWithDuplicates (key : Key) : List (Record × Nat) → Assembled × List Duplicate
  | [] => ({ key }, [])
  | (record, index) :: rest =>
    let (b, duplicates) := placeAll { next := record.offset } ((record, index) :: rest)
    ({ key, parts := b.parts, start := record.offset, endsAt := b.next,
       conflicts := b.conflicts }, duplicates)

def assemble (records : List Record) : Result :=
  let assembled := (keys records).map (fun key => oneWithDuplicates key (held records key))
  { streams := assembled.map Prod.fst
    discards := records.zipIdx.filterMap (fun p =>
      match p.1.validate with
      | .ok () => none
      | .error err => some { index := p.2, err })
    duplicates := assembled.flatMap Prod.snd }

/-!
## Sums that stay within the offsets
-/

section Sums

variable {a c : Nat}

theorem sum_eq (fits : a + c ≤ maxUint64) : sum a c = a + c := by
  unfold maxUint64 at fits
  exact Nat.mod_eq_of_lt (by omega)

theorem sum_lt (low : a ≤ maxUint64) (short : c < 2 ^ 64) (past : maxUint64 < a + c) :
    sum a c < a := by
  unfold sum
  unfold maxUint64 at low past
  omega

theorem difference_eq (le : c ≤ a) (fits : a ≤ maxUint64) : difference a c = a - c := by
  unfold difference
  unfold maxUint64 at fits
  omega

variable {parts : List Part} {p : Part} {offset : Nat} {want : Bytes}

theorem append_eq (valid : ∀ each ∈ parts, each.Valid) (own : p.Valid) :
    append parts p = Stream.append parts p := by
  unfold append Stream.append
  split
  · rfl
  cases listed : parts.getLast? with
  | none => rfl
  | some last =>
    have reaches := (valid last (List.mem_of_getLast? listed)).reaches
    have ends := own.reaches
    dsimp only
    rw [sum_eq reaches]
    split
    · rename_i joins
      obtain ⟨_, _, meets⟩ := joins
      rw [sum_eq (by omega)]
    · rfl

theorem agreesAt_eq (valid : ∀ each ∈ parts, each.Valid) (fits : offset ≤ maxUint64) :
    agreesAt parts offset want = Stream.agreesAt parts offset want := by
  induction parts generalizing offset want with
  | nil => rfl
  | cons p rest ih =>
    have reaches := (valid p List.mem_cons_self).reaches
    have later := fun each member => valid each (List.mem_cons_of_mem p member)
    unfold agreesAt Stream.agreesAt
    rw [sum_eq reaches, ih later fits]
    split
    · rfl
    split
    · rfl
    rename_i inside
    have within : difference offset p.offset = offset - p.offset := difference_eq (by omega) fits
    have left : difference p.length (offset - p.offset) = p.length - (offset - p.offset) :=
      difference_eq (by omega) (by omega)
    dsimp only
    rw [within, left, sum_eq (by omega), ih later (by omega)]

end Sums

/-!
## Bytes that differ from those placed
-/

section Agreement

variable {start offset : Nat} {parts : List Part} {want : Bytes}

theorem cells_bytes_getElem? {p : Part} {i : Nat} {other : UInt8}
    (carried : p.cells[i]? = some (.byte other)) : p.gap = .none ∧ p.bytes[i]? = some other := by
  unfold Part.cells at carried
  split at carried
  · rename_i bytes
    rw [List.getElem?_map, Option.map_eq_some_iff] at carried
    obtain ⟨value, is, same⟩ := carried
    cases same
    exact ⟨bytes, is⟩
  · rw [List.getElem?_replicate] at carried
    split at carried <;> cases carried

theorem agreesAt_carried (tiled : Contiguous start parts) (begun : start ≤ offset)
    (agree : Stream.agreesAt parts offset want = true) {i : Nat} {value other : UInt8}
    (wanted : want[i]? = some value)
    (carried : (cellsOf parts)[offset - start + i]? = some (.byte other)) : value = other := by
  induction parts generalizing start offset want i with
  | nil => cases carried
  | cons p rest ih =>
    obtain ⟨valid, begins, tiled⟩ := tiled
    have length := Part.cells_length valid.toFormed
    have short := (List.getElem?_eq_some_iff.mp wanted).1
    unfold Stream.agreesAt at agree
    split at agree
    · rename_i empty
      simp [empty] at short
    rw [cellsOf_cons] at carried
    split at agree
    · rename_i outside
      rw [List.getElem?_append_right (by omega)] at carried
      refine ih tiled (by omega) agree wanted ?_
      rw [← carried]
      congr 1
      omega
    · rename_i inside
      dsimp only at agree
      split at agree
      · cases agree
      rename_i same
      by_cases here : offset - start + i < p.length
      · rw [List.getElem?_append_left (by omega)] at carried
        obtain ⟨bytes, is⟩ := cells_bytes_getElem? carried
        have equal : (p.bytes.drop (offset - p.offset)).take (min want.length (p.length - (offset - p.offset))) =
            want.take (min want.length (p.length - (offset - p.offset))) := by
          by_contra differ
          exact same ⟨bytes, differ⟩
        have both := congrArg (fun list => list[i]?) equal
        simp only [List.getElem?_take] at both
        rw [if_pos (by omega), if_pos (by omega), wanted, List.getElem?_drop, begins, is] at both
        exact (Option.some.inj both).symm
      · rw [List.getElem?_append_right (by omega)] at carried
        generalize taken : min want.length (p.length - (offset - p.offset)) = n at agree
        refine ih tiled (by omega) agree (i := i - n) ?_ ?_
        · rw [List.getElem?_drop, ← wanted]
          congr 1
          omega
        · rw [← carried]
          congr 1
          omega

end Agreement

/-!
## Placing one record
-/

theorem contiguous_valid {start : Nat} {parts : List Part} (tiled : Contiguous start parts) :
    ∀ p ∈ parts, p.Valid := by
  induction parts generalizing start with
  | nil => simp
  | cons first rest ih =>
    obtain ⟨valid, _, tiled⟩ := tiled
    intro p member
    cases member with
    | head => exact valid
    | tail _ later => exact ih tiled p later

structure Given (record : Record) : Prop where
  offset : record.offset ≤ maxUint64
  transferred : 0 < record.length.toNat
  kept : record.payload.length ≤ record.length.toNat

section Placement

variable {b : Building} {record : Record} {upTo start : Nat} {gap : GapReason} {content : Nat → Cell}

theorem Given.sound (given : Given record) (ends : record.finish ≤ maxUint64) : Sound record :=
  ⟨given.transferred, given.kept, ends⟩

theorem hole_eq (valid : ∀ p ∈ b.parts, p.Valid) (named : gap.named = true) (holed : gap ≠ .none)
    (fits : upTo ≤ maxUint64) : hole b upTo gap = b.hole upTo gap := by
  unfold hole Building.hole
  split
  · rename_i past
    have own : Part.Valid { offset := b.next, length := upTo - b.next, gap } := by
      refine ⟨⟨Nat.sub_pos_of_lt past, fun carried => absurd carried holed, fun _ => rfl⟩, named, ?_⟩
      dsimp only
      omega
    rw [difference_eq (Nat.le_of_lt past) fits, append_eq valid own, Building.add]
    dsimp only
    rw [Nat.add_sub_cancel' (Nat.le_of_lt past)]
  · rfl

theorem carry_eq (valid : ∀ p ∈ b.parts, p.Valid) (begun : record.offset ≤ b.next)
    (fits : record.offset + record.payload.length ≤ maxUint64) :
    carry b record = b.carry record := by
  unfold carry Building.carry keptEnd
  rw [sum_eq fits]
  split
  · rename_i past
    have own : Part.Valid
        { offset := b.next
          length := record.payload.length - (b.next - record.offset)
          bytes := record.payload.drop (b.next - record.offset) } := by
      refine ⟨⟨?_, fun _ => List.length_drop, fun holed => absurd rfl holed⟩, rfl, ?_⟩
      · dsimp only
        omega
      · dsimp only
        omega
    dsimp only
    rw [difference_eq begun (by omega), difference_eq (by omega) (by omega), append_eq valid own, Building.add]
    congr 1
    dsimp only
    omega
  · rfl

theorem carry_past (given : Given record) (begun : record.offset ≤ b.next)
    (past : maxUint64 < record.offset + record.payload.length) : carry b record = b := by
  have short : record.payload.length < 2 ^ 64 :=
    Nat.lt_of_le_of_lt given.kept (Nat.lt_trans record.length.toNat_lt (by decide))
  have small := sum_lt given.offset short past
  unfold carry keptEnd
  rw [if_neg (by omega)]

theorem overlap_eq (begun : record.offset < b.next) (fits : record.offset + record.payload.length ≤ maxUint64) :
    overlap b record = b.overlap record := by
  unfold overlap Building.overlap keptEnd
  rw [sum_eq fits, difference_eq (by omega) (by omega)]

theorem overlap_past (given : Given record) (begun : record.offset < b.next)
    (past : maxUint64 < record.offset + record.payload.length) :
    overlap b record = record.payload.length := by
  have short : record.payload.length < 2 ^ 32 := Nat.lt_of_le_of_lt given.kept record.length.toNat_lt
  have low := given.offset
  have small := sum_lt low (by omega) past
  have least : min b.next (keptEnd record) = keptEnd record := by
    unfold keptEnd
    omega
  unfold overlap
  rw [least]
  unfold keptEnd sum difference
  unfold maxUint64 at low past
  omega

theorem agrees_eq (valid : ∀ p ∈ b.parts, p.Valid) (fits : record.offset + record.payload.length ≤ maxUint64) :
    agrees b record = b.agrees record := by
  unfold agrees Building.agrees
  by_cases begun : record.offset < b.next
  · rw [overlap_eq begun fits, agreesAt_eq valid (by omega)]
  · simp [begun]

theorem compare_eq (valid : ∀ p ∈ b.parts, p.Valid) (fits : record.offset + record.payload.length ≤ maxUint64) :
    compare b record = b.compare record := by
  unfold compare Building.compare
  rw [agrees_eq valid fits]
  split
  · rfl
  rename_i differ
  have begun : record.offset < b.next := by
    by_contra late
    exact differ (by simp [Building.agrees, late])
  rw [overlap_eq begun fits]

theorem compare_kept (b : Building) (record : Record) :
    (compare b record).parts = b.parts ∧ (compare b record).next = b.next ∧
      ∀ conflict ∈ b.conflicts, conflict ∈ (compare b record).conflicts := by
  unfold compare
  split
  · exact ⟨rfl, rfl, fun _ member => member⟩
  · exact ⟨rfl, rfl, fun _ member => List.mem_append_left _ member⟩

@[simp] theorem hole_conflicts : (hole b upTo gap).conflicts = b.conflicts := by
  unfold hole
  split <;> rfl

@[simp] theorem carry_conflicts : (carry b record).conflicts = b.conflicts := by
  unfold carry
  split <;> rfl

theorem place_conflicts (b : Building) (record : Record) :
    (place b record).1.conflicts = (compare b record).conflicts := by
  unfold place
  split
  · rfl
  · simp only [hole_conflicts, carry_conflicts]

def Noted (conflicts : List Conflict) (x : Nat) : Prop :=
  ∃ conflict ∈ conflicts, conflict.offset ≤ x ∧ x < conflict.offset + conflict.length

theorem shared_lt (given : Given record) {i : Nat} {value : UInt8}
    (kept : record.payload[i]? = some value) (placed : record.offset + i < b.next) :
    i < overlap b record := by
  have short := (List.getElem?_eq_some_iff.mp kept).1
  by_cases ends : record.offset + record.payload.length ≤ maxUint64
  · rw [overlap_eq (by omega) ends, Building.overlap]
    omega
  · rw [overlap_past given (by omega) (by omega)]
    exact short

theorem compare_notes (carries : b.Carries start content) (begun : start ≤ record.offset)
    (given : Given record) {i : Nat} {value other : UInt8}
    (kept : record.payload[i]? = some value) (placed : record.offset + i < b.next)
    (carried : content (record.offset + i) = .byte other) (differ : value ≠ other) :
    Noted (compare b record).conflicts (record.offset + i) := by
  have short := (List.getElem?_eq_some_iff.mp kept).1
  have shared := shared_lt given kept placed
  have disagree : agrees b record = false := by
    cases agree : agrees b record with
    | false => rfl
    | true =>
      have same : agreesAt b.parts record.offset (record.payload.take (overlap b record)) = true := by
        simpa [agrees, show record.offset < b.next by omega,
          show 0 < record.payload.length by omega, show 0 < overlap b record by omega] using agree
      rw [agreesAt_eq (contiguous_valid carries.tiled) given.offset] at same
      refine absurd (agreesAt_carried carries.tiled begun same (i := i) ?_ ?_) differ
      · rw [List.getElem?_take, if_pos shared, kept]
      · rw [carries.cells, span_getElem? (by omega), ← carried]
        congr 2
        omega
  rw [compare, disagree]
  exact ⟨_, List.mem_append_right _ List.mem_cons_self, Nat.le_add_right _ _, by
    dsimp only
    omega⟩

structure Takes (b : Building) (record : Record) (start : Nat) (content : Nat → Cell)
    (b' : Building) : Prop where
  carries : b'.Carries start (Building.continued content b.next record)
  grows : b.next ≤ b'.next
  fits : b'.next ≤ maxUint64
  reached : b'.next = b.next ∨ b'.next ≤ record.finish
  passed : record.finish ≤ maxUint64 → record.finish ≤ b'.next

theorem place_eq (carries : b.Carries start content) (given : Given record)
    (ends : record.finish ≤ maxUint64) : place b record = b.place record := by
  have length : record.finish = record.offset + record.length.toNat := rfl
  have kept := given.kept
  have whole : finish record = record.finish := sum_eq ends
  have valid := contiguous_valid carries.tiled
  have compared := carries.compare record
  have before := compared.upTo given.offset
  have through := compared.through record (by omega)
  have begun : record.offset ≤ ((b.compare record).hole record.offset .missing).next := by
    rw [Building.hole_next]
    omega
  unfold place Building.place
  rw [compare_eq valid (by omega), agrees_eq valid (by omega), whole,
    hole_eq (contiguous_valid compared.tiled) rfl (by decide) given.offset,
    carry_eq (contiguous_valid before.tiled) begun (by omega),
    hole_eq (contiguous_valid through.tiled) rfl (by decide) ends]

theorem takes_sound (carries : b.Carries start content) (fits : b.next ≤ maxUint64)
    (given : Given record) (ends : record.finish ≤ maxUint64) :
    Takes b record start content (place b record).1 := by
  have sound := given.sound ends
  obtain ⟨parts, next⟩ := Building.compare_parts b record
  have compared := carries.compare record
  rw [place_eq carries given ends]
  unfold Building.place
  split
  · rename_i within
    refine ⟨?_, Nat.le_of_eq next.symm, next ▸ fits, .inl next, fun _ => next ▸ within⟩
    exact next ▸ compared.continued
  · rename_i past
    have after := compared.placed sound
    have reached := Building.placed_next (b := b.compare record) sound
    rw [next] at after reached
    dsimp only
    exact ⟨after, by omega, by omega, .inr (by omega), fun _ => by omega⟩

theorem takes_past (carries : b.Carries start content) (fits : b.next ≤ maxUint64)
    (given : Given record) (past : maxUint64 < record.finish) :
    Takes b record start content (place b record).1 := by
  have length : record.finish = record.offset + record.length.toNat := rfl
  have low := given.offset
  have kept := given.kept
  have small : finish record < record.offset := sum_lt low (Nat.lt_trans record.length.toNat_lt (by decide)) past
  obtain ⟨parts, next, _⟩ := compare_kept b record
  have compared : (compare b record).Carries start content :=
    ⟨parts ▸ carries.tiled, next ▸ carries.begins, parts ▸ next ▸ carries.cells⟩
  unfold place
  split
  · exact ⟨next ▸ compared.continued, Nat.le_of_eq next.symm, next ▸ fits, .inl next, by omega⟩
  rename_i past
  have before := compared.upTo low
  rw [hole_eq (contiguous_valid compared.tiled) rfl (by decide) low]
  have reached : ((compare b record).hole record.offset .missing).next = record.offset := by
    rw [Building.hole_next, next]
    omega
  have last : ∀ {c : Building}, record.offset ≤ c.next → hole c (finish record) .truncated = c := by
    intro c le
    unfold hole
    rw [if_neg (by omega)]
  by_cases ends : record.offset + record.payload.length ≤ maxUint64
  · have through := compared.through record ends
    rw [carry_eq (contiguous_valid before.tiled) (Nat.le_of_eq reached.symm) ends]
    have carried := Building.carry_next (b := (compare b record).hole record.offset .missing)
      (Nat.le_of_eq reached.symm)
    rw [last (by omega)]
    dsimp only
    exact ⟨next ▸ through, by omega, by omega, .inr (by omega), by omega⟩
  · rw [carry_past given (Nat.le_of_eq reached.symm) (by omega), last (by omega)]
    dsimp only
    exact ⟨next ▸ before, by omega, by omega, .inr (by omega), by omega⟩

theorem takes (carries : b.Carries start content) (fits : b.next ≤ maxUint64)
    (given : Given record) : Takes b record start content (place b record).1 := by
  by_cases ends : record.finish ≤ maxUint64
  · exact takes_sound carries fits given ends
  · exact takes_past carries fits given (by omega)

end Placement

/-!
## Placing records in turn
-/

/-- A stream as records stand in it. Up to the frontier every offset from the
last record's on is covered; a record that ends within the offsets has its bytes
where no earlier one covers them. A byte at an offset such a record covers, kept
by it or by one after it, is the one carried, or noted. -/
structure Stands (b : Building) (start : Nat) (done : List Record) (content : Nat → Cell) :
    Prop where
  carries : b.Carries start content
  fits : b.next ≤ maxUint64
  reached : b.next = start ∨ ∃ record ∈ done, b.next ≤ record.finish
  passed : ∀ record ∈ done, record.finish ≤ maxUint64 → start ≤ record.offset ∧ record.finish ≤ b.next
  kept : ∀ before record after, done = before ++ record :: after → record.finish ≤ maxUint64 →
    ∀ i value, record.payload[i]? = some value → content (record.offset + i) = .byte value ∨
      ∃ earlier ∈ before, Covers earlier (record.offset + i)
  noted : ∀ before record after, done = before ++ record :: after → ∀ i value other,
    record.payload[i]? = some value →
      (∃ each ∈ before ++ [record], each.finish ≤ maxUint64 ∧ Covers each (record.offset + i)) →
        content (record.offset + i) = .byte other → value ≠ other → Noted b.conflicts (record.offset + i)

section Run

variable {b : Building} {record : Record} {start : Nat} {content : Nat → Cell} {done : List Record}

theorem Noted.mono {conflicts more : List Conflict} {x : Nat} (noted : Noted conflicts x)
    (kept : ∀ conflict ∈ conflicts, conflict ∈ more) : Noted more x := by
  obtain ⟨conflict, member, covers⟩ := noted
  exact ⟨conflict, kept conflict member, covers⟩

theorem kept_covers (given : Given record) {i : Nat} {value : UInt8}
    (kept : record.payload[i]? = some value) : record.offset + i < record.finish := by
  have short := (List.getElem?_eq_some_iff.mp kept).1
  have := given.kept
  have : record.finish = record.offset + record.length.toNat := rfl
  omega

theorem continued_own {next i : Nat} {value : UInt8} (past : next ≤ record.offset + i)
    (kept : record.payload[i]? = some value) :
    Building.continued content next record (record.offset + i) = .byte value := by
  unfold Building.continued cellAt
  rw [if_neg (by omega), if_neg (by omega), Nat.add_sub_cancel_left, kept]

theorem split_concat {before after : List Record} {each : Record} (split : done ++ [record] = before ++ each :: after) :
    (done = before ∧ record = each) ∨ ∃ rest, done = before ++ each :: rest := by
  rcases List.eq_nil_or_concat after with rfl | ⟨rest, last, rfl⟩
  · obtain ⟨same, own⟩ := List.append_inj' split rfl
    exact .inl ⟨same, (List.cons.inj own).1⟩
  · rw [List.concat_eq_append, ← List.cons_append, ← List.append_assoc] at split
    exact .inr ⟨rest, (List.append_inj' split rfl).1⟩

theorem Stands.place (stands : Stands b start done content) (given : Given record)
    (begun : start ≤ record.offset) (all : ∀ each ∈ done, Given each)
    (ordered : ∀ earlier ∈ done, earlier.offset ≤ record.offset) :
    Stands (place b record).1 start (done ++ [record]) (Building.continued content b.next record) := by
  have taken := takes stands.carries stands.fits given
  have grows := taken.grows
  have conflicts : ∀ conflict ∈ b.conflicts, conflict ∈ (Wrapping.place b record).1.conflicts := by
    rw [place_conflicts]
    exact (compare_kept b record).2.2
  -- What a record that ends within the offsets covers is below the frontier, and stays.
  have old : ∀ each ∈ done, each.finish ≤ maxUint64 → ∀ x, Covers each x →
      x < b.next ∧ Building.continued content b.next record x = content x := by
    intro each member ends x covers
    have below := Nat.lt_of_lt_of_le covers.2 (stands.passed each member ends).2
    exact ⟨below, if_pos below⟩
  refine ⟨taken.carries, taken.fits, ?_, ?_, ?_, ?_⟩
  · rcases taken.reached with level | ends
    · rw [level]
      refine stands.reached.imp_right fun ⟨each, member, le⟩ => ?_
      exact ⟨each, List.mem_append_left _ member, le⟩
    · exact .inr ⟨record, List.mem_append_right _ List.mem_cons_self, ends⟩
  · intro each member ends
    rcases List.mem_append.mp member with earlier | new
    · have := stands.passed each earlier ends
      omega
    · cases List.mem_singleton.mp new
      exact ⟨begun, taken.passed ends⟩
  · intro before each after split ends i value kept
    rcases split_concat split with ⟨rfl, rfl⟩ | ⟨after, rfl⟩
    · by_cases past : b.next ≤ record.offset + i
      · exact .inl (continued_own past kept)
      -- The frontier is past it, and the record that reached it comes no later.
      rcases stands.reached with level | ⟨earlier, member, reaches⟩
      · omega
      · have := ordered earlier member
        exact .inr ⟨earlier, member, by omega, by omega⟩
    · have own : each ∈ before ++ each :: after := by simp
      rw [(old each own ends _ ⟨Nat.le_add_right _ _, kept_covers (all each own) kept⟩).2]
      exact stands.kept before each after rfl ends i value kept
  · intro before each after split i value other kept reached carried differ
    obtain ⟨by_, among, ends, covers⟩ := reached
    rcases split_concat split with ⟨rfl, rfl⟩ | ⟨after, rfl⟩
    · rw [place_conflicts]
      by_cases past : b.next ≤ record.offset + i
      · rw [continued_own past kept] at carried
        cases carried
        exact absurd rfl differ
      · rw [Building.continued, if_pos (by omega)] at carried
        exact compare_notes stands.carries begun given kept (by omega) carried differ
    · have own : by_ ∈ before ++ each :: after := by
        rcases List.mem_append.mp among with earlier | same
        · exact List.mem_append_left _ earlier
        · rw [List.mem_singleton.mp same]
          simp
      rw [(old by_ own ends _ covers).2] at carried
      exact (stands.noted before each after rfl i value other kept ⟨by_, among, ends, covers⟩
        carried differ).mono conflicts

theorem concat_before {index : Nat} {rest : List (Record × Nat)}
    (after : ∀ earlier ∈ done, ∀ each ∈ (record, index) :: rest, earlier.offset ≤ each.1.offset)
    (later : ∀ each ∈ rest, record.offset ≤ each.1.offset) :
    ∀ earlier ∈ done ++ [record], ∀ each ∈ rest, earlier.offset ≤ each.1.offset := by
  intro earlier member each among
  rcases List.mem_append.mp member with old | new
  · exact after earlier old each (List.mem_cons_of_mem _ among)
  · cases List.mem_singleton.mp new
    exact later each among

theorem Stands.placeAll {held : List (Record × Nat)} (stands : Stands b start done content)
    (given : ∀ each ∈ done ++ held.map Prod.fst, Given each)
    (begun : ∀ each ∈ held, start ≤ each.1.offset)
    (after : ∀ earlier ∈ done, ∀ each ∈ held, earlier.offset ≤ each.1.offset)
    (ordered : held.Pairwise (fun a c => a.1.offset ≤ c.1.offset)) :
    ∃ content, Stands (placeAll b held).1 start (done ++ held.map Prod.fst) content := by
  induction held generalizing b done content with
  | nil => exact ⟨content, by simpa [Wrapping.placeAll] using stands⟩
  | cons first rest ih =>
    obtain ⟨record, index⟩ := first
    obtain ⟨later, ordered⟩ := List.pairwise_cons.mp ordered
    rw [List.map_cons, List.append_cons] at given ⊢
    have next := stands.place (given record (by simp)) (begun _ List.mem_cons_self)
      (fun each member => given each (by simp [member]))
      (fun earlier member => after earlier member _ List.mem_cons_self)
    obtain ⟨content, whole⟩ := ih next given (fun each member => begun each (List.mem_cons_of_mem _ member))
      (concat_before after later) ordered
    refine ⟨content, ?_⟩
    simp only [Wrapping.placeAll]
    split <;> exact whole

end Run

/-!
## Whole streams
-/

def cellOf (stream : Assembled) (x : Nat) : Option Cell :=
  if x < stream.start then none else (cellsOf stream.parts)[x - stream.start]?

def Keeps (record : Record) (x : Nat) (value : UInt8) : Prop :=
  record.offset ≤ x ∧ record.payload[x - record.offset]? = some value

instance (record : Record) (x : Nat) (value : UInt8) : Decidable (Keeps record x value) :=
  inferInstanceAs (Decidable (_ ∧ _))

section Streams

variable {records : List Record} {key : Key}

theorem given_of_valid {record : Record} (valid : record.validate = .ok ())
    (fits : record.offset ≤ maxUint64) : Given record := by
  -- Where the offsets are is no part of the checks.
  have same : Record.validate { record with offset := 0 } = .ok () := valid
  have sound := sound_of_valid same (by
    have := record.length.toNat_lt
    simp only [Record.finish, maxUint64]
    omega)
  exact ⟨fits, sound.transferred, sound.kept⟩

theorem mem_held {each : Record × Nat} : each ∈ held records key ↔
    each ∈ records.zipIdx ∧ each.1.validate = .ok () ∧ streamOf each.1 = key := by
  rw [(held_perm records key).mem_iff, List.mem_filter, usable, List.mem_filter, and_assoc]
  refine and_congr_right fun _ => and_congr ?_ (by simp)
  cases each.1.validate with
  | ok | error => simp [Except.isOk, Except.toBool]

theorem mem_keys : key ∈ keys records ↔ held records key ≠ [] := by
  rw [keys, (List.perm_insertionSort _ _).mem_iff, List.mem_dedup, List.mem_map]
  have listed : ∀ each, each ∈ held records key ↔ each ∈ usable records ∧ streamOf each.1 = key := by
    intro each
    rw [(held_perm records key).mem_iff, List.mem_filter, decide_eq_true_iff]
  constructor
  · rintro ⟨each, member, own⟩
    exact List.ne_nil_of_mem ((listed each).mpr ⟨member, own⟩)
  · intro some_
    obtain ⟨each, member⟩ := List.exists_mem_of_ne_nil _ some_
    exact ⟨each, (listed each).mp member⟩

theorem held_before {own each : Record × Nat} {before after : List (Record × Nat)}
    (split : held records key = before ++ own :: after) (earlier : each ∈ before) :
    Precedes each own := by
  refine precedes_of_before (fun each member => (mem_held.mp member).1) ?_ held_sorted split earlier
  exact (held_perm records key).nodup_iff.mpr ((zipIdx_nodup.filter _).filter _)

theorem held_given (offsets : ∀ record ∈ records, record.offset ≤ maxUint64) :
    ∀ each ∈ (held records key).map Prod.fst, Given each := by
  intro record member
  obtain ⟨each, listed, rfl⟩ := List.mem_map.mp member
  obtain ⟨among, valid, _⟩ := mem_held.mp listed
  exact given_of_valid valid (offsets _ (List.fst_mem_of_mem_zipIdx among))

theorem stands_nil {start : Nat} (low : start ≤ maxUint64) :
    Stands { next := start } start [] (fun _ => .hole .missing) :=
  ⟨⟨trivial, Nat.le_refl _, by simp [cellsOf, span]⟩, low, .inl rfl, by simp, by simp, by simp⟩

theorem first_least {first : Record × Nat} {rest : List (Record × Nat)}
    (ordered : (first :: rest).Pairwise (fun a c => a.1.offset ≤ c.1.offset)) :
    ∀ each ∈ first :: rest, first.1.offset ≤ each.1.offset := by
  intro each member
  rcases List.mem_cons.mp member with same | later
  · rw [same]
  · exact (List.pairwise_cons.mp ordered).1 each later

theorem stream_stands (offsets : ∀ record ∈ records, record.offset ≤ maxUint64) (some_ : held records key ≠ []) :
    ∃ b content, Stands b (oneWithDuplicates key (held records key)).1.start ((held records key).map Prod.fst) content ∧
      (oneWithDuplicates key (held records key)).1.parts = b.parts ∧
      (oneWithDuplicates key (held records key)).1.conflicts = b.conflicts ∧
      (oneWithDuplicates key (held records key)).1.key = key := by
  have given : ∀ each ∈ (held records key).map Prod.fst, Given each := held_given offsets
  have ordered : (held records key).Pairwise (fun a c => a.1.offset ≤ c.1.offset) := held_sorted.imp rank_offset
  generalize held records key = sorted at some_ given ordered
  cases sorted with
  | nil => exact absurd rfl some_
  | cons first rest =>
    obtain ⟨record, index⟩ := first
    have begun := stands_nil (given record List.mem_cons_self).offset
    obtain ⟨content, stands⟩ : ∃ content,
        Stands (placeAll { next := record.offset } ((record, index) :: rest)).1 record.offset
          (((record, index) :: rest).map Prod.fst) content :=
      begun.placeAll given (first_least ordered) (by simp) ordered
    exact ⟨_, content, stands, rfl, rfl, rfl⟩

theorem Stands.cellOf {b : Building} {done : List Record} {content : Nat → Cell}
    {stream : Assembled} (stands : Stands b stream.start done content)
    (parts : stream.parts = b.parts) {x : Nat} (low : stream.start ≤ x) :
    cellOf stream x = if x < b.next then some (content x) else none := by
  have begins := stands.carries.begins
  rw [Wrapping.cellOf, if_neg (Nat.not_lt.mpr low), parts, stands.carries.cells]
  by_cases placed : x < b.next
  · rw [if_pos placed, span_getElem? (by omega), Nat.add_sub_cancel' low]
  · rw [if_neg placed]
    exact List.getElem?_eq_none (by rw [span_length]; omega)

theorem mem_streams {stream : Assembled} : stream ∈ (assemble records).streams ↔
    ∃ key, held records key ≠ [] ∧ (oneWithDuplicates key (held records key)).1 = stream := by
  simp only [assemble, List.map_map, List.mem_map, Function.comp, mem_keys]

theorem split_held {own : Record × Nat} (member : own ∈ held records key) :
    ∃ before after, held records key = before ++ own :: after ∧
      (held records key).map Prod.fst = before.map Prod.fst ++ own.1 :: after.map Prod.fst := by
  obtain ⟨before, after, split⟩ := List.append_of_mem member
  exact ⟨before, after, split, by rw [split]; simp⟩

end Streams

/-- Where the stream carries a byte at an offset two records keep different bytes
of, a conflict covers the offset, unless the earlier of the two ends past the
last offset; so without conflicts the stream carries no byte but the one a record
kept, for each record that ends within the offsets. -/
theorem assemble_notes (key : Key) (records : List Record) (valid : ∀ record ∈ records, record.validate = .ok ())
    (one : ∀ record ∈ records, streamOf record = key)
    (offsets : ∀ record ∈ records, record.offset ≤ maxUint64) (some_ : records ≠ []) :
    ∃ stream, (assemble records).streams = [stream] ∧ stream.key = key ∧
      (∀ first ∈ records.zipIdx, ∀ second ∈ records.zipIdx, Precedes first second →
        first.1.finish ≤ maxUint64 → ∀ x value other, Keeps first.1 x value →
          Keeps second.1 x other → value ≠ other → ∀ carried,
            cellOf stream x = some (.byte carried) → Noted stream.conflicts x) ∧
      (stream.conflicts = [] → ∀ record ∈ records, record.finish ≤ maxUint64 →
        ∀ x value carried, Keeps record x value → cellOf stream x = some (.byte carried) → carried = value) := by
  have all := held_all valid one
  have listed : held records key ≠ [] := by
    intro empty
    rw [empty] at all
    simpa using some_ (by simpa using all.perm.length_eq.symm)
  obtain ⟨b, content, stands, parts, conflicts, is⟩ := stream_stands offsets listed
  -- A byte kept at an offset a record no later covers within the offsets.
  have noted : ∀ own ∈ records.zipIdx, ∀ each ∈ records.zipIdx, each = own ∨ Precedes each own →
      each.1.finish ≤ maxUint64 → ∀ x value carried, Covers each.1 x → Keeps own.1 x value →
        cellOf (oneWithDuplicates key (held records key)).1 x = some (.byte carried) →
          value ≠ carried → Noted b.conflicts x := by
    rintro own member each among order ends x value carried covers ⟨low, kept⟩ has differ
    obtain ⟨before, after, split, firsts⟩ := split_held (all.mem.mpr member)
    obtain ⟨i, rfl⟩ := Nat.exists_eq_add_of_le low
    rw [Nat.add_sub_cancel_left] at kept
    obtain ⟨begun, passed⟩ := stands.passed each.1 (List.mem_map_of_mem (all.mem.mpr among)) ends
    have covered := covers
    obtain ⟨from_, upTo⟩ := covers
    rw [stands.cellOf parts (by omega), if_pos (by omega)] at has
    refine stands.noted _ _ _ firsts i value carried kept ⟨each.1, ?_, ends, covered⟩ (Option.some.inj has) differ
    rcases order with rfl | earlier
    · simp
    · have inside := (all.before_iff split (all.mem.mpr among)).mpr earlier
      exact List.mem_append_left _ (List.mem_map_of_mem inside)
  have reach : ∀ record ∈ records, ∀ x value, Keeps record x value → Covers record x := by
    rintro record member x value ⟨low, kept⟩
    have below := kept_covers (given_of_valid (valid record member) (offsets record member)) kept
    exact ⟨low, by omega⟩
  refine ⟨_, ?_, is, ?_, ?_⟩
  · simp only [assemble, keys_one valid one some_, List.map_cons, List.map_nil]
  · intro first member second other_ order ends x value other keeps keeps' differ carried has
    rw [conflicts]
    have covers := reach _ (List.fst_mem_of_mem_zipIdx member) x value keeps
    by_cases same : value = carried
    · exact noted second other_ first member (.inr order) ends x other carried covers keeps' has
        (fun equal => differ (same.trans equal.symm))
    · exact noted first member first member (.inl rfl) ends x value carried covers keeps has same
  · intro none_ record member ends x value carried keeps has
    by_contra differ
    obtain ⟨index, place⟩ := List.getElem?_of_mem member
    have own : (record, index) ∈ records.zipIdx := List.mem_zipIdx_iff_getElem?.mpr place
    obtain ⟨conflict, inside, _⟩ := noted _ own _ own (.inl rfl) ends x value carried
      (reach record member x value keeps) keeps has (fun equal => differ equal.symm)
    rw [← conflicts, none_] at inside
    cases inside

/-- Two records that differ where a third, before them, kept nothing; and two
that differ where the first ends past the last offset. Neither is a conflict. -/
theorem assemble_notes_not :
    let short := [sentRecord 1 0 2 [65], sentRecord 2 1 1 [66], sentRecord 3 1 1 [67]]
    let past := [sentRecord 1 (2 ^ 64 - 8) 8 [65], sentRecord 2 (2 ^ 64 - 8) 1 [66]]
    ((∀ record ∈ short, record.validate = .ok () ∧ streamOf record = streamOf (sentRecord 1 0 2 [65])) ∧
      Keeps (sentRecord 2 1 1 [66]) 1 66 ∧ Keeps (sentRecord 3 1 1 [67]) 1 67 ∧
      (assemble short).streams.map (·.conflicts) = [[]]) ∧
    (∀ record ∈ past, record.validate = .ok () ∧ streamOf record = streamOf (sentRecord 1 0 2 [65])) ∧
      Keeps (sentRecord 1 (2 ^ 64 - 8) 8 [65]) (2 ^ 64 - 8) 65 ∧
      Keeps (sentRecord 2 (2 ^ 64 - 8) 1 [66]) (2 ^ 64 - 8) 66 ∧
      (assemble past).streams.map (fun stream => (stream.conflicts, cellOf stream (2 ^ 64 - 8))) =
        [([], some (.byte 66))] := by
  decide +kernel

/-- A byte kept twice, once otherwise. -/
theorem assemble_notes_retransmitted :
    let records := [sentRecord 1 0 2 [65, 66], sentRecord 2 1 1 [67]]
    Keeps (sentRecord 1 0 2 [65, 66]) 1 66 ∧ Keeps (sentRecord 2 1 1 [67]) 1 67 ∧
      ∃ stream, (assemble records).streams = [stream] ∧ Noted stream.conflicts 1 := by
  intro records
  refine ⟨by decide, by decide, ?_⟩
  obtain ⟨stream, streams, _, noted, _⟩ := assemble_notes (streamOf (sentRecord 1 0 2 [65, 66]))
    records (by decide +kernel) (by decide +kernel) (by decide +kernel) (by decide)
  have has : (assemble records).streams.map (fun stream => cellOf stream 1) = [some (.byte 66)] := by
    decide +kernel
  rw [streams] at has
  refine ⟨stream, streams, ?_⟩
  exact noted (sentRecord 1 0 2 [65, 66], 0) (by simp [records]) (sentRecord 2 1 1 [67], 1)
    (by simp [records]) (by decide) (by decide +kernel) 1 66 67 (by decide) (by decide)
    (by decide) 66 (List.cons.inj has).1

end EdgeObserver.Stream.Wrapping
