import EdgeObserver.Stream.Assemble
import EdgeObserver.Stream.Cell

/-!
# First coverage

What a reassembled stream carries at each offset is what the first record that
covers the offset has there. Records are placed in order of their offsets, so
everything from a record's offset up to the frontier was covered before it, and
nothing past the frontier was.
-/

set_option autoImplicit false

namespace EdgeObserver.Stream

open Fragment

def span (content : Nat → Cell) (offset length : Nat) : List Cell := (List.range' offset length).map content

section Span

variable {content other : Nat → Cell} {offset length : Nat}

@[simp] theorem span_length : (span content offset length).length = length := by simp [span]

theorem span_add (more : Nat) :
    span content offset (length + more) = span content offset length ++ span content (offset + length) more := by
  rw [span, ← List.range'_append_1, List.map_append]
  rfl

theorem span_congr (same : ∀ x, offset ≤ x → x < offset + length → content x = other x) :
    span content offset length = span other offset length := by
  refine List.map_congr_left fun x member => ?_
  obtain ⟨low, high⟩ := List.mem_range'_1.mp member
  exact same x low high

theorem span_getElem? {i : Nat} (within : i < length) :
    (span content offset length)[i]? = some (content (offset + i)) := by
  simp [span, within]

end Span

namespace Part

theorem cells_hole {p : Part} {content : Nat → Cell} (holed : p.gap ≠ .none)
    (same : ∀ x, p.offset ≤ x → x < p.offset + p.length → content x = .hole p.gap) :
    p.cells = span content p.offset p.length := by
  rw [cells, if_neg holed, span_congr same, span, List.map_const', List.length_range']

theorem cells_bytes {p : Part} {content : Nat → Cell} (carried : p.gap = .none) (length : p.bytes.length = p.length)
    (same : ∀ i value, p.bytes[i]? = some value → content (p.offset + i) = .byte value) :
    p.cells = span content p.offset p.length := by
  rw [cells, if_pos carried]
  refine List.ext_getElem? fun i => ?_
  by_cases within : i < p.length
  · obtain ⟨value, is⟩ : ∃ value, p.bytes[i]? = some value := ⟨_, List.getElem?_eq_getElem (length ▸ within)⟩
    rw [span_getElem? within, List.getElem?_map, is, same i value is]
    rfl
  · rw [List.getElem?_eq_none, List.getElem?_eq_none]
    · simpa using within
    · simpa [length] using within

end Part

section Tiling

variable {start : Nat} {parts : List Part} {p last : Part}

theorem contiguous_concat :
    Contiguous start (parts ++ [p]) ↔ Contiguous start parts ∧ p.Valid ∧ p.offset = start + (cellsOf parts).length := by
  induction parts generalizing start with
  | nil => simp [Contiguous, cellsOf]
  | cons first rest ih =>
    simp only [List.cons_append, Contiguous, ih, cellsOf_cons, List.length_append]
    constructor
    · rintro ⟨valid, begins, tiled, whole, offset⟩
      rw [Part.cells_length valid.toFormed]
      exact ⟨⟨valid, begins, tiled⟩, whole, by omega⟩
    · rintro ⟨⟨valid, begins, tiled⟩, whole, offset⟩
      rw [Part.cells_length valid.toFormed] at offset
      exact ⟨valid, begins, tiled, whole, by omega⟩

theorem cellsOf_concat : cellsOf (parts ++ [p]) = cellsOf parts ++ p.cells := by
  simp [cellsOf]

theorem append_tiles (tiled : Contiguous start parts) (valid : p.Valid)
    (offset : p.offset = start + (cellsOf parts).length) :
    Contiguous start (append parts p) ∧ cellsOf (append parts p) = cellsOf parts ++ p.cells := by
  have alone : Contiguous start (parts ++ [p]) ∧ cellsOf (parts ++ [p]) = cellsOf parts ++ p.cells :=
    ⟨contiguous_concat.mpr ⟨tiled, valid, offset⟩, cellsOf_concat⟩
  unfold append
  rw [if_neg (Nat.ne_of_gt valid.covers)]
  cases listed : parts.getLast? with
  | none => exact alone
  | some last =>
    dsimp only
    split
    · rename_i joins
      obtain ⟨holed, gap, meets⟩ := joins
      have split : parts = parts.dropLast ++ [last] := (List.dropLast_append_getLast? _ listed).symm
      obtain ⟨before, whole, begins⟩ := contiguous_concat.mp (split ▸ tiled)
      have last_holed : last.gap ≠ .none := gap ▸ holed
      refine ⟨contiguous_concat.mpr ⟨before, ?_, begins⟩, ?_⟩
      · refine ⟨⟨?_, ?_, ?_⟩, whole.named, ?_⟩
        · exact Nat.add_pos_left whole.covers _
        · exact fun carried => absurd carried last_holed
        · exact fun _ => whole.holed last_holed
        · have := valid.reaches
          dsimp only
          omega
      · rw [cellsOf_concat]
        conv_rhs => rw [split, cellsOf_concat]
        simp only [Part.cells, if_neg holed, gap, List.append_assoc, ← List.replicate_add]
    · exact alone

end Tiling

def Covers (record : Record) (x : Nat) : Prop := record.offset ≤ x ∧ x < record.finish

instance (record : Record) (x : Nat) : Decidable (Covers record x) := inferInstanceAs (Decidable (_ ∧ _))

def cellAt (record : Record) (x : Nat) : Cell :=
  match record.payload[x - record.offset]? with
  | some value => .byte value
  | none => .hole .truncated

def firstCell (records : List Record) (x : Nat) : Cell :=
  match records.find? (fun record => Covers record x) with
  | some record => cellAt record x
  | none => .hole .missing

structure Sound (record : Record) : Prop where
  transferred : 0 < record.length.toNat
  kept : record.payload.length ≤ record.length.toNat
  ends : record.finish ≤ maxUint64

section First

variable {done : List Record} {record : Record} {x : Nat}

theorem firstCell_uncovered (uncovered : ∀ earlier ∈ done, ¬ Covers earlier x) :
    firstCell done x = .hole .missing := by
  have none_ : done.find? (fun earlier => Covers earlier x) = none := by
    simpa using uncovered
  rw [firstCell, none_]

theorem firstCell_old (old : Covers record x → ∃ earlier ∈ done, Covers earlier x) :
    firstCell (done ++ [record]) x = firstCell done x := by
  unfold firstCell
  rw [List.find?_append]
  cases found : done.find? (fun earlier => Covers earlier x) with
  | some earlier => rfl
  | none =>
    have other : ¬ Covers record x := by
      intro covers
      obtain ⟨earlier, member, same⟩ := old covers
      simpa [same] using List.find?_eq_none.mp found earlier member
    simp [other]

theorem firstCell_new (uncovered : ∀ earlier ∈ done, ¬ Covers earlier x)
    (covers : Covers record x) : firstCell (done ++ [record]) x = cellAt record x := by
  have none_ : done.find? (fun earlier => Covers earlier x) = none := by
    simpa using uncovered
  simp [firstCell, List.find?_append, none_, covers]

end First

namespace Building

structure Carries (b : Building) (start : Nat) (content : Nat → Cell) : Prop where
  tiled : Contiguous start b.parts
  begins : start ≤ b.next
  cells : cellsOf b.parts = span content start (b.next - start)

structure Placed (b : Building) (start : Nat) (done : List Record) : Prop where
  carries : b.Carries start (firstCell done)
  within : ∀ record ∈ done, start ≤ record.offset ∧ record.finish ≤ b.next
  reached : (done = [] ∧ b.next = start) ∨ ∃ record ∈ done, record.finish = b.next

variable {b : Building} {start : Nat} {content : Nat → Cell} {done : List Record}
variable {record : Record}

theorem Carries.add (carries : b.Carries start content) {p : Part} (valid : p.Valid)
    (offset : p.offset = b.next) (cells : p.cells = span content p.offset p.length) :
    (b.add p).Carries start content := by
  have begins := carries.begins
  have meets : p.offset = start + (cellsOf b.parts).length := by
    rw [carries.cells, span_length, offset]
    omega
  obtain ⟨tiled, joined⟩ := append_tiles carries.tiled valid meets
  refine ⟨tiled, Nat.le_trans begins (Nat.le_add_right _ _), ?_⟩
  have longer : b.next + p.length - start = (b.next - start) + p.length := by omega
  have at_ : start + (b.next - start) = p.offset := by omega
  simp only [Building.add]
  rw [joined, carries.cells, cells, longer, span_add, at_]

theorem Carries.hole (carries : b.Carries start content) {upTo : Nat} {gap : GapReason}
    (holed : gap ≠ .none) (named : gap.named = true) (fits : upTo ≤ maxUint64)
    (same : ∀ x, b.next ≤ x → x < upTo → content x = .hole gap) :
    (b.hole upTo gap).Carries start content := by
  unfold Building.hole
  split
  · rename_i past
    refine carries.add ⟨⟨Nat.sub_pos_of_lt past, fun carried => absurd carried holed,
      fun _ => rfl⟩, named, ?_⟩ rfl (Part.cells_hole holed fun x low high => ?_)
    · dsimp only
      omega
    · dsimp only at low high
      exact same x low (by omega)
  · exact carries

theorem Carries.carry (carries : b.Carries start content) (begun : record.offset ≤ b.next)
    (fits : record.offset + record.payload.length ≤ maxUint64)
    (same : ∀ x value, b.next ≤ x → record.payload[x - record.offset]? = some value → content x = .byte value) :
    (b.carry record).Carries start content := by
  unfold Building.carry
  split
  · rename_i past
    refine carries.add ⟨⟨?_, ?_, ?_⟩, rfl, ?_⟩ rfl (Part.cells_bytes rfl ?_ ?_)
    · dsimp only
      omega
    · intro _
      exact List.length_drop
    · exact fun holed => absurd rfl holed
    · dsimp only
      omega
    · exact List.length_drop
    · intro i value is
      dsimp only at is ⊢
      rw [List.getElem?_drop] at is
      refine same _ value (Nat.le_add_right _ _) ?_
      rw [← is]
      congr 1
      omega
  · exact carries

theorem hole_next {upTo : Nat} {gap : GapReason} : (b.hole upTo gap).next = max b.next upTo := by
  unfold Building.hole
  split
  · simp only [Building.add]
    omega
  · omega

theorem carry_next (begun : record.offset ≤ b.next) :
    (b.carry record).next = max b.next (record.offset + record.payload.length) := by
  unfold Building.carry
  split
  · simp only [Building.add]
    omega
  · omega

theorem compare_parts (b : Building) (record : Record) : (b.compare record).parts = b.parts ∧ (b.compare record).next = b.next := by
  unfold Building.compare
  split <;> exact ⟨rfl, rfl⟩

/-- What the offsets carry with a record placed: those placed before keep theirs,
the others are a hole up to the record and then what it has. -/
def continued (content : Nat → Cell) (next : Nat) (record : Record) (x : Nat) : Cell :=
  if x < next then content x else if x < record.offset then .hole .missing else cellAt record x

section Continued

variable {other : Nat → Cell}

theorem Carries.congr (carries : b.Carries start content)
    (same : ∀ x, start ≤ x → x < b.next → content x = other x) : b.Carries start other := by
  have begins := carries.begins
  refine ⟨carries.tiled, begins, carries.cells.trans (span_congr fun x low high => ?_)⟩
  exact same x low (by omega)

theorem Carries.compare (carries : b.Carries start content) (record : Record) :
    (b.compare record).Carries start content := by
  obtain ⟨parts, next⟩ := compare_parts b record
  exact ⟨parts ▸ carries.tiled, next ▸ carries.begins, parts ▸ next ▸ carries.cells⟩

theorem Carries.continued (carries : b.Carries start content) : b.Carries start (continued content b.next record) :=
  carries.congr fun _ _ high => (if_pos high).symm

theorem Carries.upTo (carries : b.Carries start content) (fits : record.offset ≤ maxUint64) :
    (b.hole record.offset .missing).Carries start (Building.continued content b.next record) :=
  carries.continued.hole (by decide) rfl fits fun x past short => by
    rw [Building.continued, if_neg (Nat.not_lt.mpr past), if_pos short]

theorem Carries.through (carries : b.Carries start content) (record : Record)
    (fits : record.offset + record.payload.length ≤ maxUint64) :
    ((b.hole record.offset .missing).carry record).Carries start (Building.continued content b.next record) := by
  have reached : (b.hole record.offset .missing).next = max b.next record.offset := hole_next
  refine (carries.upTo (by omega)).carry (by omega) fits fun x value past is => ?_
  rw [Building.continued, if_neg (by omega), if_neg (by omega), cellAt, is]

theorem Carries.placed (carries : b.Carries start content) (sound : Sound record) :
    (((b.hole record.offset .missing).carry record).hole record.finish .truncated).Carries start
      (Building.continued content b.next record) := by
  have length : record.finish = record.offset + record.length.toNat := rfl
  have kept := sound.kept
  have ends := sound.ends
  have reached : (b.hole record.offset .missing).next = max b.next record.offset := hole_next
  have reached' : ((b.hole record.offset .missing).carry record).next =
      max (b.hole record.offset .missing).next (record.offset + record.payload.length) :=
    carry_next (by omega)
  refine (carries.through record (by omega)).hole (by decide) rfl ends fun x past short => ?_
  have none_ : record.payload[x - record.offset]? = none := by
    rw [List.getElem?_eq_none_iff]
    omega
  rw [Building.continued, if_neg (by omega), if_neg (by omega), cellAt, none_]

theorem placed_next (sound : Sound record) :
    (((b.hole record.offset .missing).carry record).hole record.finish .truncated).next = max b.next record.finish := by
  have length : record.finish = record.offset + record.length.toNat := rfl
  have kept := sound.kept
  have reached : (b.hole record.offset .missing).next = max b.next record.offset := hole_next
  rw [hole_next, carry_next (by omega)]
  omega

end Continued

theorem Placed.covered (placed : b.Placed start done) (begun : start ≤ record.offset)
    (ordered : ∀ earlier ∈ done, earlier.offset ≤ record.offset) {x : Nat}
    (low : record.offset ≤ x) (high : x < b.next) : ∃ earlier ∈ done, Covers earlier x := by
  rcases placed.reached with ⟨_, level⟩ | ⟨earlier, member, reaches⟩
  · omega
  · exact ⟨earlier, member, Nat.le_trans (ordered earlier member) low, reaches ▸ high⟩

theorem Placed.uncovered (placed : b.Placed start done) {x : Nat} (past : b.next ≤ x) :
    ∀ earlier ∈ done, ¬ Covers earlier x := by
  intro earlier member covers
  have := (placed.within earlier member).2
  have := covers.2
  omega

theorem Placed.within_concat (placed : b.Placed start done) (begun : start ≤ record.offset)
    {next : Nat} (longer : b.next ≤ next) (reaches : record.finish ≤ next) :
    ∀ each ∈ done ++ [record], start ≤ each.offset ∧ each.finish ≤ next := by
  intro each member
  rcases List.mem_append.mp member with earlier | new
  · exact ⟨(placed.within each earlier).1, Nat.le_trans (placed.within each earlier).2 longer⟩
  · cases List.mem_singleton.mp new
    exact ⟨begun, reaches⟩

theorem Placed.duplicate_iff (placed : b.Placed start done) (begun : start ≤ record.offset)
    (ordered : ∀ earlier ∈ done, earlier.offset ≤ record.offset) (sound : Sound record) :
    (b.place record).2.isSome = true ↔ ∀ x, Covers record x → ∃ earlier ∈ done, Covers earlier x := by
  have length : record.finish = record.offset + record.length.toNat := rfl
  have some_ := sound.transferred
  unfold Building.place
  by_cases within : record.finish ≤ b.next
  · rw [if_pos within]
    refine ⟨fun _ x covers => ?_, fun _ => rfl⟩
    exact placed.covered begun ordered covers.1 (Nat.lt_of_lt_of_le covers.2 within)
  · rw [if_neg within]
    refine ⟨fun none_ => absurd none_ (by simp), fun redundant => ?_⟩
    -- Its last offset is past the frontier.
    obtain ⟨earlier, member, covers⟩ := redundant (record.finish - 1) ⟨by omega, by omega⟩
    exact absurd covers (placed.uncovered (by omega) earlier member)

theorem Placed.place (placed : b.Placed start done) (begun : start ≤ record.offset)
    (ordered : ∀ earlier ∈ done, earlier.offset ≤ record.offset) (sound : Sound record) :
    (b.place record).1.Placed start (done ++ [record]) := by
  obtain ⟨parts, next⟩ := compare_parts b record
  -- Both sides agree below the frontier and where the record is, and nothing
  -- covers the offsets between.
  have same : ∀ x, x < max b.next record.finish →
      continued (firstCell done) b.next record x = firstCell (done ++ [record]) x := by
    intro x short
    unfold continued
    by_cases low : x < b.next
    · rw [if_pos low]
      exact (firstCell_old fun covers => placed.covered begun ordered covers.1 low).symm
    have uncovered := placed.uncovered (Nat.not_lt.mp low)
    rw [if_neg low]
    by_cases gap : x < record.offset
    · rw [if_pos gap, firstCell_old fun covers => absurd covers.1 (Nat.not_le_of_lt gap), firstCell_uncovered uncovered]
    · rw [if_neg gap, firstCell_new uncovered ⟨Nat.not_lt.mp gap, by omega⟩]
  unfold Building.place
  by_cases within : record.finish ≤ b.next
  · rw [if_pos within]
    refine ⟨?_, placed.within_concat begun (Nat.le_of_eq next.symm) (next ▸ within), .inr ?_⟩
    · exact (placed.carries.continued.compare record).congr fun x _ high => same x (by omega)
    · rcases placed.reached with ⟨_, level⟩ | ⟨earlier, member, reaches⟩
      · have := sound.transferred
        have : record.finish = record.offset + record.length.toNat := rfl
        omega
      · exact ⟨earlier, List.mem_append_left _ member, next ▸ reaches⟩
  · rw [if_neg within]
    have carries := (placed.carries.compare record).placed sound
    have reached := placed_next (b := b.compare record) sound
    rw [next] at carries reached
    dsimp only
    refine ⟨carries.congr fun x _ high => same x (reached ▸ high), ?_, .inr ⟨record, ?_, ?_⟩⟩
    · exact placed.within_concat begun (by omega) (by omega)
    · exact List.mem_append_right _ List.mem_cons_self
    · omega

def Redundant (done : List Record) (held : List (Record × Nat)) (index : Nat) : Prop :=
  ∃ before record after, held = before ++ (record, index) :: after ∧
    ∀ x, Covers record x → ∃ earlier ∈ done ++ before.map Prod.fst, Covers earlier x

theorem redundant_cons {held : List (Record × Nat)} {first : Record × Nat} {index : Nat} :
    Redundant done (first :: held) index ↔
      (first.2 = index ∧ ∀ x, Covers first.1 x → ∃ earlier ∈ done, Covers earlier x) ∨
        Redundant (done ++ [first.1]) held index := by
  constructor
  · rintro ⟨before, record, after, split, redundant⟩
    cases before with
    | nil =>
      rw [List.nil_append, List.cons.injEq] at split
      refine .inl ?_
      rw [split.1]
      exact ⟨rfl, by simpa using redundant⟩
    | cons head before =>
      rw [List.cons_append, List.cons.injEq] at split
      refine .inr ⟨before, record, after, split.2, ?_⟩
      rw [split.1]
      simpa using redundant
  · rintro (⟨own, redundant⟩ | ⟨before, record, after, split, redundant⟩)
    · exact ⟨[], first.1, held, by rw [← own]; rfl, by simpa using redundant⟩
    · exact ⟨first :: before, record, after, by rw [split]; rfl, by simpa using redundant⟩

theorem Placed.placeAll {held : List (Record × Nat)} (placed : b.Placed start done)
    (sound : ∀ each ∈ held, start ≤ each.1.offset ∧ Sound each.1)
    (after : ∀ earlier ∈ done, ∀ each ∈ held, earlier.offset ≤ each.1.offset)
    (ordered : held.Pairwise (fun a c => a.1.offset ≤ c.1.offset)) :
    (b.placeAll held).1.Placed start (done ++ held.map Prod.fst) ∧
      ∀ index, (∃ duplicate ∈ (b.placeAll held).2, duplicate.index = index) ↔ Redundant done held index := by
  induction held generalizing b done with
  | nil =>
    refine ⟨by simpa [Building.placeAll] using placed, fun index => ?_⟩
    simp [Building.placeAll, Redundant]
  | cons first rest ih =>
    obtain ⟨record, at_⟩ := first
    obtain ⟨begun, own⟩ := sound (record, at_) List.mem_cons_self
    obtain ⟨later, ordered⟩ := List.pairwise_cons.mp ordered
    have earlier : ∀ each ∈ done, each.offset ≤ record.offset :=
      fun each member => after each member _ List.mem_cons_self
    have duplicate := placed.duplicate_iff begun earlier own
    have next := placed.place begun earlier own
    simp only [Building.placeAll]
    generalize b.place record = result at duplicate next ⊢
    obtain ⟨b', answer⟩ := result
    obtain ⟨whole, others⟩ := ih next (fun each member => sound each (List.mem_cons_of_mem _ member))
      (by
        intro each among other member
        rcases List.mem_append.mp among with old | new
        · exact after each old other (List.mem_cons_of_mem _ member)
        · cases List.mem_singleton.mp new
          exact later other member) ordered
    generalize b'.placeAll rest = result at whole others ⊢
    obtain ⟨b'', duplicates⟩ := result
    rw [List.map_cons, List.append_cons]
    cases answer with
    | none =>
      refine ⟨whole, fun index => ?_⟩
      rw [redundant_cons, ← others index]
      have unique : ¬ ∀ x, Covers record x → ∃ each ∈ done, Covers each x := by
        rw [← duplicate]
        simp
      simp [unique]
    | some agrees =>
      refine ⟨whole, fun index => ?_⟩
      rw [redundant_cons, ← others index]
      have covered := duplicate.mp rfl
      simp only [List.mem_cons, exists_eq_or_imp]
      exact or_congr ⟨fun same => ⟨same, covered⟩, fun same => same.1⟩ Iff.rfl

end Building

section Order

variable {a c : Record × Nat} {records : List Record} {key : Key}

def rank (a : Record × Nat) : Nat ×ₗ Nat ×ₗ Nat := toLex (a.1.offset, toLex (a.1.sequence, a.2))

theorem precedes_iff : Precedes a c ↔ rank a < rank c := by
  unfold Precedes rank
  rw [Prod.Lex.toLex_lt_toLex, Prod.Lex.toLex_lt_toLex]
  by_cases offset : a.1.offset = c.1.offset
  · by_cases sequence : a.1.sequence = c.1.sequence
    · simp [offset, sequence]
    · simp [offset, sequence]
  · simp [offset]

theorem held_perm (records : List Record) (key : Key) : (held records key).Perm
    ((usable records).filter (fun p => streamOf p.1 = key)) := List.perm_insertionSort _ _

theorem held_sorted : (held records key).Pairwise (fun a c => rank a ≤ rank c) := by
  have total : Std.Total (fun a c : Record × Nat => ¬ Precedes c a) :=
    ⟨fun a c => by simp only [precedes_iff, not_lt]; exact le_total _ _⟩
  have trans : IsTrans (Record × Nat) (fun a c => ¬ Precedes c a) :=
    ⟨fun a c d first second => by
      simp only [precedes_iff, not_lt] at *
      exact first.trans second⟩
  refine (List.pairwise_insertionSort (fun a c => ¬ Precedes c a) _).imp fun later => ?_
  simpa only [precedes_iff, not_lt] using later

theorem rank_offset (le : rank a ≤ rank c) : a.1.offset ≤ c.1.offset := by
  rcases Prod.Lex.toLex_le_toLex.mp le with less | ⟨same, _⟩
  · exact Nat.le_of_lt less
  · exact Nat.le_of_eq same

theorem zipIdx_inj {a c : Record × Nat} (member : a ∈ records.zipIdx) (other : c ∈ records.zipIdx)
    (same : a.2 = c.2) : a = c := by
  obtain ⟨record, index⟩ := a
  obtain ⟨record', index'⟩ := c
  cases same
  have one := List.mem_zipIdx_iff_getElem?.mp member
  have another := List.mem_zipIdx_iff_getElem?.mp other
  rw [one] at another
  cases another
  rfl

theorem rank_inj (member : a ∈ records.zipIdx) (other : c ∈ records.zipIdx)
    (same : rank a = rank c) : a = c := by
  refine zipIdx_inj member other ?_
  have := congrArg (fun r => (ofLex (ofLex r).2).2) same
  exact this

theorem precedes_of_before {sorted before after : List (Record × Nat)}
    (listed : ∀ each ∈ sorted, each ∈ records.zipIdx) (nodup : sorted.Nodup)
    (ordered : sorted.Pairwise (fun a c => rank a ≤ rank c)) (split : sorted = before ++ c :: after)
    (earlier : a ∈ before) : Precedes a c := by
  rw [split] at listed nodup ordered
  have le := (List.pairwise_append.mp ordered).2.2 a earlier c List.mem_cons_self
  refine precedes_iff.mpr (lt_of_le_of_ne le fun same => ?_)
  have is := rank_inj (listed a (List.mem_append_left _ earlier)) (listed c (by simp)) same
  exact (List.nodup_append.mp nodup).2.2 a earlier c List.mem_cons_self is

theorem zipIdx_nodup : records.zipIdx.Nodup := by
  refine List.Nodup.of_map Prod.snd ?_
  rw [List.zipIdx_map_snd]
  exact List.nodup_range'

end Order

def FirstCoverage (records : List Record) (x : Nat) (cell : Cell) : Prop :=
  (cell = .hole .missing ∧ ∀ each ∈ records.zipIdx, ¬ Covers each.1 x) ∨
    ∃ first ∈ records.zipIdx, Covers first.1 x ∧ cell = cellAt first.1 x ∧
      ∀ each ∈ records.zipIdx, Covers each.1 x → each = first ∨ Precedes first each

def Repeats (records : List Record) (index : Nat) : Prop :=
  ∃ own ∈ records.zipIdx, own.2 = index ∧
    ∀ x, Covers own.1 x → ∃ each ∈ records.zipIdx, Precedes each own ∧ Covers each.1 x

section Sorted

variable {records : List Record} {sorted before after : List (Record × Nat)}
variable {own each : Record × Nat}

structure Sorted (records : List Record) (sorted : List (Record × Nat)) : Prop where
  perm : sorted.Perm records.zipIdx
  ordered : sorted.Pairwise (fun a c => rank a ≤ rank c)

theorem Sorted.mem (all : Sorted records sorted) : each ∈ sorted ↔ each ∈ records.zipIdx := all.perm.mem_iff

theorem Sorted.nodup (all : Sorted records sorted) : sorted.Nodup := all.perm.nodup_iff.mpr zipIdx_nodup

theorem Sorted.before_iff (all : Sorted records sorted) (split : sorted = before ++ own :: after)
    (member : each ∈ sorted) : each ∈ before ↔ Precedes each own := by
  constructor
  · exact precedes_of_before (fun each => all.mem.mp) all.nodup all.ordered split
  · have rest := (List.pairwise_append.mp (split ▸ all.ordered)).2.1
    rw [precedes_iff]
    intro less
    rw [split] at member
    rcases List.mem_append.mp member with earlier | later
    · exact earlier
    rcases List.mem_cons.mp later with same | later
    · exact absurd less (same ▸ lt_irrefl _)
    · have := (List.pairwise_cons.mp rest).1 each later
      exact absurd less (not_lt_of_ge this)

theorem Sorted.redundant_iff (all : Sorted records sorted) (index : Nat) :
    Building.Redundant [] sorted index ↔ Repeats records index := by
  constructor
  · rintro ⟨before, record, after, split, redundant⟩
    refine ⟨(record, index), all.mem.mp (by rw [split]; simp), rfl, fun x covers => ?_⟩
    obtain ⟨earlier, member, covered⟩ := redundant x covers
    rw [List.nil_append] at member
    obtain ⟨each, among, rfl⟩ := List.mem_map.mp member
    have listed : each ∈ sorted := by rw [split]; exact List.mem_append_left _ among
    exact ⟨each, all.mem.mp listed, (all.before_iff split listed).mp among, covered⟩
  · rintro ⟨⟨record, _⟩, member, rfl, repeats⟩
    obtain ⟨before, after, split⟩ := List.append_of_mem (all.mem.mpr member)
    refine ⟨before, record, after, split, fun x covers => ?_⟩
    obtain ⟨each, among, precedes, covered⟩ := repeats x covers
    have earlier := (all.before_iff split (all.mem.mpr among)).mpr precedes
    exact ⟨each.1, by simpa using ⟨each.2, earlier⟩, covered⟩

theorem Sorted.firstCell (all : Sorted records sorted) (x : Nat) :
    FirstCoverage records x (firstCell (sorted.map Prod.fst) x) := by
  unfold Stream.firstCell
  rw [List.find?_map]
  cases found : sorted.find? ((fun record => decide (Covers record x)) ∘ Prod.fst) with
  | none =>
    refine .inl ⟨rfl, fun each member => ?_⟩
    simpa using List.find?_eq_none.mp found each (all.mem.mpr member)
  | some first =>
    obtain ⟨covers, before, after, split, others⟩ := List.find?_eq_some_iff_append.mp found
    refine .inr ⟨first, all.mem.mp (by rw [split]; simp), by simpa using covers, rfl, ?_⟩
    intro each member covers
    by_cases same : each = first
    · exact .inl same
    have later : each ∉ before := fun earlier => by simpa [covers] using others each earlier
    have listed := all.mem.mpr member
    have rest := (all.before_iff split listed).not.mp later
    rw [precedes_iff, not_lt] at rest
    refine .inr (precedes_iff.mpr (lt_of_le_of_ne rest fun equal => ?_))
    exact same (rank_inj (all.mem.mp (by rw [split]; simp)) member equal).symm

end Sorted

section OneStream

variable {records : List Record} {key : Key}

theorem sound_of_valid {record : Record} (valid : record.validate = .ok ())
    (ends : record.finish ≤ maxUint64) : Sound record := by
  unfold Record.validate at valid
  split at valid
  · cases valid
  split at valid
  · cases valid
  split at valid
  · cases valid
  rename_i transferred
  split at valid
  · cases valid
  · rename_i kept
    refine ⟨Nat.pos_of_ne_zero fun zero => transferred ?_, Nat.not_lt.mp kept, ends⟩
    exact UInt32.toNat_inj.mp zero

theorem usable_all (valid : ∀ record ∈ records, record.validate = .ok ()) :
    usable records = records.zipIdx := by
  refine List.filter_eq_self.mpr fun each member => ?_
  rw [valid each.1 (List.fst_mem_of_mem_zipIdx member)]
  rfl

theorem held_all (valid : ∀ record ∈ records, record.validate = .ok ())
    (one : ∀ record ∈ records, streamOf record = key) : Sorted records (held records key) := by
  refine ⟨?_, held_sorted⟩
  have perm := held_perm records key
  rw [usable_all valid, List.filter_eq_self.mpr] at perm
  · exact perm
  · intro each member
    simpa using one each.1 (List.fst_mem_of_mem_zipIdx member)

theorem keys_one (valid : ∀ record ∈ records, record.validate = .ok ())
    (one : ∀ record ∈ records, streamOf record = key) (some_ : records ≠ []) :
    keys records = [key] := by
  have all : (usable records).map (fun p => streamOf p.1) =
      List.replicate records.length key := by
    rw [usable_all valid, List.eq_replicate_iff]
    refine ⟨by simp, fun each member => ?_⟩
    obtain ⟨p, listed, rfl⟩ := List.mem_map.mp member
    exact one p.1 (List.fst_mem_of_mem_zipIdx listed)
  rw [keys, all, List.replicate_dedup (by simpa using some_)]
  rfl

theorem placeAll_fst (b : Building) (held : List (Record × Nat)) :
    (b.placeAll held).1 = (held.map Prod.fst).foldl (fun b record => (b.place record).1) b := by
  induction held generalizing b with
  | nil => rfl
  | cons first rest ih =>
    obtain ⟨record, index⟩ := first
    simp only [Building.placeAll, List.map_cons, List.foldl_cons, ← ih]
    split <;> rfl

theorem oneWithDuplicates_fst {these those : List (Record × Nat)} (same : these.map Prod.fst = those.map Prod.fst) :
    (oneWithDuplicates key these).1 = (oneWithDuplicates key those).1 := by
  cases these with
  | nil =>
    cases those with
    | nil => rfl
    | cons other rest => cases same
  | cons first rest =>
    cases those with
    | nil => cases same
    | cons other others =>
      obtain ⟨record, index⟩ := first
      obtain ⟨record', index'⟩ := other
      obtain ⟨rfl, tails⟩ := List.cons.inj same
      simp only [oneWithDuplicates, placeAll_fst, List.map_cons, tails]

theorem Sorted.unique {others : List Record} {these those : List (Record × Nat)}
    (one : Sorted records these) (another : Sorted others those) (perm : others.Perm records)
    (distinct : (records.map (fun record => (record.offset, record.sequence))).Nodup) :
    these.map Prod.fst = those.map Prod.fst := by
  let place (record : Record) : Nat ×ₗ Nat := toLex (record.offset, record.sequence)
  have weaker : ∀ {a c : Record × Nat}, rank a ≤ rank c → place a.1 ≤ place c.1 := by
    intro a c le
    rcases Prod.Lex.toLex_le_toLex.mp le with less | ⟨same, le⟩
    · exact Prod.Lex.toLex_le_toLex.mpr (.inl less)
    refine Prod.Lex.toLex_le_toLex.mpr (.inr ⟨same, ?_⟩)
    rcases Prod.Lex.toLex_le_toLex.mp le with less | ⟨same, _⟩
    · exact Nat.le_of_lt less
    · exact Nat.le_of_eq same
  have firsts : ∀ {some_ : List Record} {sorted : List (Record × Nat)}, Sorted some_ sorted →
      (sorted.map Prod.fst).Perm some_ ∧ (sorted.map Prod.fst).Pairwise (fun a c => place a ≤ place c) := by
    intro some_ sorted all
    refine ⟨?_, List.pairwise_map.mpr (all.ordered.imp weaker)⟩
    have fst := all.perm.map Prod.fst
    rwa [List.zipIdx_map_fst] at fst
  obtain ⟨perm₁, ordered₁⟩ := firsts one
  obtain ⟨perm₂, ordered₂⟩ := firsts another
  refine List.Perm.eq_of_pairwise ?_ ordered₁ ordered₂ (perm₁.trans (perm.symm.trans perm₂.symm))
  intro a c member other le ge
  have same : place a = place c := le_antisymm le ge
  refine List.inj_on_of_nodup_map distinct (perm₁.mem_iff.mp member) ((perm₂.trans perm).mem_iff.mp other) ?_
  exact congrArg ofLex same

/-- A stream's parts cover its extent, from the first offset a record has to the
last, and carry at each offset what the first record that covers it has. -/
structure Reassembles (records : List Record) (stream : Assembled) : Prop where
  tiled : Contiguous stream.start stream.parts
  extent : stream.start + (cellsOf stream.parts).length = stream.endsAt
  within : ∀ record ∈ records, stream.start ≤ record.offset ∧ record.finish ≤ stream.endsAt
  starts : ∃ record ∈ records, record.offset = stream.start
  ends : ∃ record ∈ records, record.finish = stream.endsAt
  content : ∀ x, stream.start ≤ x → x < stream.endsAt →
    ∃ cell, (cellsOf stream.parts)[x - stream.start]? = some cell ∧ FirstCoverage records x cell

theorem oneWithDuplicates_reassembles (key : Key) {sorted : List (Record × Nat)} (all : Sorted records sorted)
    (sound : ∀ record ∈ records, Sound record) (some_ : records ≠ []) :
    Reassembles records (oneWithDuplicates key sorted).1 ∧
      ∀ index, (∃ duplicate ∈ (oneWithDuplicates key sorted).2, duplicate.index = index) ↔ Repeats records index := by
  have member : ∀ each ∈ sorted, each.1 ∈ records := fun each listed => List.fst_mem_of_mem_zipIdx (all.mem.mp listed)
  have listed : ∀ record ∈ records, record ∈ sorted.map Prod.fst := by
    intro record among
    rw [(all.perm.map Prod.fst).mem_iff, List.zipIdx_map_fst]
    exact among
  obtain ⟨⟨record, index⟩, rest, rfl⟩ : ∃ first rest, sorted = first :: rest := by
    refine List.exists_cons_of_ne_nil fun empty => some_ ?_
    simpa [empty] using all.perm.length_eq.symm
  have ordered := all.ordered.imp rank_offset
  have first_offset : ∀ each ∈ (record, index) :: rest, record.offset ≤ each.1.offset := by
    intro each listed
    rcases List.mem_cons.mp listed with same | later
    · exact Nat.le_of_eq (by rw [same])
    · exact (List.pairwise_cons.mp ordered).1 each later
  have begun : Building.Placed { next := record.offset } record.offset [] :=
    ⟨⟨trivial, Nat.le_refl _, by simp [cellsOf, span]⟩, by simp, .inl ⟨rfl, rfl⟩⟩
  obtain ⟨placed, duplicates⟩ := begun.placeAll
    (fun each listed => ⟨first_offset each listed, sound _ (member each listed)⟩) (by simp) ordered
  rw [List.nil_append] at placed
  simp only [oneWithDuplicates]
  generalize Building.placeAll { next := record.offset } ((record, index) :: rest) = result
    at placed duplicates ⊢
  obtain ⟨b, found⟩ := result
  obtain ⟨⟨tiled, begins, cells⟩, within, reached⟩ := placed
  dsimp only at tiled begins cells within reached duplicates
  refine ⟨⟨tiled, ?_, ?_, ?_, ?_, ?_⟩, fun index => ?_⟩
  · dsimp only
    rw [cells, span_length]
    omega
  · exact fun each among => within each (listed each among)
  · exact ⟨record, member _ List.mem_cons_self, rfl⟩
  · rcases reached with ⟨empty, _⟩ | ⟨each, among, reaches⟩
    · cases empty
    · obtain ⟨pair, inside, rfl⟩ := List.mem_map.mp among
      exact ⟨pair.1, member pair inside, reaches⟩
  · intro x low high
    refine ⟨_, ?_, all.firstCell x⟩
    dsimp only at low high ⊢
    rw [cells, span_getElem? (by omega)]
    congr 2
    omega
  · rw [duplicates index]
    exact all.redundant_iff index

end OneStream

/-- Valid records of one stream, none of which ends past the last offset, are
reassembled into that stream: it carries at each offset what the first record
that covers it has, the records that cover nothing new are the duplicates, and
where the records are told apart by offset and sequence the order they are
listed in does not matter. -/
theorem assemble_first_coverage (key : Key) (records : List Record)
    (valid : ∀ record ∈ records, record.validate = .ok ())
    (one : ∀ record ∈ records, streamOf record = key)
    (ends : ∀ record ∈ records, record.finish ≤ maxUint64) :
    (assemble records).discards = [] ∧
      (records ≠ [] → ∃ stream, (assemble records).streams = [stream] ∧ stream.key = key ∧ Reassembles records stream) ∧
      (∀ index, (∃ duplicate ∈ (assemble records).duplicates, duplicate.index = index) ↔ Repeats records index) ∧
      ∀ others : List Record, others.Perm records →
        (records.map (fun record => (record.offset, record.sequence))).Nodup →
          (assemble others).streams = (assemble records).streams := by
  have sorted := held_all valid one
  have sound : ∀ record ∈ records, Sound record :=
    fun record member => sound_of_valid (valid record member) (ends record member)
  refine ⟨?_, ?_, ?_, ?_⟩
  · refine List.filterMap_eq_nil_iff.mpr fun each member => ?_
    rw [valid each.1 (List.fst_mem_of_mem_zipIdx member)]
  · intro some_
    refine ⟨(oneWithDuplicates key (held records key)).1, ?_, ?_,
      (oneWithDuplicates_reassembles key sorted sound some_).1⟩
    · simp only [assemble, keys_one valid one some_, List.map_cons, List.map_nil]
    · cases held records key <;> rfl
  · intro index
    by_cases some_ : records = []
    · subst some_
      simp [assemble, keys, usable, Repeats]
    · rw [← (oneWithDuplicates_reassembles key sorted sound some_).2 index]
      simp only [assemble, keys_one valid one some_, List.map_cons, List.map_nil,
        List.flatMap_cons, List.flatMap_nil, List.append_nil]
  · intro others perm distinct
    have valid' : ∀ record ∈ others, record.validate = .ok () :=
      fun record member => valid record (perm.mem_iff.mp member)
    have one' : ∀ record ∈ others, streamOf record = key := fun record member => one record (perm.mem_iff.mp member)
    by_cases some_ : records = []
    · subst some_
      rw [perm.eq_nil]
    have some' : others ≠ [] := fun empty => some_ (empty ▸ perm).symm.eq_nil
    have same := sorted.unique (held_all valid' one') perm distinct
    simp only [assemble, keys_one valid one some_, keys_one valid' one' some', List.map_cons,
      List.map_nil, oneWithDuplicates_fst same]

def sentRecord (sequence offset : Nat) (length : UInt32) (payload : Bytes) : Record :=
  { process := { pid := 7 }
    connection := 1
    direction := .sent
    sequence := sequence
    offset := offset
    length := length
    produced := 0
    empties := 0
    payload := payload
    time := 9 }

/-- A truncated record, one that overlaps its tail, one inside them and one past
a hole, listed out of order. -/
theorem assemble_first_coverage_overlap :
    let records := [sentRecord 4 8 1 [5], sentRecord 2 3 3 [7, 8, 9], sentRecord 3 4 1 [6], sentRecord 1 0 4 [1, 2]]
    (assemble records).streams.map (·.parts) =
        [[{ offset := 0, length := 2, bytes := [1, 2] }, { offset := 2, length := 2, gap := .truncated },
          { offset := 4, length := 2, bytes := [8, 9] },
          { offset := 6, length := 2, gap := .missing },
          { offset := 8, length := 1, bytes := [5] }]] ∧
      ∀ index, (∃ duplicate ∈ (assemble records).duplicates, duplicate.index = index) ↔ Repeats records index := by
  intro records
  refine ⟨by decide, ?_⟩
  exact (assemble_first_coverage { process := { pid := 7 }, connection := 1, direction := .sent }
    records (by decide) (by decide) (by decide)).2.2.1

end EdgeObserver.Stream
