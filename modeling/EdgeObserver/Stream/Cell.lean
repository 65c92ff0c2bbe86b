import EdgeObserver.Stream.Part

/-!
# Directions, offset by offset

What a direction carries at each of its offsets, whatever parts it is given in.
Cutting its parts into smaller ones leaves that unchanged, so a reader that can
be followed offset by offset reads every cut alike.
-/

set_option autoImplicit false

namespace EdgeObserver.Stream

inductive Cell where
  | byte (value : UInt8)
  | hole (gap : GapReason)
  deriving DecidableEq

def Cell.part (offset : Nat) : Cell → Part
  | .byte value => { offset, length := 1, bytes := [value] }
  | .hole gap => { offset, length := 1, gap }

theorem Cell.part_formed (offset : Nat) {cell : Cell} (real : cell ≠ .hole .none) :
    (cell.part offset).Formed := by
  cases cell with
  | byte value => exact ⟨Nat.one_pos, fun _ => rfl, fun holed => absurd rfl holed⟩
  | hole gap => exact ⟨Nat.one_pos, fun none => absurd (by rw [show gap = .none from none]) real, fun _ => rfl⟩

namespace Part

def cells (part : Part) : List Cell :=
  if part.gap = .none then part.bytes.map .byte else List.replicate part.length (.hole part.gap)

variable {n : Nat} {part : Part}

theorem cells_length (formed : part.Formed) : part.cells.length = part.length := by
  unfold cells
  split
  · rename_i carried
    simpa using formed.carried carried
  · simp

theorem cells_real {cell : Cell} (member : cell ∈ part.cells) : cell ≠ .hole .none := by
  unfold cells at member
  split at member
  · obtain ⟨value, _, rfl⟩ := List.mem_map.mp member
    simp
  · rename_i holed
    rw [(List.mem_replicate.mp member).2]
    simpa using holed

theorem cells_head_tail (within : n ≤ part.length) :
    (part.head n).cells ++ (part.tail n).cells = part.cells := by
  unfold cells head tail
  by_cases carried : part.gap = .none
  · simp [carried, ← List.map_append]
  · simp [carried, ← List.replicate_add, Nat.add_sub_cancel' within]

theorem head_formed (formed : part.Formed) (some : 0 < n)
    (within : n ≤ part.length) : (part.head n).Formed := by
  refine ⟨some, fun carried => ?_, fun holed => ?_⟩
  · have length := formed.carried carried
    simp only [head] at carried ⊢
    simp only [carried, ↓reduceIte, List.length_take]
    omega
  · have bytes := formed.holed holed
    simp only [head] at holed ⊢
    simp [bytes]

theorem tail_formed (formed : part.Formed) (within : n < part.length) :
    (part.tail n).Formed := by
  refine ⟨by simp only [tail]; omega, fun carried => ?_, fun holed => ?_⟩
  · have length := formed.carried carried
    simp only [tail] at carried ⊢
    simp only [carried, ↓reduceIte, List.length_drop]
    omega
  · have bytes := formed.holed holed
    simp only [tail] at holed ⊢
    simp [bytes]

theorem head_valid (valid : part.Valid) (some : 0 < n) (within : n ≤ part.length) :
    (part.head n).Valid := by
  have reaches := valid.reaches
  exact ⟨head_formed valid.toFormed some within, valid.named, by simp only [head]; omega⟩

theorem tail_valid (valid : part.Valid) (within : n < part.length) :
    (part.tail n).Valid := by
  have reaches := valid.reaches
  exact ⟨tail_formed valid.toFormed within, valid.named, by simp only [tail]; omega⟩

theorem head_all (formed : part.Formed) : part.head part.length = part := by
  have bytes : (if part.gap = .none then part.bytes.take part.length else part.bytes) = part.bytes := by
    split
    · rename_i carried
      rw [← formed.carried carried, List.take_length]
    · rfl
  rw [head, bytes]

theorem tail_cells (part : Part) (n : Nat) :
    (part.tail n).cells = part.cells.drop n := by
  unfold cells tail
  by_cases carried : part.gap = .none
  · simp [carried, List.map_drop]
  · simp [carried]

theorem cells_cons (formed : part.Formed) :
    ∃ cell, part.cells = cell :: (part.tail 1).cells ∧ cell.part part.offset = part.head 1 := by
  have covers := formed.covers
  by_cases carried : part.gap = .none
  · have length := formed.carried carried
    cases bytes : part.bytes with
    | nil =>
      rw [bytes, List.length_nil] at length
      omega
    | cons value rest =>
      exact ⟨.byte value, by simp [cells, tail, carried, bytes], by simp [Cell.part, head, carried, bytes]⟩
  · obtain ⟨n, length⟩ : ∃ n, part.length = n + 1 := ⟨part.length - 1, by omega⟩
    have empty := formed.holed carried
    exact ⟨.hole part.gap, by simp [cells, tail, carried, length, List.replicate_succ],
      by simp [Cell.part, head, carried, empty]⟩

end Part

def Contiguous : Nat → List Part → Prop
  | _, [] => True
  | offset, part :: rest =>
    part.Valid ∧ part.offset = offset ∧ Contiguous (offset + part.length) rest

def cellsOf (parts : List Part) : List Cell := parts.flatMap Part.cells

theorem cellsOf_cons (part : Part) (parts : List Part) : cellsOf (part :: parts) = part.cells ++ cellsOf parts := rfl

theorem cellsOf_real {parts : List Part} {cell : Cell} (member : cell ∈ cellsOf parts) :
    cell ≠ .hole .none := by
  obtain ⟨part, _, inside⟩ := List.mem_flatMap.mp member
  exact Part.cells_real inside

inductive Cut : List Part → List Part → Prop where
  | nil : Cut [] []
  | keep {part : Part} {parts cut : List Part} : Cut parts cut → Cut (part :: parts) (part :: cut)
  | split {part : Part} {parts cut : List Part} (n : Nat) : 0 < n → n < part.length →
      Cut (part.tail n :: parts) cut → Cut (part :: parts) (part.head n :: cut)

theorem Cut.contiguous {parts cut : List Part} (cuts : Cut parts cut) :
    ∀ {offset : Nat}, Contiguous offset parts → Contiguous offset cut := by
  induction cuts with
  | nil => exact fun contiguous => contiguous
  | keep cuts ih => exact fun ⟨valid, begins, rest⟩ => ⟨valid, begins, ih rest⟩
  | @split part parts cut n some within cuts ih =>
    intro offset ⟨valid, begins, rest⟩
    refine ⟨Part.head_valid valid some (Nat.le_of_lt within), begins, ih ?_⟩
    refine ⟨Part.tail_valid valid within, ?_, ?_⟩
    · simp only [Part.tail, Part.head]
      omega
    · have ends : offset + (part.head n).length + (part.tail n).length = offset + part.length := by
        simp only [Part.tail, Part.head]
        omega
      rw [ends]
      exact rest

theorem Cut.cells {parts cut : List Part} (cuts : Cut parts cut) : cellsOf cut = cellsOf parts := by
  induction cuts with
  | nil => rfl
  | keep cuts ih => simpa [cellsOf] using ih
  | @split part parts cut n some within cuts ih =>
    have joined := Part.cells_head_tail (Nat.le_of_lt within)
    simp only [cellsOf, List.flatMap_cons] at ih ⊢
    rw [ih, ← List.append_assoc, joined]

end EdgeObserver.Stream
