import Mathlib

/-!
# Splices

Edits of a text by position: spans of it, each with what stands there
afterwards. What edits that lie in order do to a text is put together from what
they do to its parts.
-/

set_option autoImplicit false

namespace EdgeObserver.Library

/-- Puts `new` in the place of the text between two positions. -/
structure Edit (α : Type) where
  start : Nat
  stop : Nat
  new : List α

variable {α : Type}

def splice (from_ : Nat) : List (Edit α) → List α → List α
  | [], text => text
  | edit :: rest, text =>
    text.take (edit.start - from_) ++ edit.new ++ splice edit.stop rest (text.drop (edit.stop - from_))

def Ordered (high : Nat) : Nat → List (Edit α) → Prop
  | low, [] => low ≤ high
  | low, edit :: rest => low ≤ edit.start ∧ edit.start < edit.stop ∧ Ordered high edit.stop rest

namespace Ordered

variable {low mid high : Nat} {edits more : List (Edit α)}

theorem le (is : Ordered high low edits) : low ≤ high := by
  induction edits generalizing low with
  | nil => exact is
  | cons edit rest ih =>
    obtain ⟨after, some_, rest⟩ := is
    have := ih rest
    omega

theorem from_lower {lower : Nat} (le : lower ≤ low) (is : Ordered high low edits) :
    Ordered high lower edits := by
  cases edits with
  | nil => exact Nat.le_trans le is
  | cons edit rest => exact ⟨Nat.le_trans le is.1, is.2⟩

theorem append (first : Ordered mid low edits) (second : Ordered high mid more) :
    Ordered high low (edits ++ more) := by
  induction edits generalizing low with
  | nil => exact second.from_lower first
  | cons edit rest ih =>
    obtain ⟨after, some_, rest⟩ := first
    exact ⟨after, some_, ih rest⟩

theorem starts (is : Ordered high low edits) : ∀ edit ∈ edits, low ≤ edit.start := by
  induction edits generalizing low with
  | nil => simp
  | cons edit rest ih =>
    obtain ⟨after, some_, others⟩ := is
    intro other listed
    rcases List.mem_cons.mp listed with rfl | later
    · exact after
    · have := ih others other later
      omega

theorem pairwise (is : Ordered high low edits) :
    edits.Pairwise (fun a b => a.start < b.start) := by
  induction edits generalizing low with
  | nil => exact .nil
  | cons edit rest ih =>
    obtain ⟨_, some_, others⟩ := is
    refine .cons (fun other listed => ?_) (ih others)
    have := others.starts other listed
    omega

theorem sorted_eq (is : Ordered high low edits) (same : more.Perm edits) :
    more.insertionSort (fun a b => a.start ≤ b.start) = edits := by
  have sorted := List.pairwise_insertionSort (fun a b : Edit α => a.start ≤ b.start) more
  have perm := (List.perm_insertionSort (fun a b : Edit α => a.start ≤ b.start) more).trans same
  have distinct : (edits.map Edit.start).Nodup := List.pairwise_map.mpr (is.pairwise.imp Nat.ne_of_lt)
  refine List.Perm.eq_of_pairwise (fun a b here there under past => ?_) sorted (is.pairwise.imp Nat.le_of_lt) perm
  exact List.inj_on_of_nodup_map distinct (perm.mem_iff.mp here) there (Nat.le_antisymm under past)

end Ordered

structure Splices (low : Nat) (before : List α) (edits : List (Edit α)) (after : List α) : Prop where
  ordered : Ordered (low + before.length) low edits
  result : splice low edits before = after

namespace Splices

variable {low : Nat} {first second first' second' : List α} {edits more : List (Edit α)}

theorem keep (low : Nat) (text : List α) : Splices low text [] text := ⟨Nat.le_add_right _ _, rfl⟩

theorem put (low : Nat) {text : List α} (some_ : text ≠ []) (new : List α) :
    Splices low text [⟨low, low + text.length, new⟩] new := by
  have long := List.length_pos_iff.mpr some_
  refine ⟨⟨Nat.le_refl _, by show low < low + text.length; omega, Nat.le_refl _⟩, ?_⟩
  simp [splice]

theorem splice_beyond {mid high : Nat} {text rest : List α} (is : Ordered high mid more)
    (length : low + text.length = mid) :
    splice low more (text ++ rest) = text ++ splice mid more rest := by
  subst length
  cases more with
  | nil => rfl
  | cons edit others =>
    obtain ⟨after, some_, _⟩ := is
    simp only [splice]
    rw [List.take_append, List.drop_append, List.take_of_length_le (by omega),
      List.drop_of_length_le (by omega), Nat.sub_sub, Nat.sub_sub]
    simp

theorem splice_append {mid high : Nat} (left : Ordered mid low edits)
    (right : Ordered high mid more) (length : low + first.length = mid) :
    splice low (edits ++ more) (first ++ second) = splice low edits first ++ splice mid more second := by
  induction edits generalizing low first with
  | nil => exact splice_beyond right length
  | cons edit rest ih =>
    obtain ⟨after, some_, others⟩ := left
    have within := others.le
    have tail : splice edit.stop (rest ++ more) (first.drop (edit.stop - low) ++ second) =
        splice edit.stop rest (first.drop (edit.stop - low)) ++ splice mid more second :=
      ih others (by rw [List.length_drop]; omega)
    simp only [List.cons_append, splice]
    rw [List.take_append_of_le_length (by omega), List.drop_append_of_le_length (by omega), tail]
    simp only [List.append_assoc]

theorem append {mid : Nat} (left : Splices low first edits first')
    (right : Splices mid second more second') (length : low + first.length = mid) :
    Splices low (first ++ second) (edits ++ more) (first' ++ second') := by
  subst length
  obtain ⟨ordered, result⟩ := left
  refine ⟨?_, ?_⟩
  · rw [List.length_append, ← Nat.add_assoc]
    exact ordered.append right.ordered
  · rw [splice_append ordered right.ordered rfl, result, right.result]

theorem after {mid : Nat} (text : List α) (right : Splices mid second more second')
    (length : low + text.length = mid) : Splices low (text ++ second) more (text ++ second') :=
  (keep low text).append right length

end Splices

end EdgeObserver.Library
