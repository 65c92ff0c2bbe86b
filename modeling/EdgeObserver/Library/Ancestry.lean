import Mathlib

/-!
# Ancestry

Parent links among values of any type, and the walk up them to the nearest value
that is looked for, bounded by a number of steps.
-/

set_option autoImplicit false

namespace EdgeObserver.Library

variable {α : Type}

def Ancestor (parent : α → Option α) : α → α → Prop := Relation.TransGen (fun x y => parent x = some y)

/-- The first value above `x` that is looked for, within some steps. -/
def nearest (parent : α → Option α) (hit : α → Bool) : Nat → α → Option α
  | 0, _ => none
  | steps + 1, x =>
    match parent x with
    | none => none
    | some y => if hit y then some y else nearest parent hit steps y

variable {parent : α → Option α} {hit wider : α → Bool} {steps : Nat} {x y : α}

theorem nearest_ancestor (found : nearest parent hit steps x = some y) :
    Ancestor parent x y ∧ hit y = true := by
  induction steps generalizing x with
  | zero => cases found
  | succ steps ih =>
    unfold nearest at found
    split at found
    · cases found
    rename_i above linked
    split at found
    · rename_i here
      cases found
      exact ⟨.single linked, here⟩
    · obtain ⟨ancestor, looked⟩ := ih found
      exact ⟨.head linked ancestor, looked⟩

theorem nearest_wider (more : ∀ z, hit z = true → wider z = true) (found : nearest parent hit steps x = some y) :
    ∃ z, nearest parent wider steps x = some z ∧ (z = y ∨ (hit z = false ∧ Ancestor parent z y)) := by
  induction steps generalizing x with
  | zero => cases found
  | succ steps ih =>
    unfold nearest at found ⊢
    split at found
    · cases found
    rename_i above linked
    split at found
    · rename_i here
      cases found
      exact ⟨y, if_pos (more y here), .inl rfl⟩
    · rename_i passed
      by_cases newly : wider above = true
      · exact ⟨above, if_pos newly, .inr ⟨by simpa using passed, (nearest_ancestor found).1⟩⟩
      · rw [if_neg newly]
        exact ih found

/-- How many values of a list lie above `x`. -/
noncomputable def heightIn (parent : α → Option α) (all : List α) (x : α) : Nat :=
  open Classical in all.countP (fun z => decide (Ancestor parent x z))

theorem heightIn_lt (acyclic : ∀ z, ¬ Ancestor parent z z) {all : List α} (member : y ∈ all)
    (linked : parent x = some y) : heightIn parent all y < heightIn parent all x := by
  classical
  have more : ∀ z, Ancestor parent y z → Ancestor parent x z := fun z above => .head linked above
  have own : Ancestor parent x y := .single linked
  obtain ⟨before, after, rfl⟩ := List.append_of_mem member
  have first := List.countP_mono_left (l := before) (fun z _ above => decide_eq_true (more z (of_decide_eq_true above)))
  have last := List.countP_mono_left (l := after) (fun z _ above => decide_eq_true (more z (of_decide_eq_true above)))
  simp only [heightIn, List.countP_append, List.countP_cons, decide_eq_true_eq, acyclic y, own, if_true, if_false]
  omega

theorem nearest_of_ancestor (acyclic : ∀ z, ¬ Ancestor parent z z) {all : List α}
    (closed : ∀ z w, parent z = some w → w ∈ all) (enough : heightIn parent all x ≤ steps)
    (above : Ancestor parent x y) (looked : hit y = true) :
    ∃ z, nearest parent hit steps x = some z := by
  induction steps generalizing x with
  | zero =>
    obtain ⟨next, linked, _⟩ := Relation.TransGen.head'_iff.mp above
    have := heightIn_lt acyclic (closed x next linked) linked
    omega
  | succ steps ih =>
    obtain ⟨next, linked, rest⟩ := Relation.TransGen.head'_iff.mp above
    have lower := heightIn_lt acyclic (closed x next linked) linked
    unfold nearest
    rw [linked]
    dsimp only
    by_cases here : hit next = true
    · exact ⟨next, if_pos here⟩
    rw [if_neg here]
    rcases Relation.reflTransGen_iff_eq_or_transGen.mp rest with same | farther
    · exact absurd (same ▸ looked) here
    · exact ih (by omega) farther

theorem heightIn_le (parent : α → Option α) (all : List α) (x : α) :
    heightIn parent all x ≤ all.length := List.countP_le_length

end EdgeObserver.Library
