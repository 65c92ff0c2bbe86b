import Mathlib

/-!
# Keyed lists

Lists whose items have distinct keys, with one item taken out of the others.
-/

set_option autoImplicit false

namespace EdgeObserver.Library

theorem perm_taken {α κ : Type} [DecidableEq κ] (key : α → κ) {items : List α} {one : α}
    (distinct : (items.map key).Nodup) (member : one ∈ items) :
    items.Perm (one :: items.filter (key · ≠ key one)) := by
  induction items with
  | nil => cases member
  | cons first rest ih =>
    obtain ⟨apart, distinct⟩ := List.nodup_cons.mp distinct
    rcases List.mem_cons.mp member with rfl | later
    · have kept : rest.filter (key · ≠ key one) = rest := by
        apply List.filter_eq_self.mpr
        intro other held
        have : key other ≠ key one := fun same => apart (List.mem_map.mpr ⟨other, held, same⟩)
        simpa using this
      rw [List.filter_cons_of_neg (by simp), kept]
    · have differ : key first ≠ key one := fun same => apart (List.mem_map.mpr ⟨one, later, same.symm⟩)
      rw [List.filter_cons_of_pos (by simpa using differ)]
      exact ((ih distinct later).cons first).trans (List.Perm.swap _ _ _)

theorem sum_map_more {α : Type} [DecidableEq α] (f : α → Int) {names : List α}
    (distinct : names.Nodup) {name : α} (known : name ∈ names) (more : Int) :
    (names.map (fun other => if other = name then f other + more else f other)).sum = (names.map f).sum + more := by
  rw [List.sum_map_ite_eq, List.count_eq_one_of_mem distinct known]
  simp [add_comm]

end EdgeObserver.Library
