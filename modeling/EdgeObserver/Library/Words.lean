import Mathlib

/-!
# Words

Sums of machine words that stay inside their type.
-/

set_option autoImplicit false

namespace EdgeObserver.Library

theorem toInt_add_of_range {a b : Int64} (above : -2 ^ 63 ≤ a.toInt + b.toInt)
    (below : a.toInt + b.toInt < 2 ^ 63) : (a + b).toInt = a.toInt + b.toInt := by
  rw [Int64.toInt_add]
  exact Int.bmod_eq_of_le (by omega) (by omega)

theorem toInt_sub_of_range {a b : Int64} (above : -2 ^ 63 ≤ a.toInt - b.toInt)
    (below : a.toInt - b.toInt < 2 ^ 63) : (a - b).toInt = a.toInt - b.toInt := by
  rw [Int64.toInt_sub]
  exact Int.bmod_eq_of_le (by omega) (by omega)

theorem toInt_sub_of_le {m n : Int64} (positive : ¬ n ≤ 0) (less : n.toInt ≤ m.toInt) :
    0 < n.toInt ∧ 0 ≤ (m - n).toInt ∧ (m - n).toInt = m.toInt - n.toInt := by
  have above : 0 < n.toInt := by simpa [Int64.le_iff_toInt_le] using positive
  have high := m.toInt_lt
  rw [toInt_sub_of_range (by omega) (by omega)]
  omega

theorem toInt_max (a b : Int64) : (max a b).toInt = max a.toInt b.toInt := by
  have chosen : max a b = if a ≤ b then b else a := rfl
  rw [chosen]
  by_cases le : a ≤ b
  · rw [if_pos le, max_eq_right (Int64.le_iff_toInt_le.mp le)]
  · have above : ¬ a.toInt ≤ b.toInt := fun under => le (Int64.le_iff_toInt_le.mpr under)
    rw [if_neg le, max_eq_left (by omega)]

end EdgeObserver.Library
