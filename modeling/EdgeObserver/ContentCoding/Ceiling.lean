import EdgeObserver.ContentCoding.Bounds

/-!
# The ceiling of a workspace

A workspace rounds what the headers declare up to what the allocator takes, and
its ceiling rounds the most they may declare. Rounding keeps the order except
where a size class gives way to pages: a small object of the largest class takes
sixteen bytes more than five pages.
-/

set_option autoImplicit false

namespace EdgeObserver.ContentCoding

def Crosses (n m : Nat) : Prop := n ≤ sizeClassLimit ∧ sizeClassLimit < m ∧ m ≤ 5 * pageSize

theorem allocated_small {n : Nat} (some_ : 0 < n) (small : n ≤ sizeClassLimit) :
    allocated n = n + n / 4 + 16 := by
  rw [allocated, if_neg (Nat.ne_of_gt some_), if_pos small]

theorem allocated_large {n : Nat} (large : sizeClassLimit < n) :
    allocated n = (n + pageSize - 1) / pageSize * pageSize := by
  rw [allocated, if_neg (Nat.ne_of_gt (Nat.zero_lt_of_lt large)), if_neg (Nat.not_le.mpr large)]

theorem allocated_mono {n m : Nat} (le : n ≤ m) (apart : ¬ Crosses n m) :
    allocated n ≤ allocated m := by
  unfold Crosses at apart
  rcases Nat.eq_zero_or_pos n with rfl | some_
  · exact Nat.zero_le _
  rcases Nat.lt_or_ge sizeClassLimit n with large | small
  · rw [allocated_large large, allocated_large (Nat.lt_of_lt_of_le large le)]
    unfold pageSize
    omega
  · rw [allocated_small some_ small]
    rcases Nat.lt_or_ge sizeClassLimit m with large' | small'
    · rw [allocated_large large']
      unfold sizeClassLimit pageSize at *
      omega
    · rw [allocated_small (Nat.lt_of_lt_of_le some_ le) small']
      omega

section Brotli

theorem brotliWindowBits_range {first : UInt8} {bits : Nat}
    (is : brotliWindowBits first = some bits) : 10 ≤ bits ∧ bits ≤ 24 := by
  simp only [brotliWindowBits] at is
  split at is
  · cases is
    decide
  split at is
  · cases is
    omega
  split at is
  · cases is
    decide
  · cases is
  rename_i zero one
  cases is
  have low : first.toNat / 16 % 8 ≠ 0 := zero
  have high : first.toNat / 16 % 8 ≠ 1 := one
  omega

theorem brotliRingFrom_ge (most count bits ring : Nat) (le : ring ≤ 2 ^ bits) :
    ring ≤ brotliRingFrom most count bits ring ∧
      ∀ other, bits ≤ other → other < bits + count → 2 ^ other - 16 ≤ most →
        2 ^ other ≤ brotliRingFrom most count bits ring := by
  induction count generalizing bits ring with
  | zero => exact ⟨Nat.le_refl _, fun other low high => absurd high (by omega)⟩
  | succ count ih =>
    have next : 2 ^ bits ≤ 2 ^ (bits + 1) := Nat.pow_le_pow_right (by decide) (Nat.le_succ bits)
    obtain ⟨first, rest⟩ := ih (bits + 1) (2 ^ bits) next
    rw [brotliRingFrom]
    split
    · rename_i past
      refine ⟨Nat.le_refl _, fun other low high admitted => ?_⟩
      have up : 2 ^ bits ≤ 2 ^ other := Nat.pow_le_pow_right (by decide) low
      omega
    · refine ⟨Nat.le_trans le first, fun other low high admitted => ?_⟩
      rcases Nat.lt_or_eq_of_le low with later | rfl
      · exact rest other later (by omega) admitted
      · exact first

theorem brotliRingFrom_power (most count bits ring : Nat) (power : ∃ i ≤ bits + count, ring = 2 ^ i) :
    ∃ i ≤ bits + count, brotliRingFrom most count bits ring = 2 ^ i := by
  induction count generalizing bits ring with
  | zero => exact power
  | succ count ih =>
    rw [brotliRingFrom]
    split
    · exact power
    · have later := ih (bits + 1) (2 ^ bits) ⟨bits, by omega, rfl⟩
      rwa [Nat.add_right_comm] at later

theorem brotliRingHeld_mono {i j : Nat} (le : 2 ^ i ≤ 2 ^ j) (few : j ≤ 25) :
    brotliRingHeld (2 ^ i) ≤ brotliRingHeld (2 ^ j) := by
  have all : ∀ j ≤ 25, ∀ i ≤ j, brotliRingHeld (2 ^ i) ≤ brotliRingHeld (2 ^ j) := by decide
  exact all j few i ((Nat.pow_le_pow_iff_right (by decide)).mp le)

theorem brotliRing_le {bits bound : Nat} (range : 10 ≤ bits ∧ bits ≤ 24)
    (admitted : 2 ^ bits - 16 ≤ max bound brotliSmallestWindow) :
    brotliRingHeld (brotliRing bits) ≤ brotliRingHeld (brotliLargestRing bound) := by
  obtain ⟨low, high⟩ := range
  obtain ⟨first, rest⟩ := brotliRingFrom_ge (max bound brotliSmallestWindow) 14 11 (2 ^ 10) (by decide)
  obtain ⟨j, few, is⟩ := brotliRingFrom_power (max bound brotliSmallestWindow) 14 11 (2 ^ 10) ⟨10, by decide, rfl⟩
  have le : 2 ^ bits ≤ brotliLargestRing bound := by
    rcases Nat.lt_or_eq_of_le low with later | rfl
    · exact rest bits later (by omega) admitted
    · exact first
  unfold brotliLargestRing brotliRing at *
  rw [is] at le ⊢
  exact brotliRingHeld_mono le few

end Brotli

section Zstd

variable {total limit : Nat}

theorem zstdHistory_le {window : Nat} (admitted : window ≤ limit) :
    zstdHistory window ≤ zstdHistoryEnvelope limit := by
  unfold zstdHistoryEnvelope zstdHistory zstdLargeWindow
  split
  · refine Nat.le_trans ?_ (Nat.le_max_right _ _)
    rw [if_pos (by omega)]
    omega
  · refine Nat.le_trans ?_ (Nat.le_max_left _ _)
    rw [if_neg (by omega)]
    omega

structure Walk.Within (limit : Nat) (w : Walk) : Prop where
  retained : w.retained ≤ zstdHistoryEnvelope limit
  held : w.held ≤ 2 * allocated (zstdHistoryEnvelope limit)

def JustPast (limit : Nat) : Prop := sizeClassLimit < 2 * limit ∧ 2 * limit ≤ 5 * pageSize

theorem allocated_envelope {n : Nat} (clear : ¬ JustPast limit) (le : n ≤ zstdHistoryEnvelope limit) :
    allocated n ≤ allocated (zstdHistoryEnvelope limit) := by
  refine allocated_mono le fun crosses => clear ?_
  obtain ⟨_, past, few⟩ := crosses
  unfold zstdHistoryEnvelope zstdHistory zstdLargeWindow at past few
  unfold sizeClassLimit pageSize at *
  unfold JustPast sizeClassLimit pageSize
  split at past <;> split at past <;> simp_all <;> omega

theorem Walk.Within.history {w w' : Walk} {need : Nat} (clear : ¬ JustPast limit)
    (within : w.Within limit) (le : need ≤ zstdHistoryEnvelope limit)
    (is : w.history need = some w') : w'.Within limit := by
  unfold Walk.history at is
  split at is
  · split at is
    · cases is
    cases is
    refine ⟨le, Nat.max_le.mpr ⟨within.held, ?_⟩⟩
    have old := allocated_envelope clear within.retained
    have new := allocated_envelope clear le
    omega
  · cases is
    exact within

theorem zstdWalk_within (clear : ¬ JustPast limit) (fuel : Nat) (b : Bytes) (w : Walk) (within : w.Within limit) :
    (zstdWalk total limit fuel b w).held ≤ 2 * allocated (zstdHistoryEnvelope limit) := by
  induction fuel generalizing b w with
  | zero => exact within.held
  | succ fuel ih =>
    rw [zstdWalk]
    dsimp only
    split
    · exact within.held
    split
    · split
      · exact within.held
      · split
        · exact within.held
        · exact ih _ _ { within with }
    · split
      · exact within.held
      split
      · exact within.held
      split
      · exact within.held
      rename_i admitted
      split
      · exact within.held
      rename_i next is
      have later := within.history clear (zstdHistory_le (Nat.not_lt.mp admitted)) is
      split
      · exact later.held
      · exact ih _ _ { later with }

end Zstd

def ClearBound (coding : Coding) (bound : Int) : Prop := coding = .zstd → ¬ (16384 < bound ∧ bound ≤ 20480)

theorem zstdWindow_clear {bound : Int} (clear : ClearBound .zstd bound) :
    ¬ JustPast (zstdWindow (clampBound bound)) := by
  have apart := clear rfl
  unfold JustPast zstdWindow clampBound maxBound zstdSmallestWindow sizeClassLimit pageSize
  omega

theorem workspace_le_ceiling {coding : Coding} {bound : Int} (clear : ClearBound coding bound)
    (input : Bytes) : workspace coding input bound ≤ workspaceCeiling coding bound := by
  cases coding with
  | gzip | deflate => exact Nat.le_refl _
  | brotli =>
    simp only [workspace, plan, workspaceCeiling]
    split
    · exact Nat.zero_le _
    split
    · exact Nat.zero_le _
    rename_i is
    split
    · exact Nat.zero_le _
    rename_i admitted
    have ring := brotliRing_le (brotliWindowBits_range is) (Nat.not_lt.mp admitted)
    dsimp only
    omega
  | zstd =>
    have held : (zstdPlanned input (zstdWindow (clampBound bound))).held ≤ _ :=
      zstdWalk_within (zstdWindow_clear clear) _ input {} ⟨Nat.zero_le _, Nat.zero_le _⟩
    simp only [workspace, plan, workspaceCeiling]
    omega

section Fuel

theorem zstdBlocks_fuel (fuel : Nat) (b : Bytes) (read : Nat) (enough : b.length < fuel) :
    zstdBlocks fuel b read = zstdBlocks (fuel + 1) b read := by
  induction fuel generalizing b read with
  | zero => exact absurd enough (Nat.not_lt_zero _)
  | succ fuel ih =>
    rw [zstdBlocks]
    conv => rhs; rw [zstdBlocks]
    by_cases short : b.length < 3
    · rw [if_pos short, if_pos short]
    · rw [if_neg short, if_neg short]
      dsimp only
      rw [ih _ _ (by simp only [List.length_drop]; omega)]

theorem zstdBlocks_shorter {fuel read : Nat} {b rest : Bytes}
    (is : (zstdBlocks fuel b read).1 = some rest) : rest.length < b.length := by
  induction fuel generalizing b read with
  | zero => cases is
  | succ fuel ih =>
    rw [zstdBlocks] at is
    dsimp only at is
    generalize (if littleEndian (b.take 3) / 2 % 4 = 1 then 1
      else littleEndian (b.take 3) / 8) = size at is
    split at is
    · cases is
    split at is
    · cases is
    split at is
    · cases is
    split at is
    · cases is
      simp only [List.length_drop]
      omega
    · have later := ih is
      simp only [List.length_drop] at later
      omega

theorem zstdFrameEnd_shorter {b rest : Bytes} {checksum : Bool} {blocks : Nat}
    (is : zstdFrameEnd b checksum = (some rest, blocks)) : rest.length < b.length := by
  unfold zstdFrameEnd at is
  generalize found : zstdBlocks (b.length + 1) b 0 = walked at is
  obtain ⟨last, read⟩ := walked
  cases last with
  | none => cases is
  | some last =>
    have shorter : last.length < b.length := zstdBlocks_shorter (by rw [found])
    dsimp only at is
    split at is
    · split at is
      · cases is
      · cases is
        simp only [List.length_drop]
        omega
    · cases is
      exact shorter

theorem zstdWalk_fuel {total limit : Nat} (fuel : Nat) (b : Bytes) (w : Walk) (enough : b.length < fuel) :
    zstdWalk total limit fuel b w = zstdWalk total limit (fuel + 1) b w := by
  induction fuel generalizing b w with
  | zero => exact absurd enough (Nat.not_lt_zero _)
  | succ fuel ih =>
    rw [zstdWalk]
    conv => rhs; rw [zstdWalk]
    by_cases short : b.length < 4
    · rw [if_pos short, if_pos short]
    rw [if_neg short, if_neg short]
    dsimp only
    rw [ih (b.drop _) _ (by simp only [List.length_drop]; omega)]
    generalize (b.getD 4 0).toNat = descriptor
    generalize found : zstdFrameEnd (b.drop (zstdHeaderLength descriptor)) (hasChecksum descriptor) = walked
    obtain ⟨last, blocks⟩ := walked
    cases last with
    | none => rfl
    | some rest =>
      have shorter := zstdFrameEnd_shorter found
      simp only [List.length_drop] at shorter
      cases w.history (zstdHistory ((zstdDeclaredWindow b).getD 0)) with
      | none => rfl
      | some next =>
        dsimp only
        rw [ih rest _ (by omega)]

end Fuel

end EdgeObserver.ContentCoding
