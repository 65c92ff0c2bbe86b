import EdgeObserver.ContentCoding.Charged

/-!
# What an output allocates

A stage's output is given one buffer after another on its way to its bound. The
bounds predict what they take from the bound alone, by running through the same
capacities.
-/

set_option autoImplicit false

namespace EdgeObserver.ContentCoding

open Library (release)

def outputGrowthFrom (limit : Nat) : Nat → Nat → Nat → Nat
  | 0, sum, _ => sum
  | shift + 1, sum, previous =>
    let capacity := ceilShift limit shift
    if capacity < firstCapacity ∧ capacity < limit then outputGrowthFrom limit shift sum previous
    else if capacity > previous then outputGrowthFrom limit shift (sum + allocated capacity) capacity
    else outputGrowthFrom limit shift sum previous

def outputGrowth (bound : Nat) : Nat := outputGrowthFrom (bound + 1) 63 0 0

/-! ## The capacities an output runs through -/

section Capacities

variable {limit current : Nat}

theorem ceilShift_anti {shift later : Nat} (le : shift ≤ later) : ceilShift limit later ≤ ceilShift limit shift := by
  have covers : limit ≤ ceilShift limit shift * 2 ^ shift := ceilShift_le.mp (Nat.le_refl _)
  exact ceilShift_le.mpr (Nat.le_trans covers (Nat.mul_le_mul_left _ (Nat.pow_le_pow_right Nat.two_pos le)))

def Admitted (limit capacity : Nat) : Prop := firstCapacity ≤ capacity ∨ limit ≤ capacity

/-- Past a shift whose capacity is too small, every other is. -/
theorem least_of_small {shift next s : Nat} (within : next ≤ limit) (before : ∀ s < shift, next ≤ ceilShift limit s)
    (small : ceilShift limit shift ≤ current ∨ ceilShift limit shift < firstCapacity)
    (above : current < ceilShift limit s) (is : Admitted limit (ceilShift limit s)) : next ≤ ceilShift limit s := by
  rcases Nat.lt_or_ge s shift with earlier | later
  · exact before s earlier
  · have less : ceilShift limit s ≤ ceilShift limit shift := ceilShift_anti later
    unfold Admitted at is
    omega

theorem nextCapacity_least {count shift next : Nat} (admitted : Admitted limit next) (within : next ≤ limit)
    (before : ∀ s < shift, next ≤ ceilShift limit s) (last : ceilShift limit (shift + count) < firstCapacity) :
    Admitted limit (nextCapacity limit current count shift next) ∧
      ∀ s, current < ceilShift limit s → Admitted limit (ceilShift limit s) →
        nextCapacity limit current count shift next ≤ ceilShift limit s := by
  induction count generalizing shift next with
  | zero => exact ⟨admitted, fun s => least_of_small within before (.inr last)⟩
  | succ count ih =>
    rw [nextCapacity]
    split
    · rename_i small
      exact ⟨admitted, fun s => least_of_small within before small⟩
    · rename_i more
      rw [not_or, Nat.not_le, Nat.not_lt] at more
      refine ih (.inl more.2) (ceilShift_le_self limit shift) (fun s earlier => ?_) ?_
      · exact ceilShift_anti (Nat.le_of_lt_succ earlier)
      · rwa [Nat.succ_add_eq_add_succ]

/-- From one capacity to the limit, each the next after the one before. -/
inductive Grows (limit : Nat) : Nat → List Nat → Prop
  | whole : Grows limit limit []
  | step {current : Nat} {rest : List Nat} (below : current < limit)
      (more : Grows limit (nextCapacity limit current 62 1 limit) rest) :
      Grows limit current (nextCapacity limit current 62 1 limit :: rest)

theorem nextCapacity_spec (small : ceilShift limit 63 < firstCapacity) :
    Admitted limit (nextCapacity limit current 62 1 limit) ∧
      ∀ s, current < ceilShift limit s → Admitted limit (ceilShift limit s) →
        nextCapacity limit current 62 1 limit ≤ ceilShift limit s := by
  refine nextCapacity_least (.inr (Nat.le_refl _)) (Nat.le_refl _) (fun s first => ?_) small
  cases Nat.lt_one_iff.mp first
  rw [ceilShift_zero]

theorem outputGrowthFrom_eq {count sum : Nat} {grown : List Nat} (small : ceilShift limit 63 < firstCapacity)
    (grows : Grows limit current grown)
    (past : ∀ s, count ≤ s → s < 63 → Admitted limit (ceilShift limit s) → ceilShift limit s ≤ current) :
    outputGrowthFrom limit count sum current = sum + (grown.map allocated).sum := by
  induction count generalizing sum current grown with
  | zero =>
    have whole := past 0 (Nat.le_refl _) (by decide) (.inr (Nat.le_of_eq (ceilShift_zero limit).symm))
    rw [ceilShift_zero] at whole
    cases grows with
    | whole => rfl
    | step below => omega
  | succ shift ih =>
    have passes (le : Admitted limit (ceilShift limit shift) → ceilShift limit shift ≤ current) (s : Nat)
        (reached : shift ≤ s) (looped : s < 63) (is : Admitted limit (ceilShift limit s)) :
        ceilShift limit s ≤ current := by
      rcases Nat.eq_or_lt_of_le reached with rfl | later
      · exact le is
      · exact past s later looped is
    have self := ceilShift_le_self limit shift
    rw [outputGrowthFrom]
    split
    · rename_i unused
      exact ih grows (passes fun is => by unfold Admitted at is; omega)
    rename_i used
    have is : Admitted limit (ceilShift limit shift) := by unfold Admitted; omega
    split
    · rename_i above
      cases grows with
      | whole => omega
      | step below more =>
        obtain ⟨admitted, least⟩ := @nextCapacity_spec limit current small
        obtain ⟨⟨s, made⟩, larger⟩ := nextCapacity_of 62 1 limit ⟨0, (ceilShift_zero limit).symm⟩ below
        have same : nextCapacity limit current 62 1 limit = ceilShift limit shift := by
          refine Nat.le_antisymm (least shift above is) ?_
          rw [made] at admitted larger ⊢
          rcases Nat.lt_or_ge shift s with later | earlier
          · rcases Nat.lt_or_ge s 63 with looped | beyond
            · exact absurd (past s later looped admitted) (Nat.not_le_of_lt larger)
            · have less : ceilShift limit s ≤ ceilShift limit 63 := ceilShift_anti beyond
              unfold Admitted at admitted
              omega
          · exact ceilShift_anti earlier
        rw [same] at more ⊢
        rw [ih more fun s later _ _ => ceilShift_anti later, List.map_cons, List.sum_cons, Nat.add_assoc]
    · rename_i most
      exact ih grows (passes fun _ => Nat.not_lt.mp most)

end Capacities

/-! ## What filling an output reserves -/

def reservations (log : Log) : List Nat :=
  log.filterMap fun
    | .reserved .output n => some n
    | _ => none

/-- What was reserved since `before` is what leads from nothing to the buffer held. -/
structure Output.Grown (limit : Nat) (before : List Nat) (o : Output) (log : Log) : Prop where
  fits : o.buf.length ≤ o.capacity
  capacity : o.capacity = 0 ∨ Capacity limit o.capacity ∧ Admitted limit o.capacity
  reserved : ∃ grown, reservations log = before ++ grown ∧
    ∀ rest, Grows limit o.capacity rest → Grows limit 0 (grown ++ rest)

section Grown

variable {limit : Nat} {before : List Nat} {grants : Grants} {o o' : Output} {log log' : Log}

theorem Output.Grown.room (small : ceilShift limit 63 < firstCapacity) (grown : o.Grown limit before log)
    (is : o.room limit grants log = .space o' log') : o'.Grown limit before log' := by
  rcases o.room_space limit grants is with ⟨rfl, rfl, -⟩ | ⟨_, rfl, full, below, rfl, rfl⟩
  · exact grown
  obtain ⟨next, above⟩ := nextCapacity_of 62 1 limit ⟨0, (ceilShift_zero limit).symm⟩ below
  obtain ⟨so_far, is, more⟩ := grown.reserved
  refine ⟨Nat.le_of_lt (Nat.lt_of_le_of_lt grown.fits above), .inr ⟨next, (nextCapacity_spec small).1⟩,
    so_far ++ [nextCapacity limit o.capacity 62 1 limit], ?_, fun rest grows => ?_⟩
  · rw [← List.append_assoc, ← is]
    unfold release
    split <;> simp [reservations]
  · rw [List.append_assoc]
    exact more _ (.step below grows)

theorem Output.Grown.refused (grown : o.Grown limit before log)
    (is : o.room limit grants log = .refused log') : o.Grown limit before log' := by
  obtain ⟨wanted, rfl⟩ := o.room_refused limit grants is
  refine { grown with reserved := ?_ }
  simpa [reservations] using grown.reserved

theorem Output.Grown.fill {σ : Type} (read : σ → Nat → Answer × σ) (small : ceilShift limit 63 < firstCapacity)
    (grown : o.Grown limit before log) (s : σ) :
    (o.fill limit grants read 0 s log).output.Grown limit before (o.fill limit grants read 0 s log).log := by
  refine Output.fill_keeps limit grants read (P := fun o _ log => o.Grown limit before log)
    (fun grown is => grown.room small is) (fun grown is => grown.refused is) (fun _ grown => grown)
    (fun data grown room => { grown with fits := ?_ }) 0 o s log grown
  have fits := grown.fits
  simp only [List.length_append]
  omega

theorem Output.Grown.whole (grown : o.Grown (limit + 1) before log) (held : 0 < o.capacity)
    (reached : limit ≤ o.buf.length) : o.capacity = limit + 1 := by
  have fits := grown.fits
  rcases grown.capacity with none_ | ⟨⟨shift, is⟩, admitted⟩
  · omega
  have within := ceilShift_le_self (limit + 1) shift
  by_contra less
  have half := @ceilShift_half (limit + 1) shift (by omega)
  unfold Admitted firstCapacity at admitted
  omega

end Grown

/-- However a stage comes to its bound, the buffers reserved on the way take what
is predicted from the bound. -/
theorem growth_predicted {σ : Type} (lib : Decoders σ) (grants : Grants) (coding : Coding) (input : Input) (bound : Int)
    (log : Log) {staged : Staged}
    (ran : runStage lib (clampBound bound + 1) grants coding (clampBound bound) input {} log = staged)
    (held : 0 < staged.output.capacity) (reached : clampBound bound ≤ staged.output.buf.length) :
    ∃ grown, reservations staged.log = reservations log ++ grown ∧
      outputGrowth (clampBound bound) = (grown.map allocated).sum := by
  have small : ceilShift (clampBound bound + 1) 63 < firstCapacity := by
    have most : clampBound bound ≤ maxBound := Nat.min_le_right _ _
    have one : ceilShift (clampBound bound + 1) 63 ≤ 1 := ceilShift_le.mpr (by unfold maxBound at most; omega)
    exact Nat.lt_of_le_of_lt one (by decide)
  have empty : ({} : Output).Grown (clampBound bound + 1) (reservations log) log :=
    ⟨Nat.le_refl _, .inl rfl, [], (List.append_nil _).symm, fun _ grows => grows⟩
  have grown := @runStage_keeps σ lib _ grants (fun o log => o.Grown _ _ log) _ _ (fun g grown => grown.fill _ small g)
    coding (clampBound bound) input empty
  rw [ran] at grown
  have whole := grown.whole held reached
  obtain ⟨grown, is, leads⟩ := grown.reserved
  have grows := leads [] (whole ▸ .whole)
  rw [List.append_nil] at grows
  refine ⟨grown, is, ?_⟩
  rw [outputGrowth, outputGrowthFrom_eq small grows fun s from_ looped => absurd looped (Nat.not_lt.mpr from_),
    Nat.zero_add]

def handing : Decoders Unit where
  make _ _ := (.made (), 0)
  reset _ _ := (.fault, 0)
  read _ _ _ := (.answered (.read [104, 105] none) (), 0)
  closeFaults _ _ := false
  crc32 _ := 0
  adler32 _ := 0

theorem growth_predicted_whole :
    ∃ grown, reservations [.reserved .output 2] = reservations [] ++ grown ∧
      outputGrowth (clampBound 1) = (grown.map allocated).sum := by
  have filled : runStage handing (clampBound 1 + 1) (fun _ _ _ => true) .brotli (clampBound 1) ⟨[], 0⟩ {} [] =
      ⟨.decodedTooLarge, false, ⟨[104, 105], 2, 2, 2⟩, [.reserved .output 2]⟩ := by
    rw [runStage, brotliStage, runDecoder]
    dsimp only [handing]
    rw [Output.fill]
    rfl
  exact growth_predicted handing _ .brotli ⟨[], 0⟩ 1 [] filled (by decide) (by decide)

end EdgeObserver.ContentCoding
