import EdgeObserver.ContentCoding.Ceiling
import EdgeObserver.ContentCoding.Stage

/-!
# What a decode is charged

The output buffer's charge is its capacity, which runs through the halves of the
limit; so while it grows the old buffer is at most half of the new one's limit,
and a decode ends with the account holding what it returns and nothing else.
-/

set_option autoImplicit false

namespace EdgeObserver.ContentCoding

open Library (Entry Throughout balance reserve release balance_release)

section Capacities

variable {limit current : Nat}

theorem ceilShift_le {n shift m : Nat} : ceilShift n shift ≤ m ↔ n ≤ m * 2 ^ shift := by
  have positive : 0 < 2 ^ shift := Nat.two_pow_pos shift
  have parts := Nat.div_add_mod n (2 ^ shift)
  have small := Nat.mod_lt n positive
  unfold ceilShift
  generalize n / 2 ^ shift = quotient at parts ⊢
  generalize n % 2 ^ shift = rest at parts small ⊢
  rw [Nat.mul_comm] at parts
  rcases Nat.eq_zero_or_pos rest with rfl | some_
  · simp only [ne_eq, not_true_eq_false, if_false, Nat.add_zero] at parts ⊢
    rw [← parts]
    exact (Nat.mul_le_mul_right_iff positive).symm
  · rw [if_pos (Nat.ne_of_gt some_)]
    constructor
    · intro le
      have scaled := Nat.mul_le_mul_right (2 ^ shift) le
      rw [Nat.succ_mul] at scaled
      omega
    · intro le
      by_contra more
      have scaled := Nat.mul_le_mul_right (2 ^ shift) (Nat.le_of_lt_succ (Nat.not_le.mp more))
      omega

theorem ceilShift_zero (n : Nat) : ceilShift n 0 = n := by
  simp [ceilShift]
  omega

theorem ceilShift_le_self (n shift : Nat) : ceilShift n shift ≤ n :=
  ceilShift_le.mpr (Nat.le_mul_of_pos_right n (Nat.two_pow_pos shift))

theorem ceilShift_half {shift : Nat} (below : ceilShift limit shift < limit) :
    ceilShift limit shift ≤ (limit + 1) / 2 := by
  cases shift with
  | zero => exact absurd below (by rw [ceilShift_zero]; exact Nat.lt_irrefl _)
  | succ shift =>
    refine ceilShift_le.mpr ?_
    have more : (limit + 1) / 2 * 2 ≤ (limit + 1) / 2 * 2 ^ (shift + 1) :=
      Nat.mul_le_mul_left _ (by rw [Nat.pow_succ]; have := Nat.two_pow_pos shift; omega)
    omega

def Capacity (limit capacity : Nat) : Prop := ∃ shift, capacity = ceilShift limit shift

theorem nextCapacity_of (count shift next : Nat) (is : Capacity limit next) (above : current < next) :
    Capacity limit (nextCapacity limit current count shift next) ∧
      current < nextCapacity limit current count shift next := by
  induction count generalizing shift next with
  | zero => exact ⟨is, above⟩
  | succ count ih =>
    rw [nextCapacity]
    split
    · exact ⟨is, above⟩
    · exact ih _ _ ⟨shift, rfl⟩ (by omega)

end Capacities

structure Lawful (limit most : Nat) (log : Log) : Prop where
  outputOwned : 0 ≤ balance .output log
  output : balance .output log ≤ limit + (limit + 1) / 2
  workspaceOwned : 0 ≤ balance .workspace log
  workspace : balance .workspace log ≤ most

structure Output.Held (limit most : Nat) (o : Output) (log : Log) : Prop where
  fits : o.buf.length ≤ o.capacity
  capacity : o.capacity = 0 ∨ Capacity limit o.capacity
  charge : o.charge = o.capacity
  output : balance .output log = o.charge
  workspace : balance .workspace log = most
  lawful : Throughout (Lawful limit most) log

section Held

variable {limit most : Nat} {grants : Grants} {o o' : Output} {log log' : Log}

theorem Output.Held.half (held : o.Held limit most log) (below : o.capacity < limit) :
    o.charge ≤ (limit + 1) / 2 := by
  rw [held.charge]
  rcases held.capacity with none_ | ⟨shift, is⟩
  · omega
  · rw [is] at below ⊢
    exact ceilShift_half below

theorem Output.Held.room (held : o.Held limit most log) (is : o.room limit grants log = .space o' log') :
    o'.Held limit most log' ∧ o'.buf.length < o'.capacity ∧ o'.buf = o.buf := by
  have fits := held.fits
  rcases o.room_space limit grants is with ⟨rfl, rfl, space⟩ | ⟨wanted, made, full, below, rfl, rfl⟩
  · exact ⟨held, by omega, rfl⟩
  have half := held.half below
  have out := held.output
  have work := held.workspace
  obtain ⟨next, above⟩ := nextCapacity_of 62 1 limit ⟨0, (ceilShift_zero limit).symm⟩ below
  rw [made] at next above
  have within : wanted ≤ limit := by
    obtain ⟨shift, is⟩ := next
    rw [is]
    exact ceilShift_le_self limit shift
  -- the account holds both buffers until the old one is copied
  have both : Lawful limit most (log ++ [.reserved .output wanted]) := by
    constructor <;> simp [Entry.effect, out, work] <;> omega
  have output : balance .output
      (release .output o.charge (log ++ [.reserved .output wanted])) = wanted := by
    simp [balance_release, Entry.effect, out]
  have workspace : balance .workspace
      (release .output o.charge (log ++ [.reserved .output wanted])) = most := by
    simp [balance_release, Entry.effect, work]
  have after : Lawful limit most
      (release .output o.charge (log ++ [.reserved .output wanted])) := by
    constructor <;> omega
  refine ⟨⟨?_, .inr next, rfl, output, workspace, (held.lawful.snoc both).release after⟩, full ▸ above, rfl⟩
  exact Nat.le_of_lt (Nat.lt_of_le_of_lt fits above)

theorem Output.Held.refused (held : o.Held limit most log)
    (is : o.room limit grants log = .refused log') : o.Held limit most log' := by
  obtain ⟨wanted, rfl⟩ := o.room_refused limit grants is
  have lawful := held.lawful.now
  have none_ : ∀ kind, balance kind (log ++ [Entry.refused .output wanted]) = balance kind log := by
    intro kind
    simp [Entry.effect]
  refine { held with
    output := (none_ .output).trans held.output
    workspace := (none_ .workspace).trans held.workspace
    lawful := held.lawful.snoc ?_ }
  refine ⟨?_, ?_, ?_, ?_⟩ <;> rw [none_]
  · exact lawful.outputOwned
  · exact lawful.output
  · exact lawful.workspaceOwned
  · exact lawful.workspace

theorem Output.Held.take (held : o.Held limit most log) (data : Bytes)
    (fits : data.length ≤ o.capacity - o.buf.length) :
    Output.Held limit most { o with buf := o.buf ++ data, returned := o.returned + data.length } log := by
  refine { held with fits := ?_ }
  have before := held.fits
  simp only [List.length_append]
  omega

theorem Output.Held.fill {σ : Type} (read : σ → Nat → Answer × σ) (idle : Fin 100)
    (held : o.Held limit most log) (s : σ) :
    (o.fill limit grants read idle s log).output.Held limit most (o.fill limit grants read idle s log).log :=
  Output.fill_keeps limit grants read (P := fun o _ log => o.Held limit most log)
    (fun held is => (held.room is).1) (fun held is => held.refused is) (fun _ held => held)
    (fun data held fits => held.take data fits) idle o s log held

end Held

section Stages

variable {σ : Type} {lib : Decoders σ} {limit : Nat} {grants : Grants} {P : Output → Log → Prop} {o : Output} {log : Log}

theorem gzipMembers_keeps (fills : ∀ {o log} (g : Guarded σ), P o log →
      P (o.fill limit grants (Guarded.read lib) 0 g log).output (o.fill limit grants (Guarded.read lib) 0 g log).log)
    (first : Bool) (inflater : Option σ) (input : Input) (faulted : Bool) (o : Output) (log : Log) (holds : P o log) :
    P (gzipMembers lib limit grants first inflater input faulted o log).output
      (gzipMembers lib limit grants first inflater input faulted o log).log := by
  fun_induction gzipMembers lib limit grants first inflater input faulted o log with
  | case1 => exact holds
  | case2 => exact holds
  | case3 => exact holds
  | case4 => exact holds
  | case5 first inflater input faulted o log more after found decoder n made g filled ended other =>
    exact fills g holds
  | case6 | case7 => exact fills _ holds
  | case8 first inflater input faulted o log more after found decoder n made g filled done trailer
      later trailing content checks ih =>
    exact ih (fills _ holds)

/-- Whatever filling an output keeps, a stage keeps. -/
theorem runStage_keeps (fills : ∀ {o log} (g : Guarded σ), P o log →
      P (o.fill limit grants (Guarded.read lib) 0 g log).output (o.fill limit grants (Guarded.read lib) 0 g log).log)
    (coding : Coding) (bound : Nat) (input : Input) (holds : P o log) :
    P (runStage lib limit grants coding bound input o log).output
      (runStage lib limit grants coding bound input o log).log := by
  have decoder : ∀ coding closes verdict input, P (runDecoder lib limit grants coding closes verdict input o log).output
      (runDecoder lib limit grants coding closes verdict input o log).log := by
    intro coding closes verdict input
    unfold runDecoder
    split
    · exact holds
    · exact holds
    · exact fills _ holds
  cases coding with
  | gzip => exact gzipMembers_keeps fills true none input false o log holds
  | deflate =>
    simp only [runStage, deflateStage]
    split
    · exact holds
    · exact decoder _ _ _ _
  | brotli => exact decoder _ _ _ _
  | zstd =>
    simp only [runStage, zstdStage]
    split
    · exact holds
    · exact decoder _ _ _ _

end Stages

structure Result.Settled (limit most : Nat) (r : Result) : Prop where
  workspace : balance .workspace r.log = 0
  output : balance .output r.log = r.charge
  nothing : r.outcome ≠ .decoded → r.charge = 0 ∧ r.body = none
  lawful : Throughout (Lawful limit most) r.log

section Decode

variable {σ : Type} {lib : Decoders σ} {grants : Grants}

theorem clampBound_again (bound : Int) : clampBound (clampBound bound : Int) = clampBound bound := by
  unfold clampBound
  omega

theorem workspace_clamped (coding : Coding) (input : Bytes) (bound : Int) :
    (plan coding input (clampBound bound : Int)).1 = workspace coding input bound := by
  unfold workspace plan
  rw [clampBound_again]

theorem lawful_nil (limit most : Nat) : Lawful limit most [] := ⟨by simp, by simp; omega, by simp, by simp⟩

structure Ended.Left (limit most : Nat) (e : Ended) : Prop where
  workspace : balance .workspace e.log = 0
  output : balance .output e.log = (e.output.elim 0 Output.charge : Nat)
  lawful : Throughout (Lawful limit most) e.log
  none_ : e.output = none → e.outcome ≠ .decoded

theorem brotliHeader_undecided {input : Bytes} {bound : Nat} {outcome : Outcome}
    (is : brotliHeader input bound = some outcome) : outcome ≠ .decoded := by
  unfold brotliHeader at is
  split at is
  · cases is
    decide
  split at is
  · cases is
    decide
  split at is
  · cases is
    decide
  · cases is

theorem stage_left (coding : Coding) (input : Bytes) (bound : Int) :
    (stage lib grants coding input (clampBound bound) []).Left (clampBound bound + 1)
      (workspace coding input bound) := by
  have nothing := lawful_nil (clampBound bound + 1) (workspace coding input bound)
  unfold stage
  rw [workspace_clamped]
  split
  · rename_i outcome is
    refine ⟨by simp, by simp, .nil nothing, fun _ => ?_⟩
    split at is
    · exact brotliHeader_undecided is
    · cases is
  · dsimp only
    unfold reserve
    cases grants [] .workspace (workspace coding input bound) with
    | false =>
      have refused : Lawful (clampBound bound + 1) (workspace coding input bound)
          ([] ++ [Entry.refused .workspace (workspace coding input bound)]) := by
        constructor <;> simp [Entry.effect]
        omega
      exact ⟨by simp [Entry.effect], by simp [Entry.effect], (Throughout.nil nothing).snoc refused,
        fun _ is => by cases is⟩
    | true =>
      have reserved : Lawful (clampBound bound + 1) (workspace coding input bound)
          ([] ++ [Entry.reserved .workspace (workspace coding input bound)]) := by
        constructor <;> simp [Entry.effect]
        omega
      have start : Output.Held (clampBound bound + 1) (workspace coding input bound) {}
          ([] ++ [Entry.reserved .workspace (workspace coding input bound)]) :=
        ⟨Nat.le_refl _, .inl rfl, rfl, by simp [Entry.effect], by simp [Entry.effect],
          (Throughout.nil nothing).snoc reserved⟩
      have held := @runStage_keeps σ lib _ grants (fun o log => o.Held _ _ log) _ _ (fun g held => held.fill _ 0 g)
        coding (clampBound bound) { b := input, pos := 0 } start
      have output := held.output
      have work := held.workspace
      have lawful := held.lawful.now
      rw [if_pos rfl]
      dsimp only
      generalize runStage lib (clampBound bound + 1) grants coding (clampBound bound)
        { b := input, pos := 0 } {} _ = staged at held output work lawful ⊢
      have back : balance .workspace
          (release .workspace (workspace coding input bound) staged.log) = 0 := by
        simp [balance_release, work]
      have kept : balance .output
          (release .workspace (workspace coding input bound) staged.log) = staged.output.charge := by
        simp [balance_release, output]
      refine ⟨back, kept, held.lawful.release ⟨?_, ?_, ?_, ?_⟩, fun is => by cases is⟩
      · rw [kept, ← output]
        exact lawful.outputOwned
      · rw [kept, ← output]
        exact lawful.output
      · omega
      · omega

theorem decode_settled (coding : Coding) (encoded : Bytes) (bound : Int) :
    (decode lib grants (some coding) encoded bound).Settled (clampBound bound + 1)
      (workspace coding encoded bound) := by
  have left := @stage_left σ lib grants coding encoded bound
  unfold decode
  dsimp only
  generalize stage lib grants coding encoded (clampBound bound) [] = ended at left ⊢
  obtain ⟨output, outcome, fault, log⟩ := ended
  cases output with
  | none =>
    have undecided : outcome ≠ .decoded := left.none_ rfl
    cases outcome <;> first
      | exact absurd rfl undecided
      | exact { left with nothing := fun _ => ⟨rfl, rfl⟩ }
  | some o =>
    have output : balance .output log = o.charge := left.output
    have workspace : balance .workspace log = 0 := left.workspace
    have back : balance .output (release .output o.charge log) = 0 := by
      simp [balance_release, output]
    have none_ : balance .workspace (release .output o.charge log) = 0 := by
      simp [balance_release, workspace]
    have lawful := left.lawful.release (show Lawful _ _ (release .output o.charge log) from
      ⟨by omega, by omega, by omega, by omega⟩)
    cases outcome <;> first
      | exact ⟨workspace, output, fun other => absurd rfl other, left.lawful⟩
      | exact ⟨none_, back, fun _ => ⟨rfl, rfl⟩, lawful⟩

end Decode

end EdgeObserver.ContentCoding
