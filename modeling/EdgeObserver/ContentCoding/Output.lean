import EdgeObserver.ContentCoding.Bounds
import EdgeObserver.Library.Reservations

/-!
# A stage's output

The buffer a decoder is read into, grown through halves of its limit with each
new buffer reserved before the one it replaces is given back.
-/

set_option autoImplicit false

namespace EdgeObserver.ContentCoding

open Library (Entry reserve release)

inductive Outcome where
  | decoded
  | identity
  | decodingFailed
  | decodedTooLarge
  | refused
  | decodingTooCostly
  deriving DecidableEq

inductive ChargeKind where
  | workspace
  | output
  deriving DecidableEq

abbrev Log := List (Entry ChargeKind)

/-- Whether a charge is granted, by all that was asked before. -/
abbrev Grants := Log → ChargeKind → Nat → Bool

inductive Failure where
  | eof
  | tooCostly
  | windowExceeded
  | sizeExceeded
  | decoderFault
  | shortBuffer
  | noProgress
  | other
  deriving DecidableEq

inductive Answer where
  | overrun
  | read (data : Bytes) (error : Option Failure)

def ceilShift (n shift : Nat) : Nat := n / 2 ^ shift + if n % 2 ^ shift ≠ 0 then 1 else 0

def firstCapacity : Nat := 4096

/-- The capacity after one: the smallest of the limit, its half, its quarter and
so on that is above it and not below the first capacity, or the limit. -/
def nextCapacity (limit current : Nat) : Nat → Nat → Nat → Nat
  | 0, _, next => next
  | count + 1, shift, next =>
    let smaller := ceilShift limit shift
    if smaller ≤ current ∨ smaller < firstCapacity then next
    else nextCapacity limit current count (shift + 1) smaller

structure Output where
  buf : Bytes := []
  capacity : Nat := 0
  charge : Nat := 0
  returned : Nat := 0

section Fill

variable (limit : Nat) (grants : Grants)

def Output.grow (o : Output) (log : Log) : Option Output × Log :=
  let next := nextCapacity limit o.capacity 62 1 limit
  let (granted, log) := reserve grants .output next log
  if granted then
    (some { o with capacity := next, charge := next }, release .output o.charge log)
  else (none, log)

inductive Room where
  | full
  | refused (log : Log)
  | space (o : Output) (log : Log)

def Output.room (o : Output) (log : Log) : Room :=
  if o.buf.length = o.capacity then
    if o.capacity ≥ limit then .full
    else
      match o.grow limit grants log with
      | (none, log) => .refused log
      | (some o, log) => .space o log
  else .space o log

section Room

variable {o o' : Output} {log log' : Log}

/-- A buffer with room left is kept, and a full one below the limit replaced by
one of the next capacity. -/
theorem Output.room_space (is : o.room limit grants log = .space o' log') :
    (o' = o ∧ log' = log ∧ o.buf.length ≠ o.capacity) ∨
      ∃ next, nextCapacity limit o.capacity 62 1 limit = next ∧ o.buf.length = o.capacity ∧ o.capacity < limit ∧
        o' = { o with capacity := next, charge := next } ∧
        log' = release .output o.charge (log ++ [.reserved .output next]) := by
  unfold Output.room Output.grow reserve at is
  split at is
  · rename_i full
    split at is
    · cases is
    rename_i below
    refine .inr ⟨_, rfl, full, Nat.not_le.mp below, ?_⟩
    cases granted : grants log .output (nextCapacity limit o.capacity 62 1 limit) with
    | false => simp [granted] at is
    | true =>
      simp only [granted, if_true, Room.space.injEq] at is
      exact ⟨is.1.symm, is.2.symm⟩
  · rename_i space
    cases is
    exact .inl ⟨rfl, rfl, space⟩

theorem Output.room_refused (is : o.room limit grants log = .refused log') :
    ∃ next, log' = log ++ [.refused .output next] := by
  unfold Output.room Output.grow reserve at is
  split at is
  · split at is
    · cases is
    cases granted : grants log .output (nextCapacity limit o.capacity 62 1 limit) with
    | false =>
      simp only [granted, Bool.false_eq_true, if_false, Room.refused.injEq] at is
      exact ⟨_, is.symm⟩
    | true => simp [granted] at is
  · cases is

theorem Output.room_buf (is : o.room limit grants log = .space o' log') : o'.buf = o.buf := by
  rcases o.room_space limit grants is with ⟨rfl, -⟩ | ⟨next, -, -, -, rfl, -⟩ <;> rfl

end Room

variable {σ : Type} (read : σ → Nat → Answer × σ)

structure Filled (σ : Type) where
  outcome : Outcome
  error : Option Failure
  output : Output
  reader : σ
  log : Log

/-- Reads a decoder into the buffer until it ends, the limit is reached, growth is
refused or the decoder fails. A decoder that gives nothing and no error a hundred
times makes no progress. -/
def Output.fill (idle : Fin 100) (o : Output) (s : σ) (log : Log) : Filled σ :=
  match found : o.room limit grants log with
  | .full => { outcome := .decodedTooLarge, error := none, output := o, reader := s, log }
  | .refused log => { outcome := .refused, error := none, output := o, reader := s, log }
  | .space o' log =>
    match read s (o'.capacity - o'.buf.length) with
    | (.overrun, s) =>
      { outcome := .decodingFailed, error := some .shortBuffer, output := o', reader := s, log }
    | (.read data error, s) =>
      if o'.capacity - o'.buf.length < data.length then
        { outcome := .decodingFailed, error := some .shortBuffer, output := o', reader := s, log }
      else
        let o'' := { o' with buf := o'.buf ++ data, returned := o'.returned + data.length }
        if full : limit ≤ (o'.buf ++ data).length then
          { outcome := .decodedTooLarge, error := none, output := o'', reader := s, log }
        else
          match error with
          | some .eof => { outcome := .decoded, error := none, output := o'', reader := s, log }
          | some why =>
            { outcome := .decodingFailed, error := some why, output := o'', reader := s, log }
          | none =>
            if empty : data = [] then
              if last : idle.val + 1 = 100 then
                { outcome := .decodingFailed, error := some .noProgress, output := o'',
                  reader := s, log }
              else Output.fill ⟨idle.val + 1, by omega⟩ o'' s log
            else Output.fill 0 o'' s log
termination_by (limit - o.buf.length, 100 - idle.val)
decreasing_by
  · have same := Output.room_buf limit grants found
    subst empty
    simp only [List.append_nil, same]
    exact Prod.Lex.right _ (by omega)
  · have same := Output.room_buf limit grants found
    have more := List.length_pos_of_ne_nil empty
    rw [List.length_append] at full
    refine Prod.Lex.left _ _ ?_
    simp only [same, List.length_append] at full ⊢
    omega

theorem Output.fill_keeps {P : Output → σ → Log → Prop}
    (grows : ∀ {o o' s log log'}, P o s log → o.room limit grants log = .space o' log' → P o' s log')
    (refuses : ∀ {o s log log'}, P o s log → o.room limit grants log = .refused log' → P o s log')
    (reads : ∀ {o s log} (space : Nat), P o s log → P o (read s space).2 log)
    (takes : ∀ {o s log} (data : Bytes), P o s log → data.length ≤ o.capacity - o.buf.length →
      P { o with buf := o.buf ++ data, returned := o.returned + data.length } s log)
    (idle : Fin 100) (o : Output) (s : σ) (log : Log) (holds : P o s log) :
    P (o.fill limit grants read idle s log).output (o.fill limit grants read idle s log).reader
      (o.fill limit grants read idle s log).log := by
  have answered : ∀ {o o' s s' log log' answer}, P o s log → o.room limit grants log = .space o' log' →
      read s (o'.capacity - o'.buf.length) = (answer, s') → P o' s' log' := by
    intro o o' s s' log log' answer holds found is
    have after := reads (o'.capacity - o'.buf.length) (grows holds found)
    rw [is] at after
    exact after
  fun_induction Output.fill limit grants read idle o s log with
  | case1 idle o s log full => exact holds
  | case2 idle o s log later refused => exact refuses holds refused
  | case3 idle o s log o' later found s' is | case4 idle o s log o' later found data error s' is past =>
    exact answered holds found is
  | case5 idle o s log o' later found data error s' is fits o'' full
  | case6 idle o s log o' later found data s' fits o'' room is
  | case7 idle o s log o' later found data s' fits o'' room why other is =>
    exact takes data (answered holds found is) (Nat.not_lt.mp fits)
  | case8 idle o s log o' later found s' last fits o'' room is =>
    exact takes _ (answered holds found is) (Nat.not_lt.mp fits)
  | case9 idle o s log o' later found s' more fits o'' room is ih =>
    exact ih (takes _ (answered holds found is) (Nat.not_lt.mp fits))
  | case10 idle o s log o' later found data s' fits o'' room some_ is ih =>
    exact ih (takes data (answered holds found is) (Nat.not_lt.mp fits))

end Fill

end EdgeObserver.ContentCoding
