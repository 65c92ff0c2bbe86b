import Mathlib

/-!
# Ledgers

An account that is asked before anything is retained. It answers each request
from a list of answers fixed in advance, grants whatever is asked past the end
of that list, and keeps every movement. Any finite run of a client against any
account is a run against one of these.
-/

set_option autoImplicit false

namespace EdgeObserver.Library

inductive Movement (Amount : Type) where
  | granted (amount : Amount)
  | refused (amount : Amount)
  | released (amount : Amount)

def Movement.out {Amount : Type} [Zero Amount] [Neg Amount] : Movement Amount → Amount
  | .granted amount => amount
  | .refused _ => 0
  | .released amount => -amount

structure Ledger (Amount : Type) where
  answers : List Bool := []
  log : List (Movement Amount) := []

namespace Ledger

variable {Amount : Type}

def reserve (ledger : Ledger Amount) (amount : Amount) : Bool × Ledger Amount :=
  match ledger.answers with
  | [] => (true, { ledger with log := .granted amount :: ledger.log })
  | true :: answers => (true, { answers, log := .granted amount :: ledger.log })
  | false :: answers => (false, { answers, log := .refused amount :: ledger.log })

def release (ledger : Ledger Amount) (amount : Amount) : Ledger Amount :=
  { ledger with log := .released amount :: ledger.log }

def releaseAll (ledger : Ledger Amount) (amounts : List Amount) : Ledger Amount := amounts.foldl release ledger

def Grants (ledger : Ledger Amount) : Prop := ledger.answers = []

@[simp] theorem release_answers (ledger : Ledger Amount) (amount : Amount) :
    (ledger.release amount).answers = ledger.answers := rfl

@[simp] theorem release_log (ledger : Ledger Amount) (amount : Amount) :
    (ledger.release amount).log = .released amount :: ledger.log := rfl

@[simp] theorem releaseAll_nil (ledger : Ledger Amount) : ledger.releaseAll [] = ledger := rfl

@[simp] theorem releaseAll_cons (ledger : Ledger Amount) (amount : Amount) (amounts : List Amount) :
    ledger.releaseAll (amount :: amounts) = (ledger.release amount).releaseAll amounts := rfl

@[simp] theorem releaseAll_answers (ledger : Ledger Amount) (amounts : List Amount) :
    (ledger.releaseAll amounts).answers = ledger.answers := by
  induction amounts generalizing ledger with
  | nil => rfl
  | cons amount amounts ih => simpa using ih (ledger.release amount)

theorem reserve_refused {ledger after : Ledger Amount} {amount : Amount}
    (refused : ledger.reserve amount = (false, after)) :
    ledger.answers = false :: after.answers ∧ after.log = .refused amount :: ledger.log := by
  unfold reserve at refused
  split at refused
  · cases refused
  · cases refused
  · rename_i answers found
    cases refused
    exact ⟨found, rfl⟩

theorem reserve_granted {ledger after : Ledger Amount} {amount : Amount}
    (granted : ledger.reserve amount = (true, after)) :
    after.log = .granted amount :: ledger.log ∧ after.answers = ledger.answers.tail := by
  unfold reserve at granted
  split at granted
  · rename_i found
    cases granted
    exact ⟨rfl, by simp [found]⟩
  · rename_i answers found
    cases granted
    exact ⟨rfl, by simp [found]⟩
  · cases granted

section Balance

variable [AddCommGroup Amount]

def balance (ledger : Ledger Amount) : Amount := (ledger.log.map Movement.out).sum

theorem balance_release (ledger : Ledger Amount) (amount : Amount) :
    (ledger.release amount).balance = ledger.balance - amount := by
  simp [balance, Movement.out, sub_eq_neg_add]

theorem balance_releaseAll (ledger : Ledger Amount) (amounts : List Amount) :
    (ledger.releaseAll amounts).balance = ledger.balance - amounts.sum := by
  induction amounts generalizing ledger with
  | nil => simp
  | cons amount amounts ih =>
    rw [releaseAll_cons, ih, balance_release, List.sum_cons, sub_sub]

theorem balance_reserve_granted {ledger after : Ledger Amount} {amount : Amount}
    (granted : ledger.reserve amount = (true, after)) :
    after.balance = ledger.balance + amount := by
  rw [balance, (reserve_granted granted).1]
  simp [balance, Movement.out, add_comm]

theorem balance_reserve_refused {ledger after : Ledger Amount} {amount : Amount}
    (refused : ledger.reserve amount = (false, after)) :
    after.balance = ledger.balance := by
  rw [balance, (reserve_refused refused).2]
  simp [balance, Movement.out]

end Balance

end Ledger

end EdgeObserver.Library
