import Mathlib

/-!
# Reservations

The log of what one holder asks an account for: amounts of some kinds reserved,
refused or given back, and what is held of each kind after it.
-/

set_option autoImplicit false

namespace EdgeObserver.Library

inductive Entry (κ : Type) where
  | reserved (kind : κ) (amount : Nat)
  | refused (kind : κ) (amount : Nat)
  | released (kind : κ) (amount : Nat)

section Balance

variable {κ : Type} [DecidableEq κ]

def Entry.effect (kind : κ) : Entry κ → Int
  | .reserved own amount => if own = kind then amount else 0
  | .refused _ _ => 0
  | .released own amount => if own = kind then -amount else 0

def balance (kind : κ) (log : List (Entry κ)) : Int := (log.map (Entry.effect kind)).sum

@[simp] theorem balance_nil (kind : κ) : balance kind [] = 0 := rfl

@[simp] theorem balance_append (kind : κ) (log later : List (Entry κ)) :
    balance kind (log ++ later) = balance kind log + balance kind later := by
  simp [balance]

@[simp] theorem balance_singleton (kind : κ) (entry : Entry κ) :
    balance kind [entry] = entry.effect kind := by
  simp [balance]

def reserve (grants : List (Entry κ) → κ → Nat → Bool) (kind : κ) (amount : Nat)
    (log : List (Entry κ)) : Bool × List (Entry κ) :=
  if grants log kind amount then (true, log ++ [.reserved kind amount])
  else (false, log ++ [.refused kind amount])

def release (kind : κ) (amount : Nat) (log : List (Entry κ)) : List (Entry κ) :=
  if amount > 0 then log ++ [.released kind amount] else log

theorem balance_release (kind other : κ) (amount : Nat) (log : List (Entry κ)) :
    balance kind (release other amount log) = balance kind log - if other = kind then (amount : Int) else 0 := by
  unfold release
  split
  · rw [balance_append, balance_singleton, Entry.effect]
    split <;> omega
  · have none_ : amount = 0 := by omega
    simp [none_]

end Balance

section Throughout

variable {κ : Type}

def Throughout (P : List (Entry κ) → Prop) (log : List (Entry κ)) : Prop := ∀ before, before <+: log → P before

variable {P Q : List (Entry κ) → Prop} {log : List (Entry κ)}

theorem Throughout.nil (first : P []) : Throughout P [] := by
  intro before front
  rw [List.prefix_nil.mp front]
  exact first

theorem Throughout.snoc (so_far : Throughout P log) {entry : Entry κ} (last : P (log ++ [entry])) :
    Throughout P (log ++ [entry]) := by
  intro before front
  rcases List.prefix_concat_iff.mp front with rfl | earlier
  · exact last
  · exact so_far before earlier

theorem Throughout.release [DecidableEq κ] (so_far : Throughout P log) {kind : κ} {amount : Nat}
    (last : P (release kind amount log)) : Throughout P (release kind amount log) := by
  unfold Library.release at last ⊢
  split
  · rw [if_pos ‹_›] at last
    exact so_far.snoc last
  · exact so_far

theorem Throughout.now (so_far : Throughout P log) : P log := so_far log (List.prefix_refl log)

theorem Throughout.imp (so_far : Throughout P log) (weaker : ∀ log, P log → Q log) : Throughout Q log :=
  fun before front => weaker before (so_far before front)

variable [DecidableEq κ]

theorem Throughout.covered (so_far : Throughout (fun log => ∀ kind, 0 ≤ balance kind log) log)
    {before : List (Entry κ)} {kind : κ} {amount : Nat}
    (front : before ++ [.released kind amount] <+: log) : (amount : Int) ≤ balance kind before := by
  have after := so_far _ front kind
  rw [balance_append, balance_singleton, Entry.effect, if_pos rfl] at after
  omega

end Throughout

end EdgeObserver.Library
