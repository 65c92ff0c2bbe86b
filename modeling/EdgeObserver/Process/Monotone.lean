import EdgeObserver.Process.Selection

/-!
# Adding a target

What one more rule does to a resolution: every process selected without it is
selected with it. The mode a process inherits comes from the nearest process
above it that grants, which the added rule may put nearer.
-/

set_option autoImplicit false

namespace EdgeObserver.Process

open Library

structure Adds (a b : Prepared) (added : Rule × Option Refusal) : Prop where
  exclusions : b.exclusions = a.exclusions
  rules : ∃ before after, a.rules = before ++ after ∧ b.rules = before ++ added :: after

/-- An added target of mode `existing` names no process below one that a target
of mode `follow` names. -/
def Clear (a : Prepared) (t : Table) (added : Rule × Option Refusal) : Prop :=
  added.1.modeOf = .existing →
    ∀ q ∈ t.processes, ∀ g, Prepared.names q added = true → Ancestor t.parent q g →
      ∀ one ∈ a.rules, Prepared.names g one = true → one.1.modeOf ≠ .follow

section Adds

variable {a b : Prepared} {t : Table} {added : Rule × Option Refusal} {p : Entry}

theorem Adds.mem_iff (adds : Adds a b added) {one : Rule × Option Refusal} :
    one ∈ b.rules ↔ one = added ∨ one ∈ a.rules := by
  obtain ⟨before, after, without, with_⟩ := adds.rules
  rw [without, with_]
  simp only [List.mem_append, List.mem_cons]
  exact ⟨fun member => by tauto, fun member => by tauto⟩

theorem Adds.named (adds : Adds a b added) (named : a.named p ≠ []) : b.named p ≠ [] := by
  intro none_
  refine named (Prepared.named_eq_nil_iff.mpr fun one member => ?_)
  exact Prepared.named_eq_nil_iff.mp none_ one (adds.mem_iff.mpr (.inr member))

theorem Adds.union_le (adds : Adds a b added) (p : Entry) :
    (a.union (a.named p)).rank ≤ (b.union (b.named p)).rank := by
  by_cases none_ : (a.union (a.named p)).rank = 0
  · omega
  · obtain ⟨one, member, naming, mode⟩ := Prepared.union_attained (Nat.pos_of_ne_zero none_)
    rw [← mode]
    exact Prepared.rank_le_union (adds.mem_iff.mpr (.inr member)) naming

theorem Adds.grants (adds : Adds a b added) (grants : a.grants p = true) : b.grants p = true := by
  obtain ⟨one, member, naming, existing⟩ := Prepared.grants_iff.mp grants
  exact Prepared.grants_iff.mpr ⟨one, adds.mem_iff.mpr (.inr member), naming, existing⟩

theorem Adds.denial (adds : Adds a b added) (p : Entry) : b.denial t p = a.denial t p := by
  have same : b.excludedBy = a.excludedBy := by
    funext q
    simp only [Prepared.excludedBy, adds.exclusions]
  simp only [Prepared.denial, same]

theorem Adds.granting (adds : Adds a b added) (clear : Clear a t added) {g : Entry}
    (granting : a.granting t p = some g) :
    ∃ nearer, b.granting t p = some nearer ∧ (a.union (a.named g)).rank ≤ (b.union (b.named nearer)).rank := by
  obtain ⟨nearer, found, same | ⟨newly, below⟩⟩ := nearest_wider (fun _ held => adds.grants held) granting
  · exact ⟨nearer, found, same ▸ adds.union_le g⟩
  · refine ⟨nearer, found, ?_⟩
    obtain ⟨one, member, naming, existing⟩ := Prepared.grants_iff.mp (nearest_ancestor found).2
    -- Only the added target can have made this process grant.
    have is : one = added := by
      rcases adds.mem_iff.mp member with is | old
      · exact is
      · rw [Prepared.grants_iff.mpr ⟨one, old, naming, existing⟩] at newly
        cases newly
    subst is
    have reached := Prepared.rank_le_union member naming
    have high := (Mode.answersExisting_iff _).mp existing
    by_cases none_ : (a.union (a.named g)).rank = 0
    · omega
    obtain ⟨other, held, names, mode⟩ := Prepared.union_attained (Nat.pos_of_ne_zero none_)
    rw [← mode]
    cases inherited : one.1.modeOf with
    | existing =>
      have unfollowed := clear inherited nearer (Table.ancestor_mem (nearest_ancestor found).1) g naming below
        other held names
      have : other.1.modeOf.rank ≤ 2 := by
        cases was : other.1.modeOf <;> simp_all [Mode.rank]
      omega
    | follow =>
      have : other.1.modeOf.rank ≤ 3 := by cases other.1.modeOf <;> simp [Mode.rank]
      rw [inherited] at reached
      exact Nat.le_trans this reached
    | none | unset => rw [inherited] at high; simp [Mode.rank] at high

end Adds

theorem Mode.rank_broader (one other : Mode) :
    (one.broader other).rank = max one.rank other.rank := by
  unfold Mode.broader
  split <;> omega

theorem Mode.eq_follow_of_rank {mode : Mode} (high : Mode.follow.rank ≤ mode.rank) :
    mode = .follow := by
  cases mode <;> simp_all [Mode.rank]

namespace Prepared

def inherited (a : Prepared) (t : Table) (p : Entry) : Nat :=
  match a.granting t p with
  | some above => (a.union (a.named above)).rank
  | none => 0

theorem selection_mode {a : Prepared} {t : Table} {p : Entry} {s : Selection} (chosen : a.selection t p = some s) :
    s.mode.rank = max (a.union (a.named p)).rank (a.inherited t p) := by
  unfold selection at chosen
  unfold inherited
  split at chosen
  · cases chosen
  cases named : a.named p with
  | nil =>
    cases granting : a.granting t p with
    | none => simp [named, granting] at chosen
    | some above =>
      simp only [named, granting, Option.some.injEq] at chosen
      subst chosen
      exact (Nat.max_eq_right (Nat.zero_le _)).symm
  | cons number rest =>
    simp only [named, Option.some.injEq] at chosen
    subst chosen
    cases granting : a.granting t p with
    | none => exact (Nat.max_eq_left (Nat.zero_le _)).symm
    | some above => exact Mode.rank_broader _ _

end Prepared

section Selections

variable {a b : Prepared} {t : Table} {added : Rule × Option Refusal} {p : Entry}

theorem Adds.inherited_le (adds : Adds a b added) (clear : Clear a t added) (p : Entry) :
    a.inherited t p ≤ b.inherited t p := by
  unfold Prepared.inherited
  cases granting : a.granting t p with
  | none => exact Nat.zero_le _
  | some above =>
    obtain ⟨nearer, found, le⟩ := adds.granting clear granting
    rw [found]
    exact le

theorem Adds.selection (adds : Adds a b added) (clear : Clear a t added) {s : Selection}
    (chosen : a.selection t p = some s) :
    ∃ more, b.selection t p = some more ∧ more.observerPID = s.observerPID ∧ s.mode.rank ≤ more.mode.rank := by
  obtain ⟨allowed, approved⟩ := Prepared.selection_isSome.mp (Option.isSome_iff_exists.mpr ⟨s, chosen⟩)
  have still : (b.selection t p).isSome = true := by
    refine Prepared.selection_isSome.mpr ⟨by rw [adds.denial]; exact allowed, ?_⟩
    refine approved.imp (fun named => adds.named named) fun granting => ?_
    obtain ⟨above, found⟩ := Option.isSome_iff_exists.mp granting
    obtain ⟨nearer, is, _⟩ := adds.granting clear found
    exact Option.isSome_iff_exists.mpr ⟨nearer, is⟩
  obtain ⟨more, is⟩ := Option.isSome_iff_exists.mp still
  refine ⟨more, is, ?_, ?_⟩
  · rw [(Prepared.selection_pid is).1, (Prepared.selection_pid chosen).1]
  · rw [Prepared.selection_mode chosen, Prepared.selection_mode is]
    have own := adds.union_le p
    have above := adds.inherited_le clear p
    omega

end Selections

theorem Approval.prepare_adds (before after : List Rule) (rule : Rule) (exclusions : List Rule) (host : Host) :
    Adds (Approval.prepare { rules := before ++ after, exclusions := exclusions } host)
      (Approval.prepare { rules := before ++ rule :: after, exclusions := exclusions } host)
      (rule.prepare host) where
  exclusions := rfl
  rules := ⟨before.map (·.prepare host), after.map (·.prepare host), by
    simp [Approval.prepare], by simp [Approval.prepare]⟩

end EdgeObserver.Process
