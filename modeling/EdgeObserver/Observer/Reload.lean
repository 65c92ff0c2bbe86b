import EdgeObserver.Text

/-!
# Target numbers over reloads

A number is a position in one configuration. A session reads many, and gives each
target one number for as long as it runs.
-/

set_option autoImplicit false

namespace EdgeObserver.Observer

structure Target where
  name : Bytes
  number : Nat
  deriving DecidableEq

structure Selection where
  provenance : Target
  alsoNamedBy : List Target
  deriving DecidableEq

structure Resolution where
  targets : List Target
  selections : List Selection
  deriving DecidableEq

def Selection.named (one : Selection) : List Target := one.provenance :: one.alsoNamedBy

def kept (held : List Target) (name : Bytes) : Option Nat :=
  (held.reverse.find? (·.name == name)).map (·.number)

structure Numbering where
  taken : List Nat
  highest : Nat
  numbers : Nat → Nat

def Numbering.add (held : List Target) (s : Numbering) (one : Target) : Numbering :=
  if (kept held one.name).isSome then s
  else
    let number := if one.number ∈ s.taken then s.highest + 1 else one.number
    { taken := number :: s.taken, highest := max s.highest number
      numbers := Function.update s.numbers one.number number }

def keep (held : List Target) (numbers : Nat → Nat) (one : Target) : Nat → Nat :=
  match kept held one.name with
  | some number => Function.update numbers one.number number
  | none => numbers

def sessionNumbers (held candidate : List Target) : Nat → Nat :=
  (candidate.foldl (Numbering.add held)
    ⟨held.map (·.number), (held.map (·.number)).foldl max 0, candidate.foldl (keep held) fun _ => 0⟩).numbers

def Target.renumber (numbers : Nat → Nat) (one : Target) : Target := { one with number := numbers one.number }

def renumber (r : Resolution) (numbers : Nat → Nat) : Resolution :=
  { targets := r.targets.map (Target.renumber numbers)
    selections := r.selections.map fun one =>
      { provenance := one.provenance.renumber numbers
        alsoNamedBy := one.alsoNamedBy.map (Target.renumber numbers) } }

structure Session where
  rules : List Bytes
  targets : List Target
  deriving DecidableEq

/-- What a reload is given: the candidate's names, its resolution, and whether
anything else refuses it, before the numbers are given or after. -/
structure Reload where
  names : List Bytes
  resolution : Resolution
  refused : Bool := false
  late : Bool := false
  deriving DecidableEq

/-- `daemon.reload`, with the resolution once it is renumbered. -/
def Session.reload (s : Session) (r : Reload) : Session × Option Resolution :=
  let added := r.names.filter (· ∉ s.rules)
  if r.refused || !(s.rules.all (· ∈ r.names)) || added.isEmpty then (s, none)
  else
    let resolution := renumber r.resolution (sessionNumbers s.targets r.resolution.targets)
    if r.late then (s, some resolution)
    else (⟨r.names, s.targets ++ resolution.targets.filter (·.name ∈ added)⟩, some resolution)

def targetsOf (names : List Bytes) : List Target := names.zipIdx.map fun one => ⟨one.1, one.2 + 1⟩

structure Reload.Proper (r : Reload) : Prop where
  distinct : r.names.Nodup
  targets : r.resolution.targets = targetsOf r.names
  selections : ∀ one ∈ r.resolution.selections, ∀ target ∈ one.named, target ∈ r.resolution.targets

structure Session.Sane (s : Session) : Prop where
  names : (s.targets.map (·.name)).Nodup
  numbers : (s.targets.map (·.number)).Nodup
  rules : ∀ name, name ∈ s.rules ↔ name ∈ s.targets.map (·.name)

theorem targetsOf_names (names : List Bytes) : (targetsOf names).map (·.name) = names := by
  rw [targetsOf, List.map_map]
  exact List.zipIdx_map_fst 0 names

theorem targetsOf_numbers (names : List Bytes) : ((targetsOf names).map (·.number)).Nodup := by
  have numbers : (targetsOf names).map (·.number) = (List.range' 0 names.length).map (· + 1) := by
    rw [targetsOf, List.map_map, ← List.zipIdx_map_snd 0 names, List.map_map]
    rfl
  rw [numbers]
  exact List.Nodup.map (fun _ _ => Nat.add_right_cancel) List.nodup_range'

section Numbers

variable {held : List Target}

theorem kept_mem {name : Bytes} {number : Nat} (found : kept held name = some number) : ⟨name, number⟩ ∈ held := by
  obtain ⟨one, is, rfl⟩ := Option.map_eq_some_iff.mp found
  have named : one.name = name := by simpa using List.find?_some is
  exact named ▸ List.mem_reverse.mp (List.mem_of_find?_eq_some is)

theorem kept_none {name : Bytes} : kept held name = none ↔ name ∉ held.map (·.name) := by
  simp [kept]

theorem keep_fixed (rest : List Target) (numbers : Nat → Nat) {x : Nat} (apart : x ∉ rest.map (·.number)) :
    rest.foldl (keep held) numbers x = numbers x := by
  induction rest generalizing numbers with
  | nil => rfl
  | cons other rest ih =>
    rw [List.map_cons, List.mem_cons, not_or] at apart
    rw [List.foldl_cons, ih _ apart.2, keep]
    cases kept held other.name with
    | none => rfl
    | some number => exact Function.update_of_ne apart.1 ..

theorem keep_all (candidate : List Target) (distinct : (candidate.map (·.number)).Nodup) (numbers : Nat → Nat)
    {one : Target} (member : one ∈ candidate) {number : Nat} (found : kept held one.name = some number) :
    candidate.foldl (keep held) numbers one.number = number := by
  induction candidate generalizing numbers with
  | nil => cases member
  | cons other rest ih =>
    obtain ⟨apart, distinct⟩ := List.nodup_cons.mp distinct
    rcases List.mem_cons.mp member with rfl | later
    · rw [List.foldl_cons, keep_fixed rest _ apart, keep, found]
      exact Function.update_self ..
    · exact ih distinct _ later

structure Numbering.Holds (s : Numbering) (all : List Target) : Prop where
  taken : ∀ x, x ∈ s.taken ↔ x ∈ all.map (·.number)
  highest : ∀ x ∈ s.taken, x ≤ s.highest
  distinct : (all.map (·.number)).Nodup

theorem add_fresh {s : Numbering} {all : List Target} (holds : s.Holds all) {one : Target}
    (found : kept held one.name = none) : ∃ number, (s.add held one).Holds (all ++ [⟨one.name, number⟩]) ∧
      (s.add held one).numbers = Function.update s.numbers one.number number := by
  have fresh : (if one.number ∈ s.taken then s.highest + 1 else one.number) ∉ s.taken := by
    split
    · exact fun beyond => absurd (holds.highest _ beyond) (by omega)
    · assumption
  refine ⟨if one.number ∈ s.taken then s.highest + 1 else one.number, ?_, by simp [Numbering.add, found]⟩
  unfold Numbering.add
  rw [if_neg (by simp [found])]
  dsimp only
  generalize (if one.number ∈ s.taken then s.highest + 1 else one.number) = number at fresh
  refine ⟨fun x => ?_, fun x member => ?_, ?_⟩
  · simp [holds.taken, or_comm]
  · rcases List.mem_cons.mp member with rfl | old
    · exact Nat.le_max_right ..
    · exact Nat.le_trans (holds.highest x old) (Nat.le_max_left ..)
  · rw [List.map_append, List.map_singleton]
    exact List.nodup_append'.mpr ⟨holds.distinct, List.nodup_singleton _, by
      simpa [← holds.taken] using fresh⟩

/-- Every target of the candidate that is not kept is given a number nothing has. -/
theorem add_all (rest : List Target) (distinct : (rest.map (·.number)).Nodup) (s : Numbering) (all : List Target)
    (holds : s.Holds all) :
    let t := rest.foldl (Numbering.add held) s
    ((all ++ (rest.filter (kept held ·.name = none)).map (Target.renumber t.numbers)).map (·.number)).Nodup ∧
      ∀ x, (∀ one ∈ rest, one.number = x → kept held one.name ≠ none) → t.numbers x = s.numbers x := by
  induction rest generalizing s all with
  | nil => exact ⟨by simpa using holds.distinct, fun _ _ => rfl⟩
  | cons one rest ih =>
    obtain ⟨apart, distinct⟩ := List.nodup_cons.mp distinct
    rw [List.foldl_cons]
    cases found : kept held one.name with
    | some number =>
      have same : s.add held one = s := by simp [Numbering.add, found]
      obtain ⟨numbers, fixed⟩ := ih distinct s all holds
      rw [same]
      refine ⟨by simpa [found] using numbers, fun x others => fixed x fun other member => ?_⟩
      exact others other (List.mem_cons_of_mem one member)
    | none =>
      obtain ⟨number, holds, updated⟩ := add_fresh holds found
      obtain ⟨numbers, fixed⟩ := ih distinct (s.add held one) _ holds
      have own : (rest.foldl (Numbering.add held) (s.add held one)).numbers one.number = number := by
        rw [fixed one.number, updated, Function.update_self]
        exact fun other member is => absurd (List.mem_map.mpr ⟨other, member, is⟩) apart
      refine ⟨by simpa [found, Target.renumber, own] using numbers, fun x others => ?_⟩
      have other : x ≠ one.number := fun is => others one List.mem_cons_self is.symm found
      rw [fixed x fun each member => others each (List.mem_cons_of_mem one member), updated, Function.update_of_ne other]

/-- The numbers of a candidate: kept ones are those held, and the others no two and
none held share. -/
theorem sessionNumbers_all {candidate : List Target} (distinct : (candidate.map (·.number)).Nodup)
    (numbers : (held.map (·.number)).Nodup) :
    let given := (candidate.filter (kept held ·.name = none)).map (Target.renumber (sessionNumbers held candidate))
    ((held ++ given).map (·.number)).Nodup ∧
      ∀ one ∈ candidate, one.renumber (sessionNumbers held candidate) ∈ held ++ given := by
  have bound : ∀ (xs : List Nat) (top : Nat), (∀ x ∈ xs, x ≤ xs.foldl max top) ∧ top ≤ xs.foldl max top := by
    intro xs
    induction xs with
    | nil => simp
    | cons x xs ih =>
      intro top
      have both := Nat.max_le.mp (ih (max top x)).2
      exact ⟨List.forall_mem_cons.mpr ⟨both.2, (ih (max top x)).1⟩, both.1⟩
  obtain ⟨unique, fixed⟩ := add_all candidate distinct
    ⟨held.map (·.number), (held.map (·.number)).foldl max 0, candidate.foldl (keep held) fun _ => 0⟩ held
    ⟨fun _ => Iff.rfl, (bound _ 0).1, numbers⟩
  refine ⟨unique, fun one member => ?_⟩
  cases found : kept held one.name with
  | none => exact List.mem_append_right _ (List.mem_map_of_mem (List.mem_filter.mpr ⟨member, by simpa using found⟩))
  | some number =>
    refine List.mem_append_left _ ?_
    have own : sessionNumbers held candidate one.number = number := by
      refine (fixed one.number fun other among is => ?_).trans (keep_all candidate distinct _ member found)
      rw [List.inj_on_of_nodup_map distinct among member is, found]
      simp
    rw [Target.renumber, own]
    exact kept_mem found

end Numbers

/-- A resolution in the session's numbers: each number in it and in the session is of
one name, and every selection is still of the targets it was of. -/
structure Reload.Renumbered (r : Reload) (s : Session) (resolution : Resolution) : Prop where
  names : resolution.targets.map (·.name) = r.names
  numbers : (resolution.targets.map (·.number)).Nodup
  agrees : ∀ one ∈ resolution.targets, ∀ held ∈ s.targets, held.number = one.number ↔ held.name = one.name
  same : resolution.selections.map (fun one => one.named.map (·.name)) =
    r.resolution.selections.map (fun one => one.named.map (·.name))
  selections : ∀ one ∈ resolution.selections, ∀ target ∈ one.named, target ∈ resolution.targets

section Step

variable {s : Session} {r : Reload}

/-- The targets a reload gives a number are those its plan grows by. -/
theorem given_targets (sane : s.Sane) (numbers : Nat → Nat) :
    ((targetsOf r.names).map (Target.renumber numbers)).filter (·.name ∈ r.names.filter (· ∉ s.rules)) =
      ((targetsOf r.names).filter (kept s.targets ·.name = none)).map (Target.renumber numbers) := by
  rw [List.filter_map]
  congr 1
  refine List.filter_congr fun one member => decide_eq_decide.mpr ?_
  have named : one.name ∈ r.names := targetsOf_names r.names ▸ List.mem_map_of_mem member
  simp [Target.renumber, named, sane.rules, kept_none, -List.mem_map]

theorem given_names (numbers : Nat → Nat) :
    (((targetsOf r.names).filter (kept s.targets ·.name = none)).map (Target.renumber numbers)).map (·.name) =
      r.names.filter (kept s.targets · = none) := by
  conv_rhs => rw [← targetsOf_names r.names, List.filter_map]
  rw [List.map_map]
  rfl

/-- A reload that goes through, and the resolution in its numbers. -/
theorem reload_given (sane : s.Sane) (proper : r.Proper) (keeps : s.rules.all (· ∈ r.names) = true) :
    let resolution := renumber r.resolution (sessionNumbers s.targets r.resolution.targets)
    let t : Session := ⟨r.names, s.targets ++ resolution.targets.filter (·.name ∈ r.names.filter (· ∉ s.rules))⟩
    t.Sane ∧ r.Renumbered t resolution := by
  obtain ⟨unique, each⟩ := sessionNumbers_all (proper.targets ▸ targetsOf_numbers r.names) sane.numbers
  generalize sessionNumbers s.targets r.resolution.targets = numbers at unique each ⊢
  have targets : (renumber r.resolution numbers).targets = (targetsOf r.names).map (Target.renumber numbers) := by
    rw [renumber, proper.targets]
  rw [proper.targets] at unique each
  intro resolution t
  have grown : t.targets = s.targets ++
      ((targetsOf r.names).filter (kept s.targets ·.name = none)).map (Target.renumber numbers) := by
    rw [← given_targets sane, ← targets]
  have distinct : (t.targets.map (·.name)).Nodup := by
    rw [grown, List.map_append, given_names]
    refine List.nodup_append'.mpr ⟨sane.names, proper.distinct.filter _, fun name old new => ?_⟩
    exact kept_none.mp (by simpa using (List.mem_filter.mp new).2) old
  rw [← grown] at unique each
  have own : ∀ one ∈ resolution.targets, one ∈ t.targets := by
    rw [targets]
    exact List.forall_mem_map.mpr each
  have named : resolution.targets.map (·.name) = r.names := by
    rw [targets, List.map_map]
    exact targetsOf_names r.names
  refine ⟨⟨distinct, unique, fun name => ?_⟩, named, ?_, fun one member held among => ?_, ?_, fun one member => ?_⟩
  · rw [grown, List.map_append, given_names, List.mem_append, List.mem_filter, ← sane.rules]
    constructor
    · intro listed
      by_cases old : name ∈ s.rules
      · exact .inl old
      · exact .inr ⟨listed, by simpa [kept_none, ← sane.rules] using old⟩
    · rintro (old | ⟨listed, -⟩)
      · simpa using List.all_eq_true.mp keeps name old
      · exact listed
  · exact (List.Nodup.of_map _ (named ▸ proper.distinct)).map_on fun one member other among is =>
      List.inj_on_of_nodup_map unique (own one member) (own other among) is
  · exact ⟨fun is => by rw [List.inj_on_of_nodup_map unique among (own one member) is],
      fun is => by rw [List.inj_on_of_nodup_map distinct among (own one member) is]⟩
  · simp [resolution, renumber, Selection.named, Target.renumber]
  · obtain ⟨before, listed, rfl⟩ := List.mem_map.mp member
    intro target among
    have renumbered : target ∈ before.named.map (Target.renumber numbers) := by
      simpa [Selection.named] using among
    obtain ⟨first, inside, rfl⟩ := List.mem_map.mp renumbered
    exact targets ▸ proper.targets ▸ List.mem_map_of_mem (proper.selections before listed first inside)

theorem reload_sane (sane : s.Sane) (proper : r.Proper) :
    (s.reload r).1.Sane ∧ s.targets <+: (s.reload r).1.targets ∧
      ∀ resolution ∈ (s.reload r).2, r.Renumbered (s.reload r).1 resolution := by
  unfold Session.reload
  dsimp only
  split
  · exact ⟨sane, List.prefix_rfl, by simp⟩
  rename_i accepted
  have keeps : s.rules.all (· ∈ r.names) = true := by
    simp only [Bool.or_eq_true, not_or, Bool.not_eq_true, Bool.not_eq_false'] at accepted
    exact accepted.1.2
  obtain ⟨grown, renumbered⟩ := reload_given sane proper keeps
  split
  · -- Refused late: nothing is added, and the held targets are among those it would have.
    refine ⟨sane, List.prefix_rfl, ?_⟩
    rintro resolution ⟨⟩
    exact ⟨renumbered.names, renumbered.numbers, fun one member held among =>
      renumbered.agrees one member held (List.mem_append_left _ among), renumbered.same, renumbered.selections⟩
  · refine ⟨grown, List.prefix_append _ _, ?_⟩
    rintro resolution ⟨⟩
    exact renumbered

end Step

/-- Over every run of reloads, a target keeps its number, no two names share one, and
a resolution renumbered names the targets it named. -/
theorem numbers_kept (names : List Bytes) (distinct : names.Nodup) (reloads : List Reload)
    (proper : ∀ r ∈ reloads, r.Proper) (r : Reload) (next : r.Proper) :
    let s := reloads.foldl (fun s r => (s.reload r).1) (⟨names, targetsOf names⟩ : Session)
    s.Sane ∧ targetsOf names <+: s.targets ∧ s.targets <+: (s.reload r).1.targets ∧
      ∀ resolution ∈ (s.reload r).2, r.Renumbered (s.reload r).1 resolution := by
  have run : ∀ (reloads : List Reload) (s : Session), s.Sane → (∀ r ∈ reloads, r.Proper) →
      (reloads.foldl (fun s r => (s.reload r).1) s).Sane ∧
        s.targets <+: (reloads.foldl (fun s r => (s.reload r).1) s).targets := by
    intro reloads
    induction reloads with
    | nil => exact fun s sane _ => ⟨sane, List.prefix_rfl⟩
    | cons r reloads ih =>
      intro s sane proper
      obtain ⟨after, longer, -⟩ := reload_sane sane (proper r List.mem_cons_self)
      obtain ⟨final, grown⟩ := ih _ after fun other member => proper other (List.mem_cons_of_mem r member)
      exact ⟨final, longer.trans grown⟩
  have start : Session.Sane ⟨names, targetsOf names⟩ :=
    ⟨(targetsOf_names names).symm ▸ distinct, targetsOf_numbers names, fun name => by rw [targetsOf_names]⟩
  obtain ⟨sane, grown⟩ := run reloads _ start proper
  exact ⟨sane, grown, (reload_sane sane next).2⟩

/-- A target put ahead of the one held takes the next number, and the held one keeps its. -/
theorem numbers_kept_ahead :
    let web : Bytes := [119]
    let api : Bytes := [97]
    let ahead : Reload := ⟨[api, web], ⟨targetsOf [api, web], [⟨⟨api, 1⟩, [⟨web, 2⟩]⟩]⟩, false, false⟩
    (Session.reload ⟨[web], targetsOf [web]⟩ ahead).2 =
        some ⟨[⟨api, 2⟩, ⟨web, 1⟩], [⟨⟨api, 2⟩, [⟨web, 1⟩]⟩]⟩ ∧
      (Session.reload ⟨[web], targetsOf [web]⟩ ahead).1.Sane :=
  ⟨by decide, (numbers_kept [[119]] (by decide) [⟨[[97], [119]], ⟨targetsOf [[97], [119]],
    [⟨⟨[97], 1⟩, [⟨[119], 2⟩]⟩]⟩, false, false⟩]
    (by simpa using ⟨by decide, rfl, by decide⟩) ⟨[], ⟨[], []⟩, false, false⟩ ⟨by decide, rfl, by decide⟩).1⟩

end EdgeObserver.Observer
