import EdgeObserver.Process.Selection

/-!
# The legacy selection

`Select` asks of each process whether it is observed in its own right, exclusions
taken off, and climbs to the nearest that is. It has a table and no host: what a
rule's interface resolves to and which boot this is are not known to it.
-/

set_option autoImplicit false

namespace EdgeObserver.Process

open Library

namespace Approval

def unprepared (a : Approval) : Prepared := { rules := a.rules.map (·, none), exclusions := a.exclusions }

def decideRules (p : Entry) : Decision → List Rule → Decision
  | result, [] => result
  | result, rule :: rest =>
    match rule.decide p with
    | .indeterminate => decideRules p .indeterminate rest
    | .matchFound => decideRules p (if result ≠ .indeterminate then .matchFound else result) rest
    | .noMatch => decideRules p result rest

def decideExclusions (p : Entry) : Decision → List Rule → Decision
  | result, [] => result
  | result, rule :: rest =>
    match rule.decide p with
    | .matchFound => .noMatch
    | .indeterminate => decideExclusions p .indeterminate rest
    | .noMatch => decideExclusions p result rest

def decide (a : Approval) (p : Entry) : Decision := decideExclusions p (decideRules p .noMatch a.rules) a.exclusions

def observes (a : Approval) (p : Entry) : Bool := a.decide p = .matchFound

def select (a : Approval) (t : Table) : List Entry :=
  if a.unprepared.argumentRefusals t ≠ [] then []
  else if a.rules = [] then []
  else
    t.processes.filter fun p => (Prepared.root t a.observes p).isSome && (a.unprepared.denial t p).isNone

end Approval

section Decide

variable {p : Entry} {rules : List Rule}

theorem decideRules_matchFound (decided : ∀ rule ∈ rules, rule.decide p ≠ .indeterminate) (result : Decision)
    (known : result ≠ .indeterminate) :
    Approval.decideRules p result rules = .matchFound ↔
      result = .matchFound ∨ ∃ rule ∈ rules, rule.matched p = true := by
  induction rules generalizing result with
  | nil => simp [Approval.decideRules]
  | cons rule rest ih =>
    obtain ⟨here, later⟩ := List.forall_mem_cons.mp decided
    unfold Approval.decideRules
    cases is : rule.decide p with
    | indeterminate => exact absurd is here
    | matchFound => simp [known, ih later, Rule.matched, is]
    | noMatch => simp [ih later _ known, Rule.matched, is]

theorem decideExclusions_matchFound (decided : ∀ rule ∈ rules, rule.decide p ≠ .indeterminate) (result : Decision) :
    Approval.decideExclusions p result rules = .matchFound ↔
      result = .matchFound ∧ ∀ rule ∈ rules, rule.matched p = false := by
  induction rules with
  | nil => simp [Approval.decideExclusions]
  | cons rule rest ih =>
    obtain ⟨here, later⟩ := List.forall_mem_cons.mp decided
    unfold Approval.decideExclusions
    cases is : rule.decide p with
    | indeterminate => exact absurd is here
    | matchFound => simp [Rule.matched, is]
    | noMatch => simp [ih later, Rule.matched, is]

end Decide

section Legacy

variable {a : Approval} {t : Table} {p : Entry}

theorem observes_iff (decided : ¬ Undecided a.unprepared t) (member : p ∈ t.processes) :
    a.observes p = true ↔
      (∃ rule ∈ a.rules, rule.matched p = true) ∧ ∀ rule ∈ a.exclusions, rule.matched p = false := by
  have rules : ∀ rule ∈ a.rules, rule.decide p ≠ .indeterminate := fun rule listed is =>
    decided ⟨p, member, .inl ⟨(rule, none), List.mem_map.mpr ⟨rule, listed, rfl⟩, is⟩⟩
  have exclusions : ∀ rule ∈ a.exclusions, rule.decide p ≠ .indeterminate := fun rule listed is =>
    decided ⟨p, member, .inr ⟨rule, listed, is⟩⟩
  simp only [Approval.observes, Approval.decide, decide_eq_true_eq, decideExclusions_matchFound exclusions,
    decideRules_matchFound rules .noMatch nofun, reduceCtorEq, false_or]

/-- Where nothing above a process is excluded, it is approved where it or one above
it is observed. -/
theorem approved_observed (acyclic : t.Acyclic) (legacy : ∀ rule ∈ a.rules, rule.modeOf = .follow)
    (decided : ¬ Undecided a.unprepared t) (member : p ∈ t.processes) (allowed : ¬ Denied a.unprepared t p) :
    Approved a.unprepared t p ↔ (Prepared.root t a.observes p).isSome = true := by
  have within : ∀ q, q = p ∨ Ancestor t.parent p q → q ∈ t.processes := by
    rintro q (rfl | above)
    · exact member
    · exact Table.ancestor_mem above
  have free : ∀ q, q = p ∨ Ancestor t.parent p q → ∀ rule ∈ a.exclusions, rule.matched q = false := by
    intro q place rule listed
    by_contra matched
    exact allowed ⟨q, place, rule, listed, by simpa using matched⟩
  rw [Prepared.root_iff acyclic]
  constructor
  · rintro (⟨one, listed, -, matched⟩ | ⟨q, above, one, listed, -, matched, -⟩)
    · obtain ⟨rule, named, rfl⟩ := List.mem_map.mp listed
      exact ⟨p, .inl rfl, (observes_iff decided member).mpr ⟨⟨rule, named, matched⟩, free p (.inl rfl)⟩⟩
    · obtain ⟨rule, named, rfl⟩ := List.mem_map.mp listed
      exact ⟨q, .inr above,
        (observes_iff decided (within q (.inr above))).mpr ⟨⟨rule, named, matched⟩, free q (.inr above)⟩⟩
  · rintro ⟨q, place, observed⟩
    obtain ⟨⟨rule, named, matched⟩, -⟩ := (observes_iff decided (within q place)).mp observed
    have listed : (rule, none) ∈ a.unprepared.rules := List.mem_map.mpr ⟨rule, named, rfl⟩
    rcases place with rfl | above
    · exact .inl ⟨_, listed, rfl, matched⟩
    · exact .inr ⟨q, above, _, listed, rfl, matched, by rw [legacy rule named]; rfl⟩

/-- With no interface to resolve and no pid written for a boot, a host prepares
nothing. -/
theorem prepare_unprepared (host : Host) (rules : ∀ rule ∈ a.rules, rule.pid = none ∧ rule.interface = [])
    (exclusions : ∀ rule ∈ a.exclusions, rule.interface = []) : a.prepare host = a.unprepared := by
  have resolved : ∀ rule : Rule, rule.interface = [] → rule.resolveInterface host.interfaces = (rule, none) :=
    fun rule none_ => if_pos none_
  unfold Approval.prepare Approval.unprepared
  congr 1
  · refine List.map_congr_left fun rule listed => ?_
    obtain ⟨unguarded, anywhere⟩ := rules rule listed
    simp [Rule.prepare, Rule.bootRefusal, resolved rule anywhere, unguarded]
  · exact (List.map_congr_left fun rule listed => by rw [resolved rule (exclusions rule listed)]).trans (List.map_id' _)

theorem filter_selection (b : Prepared) (keep : Entry → Bool) (processes : List Entry)
    (same : ∀ p ∈ processes, keep p = (b.selection t p).isSome) :
    (processes.filter keep).map Entry.pid = (processes.filterMap (b.selection t)).map Selection.observerPID := by
  induction processes with
  | nil => rfl
  | cons p rest ih =>
    obtain ⟨here, later⟩ := List.forall_mem_cons.mp same
    cases chosen : b.selection t p with
    | none => simp [here, chosen, ih later]
    | some s => simp [here, chosen, ih later, (Prepared.selection_pid chosen).1]

/-- The processes of the resolution are those the legacy selection returns, in
order, where no target names a pid or an interface, no exclusion an interface and
every target follows. -/
theorem select_eq_resolve (a : Approval) (host : Host) (acyclic : host.table.Acyclic)
    (rules : ∀ rule ∈ a.rules, rule.pid = none ∧ rule.interface = [] ∧ rule.modeOf = .follow)
    (exclusions : ∀ rule ∈ a.exclusions, rule.interface = []) :
    (a.select host.table).map Entry.pid = (a.resolve host).selections.map Selection.observerPID := by
  have prepared : a.prepare host = a.unprepared :=
    prepare_unprepared host (fun rule listed => ⟨(rules rule listed).1, (rules rule listed).2.1⟩) exclusions
  simp only [Approval.select, Approval.resolve, prepared]
  by_cases undecided : a.unprepared.argumentRefusals host.table ≠ []
  · rw [if_pos undecided, if_pos undecided]
    rfl
  rw [if_neg undecided, if_neg undecided]
  have decided : ¬ Undecided a.unprepared host.table := fun some_ =>
    undecided (Prepared.argumentRefusals_iff.mpr some_)
  by_cases none_ : a.rules = []
  · have nothing : ∀ p ∈ host.table.processes, a.unprepared.selection host.table p = none := by
      intro p member
      refine Option.not_isSome_iff_eq_none.mp fun chosen => ?_
      rcases (Prepared.approved_iff acyclic).mp (Prepared.selection_isSome.mp chosen).2 with
        ⟨one, listed, -⟩ | ⟨_, _, one, listed, -⟩ <;> simp [Approval.unprepared, none_] at listed
    rw [if_pos none_, List.filterMap_eq_nil_iff.mpr nothing]
    rfl
  · rw [if_neg none_]
    refine filter_selection _ _ _ fun p member => ?_
    rw [Bool.eq_iff_iff, Bool.and_eq_true, Prepared.selection_isSome, Prepared.approved_iff acyclic, and_comm]
    refine and_congr_right_iff.mpr ?_ |>.trans (and_congr_left_iff.mpr fun _ => by simp)
    intro unforbidden
    have allowed : ¬ Denied a.unprepared host.table p := by
      rw [← Prepared.denial_iff acyclic]
      simpa using unforbidden
    exact (approved_observed acyclic (fun rule listed => (rules rule listed).2.2) decided member allowed).symm

/-- An exclusion by interface denies the process in the resolution, and nothing in
the legacy selection, which cannot resolve the interface. -/
theorem select_unlike_resolve :
    let table : Table :=
      { processes := [{ pid := 7, ppid := 1, cgroup := ascii "/web", listening := [⟨3, 443, { bytes := [10, 0, 0, 1] }⟩] }]
        distinct := by decide }
    let a : Approval :=
      { rules := [{ cgroup := ascii "/web" }]
        exclusions := [{ port := 443, interface := ascii "eth0" }] }
    let host : Host := { table, interfaces := fun _ => .ok [{ bytes := [10, 0, 0, 1] }] }
    table.Acyclic ∧ (∀ rule ∈ a.rules, rule.pid = none ∧ rule.interface = [] ∧ rule.modeOf = .follow) ∧
      (a.select table).map Entry.pid = [7] ∧ (a.resolve host).selections = [] := by
  refine ⟨fun p member above => ?_, by decide +kernel, by decide +kernel, by decide +kernel⟩
  obtain ⟨next, linked, -⟩ := Relation.TransGen.head'_iff.mp above
  obtain rfl := List.mem_singleton.mp member
  cases linked

theorem select_eq_resolve_ignored :
    let a : Approval :=
      { rules := [{ executable := ascii "/supervisor" }]
        exclusions := [{ executable := ascii "/worker" }] }
    let host : Host := { table := threeDeep, interfaces := fun _ => .error [] }
    (a.select threeDeep).map Entry.pid = [10] ∧
      (a.select threeDeep).map Entry.pid = (a.resolve host).selections.map Selection.observerPID := by
  intro a host
  exact ⟨by decide +kernel, select_eq_resolve a host threeDeep_acyclic (by decide +kernel) (by decide +kernel)⟩

end Legacy

end EdgeObserver.Process
