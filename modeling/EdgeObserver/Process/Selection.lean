import EdgeObserver.Library.Ancestry
import EdgeObserver.Process.Rule

/-!
# What an approval selects

The selections against what the approval says: the denied subtrees first, then
the processes a target names and those below one that admits them.
-/

set_option autoImplicit false

namespace EdgeObserver.Process

open Library
open Connection (Addr)

/-!
## Resolving an approval

Which processes of one reading of the host an approval selects, and under which
mode, and which its exclusions deny.
-/

structure Table where
  processes : List Entry
  distinct : (processes.map Entry.pid).Nodup

def Table.lookup (t : Table) (pid : Int) : Option Entry := t.processes.find? (fun p => p.pid == pid)

def Table.parent (t : Table) (p : Entry) : Option Entry := (t.lookup p.ppid).filter (fun parent => parent.pid != p.pid)

structure Approval where
  rules : List Rule := []
  exclusions : List Rule := []

structure Host where
  table : Table
  boot : Bytes := []
  interfaces : Bytes → Except Bytes (List Addr)

inductive Refusal where
  | bootUnread (guard : PIDGuard)
  | otherBoot (guard : PIDGuard) (boot : Bytes)
  | interface (name error : Bytes)

def Rule.bootRefusal (boot : Bytes) (rule : Rule) : Option Refusal :=
  match rule.pid with
  | none => none
  | some guard =>
    if boot = [] then some (.bootUnread guard)
    else if boot ≠ guard.boot then some (.otherBoot guard boot)
    else none

def Rule.resolveInterface (interfaces : Bytes → Except Bytes (List Addr)) (rule : Rule) : Rule × Option Refusal :=
  if rule.interface = [] then (rule, none)
  else
    match interfaces rule.interface with
    | .ok addresses => ({ rule with addresses := addresses, resolvedInterface := true }, none)
    | .error error =>
      ({ rule with addresses := [], resolvedInterface := false }, some (.interface rule.interface error))

def Rule.prepare (host : Host) (rule : Rule) : Rule × Option Refusal :=
  let (prepared, unresolved) := rule.resolveInterface host.interfaces
  (prepared, (rule.bootRefusal host.boot).or unresolved)

structure Prepared where
  rules : List (Rule × Option Refusal)
  exclusions : List Rule

def Approval.prepare (a : Approval) (host : Host) : Prepared :=
  { rules := a.rules.map (Rule.prepare host)
    exclusions := a.exclusions.map (fun rule => (rule.resolveInterface host.interfaces).1) }

def Mode.rank : Mode → Nat
  | .none => 1
  | .existing => 2
  | .follow => 3
  | .unset => 0

def Mode.broader (one other : Mode) : Mode := if other.rank > one.rank then other else one

structure Provenance where
  number : Nat
  parent : Option Admission.Key := none

inductive Kind where
  | byTarget
  | byDescent
  deriving DecidableEq

structure Selection where
  toInstance : Admission.Instance
  kind : Kind
  provenance : Provenance
  alsoNamedBy : List Provenance
  mode : Mode
  observerPID : Int

structure Denial where
  toInstance : Admission.Instance
  provenance : Provenance
  observerPID : Int

/-- What one target came to: the processes it matched, those of them denied, and
the processes admitted below it. -/
structure Resolved where
  number : Nat
  mode : Mode
  roots : List Entry
  denied : List Entry
  descendants : List Entry

structure Excluded where
  number : Nat
  roots : List Entry
  denied : List Entry

structure Resolution where
  targets : List Resolved
  exclusions : List Excluded
  selections : List Selection
  denials : List Denial
  argumentsUndetermined : List Int

def Entry.key (p : Entry) : Admission.Key := { namespaces := p.namespaces, pid := p.namespacePID, generation := 0 }

namespace Prepared

def names (p : Entry) (one : Rule × Option Refusal) : Bool := one.2.isNone && one.1.matched p

def named (a : Prepared) (p : Entry) : List Nat :=
  a.rules.zipIdx.filterMap (fun one => if names p one.1 then some (one.2 + 1) else none)

def union (a : Prepared) (numbers : List Nat) : Mode :=
  numbers.foldl (fun mode number =>
    mode.broader ((a.rules[number - 1]?.map (fun one => one.1.modeOf)).getD .unset)) .unset

def grants (a : Prepared) (p : Entry) : Bool := a.named p ≠ [] && (a.union (a.named p)).answersExisting

def granting (a : Prepared) (t : Table) (p : Entry) : Option Entry :=
  nearest t.parent a.grants (t.processes.length + 1) p

def root (t : Table) (marked : Entry → Bool) (p : Entry) : Option Entry :=
  if marked p then some p else nearest t.parent marked t.processes.length p

def excludedBy (a : Prepared) (p : Entry) : Option Nat := (a.exclusions.findIdx? (·.matched p)).map (· + 1)

def denial (a : Prepared) (t : Table) (p : Entry) : Option Denial :=
  (root t (fun q => (a.excludedBy q).isSome) p).map (fun root =>
    { toInstance := p.toInstance
      provenance :=
        { number := (a.excludedBy root).getD 0
          parent := if root.pid ≠ p.pid then some root.key else none }
      observerPID := p.pid })

def denials (a : Prepared) (t : Table) : List Denial := t.processes.filterMap (a.denial t)

def argumentRefusals (a : Prepared) (t : Table) : List Int :=
  (t.processes.filter (fun p =>
    a.rules.any (fun one => one.1.decide p = .indeterminate) ||
      a.exclusions.any (fun rule => rule.decide p = .indeterminate))).map Entry.pid

def byTarget (a : Prepared) (p : Entry) (numbers : List Nat) (granting : Option Entry) :
    Selection :=
  let mode := a.union numbers
  { toInstance := p.toInstance
    kind := .byTarget
    provenance := { number := numbers.headD 0 }
    alsoNamedBy := numbers.tail.map (fun number => { number := number })
    mode := match granting with
      | some above => mode.broader (a.union (a.named above))
      | none => mode
    observerPID := p.pid }

def byDescent (a : Prepared) (p granting : Entry) : Selection :=
  let through := a.named granting
  { toInstance := p.toInstance
    kind := .byDescent
    provenance := { number := through.headD 0, parent := some granting.key }
    alsoNamedBy := through.tail.map (fun number => { number := number })
    mode := a.union through
    observerPID := p.pid }

def selection (a : Prepared) (t : Table) (p : Entry) : Option Selection :=
  if (a.denial t p).isSome then none
  else
    match a.named p, a.granting t p with
    | number :: rest, granting => some (a.byTarget p (number :: rest) granting)
    | [], some granting => some (a.byDescent p granting)
    | [], none => none

def target (a : Prepared) (t : Table) (number : Nat) (one : Rule × Option Refusal) : Resolved :=
  let matched := t.processes.filter (fun p => names p one)
  { number := number
    mode := one.1.modeOf
    roots := matched.filter (fun p => (a.denial t p).isNone)
    denied := matched.filter (fun p => (a.denial t p).isSome)
    descendants := t.processes.filter (fun p =>
      (a.selection t p).any (fun s => s.kind = .byDescent && s.provenance.number = number)) }

def excluded (a : Prepared) (t : Table) (number : Nat) (rule : Rule) : Excluded :=
  { number := number
    roots := t.processes.filter rule.matched
    denied := t.processes.filter (fun p =>
      (a.denial t p).any (fun denial => denial.provenance.number = number)) }

end Prepared

def Approval.resolve (a : Approval) (host : Host) : Resolution :=
  let prepared := a.prepare host
  let t := host.table
  let undetermined := prepared.argumentRefusals t
  { targets := prepared.rules.zipIdx.map (fun one => prepared.target t (one.2 + 1) one.1)
    exclusions := prepared.exclusions.zipIdx.map (fun one => prepared.excluded t (one.2 + 1) one.1)
    selections := if undetermined ≠ [] then [] else t.processes.filterMap (prepared.selection t)
    denials := prepared.denials t
    argumentsUndetermined := undetermined }

section Modes

theorem Mode.rank_le_broader (one other : Mode) :
    one.rank ≤ (one.broader other).rank ∧ other.rank ≤ (one.broader other).rank := by
  unfold Mode.broader
  split <;> constructor <;> omega

theorem Mode.broader_eq (one other : Mode) :
    one.broader other = one ∨ one.broader other = other := by
  unfold Mode.broader
  split
  · exact .inr rfl
  · exact .inl rfl

theorem Mode.answersExisting_iff (mode : Mode) : mode.answersExisting = true ↔ 2 ≤ mode.rank := by
  cases mode <;> simp [Mode.answersExisting, Mode.rank]

theorem rank_le_foldl (modes : List Mode) (first : Mode) :
    ∀ mode ∈ first :: modes, mode.rank ≤ (modes.foldl Mode.broader first).rank := by
  induction modes generalizing first with
  | nil =>
    intro mode member
    rw [List.mem_singleton.mp member]
    exact Nat.le_refl _
  | cons next modes ih =>
    intro mode member
    have step := Mode.rank_le_broader first next
    have here := ih (first.broader next) _ List.mem_cons_self
    rcases List.mem_cons.mp member with rfl | later
    · exact Nat.le_trans step.1 here
    · rcases List.mem_cons.mp later with rfl | last
      · exact Nat.le_trans step.2 here
      · exact ih (first.broader next) mode (List.mem_cons_of_mem _ last)

theorem foldl_broader_mem (modes : List Mode) (first : Mode) :
    modes.foldl Mode.broader first ∈ first :: modes := by
  induction modes generalizing first with
  | nil => exact List.mem_singleton.mpr rfl
  | cons next modes ih =>
    rcases List.mem_cons.mp (ih (first.broader next)) with same | later
    · rw [List.foldl_cons, same]
      rcases first.broader_eq next with one | other
      · rw [one]; exact List.mem_cons_self
      · rw [other]; exact List.mem_cons_of_mem _ List.mem_cons_self
    · exact List.mem_cons_of_mem _ (List.mem_cons_of_mem _ later)

end Modes

namespace Prepared

variable {a : Prepared} {t : Table} {p : Entry}

theorem named_eq_nil_iff : a.named p = [] ↔ ∀ one ∈ a.rules, names p one = false := by
  unfold named
  rw [List.filterMap_eq_nil_iff]
  constructor
  · intro none_ one member
    obtain ⟨place, found⟩ := List.mem_iff_getElem?.mp member
    have := none_ (one, place) (List.mk_mem_zipIdx_iff_getElem?.mpr found)
    simpa using this
  · intro none_ one member
    have := none_ one.1 (List.mem_of_getElem? (List.mem_zipIdx_iff_getElem?.mp member))
    simp [this]

def modes (a : Prepared) (p : Entry) : List Mode := (a.rules.filter (names p)).map (fun one => one.1.modeOf)

theorem union_named (a : Prepared) (p : Entry) :
    a.union (a.named p) = (a.modes p).foldl Mode.broader .unset := by
  have aligned : ∀ (rest : List (Rule × Option Refusal)) (place : Nat) (mode : Mode),
      (∀ i, rest[i]? = a.rules[place + i]?) →
      ((rest.zipIdx place).filterMap (fun one => if names p one.1 then some (one.2 + 1) else none)).foldl
        (fun mode number =>
          mode.broader ((a.rules[number - 1]?.map (fun one => one.1.modeOf)).getD .unset)) mode =
      ((rest.filter (names p)).map (fun one => one.1.modeOf)).foldl Mode.broader mode := by
    intro rest
    induction rest with
    | nil => intro place mode _; rfl
    | cons one rest ih =>
      intro place mode same
      have next : ∀ i, rest[i]? = a.rules[place + 1 + i]? := by
        intro i
        have := same (i + 1)
        rw [List.getElem?_cons_succ] at this
        rw [this]
        congr 1
        omega
      have here : a.rules[place]? = some one := by simpa using (same 0).symm
      rw [List.zipIdx_cons]
      by_cases naming : names p one = true
      · simp only [List.filterMap_cons, naming, if_true, List.foldl_cons, Nat.add_sub_cancel,
          here, Option.map_some, Option.getD_some, List.filter_cons_of_pos, List.map_cons]
        exact ih _ _ next
      · rw [List.filter_cons_of_neg naming, List.filterMap_cons]
        simp only [naming, Bool.false_eq_true, if_false]
        exact ih _ _ next
  exact aligned a.rules 0 .unset (fun i => by rw [Nat.zero_add])

theorem mem_modes {mode : Mode} :
    mode ∈ a.modes p ↔ ∃ one ∈ a.rules, names p one = true ∧ one.1.modeOf = mode := by
  simp only [modes, List.mem_map, List.mem_filter]
  constructor
  · rintro ⟨one, ⟨member, naming⟩, same⟩
    exact ⟨one, member, naming, same⟩
  · rintro ⟨one, member, naming, same⟩
    exact ⟨one, ⟨member, naming⟩, same⟩

theorem rank_le_union {one : Rule × Option Refusal} (member : one ∈ a.rules)
    (naming : names p one = true) : one.1.modeOf.rank ≤ (a.union (a.named p)).rank := by
  rw [union_named]
  exact rank_le_foldl _ _ _ (List.mem_cons_of_mem _ (mem_modes.mpr ⟨one, member, naming, rfl⟩))

theorem union_attained (above : 0 < (a.union (a.named p)).rank) :
    ∃ one ∈ a.rules, names p one = true ∧ one.1.modeOf = a.union (a.named p) := by
  have member := foldl_broader_mem (a.modes p) .unset
  rw [← union_named] at member
  rcases List.mem_cons.mp member with unset | held
  · rw [unset] at above
    cases above
  · exact mem_modes.mp held

theorem grants_iff : a.grants p = true ↔
    ∃ one ∈ a.rules, names p one = true ∧ one.1.modeOf.answersExisting = true := by
  unfold grants
  rw [Bool.and_eq_true, Mode.answersExisting_iff]
  constructor
  · rintro ⟨_, existing⟩
    obtain ⟨one, member, naming, mode⟩ := union_attained (a := a) (p := p) (by omega)
    exact ⟨one, member, naming, (Mode.answersExisting_iff _).mpr (mode ▸ existing)⟩
  · rintro ⟨one, member, naming, existing⟩
    have rank := rank_le_union member naming
    have := (Mode.answersExisting_iff _).mp existing
    refine ⟨?_, by omega⟩
    apply decide_eq_true
    intro none_
    rw [named_eq_nil_iff.mp none_ one member] at naming
    cases naming

end Prepared

def Table.Acyclic (t : Table) : Prop := ∀ p ∈ t.processes, ¬ Ancestor t.parent p p

section Walks

variable {t : Table} {p : Entry} {hit : Entry → Bool}

theorem Table.parent_mem {child above : Entry} (linked : t.parent child = some above) :
    above ∈ t.processes := by
  obtain ⟨found, _⟩ := Option.filter_eq_some_iff.mp linked
  exact List.mem_of_find?_eq_some found

theorem Table.ancestor_mem {q : Entry} (above : Ancestor t.parent p q) : q ∈ t.processes := by
  obtain ⟨last, _, linked⟩ := Relation.TransGen.tail'_iff.mp above
  exact Table.parent_mem linked

theorem Table.acyclic_of_rank (rank : Entry → Nat)
    (falls : ∀ p ∈ t.processes, ∀ q, t.parent p = some q → rank q < rank p) : t.Acyclic := by
  have lower : ∀ p q, Ancestor t.parent p q → p ∈ t.processes → rank q < rank p := by
    intro p q above
    induction above with
    | single linked => exact fun member => falls p member _ linked
    | tail between linked ih =>
      intro member
      exact Nat.lt_trans (falls _ (Table.ancestor_mem between) _ linked) (ih member)
  intro p member above
  exact Nat.lt_irrefl _ (lower p p above member)

theorem Table.nearest_iff (acyclic : t.Acyclic) {steps : Nat} (enough : t.processes.length ≤ steps) :
    (nearest t.parent hit steps p).isSome = true ↔ ∃ q, Ancestor t.parent p q ∧ hit q = true := by
  constructor
  · intro found
    obtain ⟨q, is⟩ := Option.isSome_iff_exists.mp found
    exact ⟨q, nearest_ancestor is⟩
  · rintro ⟨q, above, looked⟩
    have within := heightIn_le t.parent t.processes p
    obtain ⟨first, found⟩ := nearest_of_ancestor (fun z itself => acyclic z (Table.ancestor_mem itself) itself)
      (fun _ _ linked => Table.parent_mem linked) (Nat.le_trans within enough) above looked
    rw [found]
    rfl

end Walks

def Denied (a : Prepared) (t : Table) (p : Entry) : Prop :=
  ∃ q, (q = p ∨ Ancestor t.parent p q) ∧ ∃ rule ∈ a.exclusions, rule.matched q = true

def Approved (a : Prepared) (t : Table) (p : Entry) : Prop :=
  (∃ one ∈ a.rules, one.2 = none ∧ one.1.matched p = true) ∨
    ∃ q, Ancestor t.parent p q ∧ ∃ one ∈ a.rules, one.2 = none ∧ one.1.matched q = true ∧
      one.1.modeOf.answersExisting = true

namespace Prepared

variable {a : Prepared} {t : Table} {p : Entry}

theorem names_iff {one : Rule × Option Refusal} :
    names p one = true ↔ one.2 = none ∧ one.1.matched p = true := by
  simp [names]

theorem excludedBy_iff : (a.excludedBy p).isSome = true ↔
    ∃ rule ∈ a.exclusions, rule.matched p = true := by
  simp [excludedBy, List.findIdx?_isSome]

theorem root_iff (acyclic : t.Acyclic) (marked : Entry → Bool) :
    (root t marked p).isSome = true ↔ ∃ q, (q = p ∨ Ancestor t.parent p q) ∧ marked q = true := by
  unfold root
  by_cases own : marked p = true
  · rw [if_pos own]
    exact ⟨fun _ => ⟨p, .inl rfl, own⟩, fun _ => rfl⟩
  rw [if_neg own, Table.nearest_iff acyclic (Nat.le_refl _)]
  constructor
  · rintro ⟨q, above, found⟩
    exact ⟨q, .inr above, found⟩
  · rintro ⟨q, rfl | above, found⟩
    · exact absurd found own
    · exact ⟨q, above, found⟩

theorem denial_iff (acyclic : t.Acyclic) : (a.denial t p).isSome = true ↔ Denied a t p := by
  unfold denial
  rw [Option.isSome_map, root_iff acyclic]
  simp only [excludedBy_iff]
  rfl

theorem approved_iff (acyclic : t.Acyclic) :
    a.named p ≠ [] ∨ (a.granting t p).isSome = true ↔ Approved a t p := by
  have own : a.named p ≠ [] ↔ ∃ one ∈ a.rules, one.2 = none ∧ one.1.matched p = true := by
    rw [Ne, named_eq_nil_iff]
    constructor
    · intro some_
      by_contra none_
      refine some_ fun one member => ?_
      by_contra naming
      exact none_ ⟨one, member, names_iff.mp (by simpa using naming)⟩
    · rintro ⟨one, member, naming⟩ none_
      have unnamed := none_ one member
      rw [names_iff.mpr naming] at unnamed
      cases unnamed
  have above : (a.granting t p).isSome = true ↔ ∃ q, Ancestor t.parent p q ∧
      ∃ one ∈ a.rules, one.2 = none ∧ one.1.matched q = true ∧ one.1.modeOf.answersExisting = true := by
    unfold granting
    rw [Table.nearest_iff acyclic (Nat.le_succ _)]
    simp only [grants_iff, names_iff, and_assoc]
  rw [own, above]
  rfl

theorem selection_isSome : (a.selection t p).isSome = true ↔
    (a.denial t p).isSome = false ∧ (a.named p ≠ [] ∨ (a.granting t p).isSome = true) := by
  unfold selection
  cases denied : (a.denial t p).isSome with
  | true => simp
  | false =>
    cases named : a.named p <;> cases granting : a.granting t p <;> simp

theorem selection_pid {s : Selection} (chosen : a.selection t p = some s) :
    s.observerPID = p.pid ∧ s.toInstance = p.toInstance := by
  unfold selection at chosen
  split at chosen
  · cases chosen
  · split at chosen <;> cases chosen <;> exact ⟨rfl, rfl⟩

theorem selected_sublist (a : Prepared) (t : Table) (processes : List Entry) :
    ((processes.filterMap (a.selection t)).map Selection.observerPID).Sublist (processes.map Entry.pid) := by
  induction processes with
  | nil => exact .slnil
  | cons p rest ih =>
    rw [List.filterMap_cons, List.map_cons]
    split
    · exact ih.cons _
    · rename_i s chosen
      rw [List.map_cons, (selection_pid chosen).1]
      exact ih.cons_cons _

end Prepared

def Undecided (a : Prepared) (t : Table) : Prop :=
  ∃ p ∈ t.processes, (∃ one ∈ a.rules, one.1.decide p = .indeterminate) ∨
    ∃ rule ∈ a.exclusions, rule.decide p = .indeterminate

theorem Prepared.argumentRefusals_iff {a : Prepared} {t : Table} :
    a.argumentRefusals t ≠ [] ↔ Undecided a t := by
  simp only [Prepared.argumentRefusals, Undecided, ne_eq, List.map_eq_nil_iff,
    List.filter_eq_nil_iff, not_forall, not_not, Bool.or_eq_true, List.any_eq_true,
    decide_eq_true_eq, exists_prop]

/-- The selections are the processes approved and not denied, each once; there
are none where anything is left undecided. -/
theorem resolve_selects (a : Approval) (host : Host) (acyclic : host.table.Acyclic) :
    let prepared := a.prepare host
    let t := host.table
    let selected := (a.resolve host).selections
    (Undecided prepared t → selected = []) ∧
      (¬ Undecided prepared t →
        (∀ p ∈ t.processes, p.pid ∈ selected.map Selection.observerPID ↔
          ¬ Denied prepared t p ∧ Approved prepared t p) ∧
        (selected.map Selection.observerPID).Nodup ∧
        ∀ s ∈ selected, ∃ p ∈ t.processes,
          s.observerPID = p.pid ∧ s.toInstance = p.toInstance) := by
  intro prepared t selected
  constructor
  · intro undecided
    exact if_pos (Prepared.argumentRefusals_iff.mpr undecided)
  · intro decided
    have all : selected = t.processes.filterMap (prepared.selection t) :=
      if_neg fun some_ => decided (Prepared.argumentRefusals_iff.mp some_)
    have from_ : ∀ s ∈ selected, ∃ p ∈ t.processes, prepared.selection t p = some s := by
      intro s member
      rw [all] at member
      exact List.mem_filterMap.mp member
    refine ⟨?_, ?_, ?_⟩
    · intro p member
      rw [← Prepared.denial_iff acyclic, ← Prepared.approved_iff acyclic]
      constructor
      · intro chosen
        obtain ⟨s, held, same⟩ := List.mem_map.mp chosen
        obtain ⟨q, listed, is⟩ := from_ s held
        have pid : q.pid = p.pid := (Prepared.selection_pid is).1.symm.trans same
        have : q = p := List.inj_on_of_nodup_map t.distinct listed member pid
        subst this
        have some_ := Prepared.selection_isSome.mp (Option.isSome_iff_exists.mpr ⟨s, is⟩)
        exact ⟨Bool.eq_false_iff.mp some_.1, some_.2⟩
      · rintro ⟨allowed, approved⟩
        obtain ⟨s, is⟩ := Option.isSome_iff_exists.mp (Prepared.selection_isSome.mpr ⟨by simpa using allowed, approved⟩)
        rw [all]
        exact List.mem_map.mpr ⟨s, List.mem_filterMap.mpr ⟨p, member, is⟩, (Prepared.selection_pid is).1⟩
    · rw [all]
      exact t.distinct.sublist (prepared.selected_sublist t t.processes)
    · intro s member
      obtain ⟨p, listed, is⟩ := from_ s member
      exact ⟨p, listed, Prepared.selection_pid is⟩

def threeDeep : Table where
  processes :=
    [{ pid := 10, ppid := 1, executable := ascii "/supervisor" },
      { pid := 20, ppid := 10, executable := ascii "/worker" },
      { pid := 30, ppid := 20, executable := ascii "/helper" }]
  distinct := by decide

theorem threeDeep_acyclic : threeDeep.Acyclic := by
  refine Table.acyclic_of_rank (fun p => p.pid.toNat) ?_
  have falls : ∀ p ∈ threeDeep.processes,
      (threeDeep.parent p).all (fun q => q.pid.toNat < p.pid.toNat) = true := by decide
  intro p member q linked
  have := falls p member
  rw [linked] at this
  simpa using this

/-- The supervisor is watched with its descendants, and the worker ignored. -/
theorem resolve_selects_ignored :
    let a : Approval :=
      { rules := [{ executable := ascii "/supervisor", mode := .follow }]
        exclusions := [{ executable := ascii "/worker" }] }
    let host : Host := { table := threeDeep, interfaces := fun _ => .error [] }
    threeDeep.Acyclic ∧ (a.resolve host).selections.map Selection.observerPID = [10] ∧
      ((a.resolve host).selections.map Selection.observerPID).Nodup := by
  intro a host
  have decided : ¬ Undecided (a.prepare host) threeDeep := by
    rw [← Prepared.argumentRefusals_iff]
    decide
  exact ⟨threeDeep_acyclic, by decide, ((resolve_selects a host threeDeep_acyclic).2 decided).2.1⟩

end EdgeObserver.Process
