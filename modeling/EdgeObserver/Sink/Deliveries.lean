import EdgeObserver.Sink.Accounts

/-!
# What the sink queue delivers and reports

The runner gives each admitted line to its sink at most once and in the order of
admission, and `freeze` fixes what is reported.
-/

set_option autoImplicit false

namespace EdgeObserver.Sink

open Library

def Queue.untried (q : Queue) : List Line :=
  match q.runner with
  | .taken | .checked _ => q.inflight.toList.map Queued.toLine
  | _ => []

/-- A queue after the `freeze` that took effect. -/
structure Froze (q next : Queue) : Prop where
  names : next.names = q.names
  items : next.items = []
  untried : next.untried = q.untried
  admitted : next.admitted = q.admitted
  written : next.written = q.written
  closed : next.closed = true
  fixed : next.frozen.isSome
  each : ∀ name ∈ q.names, (next.destination name).frozen.isSome

theorem Queue.discardInflight_froze (q : Queue) (items : q.items = []) (closed : q.closed = true) :
    Froze q q.discardInflight.fix := by
  obtain ⟨queued, runner, _⟩ := q.discardInflight_rest
  have rest : q.discardInflight.names = q.names ∧ q.discardInflight.closed = q.closed ∧
      q.discardInflight.admitted = q.admitted ∧ q.discardInflight.written = q.written ∧
      q.discardInflight.inflight.map Queued.toLine = q.inflight.map Queued.toLine := by
    unfold Queue.discardInflight Queue.discard
    cases flying : q.inflight with
    | none => simp [flying]
    | some item => refine ⟨?_, ?_, ?_, ?_, rfl⟩ <;> dsimp only <;> split <;> rfl
  obtain ⟨names, shut, admitted, written, line⟩ := rest
  refine ⟨names, queued.trans items, ?_, admitted, written, shut.trans closed, rfl, ?_⟩
  · have same : q.discardInflight.inflight.toList.map Queued.toLine =
        q.inflight.toList.map Queued.toLine := by
      rw [← Option.toList_map, line, Option.toList_map]
    simp only [Queue.untried, Queue.fix, runner, same]
  · intro name known
    simp [Queue.fix, names, known]

theorem Queue.freeze_froze (q : Queue) (live : q.frozen = none) : Froze q q.freeze := by
  have rest := Queue.recounted_discards { q with closed := true } q.items
  unfold Queue.freeze
  rw [if_neg (by simp [live])]
  dsimp only
  generalize q.items.foldl (fun q item => q.discard item false) { q with closed := true } = next at rest ⊢
  have froze := Queue.discardInflight_froze { next with items := [] } rfl rest.closed
  refine { froze with names := ?_, untried := ?_, admitted := ?_, written := ?_, each := ?_ }
  · exact froze.names.trans rest.names
  · rw [froze.untried]
    simp only [Queue.untried, rest.runner, rest.inflight]
  · exact froze.admitted.trans rest.admitted
  · exact froze.written.trans rest.written
  · intro name known
    exact froze.each name (rest.names ▸ known)

structure Ordered (q : Queue) : Prop where
  sublist : (q.written ++ (q.untried ++ q.items.map Queued.toLine)).Sublist q.admitted
  places : q.admitted.map Line.place = List.range q.admitted.length

namespace Ordered

variable {q : Queue}

theorem enqueue (ordered : Ordered q) (name line : Bytes) : Ordered (q.enqueue name line).2 := by
  have enqueueing := q.enqueue_enqueueing name line
  generalize q.enqueue name line = answer at enqueueing ⊢
  cases enqueueing with
  | refused error => exact ordered
  | dropped error known live => exact { ordered with }
  | stored known live room =>
    constructor
    · have more := ordered.sublist.append_right [{ place := q.admitted.length, name := name, line := line }]
      simpa [Queue.append, Queue.untried] using more
    · have places := ordered.places
      simp [Queue.append, places, List.range_succ]

theorem take (ordered : Ordered q) : Ordered q.take := by
  unfold Queue.take
  split
  · rename_i item rest idle head
    have sublist := ordered.sublist
    rw [head] at sublist
    exact ⟨by simpa [Queue.untried, idle] using sublist, ordered.places⟩
  · rename_i idle head
    split
    · exact ⟨by simpa [Queue.untried, idle] using ordered.sublist, ordered.places⟩
    · exact ordered
  · exact ordered

theorem check (ordered : Ordered q) : Ordered q.check := by
  unfold Queue.check
  split
  · rename_i item phase flying
    exact ⟨by simpa [Queue.untried, phase, flying] using ordered.sublist, ordered.places⟩
  · exact ordered

theorem write (ordered : Ordered q) (repair answer : Wrote) :
    Ordered (q.write repair answer) := by
  have writing := q.write_writing repair answer
  generalize q.write repair answer = next at writing ⊢
  cases writing with
  | idle => exact ordered
  | skipped item result phase flying =>
    have sublist := ordered.sublist
    simp only [Queue.untried, phase, flying] at sublist
    refine ⟨List.Sublist.trans ?_ sublist, ordered.places⟩
    simp [Queue.untried]
  | tried item d result given phase flying stats frozen =>
    have sublist := ordered.sublist
    simp only [Queue.untried, phase, flying] at sublist
    refine ⟨List.Sublist.trans ?_ sublist, ordered.places⟩
    cases given <;> simp [Queue.untried]

theorem finish (ordered : Ordered q) : Ordered q.finish := by
  unfold Queue.finish
  split
  · rename_i result item phase flying
    exact ⟨by simpa [Queue.untried, phase] using ordered.sublist, ordered.places⟩
  · exact ordered

theorem freeze (ordered : Ordered q) : Ordered q.freeze := by
  cases live : q.frozen with
  | some stats =>
    simpa [Queue.freeze, live] using ordered
  | none =>
    have froze := q.freeze_froze live
    constructor
    · rw [froze.written, froze.untried, froze.items, froze.admitted]
      refine List.Sublist.trans ?_ ordered.sublist
      simp
    · rw [froze.admitted]
      exact ordered.places

theorem register (ordered : Ordered q) (name : Bytes) : Ordered (q.register name).2 := by
  unfold Queue.register
  repeat' split
  all_goals exact { ordered with }

theorem step (ordered : Ordered q) (event : Event) : Ordered (q.step event).2 := by
  cases event with
  | register name => exact ordered.register name
  | enqueue name line => exact ordered.enqueue name line
  | take => exact ordered.take
  | check => exact ordered.check
  | write repair answer => exact ordered.write repair answer
  | finish => exact ordered.finish
  | freeze => exact ordered.freeze
  | closeAdmission | shut => exact { ordered with }
  | drain => exact ordered
  | reopened name => exact { ordered with }

end Ordered

def Fixed (q : Queue) : Prop := q.frozen.isSome → q.closed = true ∧ ∀ name ∈ q.names, (q.destination name).frozen.isSome

structure Standing (q next : Queue) : Prop where
  frozen : next.frozen = q.frozen
  closed : q.closed = true → next.closed = true
  names : q.closed = true → next.names = q.names
  each : ∀ name ∈ q.names, (next.destination name).frozen = (q.destination name).frozen

theorem Standing.refl (q : Queue) : Standing q q := ⟨rfl, id, fun _ => rfl, fun _ _ => rfl⟩

theorem Standing.both {q next : Queue} (standing : Standing q next) (name : Bytes)
    (change : Stats → Stats) : Standing q (next.both name change) :=
  { standing with
    each := fun other known =>
      (next.both_destination_frozen name change other).trans (standing.each other known) }

theorem Standing.update {q : Queue} {name : Bytes} {d : Destination}
    (frozen : d.frozen = (q.destination name).frozen) (other : Bytes) :
    (Function.update q.destination name d other).frozen = (q.destination other).frozen := by
  by_cases same : other = name
  · subst same
    simpa using frozen
  · simp [same]

theorem Queue.step_standing (q : Queue) (event : Event) (other : event = .freeze → q.frozen.isSome) :
    Standing q (q.step event).2 := by
  cases event with
  | register name =>
    simp only [Queue.step]
    unfold Queue.register
    split
    · exact .refl q
    split
    · exact .refl q
    rename_i opened
    split
    · exact .refl q
    rename_i fresh
    refine ⟨rfl, id, fun closed => absurd closed opened, ?_⟩
    intro known member
    have differ : known ≠ name := fun same => fresh (same ▸ member)
    simp [differ]
  | enqueue name line =>
    have enqueueing := q.enqueue_enqueueing name line
    simp only [Queue.step]
    generalize q.enqueue name line = answer at enqueueing ⊢
    cases enqueueing with
    | refused error => exact .refl q
    | dropped error known live => exact ((Standing.refl q).both name _).both name _
    | stored known live room =>
      have first := (Standing.refl q).both name Stats.authorize
      have appended : Standing q ((q.both name Stats.authorize).append name line) :=
        { first with }
      exact appended.both name _
  | take =>
    simp only [Queue.step, Queue.take]
    repeat' split
    all_goals exact ⟨rfl, id, fun _ => rfl, fun _ _ => rfl⟩
  | check =>
    simp only [Queue.step, Queue.check]
    split <;> exact ⟨rfl, id, fun _ => rfl, fun _ _ => rfl⟩
  | write repair answer =>
    have writing := q.write_writing repair answer
    simp only [Queue.step]
    generalize q.write repair answer = next at writing ⊢
    cases writing with
    | idle => exact .refl q
    | skipped => exact ⟨rfl, id, fun _ => rfl, fun _ _ => rfl⟩
    | tried item d result given phase flying stats frozen =>
      exact ⟨rfl, id, fun _ => rfl, fun name _ => Standing.update frozen name⟩
  | finish =>
    simp only [Queue.step, Queue.finish]
    split
    · have settled := fun item result => (Standing.refl q).both item.name (Stats.settle item result)
      exact ⟨rfl, id, fun _ => rfl, (settled _ _).each⟩
    · exact .refl q
  | closeAdmission => exact ⟨rfl, fun _ => rfl, fun _ => rfl, fun _ _ => rfl⟩
  | freeze =>
    have fixed := other rfl
    simp only [Queue.step, Queue.freeze, fixed, if_true]
    exact .refl q
  | shut => exact ⟨rfl, id, fun _ => rfl, fun _ _ => rfl⟩
  | drain => exact .refl q
  | reopened name => exact ⟨rfl, id, fun _ => rfl, fun other _ => by
    simp only [Queue.step, Queue.reopened]
    refine Standing.update ?_ other
    rfl⟩

theorem Fixed.step {q : Queue} (fixed : Fixed q) (event : Event) : Fixed (q.step event).2 := by
  by_cases first : event = .freeze ∧ q.frozen = none
  · obtain ⟨rfl, live⟩ := first
    have froze := q.freeze_froze live
    intro _
    exact ⟨froze.closed, fun name known => froze.each name (froze.names ▸ known)⟩
  · have standing := q.step_standing event (by
      intro same
      cases live : q.frozen with
      | none => exact absurd ⟨same, live⟩ first
      | some stats => rfl)
    intro after
    obtain ⟨closed, each⟩ := fixed (standing.frozen ▸ after)
    refine ⟨standing.closed closed, fun name known => ?_⟩
    rw [standing.names closed] at known
    rw [standing.each name known]
    exact each name known

theorem Standing.statsOf {q next : Queue} (standing : Standing q next) (fixed : Fixed q)
    (frozen : q.frozen.isSome) (name : Bytes) : next.statsOf name = q.statsOf name := by
  obtain ⟨closed, each⟩ := fixed frozen
  obtain ⟨totals, is⟩ := Option.isSome_iff_exists.mp frozen
  unfold Queue.statsOf
  rw [standing.names closed, standing.frozen, is]
  split
  · rfl
  split
  · rename_i known
    obtain ⟨one, own⟩ := Option.isSome_iff_exists.mp (each name known)
    rw [standing.each name known, own]
    rfl
  · rfl

theorem statsOf_run {q : Queue} (fixed : Fixed q) (frozen : q.frozen.isSome) (events : List Event) (name : Bytes) :
    (run Queue.step q events).2.statsOf name = q.statsOf name := by
  induction events generalizing q with
  | nil => rfl
  | cons event events ih =>
    have standing := q.step_standing event (fun _ => frozen)
    simp only [run_cons]
    rw [ih (fixed.step event) (standing.frozen ▸ frozen), standing.statsOf fixed frozen]

theorem Accounted.destination_bounded {limit : Int} {q : Queue} (accounted : Accounted limit q)
    (name : Bytes) : (q.destination name).stats.pendingBytes ≤ limit := by
  have part : ((q.charged.filter (fun item => item.name == name)).map
      (fun item => (item.line.length : Int))).sum ≤ (q.charged.map (fun item => (item.line.length : Int))).sum := by
    apply List.Sublist.sum_le_sum
    · exact List.filter_sublist.map _
    · intro size member
      obtain ⟨item, _, rfl⟩ := List.mem_map.mp member
      omega
  rw [(accounted.each name).bytes]
  exact Int.le_trans part (accounted.totals.bytes ▸ accounted.bounded)

theorem accounted_new {limit : Int} {fresh : Queue} (made : newQueue limit = some fresh) :
    Accounted limit fresh ∧ Ordered fresh ∧ Fixed fresh := by
  unfold newQueue at made
  split at made
  · cases made
  rename_i positive
  cases made
  have zero : Counts { limitBytes := limit } [] := ⟨rfl, Int.le_refl 0, rfl, rfl⟩
  have none : Counts {} [] := ⟨rfl, Int.le_refl 0, rfl, rfl⟩
  have summed : Summed { stats := { limitBytes := limit } } := by
    intro counter member
    simp only [counters, List.mem_cons, List.not_mem_nil, or_false] at member
    rcases member with rfl | rfl | rfl | rfl | rfl | rfl | rfl | rfl <;> rfl
  have bounded : (0 : Int) ≤ limit := by omega
  refine ⟨⟨⟨zero, fun _ => none, summed, List.nodup_nil, ?_, rfl, bounded, ?_⟩, ?_, ?_⟩, ⟨.slnil, rfl⟩, ?_⟩
  · intro item member; cases member
  · intro name member; cases member
  · intro item member; cases member
  · intro waiting; rfl
  · intro fixed; cases fixed

/-- The sink queue over every interleaving of its callers and its runner,
whatever the sinks answer. -/
theorem queue_runs {limit : Int} {fresh : Queue} (made : newQueue limit = some fresh) (events later : List Event) :
    let q := (run Queue.step fresh events).2
    (Counts q.stats q.charged ∧ q.stats.pendingBytes ≤ q.stats.limitBytes) ∧
      (∀ name ∈ q.names,
        Counts (q.destination name).stats (q.charged.filter (fun item => item.name == name)) ∧
          (q.destination name).stats.pendingBytes ≤ (q.destination name).stats.limitBytes) ∧
      Summed q ∧
      q.written.Nodup ∧
      (∀ name, (q.written.filter (fun line => line.name == name)).Sublist
        (q.admitted.filter (fun line => line.name == name))) ∧
      (q.frozen.isSome → ∀ name, (run Queue.step q later).2.statsOf name = q.statsOf name) := by
  intro q
  obtain ⟨accounted, ordered, fixed⟩ := accounted_new made
  have accounted : Accounted limit q :=
    run_keeps Queue.step (Accounted limit) (fun _ event kept => kept.step event) accounted events
  have ordered : Ordered q := run_keeps Queue.step Ordered (fun _ event kept => kept.step event) ordered events
  have fixed : Fixed q := run_keeps Queue.step Fixed (fun _ event kept => kept.step event) fixed events
  have written : q.written.Sublist q.admitted := (List.sublist_append_left _ _).trans ordered.sublist
  have distinct : q.admitted.Nodup := List.Nodup.of_map Line.place (ordered.places ▸ List.nodup_range)
  refine ⟨⟨accounted.totals, ?_⟩, ?_, accounted.summed, written.nodup distinct, ?_, ?_⟩
  · exact accounted.sized ▸ accounted.bounded
  · intro name known
    refine ⟨accounted.each name, ?_⟩
    rw [accounted.limits name known]
    exact accounted.destination_bounded name
  · exact fun name => written.filter _
  · exact fun frozen name => statsOf_run fixed frozen later name

/-- A line frozen while the runner holds it is written all the same, and what is
reported of it stays. -/
theorem queue_runs_frozen_in_flight :
    let fresh : Queue := { stats := { limitBytes := 4 } }
    let q := (run Queue.step fresh [.register [97], .enqueue [97] [120, 10], .take, .check, .freeze]).2
    let after := (run Queue.step q [.write ⟨0, false⟩ ⟨2, false⟩, .finish]).2
    newQueue 4 = some fresh ∧ ((q.statsOf [97]).discarded = 1 ∧ (q.statsOf [97]).pendingBytes = 2) ∧
      after.written.length = 1 ∧ after.statsOf [97] = q.statsOf [97] := by
  intro fresh q after
  have made : newQueue 4 = some fresh := rfl
  have frozen : q.frozen.isSome := by decide
  refine ⟨made, ⟨by decide, by decide⟩, by decide, ?_⟩
  exact (queue_runs made _ _).2.2.2.2.2 frozen [97]

end EdgeObserver.Sink
