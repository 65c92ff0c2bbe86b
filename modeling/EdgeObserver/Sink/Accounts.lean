import EdgeObserver.Sink.Queue

/-!
# The sink queue's accounts

The figures of the totals and of each destination, against the lines the queue
holds: those queued and the one the runner has out.
-/

set_option autoImplicit false

namespace EdgeObserver.Sink

open Library

def Queue.charged (q : Queue) : List Queued := q.items ++ q.inflight.toList

structure Counts (v : Stats) (items : List Queued) : Prop where
  balance : v.authorized = v.written + v.failed + v.dropped + v.pending
  discarded : v.discarded ≤ v.dropped
  pending : v.pending = items.countP (fun item => !item.discarded)
  bytes : v.pendingBytes = (items.map (fun item => (item.line.length : Int))).sum

def counters : List (Stats → Int) :=
  [Stats.authorized, Stats.written, Stats.failed, Stats.dropped, Stats.pending,
    Stats.discarded, Stats.bytes, Stats.pendingBytes]

def Uniform (change : Stats → Stats) : Prop := ∀ counter ∈ counters, ∃ more, ∀ v, counter (change v) = counter v + more

namespace Counts

variable {v : Stats} {items : List Queued} {item : Queued}

theorem perm (counts : Counts v items) {others : List Queued} (perm : items.Perm others) :
    Counts v others where
  balance := counts.balance
  discarded := counts.discarded
  pending := by rw [counts.pending, perm.countP_eq]
  bytes := by rw [counts.bytes, (perm.map _).sum_eq]

theorem dropped (counts : Counts v items) : Counts v.authorize.drop items where
  balance := by have := counts.balance; simp only [Stats.drop, Stats.authorize]; omega
  discarded := by have := counts.discarded; simp only [Stats.drop, Stats.authorize]; omega
  pending := counts.pending
  bytes := counts.bytes

theorem pend (counts : Counts v items) (kept : item.discarded = false) :
    Counts (v.authorize.pend item.line.length) (items ++ [item]) where
  balance := by have := counts.balance; simp only [Stats.pend, Stats.authorize]; omega
  discarded := counts.discarded
  pending := by
    have := counts.pending
    simp [Stats.pend, Stats.authorize, kept, this]
  bytes := by
    have := counts.bytes
    simp [Stats.pend, Stats.authorize, this]

theorem settle (counts : Counts v (items ++ [item])) (result : Wrote) :
    Counts (v.settle item result) items := by
  obtain ⟨balance, discarded, pending, bytes⟩ := counts
  simp only [List.countP_append, List.countP_singleton, List.map_append, List.map_cons,
    List.map_nil, List.sum_append, List.sum_cons, List.sum_nil] at pending bytes
  unfold Stats.settle
  cases gone : item.discarded <;> cases lost : result.failed <;>
    simp only [gone, Bool.not_true, Bool.not_false, Bool.false_eq_true, if_true, if_false]
      at pending ⊢ <;>
    constructor <;> push_cast at pending ⊢ <;> omega

theorem discardQueued (counts : Counts v (item :: items)) (kept : item.discarded = false) :
    Counts (v.discard item false) items := by
  obtain ⟨balance, discarded, pending, bytes⟩ := counts
  simp only [List.countP_cons, kept, Bool.not_false, if_true, List.map_cons, List.sum_cons]
    at pending bytes
  constructor <;> simp only [Stats.discard, Bool.false_eq_true, if_false] <;> push_cast at pending <;> omega

theorem discardFlying (counts : Counts v [item]) (kept : item.discarded = false) :
    Counts (v.discard item true) [{ item with discarded := true }] := by
  obtain ⟨balance, discarded, pending, bytes⟩ := counts
  simp only [List.countP_singleton, kept, Bool.not_false, if_true, List.map_cons, List.map_nil]
    at pending bytes
  constructor <;> simp [Stats.discard] <;> simp at bytes <;> omega

end Counts

section Uniform

variable {change : Stats → Stats}

theorem Uniform.comp {other : Stats → Stats} (first : Uniform change) (then_ : Uniform other) :
    Uniform (fun v => other (change v)) := by
  intro counter member
  obtain ⟨one, adds⟩ := first counter member
  obtain ⟨two, more⟩ := then_ counter member
  exact ⟨one + two, fun v => by rw [more, adds, add_assoc]⟩

theorem uniform_of (adds : ∀ counter ∈ counters, ∀ v, counter (change v) = counter v + counter (change {})) :
    Uniform change := fun counter member => ⟨counter (change {}), adds counter member⟩

theorem uniform_authorize : Uniform Stats.authorize := uniform_of (by simp [counters, Stats.authorize])

theorem uniform_drop : Uniform Stats.drop := uniform_of (by simp [counters, Stats.drop])

theorem uniform_pend (n : Int) : Uniform (Stats.pend n) := uniform_of (by simp [counters, Stats.pend])

theorem uniform_settle (item : Queued) (result : Wrote) : Uniform (Stats.settle item result) := by
  apply uniform_of
  unfold Stats.settle
  cases item.discarded <;> cases result.failed <;> simp [counters, sub_eq_add_neg]

theorem uniform_discard (item : Queued) (inflight : Bool) : Uniform (Stats.discard item inflight) := by
  apply uniform_of
  unfold Stats.discard
  cases inflight <;> simp [counters, sub_eq_add_neg]

end Uniform

def Each (q : Queue) (items : List Queued) : Prop :=
  ∀ name, Counts (q.destination name).stats (items.filter (fun item => item.name == name))

def Summed (q : Queue) : Prop :=
  ∀ counter ∈ counters, counter q.stats = (q.names.map (fun name => counter (q.destination name).stats)).sum

theorem Each.perm {q : Queue} {before after : List Queued} (each : Each q before)
    (perm : before.Perm after) : Each q after :=
  fun name => (each name).perm (perm.filter _)

theorem Summed.both {q : Queue} {name : Bytes} {change : Stats → Stats} (summed : Summed q)
    (distinct : q.names.Nodup) (known : name ∈ q.names) (uniform : Uniform change) :
    Summed (q.both name change) := by
  intro counter member
  obtain ⟨more, adds⟩ := uniform counter member
  have total := summed counter member
  have each : (fun other => counter ((q.both name change).destination other).stats) =
      fun other => if other = name then counter (q.destination other).stats + more
        else counter (q.destination other).stats := by
    funext other
    rw [Queue.both_destination]
    split
    · exact adds _
    · rfl
  rw [Queue.both_stats, Queue.both_names, adds, total, each, sum_map_more _ distinct known]

structure Holding (limit : Int) (q : Queue) (lines : List Queued) : Prop where
  totals : Counts q.stats lines
  each : Each q lines
  summed : Summed q
  distinct : q.names.Nodup
  known : ∀ item ∈ lines, item.name ∈ q.names
  sized : q.stats.limitBytes = limit
  bounded : q.stats.pendingBytes ≤ limit
  limits : ∀ name ∈ q.names, (q.destination name).stats.limitBytes = limit

structure Accounted (limit : Int) (q : Queue) : Prop extends Holding limit q q.charged where
  kept : ∀ item ∈ q.items, item.discarded = false
  idle : q.runner = .waiting → q.inflight = none

@[simp] theorem Stats.settle_limitBytes (item : Queued) (result : Wrote) (v : Stats) :
    (v.settle item result).limitBytes = v.limitBytes := by
  unfold Stats.settle
  cases item.discarded <;> cases result.failed <;> rfl

@[simp] theorem Stats.settle_pendingBytes (item : Queued) (result : Wrote) (v : Stats) :
    (v.settle item result).pendingBytes = v.pendingBytes - item.line.length := by
  unfold Stats.settle
  cases item.discarded <;> cases result.failed <;> rfl

@[simp] theorem Stats.discard_limitBytes (item : Queued) (inflight : Bool) (v : Stats) :
    (v.discard item inflight).limitBytes = v.limitBytes := by
  unfold Stats.discard
  cases inflight <;> rfl

theorem Stats.discard_pendingBytes_le (item : Queued) (inflight : Bool) (v : Stats) :
    (v.discard item inflight).pendingBytes ≤ v.pendingBytes := by
  unfold Stats.discard
  cases inflight <;> simp only [Bool.false_eq_true, if_true, if_false] <;> omega

theorem Holding.perm {q : Queue} {limit : Int} {before after : List Queued} (holding : Holding limit q before)
    (moved : before.Perm after) : Holding limit q after :=
  { holding with
    totals := holding.totals.perm moved
    each := holding.each.perm moved
    known := fun other member => holding.known other (moved.mem_iff.mpr member) }

theorem Holding.both {q : Queue} {limit : Int} {before after : List Queued} (holding : Holding limit q before)
    {name : Bytes} (named : name ∈ q.names) {change : Stats → Stats} (uniform : Uniform change)
    (same : ∀ v, (change v).limitBytes = v.limitBytes) (totals : Counts (change q.stats) after)
    (own : Counts (q.destination name).stats (before.filter (fun item => item.name == name)) →
      Counts (change (q.destination name).stats) (after.filter (fun item => item.name == name)))
    (others : ∀ other, other ≠ name →
      after.filter (fun item => item.name == other) = before.filter (fun item => item.name == other))
    (known : ∀ item ∈ after, item.name ∈ q.names) (bounded : (change q.stats).pendingBytes ≤ limit) :
    Holding limit (q.both name change) after where
  totals := totals
  each := by
    intro other
    rw [Queue.both_destination]
    split
    · rename_i is
      subst is
      exact own (holding.each other)
    · rename_i differ
      rw [others other differ]
      exact holding.each other
  summed := holding.summed.both holding.distinct named uniform
  distinct := holding.distinct
  known := known
  sized := (same _).trans holding.sized
  bounded := bounded
  limits := by
    intro other listed
    rw [Queue.both_destination]
    split
    · rw [same, holding.limits other listed]
    · exact holding.limits other listed

theorem Queue.both_both (q : Queue) (name : Bytes) (first second : Stats → Stats) :
    (q.both name first).both name second = q.both name (fun v => second (first v)) := by
  simp [Queue.both]

theorem Queue.append_both (q : Queue) (name line : Bytes) (first second : Stats → Stats) :
    ((q.both name first).append name line).both name second =
      (q.append name line).both name (fun v => second (first v)) := by
  simp [Queue.both, Queue.append]

namespace Accounted

variable {limit : Int} {q : Queue}

theorem register (accounted : Accounted limit q) (name : Bytes) :
    Accounted limit (q.register name).2 := by
  unfold Queue.register
  repeat' split
  all_goals try exact accounted
  rename_i fresh
  have unheld : q.charged.filter (fun item => item.name == name) = [] := by
    rw [List.filter_eq_nil_iff]
    intro item member same
    exact fresh (eq_of_beq same ▸ accounted.known item member)
  refine { accounted with each := ?_, summed := ?_, distinct := ?_, known := ?_, limits := ?_ }
  · intro other
    by_cases same : other = name
    · subst same
      simp only [Function.update_self]
      exact unheld ▸ ⟨rfl, Int.le_refl 0, rfl, rfl⟩
    · simp only [Function.update_of_ne same]
      exact accounted.each other
  · intro counter member
    have others : q.names.map
          (fun other => counter (Function.update q.destination name
            { stats := { limitBytes := q.stats.limitBytes } } other).stats) =
        q.names.map (fun other => counter (q.destination other).stats) := by
      apply List.map_congr_left
      intro other held
      have differ : other ≠ name := fun same => fresh (same ▸ held)
      rw [Function.update_of_ne differ]
    have zero : counter { limitBytes := q.stats.limitBytes } = 0 := by
      simp only [counters, List.mem_cons, List.not_mem_nil, or_false] at member
      rcases member with rfl | rfl | rfl | rfl | rfl | rfl | rfl | rfl <;> rfl
    simp only [List.map_append, List.map_cons, List.map_nil, List.sum_append, List.sum_cons,
      List.sum_nil, Function.update_self, others, zero]
    simpa using accounted.summed counter member
  · exact accounted.distinct.append (List.nodup_singleton name) (by simpa [List.disjoint_singleton] using fresh)
  · intro item member
    exact List.mem_append_left _ (accounted.known item member)
  · intro other known
    by_cases same : other = name
    · subst same
      simp [accounted.sized]
    · have old : other ∈ q.names := by simpa [same] using known
      simp [same, accounted.limits other old]

theorem enqueue (accounted : Accounted limit q) (name line : Bytes) :
    Accounted limit (q.enqueue name line).2 := by
  have enqueueing := q.enqueue_enqueueing name line
  generalize q.enqueue name line = answer at enqueueing ⊢
  cases enqueueing with
  | refused error => exact accounted
  | dropped error known live =>
    rw [Queue.both_both]
    have holding := accounted.toHolding.both known (uniform_authorize.comp uniform_drop) (fun _ => rfl)
      accounted.totals.dropped (fun counts => counts.dropped) (fun _ _ => rfl) accounted.known accounted.bounded
    exact { holding with kept := accounted.kept, idle := accounted.idle }
  | stored known live room =>
    rw [Queue.append_both]
    obtain ⟨item, named, sized, kept, items⟩ : ∃ item : Queued, item.name = name ∧
        item.line = line ∧ item.discarded = false ∧
        (q.append name line).items = q.items ++ [item] := ⟨_, rfl, rfl, rfl, rfl⟩
    have moved : (q.charged ++ [item]).Perm (q.append name line).charged := by
      simp only [Queue.charged, items, List.append_assoc]
      exact List.perm_append_comm.append_left _
    subst named sized
    have appended : Holding limit (q.append item.name item.line) q.charged := { accounted.toHolding with }
    have holding : Holding limit ((q.append item.name item.line).both item.name
        fun v => v.authorize.pend item.line.length) (q.charged ++ [item]) := by
      refine appended.both known (uniform_authorize.comp (uniform_pend _)) (fun _ => rfl)
        (accounted.totals.pend kept) ?_ ?_ ?_ (accounted.sized ▸ room)
      · intro counts
        simpa using counts.pend kept
      · intro other differ
        simp [differ.symm]
      · intro other member
        rcases List.mem_append.mp member with old | new
        · exact accounted.known other old
        · exact List.mem_singleton.mp new ▸ known
    refine { holding.perm moved with kept := fun other member => ?_, idle := accounted.idle }
    rcases List.mem_append.mp (items ▸ member) with old | new
    · exact accounted.kept other old
    · exact List.mem_singleton.mp new ▸ kept

theorem restated (accounted : Accounted limit q) {destination : Bytes → Destination}
    (same : ∀ name, (destination name).stats = (q.destination name).stats) : Accounted limit { q with destination } :=
  { accounted with
    each := fun name => (same name).symm ▸ accounted.each name
    summed := fun counter member => by simpa only [same] using accounted.summed counter member
    limits := by simpa only [same] using accounted.limits }

theorem take (accounted : Accounted limit q) : Accounted limit q.take := by
  unfold Queue.take
  split
  · rename_i item rest idle head
    have moved : q.charged.Perm (rest ++ [item]) := by
      simp only [Queue.charged, head, accounted.idle idle, Option.toList_none, List.append_nil]
      exact (List.perm_append_singleton item rest).symm
    exact { accounted.toHolding.perm moved with
      kept := fun other member => accounted.kept other (head ▸ List.mem_cons_of_mem _ member)
      idle := by intro waiting; cases waiting }
  · split
    · exact { accounted with idle := nofun }
    · exact accounted
  · exact accounted

theorem check (accounted : Accounted limit q) : Accounted limit q.check := by
  unfold Queue.check
  split
  · exact { accounted with idle := nofun }
  · exact accounted

theorem write (accounted : Accounted limit q) (repair answer : Wrote) :
    Accounted limit (q.write repair answer) := by
  have writing := q.write_writing repair answer
  generalize q.write repair answer = next at writing ⊢
  cases writing with
  | idle => exact accounted
  | skipped =>
    exact { accounted with idle := nofun }
  | tried item d result given phase flying stats frozen =>
    refine { accounted.restated ?_ with idle := nofun }
    intro name
    by_cases same : name = item.name
    · subst same
      simpa using stats
    · simp [same]

theorem reopened (accounted : Accounted limit q) (name : Bytes) :
    Accounted limit (q.reopened name) := by
  refine accounted.restated ?_
  intro other
  by_cases same : other = name
  · subst same
    simp [Queue.reopened]
  · simp [Queue.reopened, same]

theorem finish (accounted : Accounted limit q) : Accounted limit q.finish := by
  unfold Queue.finish
  split
  · rename_i result item phase flying
    have charged : q.charged = q.items ++ [item] := by simp [Queue.charged, flying]
    have known : item.name ∈ q.names := accounted.known item (by simp [charged])
    have holding : Holding limit (q.both item.name (Stats.settle item result)) q.items := by
      refine accounted.toHolding.both known (uniform_settle item result) (Stats.settle_limitBytes item result)
        ((charged ▸ accounted.totals).settle result) ?_ ?_
        (fun other member => accounted.known other (List.mem_append_left _ member)) ?_
      · intro counts
        exact Counts.settle (by simpa [charged] using counts) result
      · intro other differ
        simp [charged, differ.symm]
      · have := accounted.bounded
        simp only [Stats.settle_pendingBytes]
        omega
    have left : ({ q.both item.name (Stats.settle item result) with
        inflight := none, runner := .waiting } : Queue).charged = q.items := by
      simp [Queue.charged]
    exact { left ▸ holding with kept := accounted.kept, idle := fun _ => rfl }
  · exact accounted

end Accounted

section Freezing

variable {limit : Int} {q : Queue}

theorem Queue.discard_of_kept (q : Queue) {item : Queued} (kept : item.discarded = false) (inflight : Bool) :
    q.discard item inflight = q.both item.name (Stats.discard item inflight) := by
  simp [Queue.discard, kept]

structure Recounted (q next : Queue) : Prop where
  names : next.names = q.names
  inflight : next.inflight = q.inflight
  runner : next.runner = q.runner
  closed : next.closed = q.closed
  frozen : next.frozen = q.frozen
  admitted : next.admitted = q.admitted
  written : next.written = q.written

theorem Queue.recounted_discard (q : Queue) (item : Queued) (inflight : Bool) :
    Recounted q (q.discard item inflight) := by
  unfold Queue.discard
  split <;> exact ⟨rfl, rfl, rfl, rfl, rfl, rfl, rfl⟩

theorem Queue.recounted_discards (q : Queue) (items : List Queued) :
    Recounted q (items.foldl (fun q item => q.discard item false) q) := by
  induction items generalizing q with
  | nil => exact ⟨rfl, rfl, rfl, rfl, rfl, rfl, rfl⟩
  | cons item items ih =>
    have one := q.recounted_discard item false
    have rest := ih (q.discard item false)
    exact ⟨rest.names.trans one.names, rest.inflight.trans one.inflight,
      rest.runner.trans one.runner, rest.closed.trans one.closed, rest.frozen.trans one.frozen,
      rest.admitted.trans one.admitted, rest.written.trans one.written⟩

theorem Holding.discardOne {item : Queued} {lines : List Queued}
    (holding : Holding limit q (item :: lines)) (kept : item.discarded = false) :
    Holding limit (q.discard item false) lines := by
  rw [q.discard_of_kept kept]
  refine holding.both (holding.known item List.mem_cons_self) (uniform_discard item false)
    (Stats.discard_limitBytes item false) (holding.totals.discardQueued kept) ?_ ?_
    (fun other member => holding.known other (List.mem_cons_of_mem _ member))
    (Int.le_trans (Stats.discard_pendingBytes_le item false q.stats) holding.bounded)
  · intro counts
    exact Counts.discardQueued (by simpa using counts) kept
  · intro other differ
    simp [differ.symm]

theorem Holding.discards {items lines : List Queued} (holding : Holding limit q (items ++ lines))
    (kept : ∀ item ∈ items, item.discarded = false) :
    Holding limit (items.foldl (fun q item => q.discard item false) q) lines := by
  induction items generalizing q with
  | nil => exact holding
  | cons item items ih =>
    exact ih (holding.discardOne (kept item List.mem_cons_self))
      (fun other member => kept other (List.mem_cons_of_mem _ member))

theorem Holding.discardInflight (holding : Holding limit q q.inflight.toList) :
    Holding limit q.discardInflight q.discardInflight.inflight.toList := by
  unfold Queue.discardInflight
  cases flying : q.inflight with
  | none => simpa [flying] using holding
  | some item =>
    rw [flying] at holding
    have known := holding.known item (by simp)
    cases gone : item.discarded with
    | true =>
      have marked : ({ item with discarded := true } : Queued) = item := by
        rw [← gone]
      simp only [Queue.discard, gone, if_true, marked]
      exact { holding with }
    | false =>
      simp only [q.discard_of_kept gone]
      have marked : Holding limit (q.both item.name (Stats.discard item true)) [{ item with discarded := true }] := by
        refine holding.both known (uniform_discard item true) (Stats.discard_limitBytes item true)
          (holding.totals.discardFlying gone) ?_ ?_ (by simpa using known)
          (Int.le_trans (Stats.discard_pendingBytes_le item true q.stats) holding.bounded)
        · intro counts
          simpa using Counts.discardFlying (by simpa using counts) gone
        · intro other differ
          simp [differ.symm]
      exact { marked with }

theorem Queue.discardInflight_rest (q : Queue) :
    q.discardInflight.items = q.items ∧ q.discardInflight.runner = q.runner ∧
      (q.inflight = none → q.discardInflight.inflight = none) := by
  unfold Queue.discardInflight Queue.discard
  cases flying : q.inflight with
  | none => exact ⟨rfl, rfl, fun _ => flying⟩
  | some item =>
    refine ⟨?_, ?_, fun landed => by cases landed⟩ <;> dsimp only <;> split <;> rfl

theorem Accounted.discardInflight (holding : Holding limit q q.inflight.toList)
    (items : q.items = []) (idle : q.runner = .waiting → q.inflight = none) :
    Accounted limit q.discardInflight := by
  obtain ⟨queued, runner, landed⟩ := q.discardInflight_rest
  have charged : q.discardInflight.charged = q.discardInflight.inflight.toList := by
    simp [Queue.charged, queued, items]
  have marked := holding.discardInflight
  rw [← charged] at marked
  refine { marked with kept := ?_, idle := ?_ }
  · intro item member
    rw [queued, items] at member
    cases member
  · intro waiting
    exact landed (idle (runner ▸ waiting))

theorem Queue.fix_stats (q : Queue) (name : Bytes) :
    (q.fix.destination name).stats = (q.destination name).stats := by
  unfold Queue.fix
  dsimp only
  split <;> rfl

theorem Accounted.freeze (accounted : Accounted limit q) : Accounted limit q.freeze := by
  unfold Queue.freeze
  split
  · exact accounted
  have rest := Queue.recounted_discards { q with closed := true } q.items
  have holding : Holding limit { q with closed := true } (q.items ++ q.inflight.toList) :=
    { accounted with }
  have emptied := holding.discards accounted.kept
  dsimp only
  generalize q.items.foldl (fun q item => q.discard item false) { q with closed := true } = next at rest emptied ⊢
  have out : ({ next with items := [] } : Queue).inflight = q.inflight := rest.inflight
  have flying : Holding limit { next with items := [] }
      ({ next with items := [] } : Queue).inflight.toList := by
    rw [out]
    exact { emptied with }
  have idle : ({ next with items := [] } : Queue).runner = .waiting →
      ({ next with items := [] } : Queue).inflight = none := by
    intro waiting
    rw [out]
    exact accounted.idle (rest.runner ▸ waiting)
  have marked := Accounted.discardInflight flying rfl idle
  exact { marked.restated (Queue.fix_stats _) with }

theorem Accounted.step (accounted : Accounted limit q) (event : Event) :
    Accounted limit (q.step event).2 := by
  cases event with
  | register name => exact accounted.register name
  | enqueue name line => exact accounted.enqueue name line
  | take => exact accounted.take
  | check => exact accounted.check
  | write repair answer => exact accounted.write repair answer
  | finish => exact accounted.finish
  | closeAdmission => exact { accounted with }
  | freeze => exact accounted.freeze
  | shut => exact { accounted with }
  | drain => exact accounted
  | reopened name => exact accounted.reopened name

end Freezing

end EdgeObserver.Sink
