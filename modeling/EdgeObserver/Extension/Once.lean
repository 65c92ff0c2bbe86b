import EdgeObserver.Extension.Answers

/-!
# The supervisor answers each call once

Over every run of the supervisor's regions and of the goroutines that run the
callbacks: where every admitted call is, what is counted as waiting, which lines
change nothing, and that no call is left without its answer.
-/

set_option autoImplicit false

namespace EdgeObserver.Extension

open Library

def Promised (s : Supervisor) : Event → Prop
  | .submit _ call => Submitted s call
  | _ => True

instance (s : Supervisor) (c : Call) : Decidable (Submitted s c) :=
  decidable_of_iff
    (c.id ∉ s.admitted ∧ c.id ∉ s.refused ∧ 0 ≤ c.bytes.toInt ∧
      s.running.all (fun g => g.waiting.toInt + c.bytes.toInt < 2 ^ 63) = true)
    (by cases running : s.running <;> simp [Submitted, running])

instance (s : Supervisor) (event : Event) : Decidable (Promised s event) :=
  match event with
  | .submit _ call => inferInstanceAs (Decidable (Submitted s call))
  | .connectionDone _ | .line .. | .unreadable .. | .tick _ | .writeNext .. | .wrote ..
  | .exited .. | .spawn | .spawned .. | .end_ | .close | .callback _ | .takeDerived
  | .finishDerived _ => inferInstanceAs (Decidable True)

theorem Answering.step {s : Supervisor} (answering : Answering s) (event : Event)
    (promised : Promised s event) : Answering (s.step event).2 := by
  refine Answering.unlock ?_
  cases event with
  | submit now call => exact answering.submit now promised
  | connectionDone message => exact answering.connectionDone message
  | line number now message => exact answering.handle number now message
  | unreadable number now oversized => exact answering.unreadable number now oversized
  | tick now => exact answering.tick now
  | writeNext number now => exact answering.writeNext number now
  | wrote number now failed => exact answering.wrote number now failed
  | exited number now => exact answering.exited number now
  | spawn => exact answering.spawn
  | spawned now start => exact answering.spawned now start
  | end_ => exact answering.end_
  | close => exact answering.close
  | callback place => exact answering.callback place
  | takeDerived =>
    simp only [Supervisor.act, Supervisor.takeDerived]
    split <;> exact { answering with }
  | finishDerived refusal =>
    simp only [Supervisor.act, Supervisor.finishDerived]
    repeat' split
    all_goals exact { answering with }

theorem answering_start {waitingBytes : Int64} (roomy : 0 ≤ waitingBytes.toInt)
    (timeout began : Time) : Answering (start waitingBytes timeout began) where
  roomy := roomy
  numbered := fun _ _ found => by cases found
  charged := fun _ _ found => by cases found
  ended := fun _ _ found => by cases found
  live := fun _ _ found => by cases found
  current := fun _ found => by cases found
  spawning := fun _ => rfl
  starting := fun _ found => by cases found
  places := .refl _
  distinct := List.nodup_nil
  known := fun _ _ told => by cases told
  answered := fun _ _ told => by cases told

theorem Supervisor.step_after (s : Supervisor) (event : Event) : (s.step event).2.after = [] := by
  simp only [Supervisor.step, Supervisor.unlock]
  split
  · assumption
  · rfl

section Lines

variable {s : Supervisor} {number id : Nat}

theorem Supervisor.late_result (s : Supervisor) {g : Generation} (dead : g.state.live = false)
    (now : Time) (text outcome : Option Bytes) (changes : Option (List (Bytes × Bytes)))
    (reason : Option Bytes) :
    ∃ counts, s.resultLocked now g text outcome changes reason = { s with counts := counts } := by
  have past : g.state = .retiring ∨ g.state = .stopping := by
    cases state : g.state <;> simp_all [State.live]
  exact ⟨_, by rw [Supervisor.resultLocked, if_pos past]⟩

theorem Supervisor.duplicate_result (s : Supervisor) {g : Generation} {text : Bytes}
    (alive : g.state.live = true) (parsed : parseID text = some id)
    (contains : g.answered.contains id = true) (absent : id ∉ g.outstanding.map (·.call.id))
    (now : Time) (outcome : Option Bytes) (changes : Option (List (Bytes × Bytes)))
    (reason : Option Bytes) :
    ∃ counts, s.resultLocked now g (some text) outcome changes reason = { s with counts := counts } := by
  have unfound : g.outstanding.find? (·.call.id = id) = none := by
    rw [List.find?_eq_none]
    intro p member same
    exact absent (List.mem_map.mpr ⟨p, member, by simpa using same⟩)
  refine ⟨{ s.counts with duplicate := s.counts.duplicate + 1 }, ?_⟩
  rw [Supervisor.resultLocked, if_neg (State.running_of_live alive)]
  simp only [Option.bind_some, parsed, unfound, contains, if_true]

/-- A result from a generation that is being stopped, or for an id its
generation answered before, is counted and changes nothing else. -/
theorem Answering.stale_line (answering : Answering s) (idle : s.after = []) (now : Time)
    {text : Bytes} (outcome : Option Bytes) (changes : Option (List (Bytes × Bytes)))
    (reason : Option Bytes) (parsed : parseID text = some id)
    (stale : (∃ g, s.generations number = some g ∧ g.state.live = false) ∨ (number, id) ∈ s.answers) :
    ∃ counts, (s.step (.line number now (.result (some text) outcome changes reason))).2 =
      { s with counts := counts } := by
  obtain ⟨g, found, alone⟩ : ∃ g, s.generations number = some g ∧
      ∃ counts, s.resultLocked now g (some text) outcome changes reason = { s with counts := counts } := by
    rcases stale with ⟨g, found, dead⟩ | told
    · exact ⟨g, found, s.late_result dead now _ outcome changes reason⟩
    obtain ⟨g, found, contains, absent⟩ := answering.answered number id told
    refine ⟨g, found, ?_⟩
    cases alive : g.state.live with
    | false => exact s.late_result alive now _ outcome changes reason
    | true => exact s.duplicate_result alive parsed contains absent now outcome changes reason
  obtain ⟨counts, same⟩ := alone
  refine ⟨counts, ?_⟩
  simp only [Supervisor.step, Supervisor.act, Supervisor.handle, found, same]
  simp [Supervisor.unlock, idle]

end Lines

section Progress

variable {s : Supervisor}

theorem Supervisor.outstandingIds_of_idle (idle : s.current = none) : s.outstandingIds = [] := by
  simp [Supervisor.outstandingIds, Supervisor.running, idle]

theorem Supervisor.due_le (s : Supervisor) {g : Generation} (running : s.running = some g)
    {p : Pending} (member : p ∈ g.outstanding) :
    ∃ due, s.dueLocked = some due ∧ due ≤ p.deadline := by
  have listed : p.deadline ∈ s.dueTimes := by
    simp only [Supervisor.dueTimes, running]
    exact List.mem_append_right _ (List.mem_map_of_mem member)
  unfold Supervisor.dueLocked
  cases due : s.dueTimes.min? with
  | none =>
    rw [List.min?_eq_none_iff.mp due] at listed
    cases listed
  | some first => exact ⟨first, rfl, (List.min?_eq_some_iff.mp due).2 _ listed⟩

theorem Answering.ended_idle {t : Supervisor} {g : Generation} {reason : Reason}
    (answering : Answering s) (running : s.running = some g) (ending : Ending s t g reason) :
    t.current = none := by
  rw [ending.current, if_pos (answering.held_of_running running).2]

theorem Answering.tick_ends (answering : Answering s) (now : Time)
    (due : ∀ g, s.running = some g → ∀ p ∈ g.outstanding, p.deadline ≤ now) :
    (s.tickLocked now).outstandingIds = [] := by
  have first : (s.expireLocked now).outstandingIds = [] := by
    unfold Supervisor.expireLocked
    split
    · rename_i idle
      simp [Supervisor.outstandingIds, idle]
    rename_i g running
    have alive := answering.live_of_running running
    split
    · exact Supervisor.outstandingIds_of_idle (answering.ended_idle running (s.retireLocked_ending now _ alive))
    rename_i early
    have none_out : g.outstanding = [] := by
      apply List.eq_nil_iff_forall_not_mem.mpr
      intro p member
      have late : g.outstanding.any (fun p => now ≥ p.deadline) = true :=
        List.any_eq_true.mpr ⟨p, member, decide_eq_true (due g running p member)⟩
      unfold Supervisor.dueCause at early
      rw [late, if_pos rfl] at early
      split at early
      · cases early
      · split at early <;> cases early
    simp [Supervisor.outstandingIds, running, none_out]
  have second : (s.expireLocked now).stopIdleLocked.outstandingIds = [] := by
    have answering := answering.expire now
    unfold Supervisor.stopIdleLocked
    split
    · exact first
    rename_i g running
    have alive := answering.live_of_running running
    split
    · exact Supervisor.outstandingIds_of_idle (answering.ended_idle running (Supervisor.stopLocked_ending _ alive))
    · exact first
  unfold Supervisor.tickLocked
  dsimp only
  split
  · exact second
  · exact second

theorem callbacks_run (idle : s.after = []) :
    ∃ places : List Nat, let t := (run Supervisor.step s (places.map .callback)).2
      t.calling.flatten = [] ∧ t.after = [] ∧ t.outstandingIds = s.outstandingIds ∧ t.admitted = s.admitted := by
  generalize left : s.calling.flatten.length = count
  induction count generalizing s with
  | zero => exact ⟨[], List.eq_nil_of_length_eq_zero left, idle, rfl, rfl⟩
  | succ count ih =>
    -- Some goroutine has a callback left; its next one is run first.
    obtain ⟨own, member, nonempty⟩ : ∃ own ∈ s.calling, own ≠ [] := by
      by_contra none_left
      have empty : s.calling.flatten = [] := by
        apply List.flatten_eq_nil_iff.mpr
        intro own member
        by_contra nonempty
        exact none_left ⟨own, member, nonempty⟩
      rw [empty] at left
      cases left
    obtain ⟨one, rest, rfl⟩ := List.exists_cons_of_ne_nil nonempty
    obtain ⟨place, bound, at_⟩ := List.getElem_of_mem member
    have found : s.calling[place]? = some (one :: rest) := by
      rw [List.getElem?_eq_getElem bound, at_]
    have next : (s.step (.callback place)).2 =
        { s with calling := s.calling.set place rest, done := s.done ++ [one] } := by
      simp [Supervisor.step, Supervisor.act, Supervisor.callback, found, Supervisor.unlock, idle]
    have fewer := (perm_called found).length_eq
    rw [List.length_cons, left] at fewer
    obtain ⟨places, drained, after, ids, admitted⟩ := @ih
      { s with calling := s.calling.set place rest, done := s.done ++ [one] } idle (by
        simp only; omega)
    refine ⟨place :: places, ?_⟩
    simp only [List.map_cons, run_cons, next]
    exact ⟨drained, after, ids, admitted⟩

theorem along_callbacks (s : Supervisor) (places : List Nat) :
    Along Supervisor.step Promised s (places.map .callback) := by
  induction places generalizing s with
  | nil => trivial
  | cons place places ih => exact ⟨trivial, ih _⟩

theorem Answering.tick_admitted (answering : Answering s) (now : Time) :
    (s.tickLocked now).admitted = s.admitted := by
  have first : (s.expireLocked now).admitted = s.admitted := by
    unfold Supervisor.expireLocked
    split
    · rfl
    rename_i g running
    split
    · exact (s.retireLocked_ending now _ (answering.live_of_running running)).admitted
    · rfl
  have second : (s.expireLocked now).stopIdleLocked.admitted = (s.expireLocked now).admitted := by
    unfold Supervisor.stopIdleLocked
    split
    · rfl
    rename_i g running
    split
    · exact (Supervisor.stopLocked_ending _ ((answering.expire now).live_of_running running)).admitted
    · rfl
  rw [← first, ← second]
  unfold Supervisor.tickLocked
  dsimp only
  split <;> rfl

theorem Supervisor.unlock_rest (s : Supervisor) :
    s.unlock.outstandingIds = s.outstandingIds ∧ s.unlock.admitted = s.admitted := by
  unfold Supervisor.unlock
  split <;> exact ⟨rfl, rfl⟩

theorem Answering.all_done (answering : Answering s) (now : Time)
    (due : ∀ g, s.running = some g → ∀ p ∈ g.outstanding, p.deadline ≤ now) :
    ∃ places : List Nat,
      ((run Supervisor.step s (.tick now :: places.map .callback)).2.done.map Prod.fst).Perm
        s.admitted := by
  have ticked := answering.step (.tick now) trivial
  have ended : (s.step (.tick now)).2.outstandingIds = [] :=
    (Supervisor.unlock_rest _).1.trans (answering.tick_ends now due)
  have admitted : (s.step (.tick now)).2.admitted = s.admitted :=
    (Supervisor.unlock_rest _).2.trans (answering.tick_admitted now)
  obtain ⟨places, drained, after, ids, same⟩ := callbacks_run (s.step_after (.tick now))
  have last := along_keeps Supervisor.step Answering (fun _ event kept => kept.step event) ticked
    (along_callbacks _ places)
  refine ⟨places, ?_⟩
  have perm := last.places
  unfold Supervisor.places at perm
  rw [ids, ended, after, drained, same, admitted] at perm
  exact perm

end Progress

/-- The supervisor over every run in which each id is submitted once and every
call is charged what its connection holds of the shared allowance. -/
theorem calls_answered_once {waitingBytes : Int64} (roomy : 0 ≤ waitingBytes.toInt)
    (timeout began : Time) {events : List Event}
    (along : Along Supervisor.step Promised (start waitingBytes timeout began) events) :
    let s := (run Supervisor.step (start waitingBytes timeout began) events).2
    ((s.outstandingIds ++ (s.calling.flatten.map Prod.fst ++ s.done.map Prod.fst)).Perm s.admitted ∧ s.admitted.Nodup) ∧
      (∀ id ∈ s.refused, id ∉ s.calling.flatten.map Prod.fst ∧ id ∉ s.done.map Prod.fst) ∧
      (∀ g, s.running = some g →
        g.waiting.toInt = (g.outstanding.map (·.call.bytes.toInt)).sum ∧
          g.waiting.toInt ≤ s.waitingBytes.toInt ∧ g.outstanding.length ≤ inFlight) ∧
      (∀ number now text outcome changes reason id, parseID text = some id →
        ((∃ g, s.generations number = some g ∧ g.state.live = false) ∨ (number, id) ∈ s.answers) →
        ∃ counts, (s.step (.line number now (.result (some text) outcome changes reason))).2 =
          { s with counts := counts }) ∧
      (∀ g, s.running = some g → ∀ p ∈ g.outstanding, ∃ due, s.dueLocked = some due ∧ due ≤ p.deadline) ∧
      (∀ now, (∀ g, s.running = some g → ∀ p ∈ g.outstanding, p.deadline ≤ now) →
        ∃ places : List Nat,
          ((run Supervisor.step s (.tick now :: places.map .callback)).2.done.map Prod.fst).Perm s.admitted) := by
  intro s
  have answering : Answering s :=
    along_keeps Supervisor.step Answering (fun _ event kept => kept.step event)
      (answering_start roomy timeout began) along
  have idle : s.after = [] := by
    refine run_keeps Supervisor.step (fun s => s.after = []) (fun s event _ => s.step_after event) ?_ events
    rfl
  have places := answering.places
  unfold Supervisor.places at places
  rw [idle] at places
  have apart := List.disjoint_of_nodup_append answering.distinct
  refine ⟨⟨places, (List.nodup_append'.mp answering.distinct).1⟩, ?_, ?_, ?_, ?_, ?_⟩
  · intro id refused
    have absent : id ∉ s.admitted := fun admitted => apart admitted refused
    have nowhere := fun member => absent (places.mem_iff.mp member)
    simp only [List.map_nil, List.nil_append, List.mem_append] at nowhere
    exact ⟨fun member => nowhere (.inr (.inl member)), fun member => nowhere (.inr (.inr member))⟩
  · intro g running
    have charged := answering.charged _ g (answering.held_of_running running).1
    exact ⟨charged.waiting, charged.bounded, charged.few⟩
  · intro number now text outcome changes reason id parsed stale
    exact answering.stale_line idle now outcome changes reason parsed stale
  · exact fun g running p member => s.due_le running member
  · exact fun now due => answering.all_done now due

/-- A first generation is started, answers `ready` and lets a call time out; a
second is started and given another. -/
def secondCall : List Event :=
  [.tick 0, .spawn, .spawned 0 (some []), .line 1 0 (.ready (some protocol)),
    .submit 0 { id := 1, bytes := 1, message := [] }, .tick 5, .callback 0,
    .tick (5 + backoffMin), .spawn, .spawned 0 (some []), .line 2 0 (.ready (some protocol)),
    .submit 0 { id := 2, bytes := 1, message := [] }]

/-- The second generation answers the first one's id, which it was never sent:
the call it does have outstanding fails for it. -/
theorem earlier_id_fails_call :
    let s := (run Supervisor.step (start 10 5 0) secondCall).2
    let line : Event := .line 2 0 (.result (some (ascii "1")) (some (ascii "unchanged")) none none)
    Along Supervisor.step Promised (start 10 5 0) secondCall ∧
      s.done = [(1, .failed (.cause .timeout))] ∧ s.outstandingIds = [2] ∧
      (s.step line).2.calling.flatten = [(2, .failed (.cause .unknownID))] := by
  decide

theorem calls_answered_once_second :
    (0 ≤ (10 : Int64).toInt ∧ Along Supervisor.step Promised (start 10 5 0) secondCall) ∧
      (run Supervisor.step (start 10 5 0) secondCall).2.admitted.Nodup := by
  have along : Along Supervisor.step Promised (start 10 5 0) secondCall := by decide
  exact ⟨⟨by decide, along⟩, (calls_answered_once (by decide) 5 0 along).1.2⟩

end EdgeObserver.Extension
