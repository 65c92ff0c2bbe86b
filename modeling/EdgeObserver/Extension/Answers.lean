import EdgeObserver.Extension.Calls

/-!
# The supervisor's runs

What each region under the lock does to the calls, and what every run of them
keeps.
-/

set_option autoImplicit false

namespace EdgeObserver.Extension

open Library

theorem perm_called {calling : List (List (Nat × Result))} {place : Nat} {one : Nat × Result}
    {rest : List (Nat × Result)} (found : calling[place]? = some (one :: rest)) :
    calling.flatten.Perm (one :: (calling.set place rest).flatten) := by
  obtain ⟨bound, at_⟩ := List.getElem?_eq_some_iff.mp found
  conv_lhs => rw [← List.set_getElem_self bound, at_]
  rw [List.set_eq_take_append_cons_drop, if_pos bound, List.set_eq_take_append_cons_drop, if_pos bound]
  simp only [List.flatten_append, List.flatten_cons, List.cons_append]
  exact List.perm_middle

theorem Charged.answer {limit : Int64} {g : Generation} {p : Pending} (charged : Charged limit g)
    (member : p ∈ g.outstanding) :
    Charged limit { g with
      outstanding := g.outstanding.filter (·.call.id ≠ p.call.id)
      waiting := g.waiting - p.call.bytes
      answered := g.answered.add p.call.id } := by
  have perm := perm_taken (·.call.id) charged.distinct member
  have total : (g.outstanding.map (·.call.bytes.toInt)).sum = p.call.bytes.toInt +
      ((g.outstanding.filter (·.call.id ≠ p.call.id)).map (·.call.bytes.toInt)).sum := by
    rw [(perm.map (·.call.bytes.toInt)).sum_eq]
    rfl
  have rest : 0 ≤ ((g.outstanding.filter (·.call.id ≠ p.call.id)).map
      (·.call.bytes.toInt)).sum := by
    apply List.sum_nonneg
    intro bytes held
    obtain ⟨one, kept, rfl⟩ := List.mem_map.mp held
    exact charged.charges one (List.mem_of_mem_filter kept)
  have positive := charged.charges p member
  have sum := charged.waiting
  have less : (g.waiting - p.call.bytes).toInt = g.waiting.toInt - p.call.bytes.toInt := by
    have high := g.waiting.toInt_lt
    apply toInt_sub_of_range <;> omega
  have bounded := charged.bounded
  exact {
    distinct := charged.distinct.sublist (List.filter_sublist.map _)
    waiting := by simp only [less]; omega
    charges := fun one kept => charged.charges one (List.mem_of_mem_filter kept)
    bounded := by simp only [less]; omega
    few := le_trans (List.length_filter_le _ _) charged.few
    spaced := (IdSet.add_contains charged.spaced p.call.id p.call.id).1 }

theorem State.past_of_dead {state : State} (dead : state.live = false) :
    state = .retiring ∨ state = .stopping := by
  cases state <;> simp_all [State.live]

namespace Answering

variable {s : Supervisor} {g : Generation}

theorem held_of_running (answering : Answering s) (running : s.running = some g) :
    s.generations g.number = some g ∧ s.current = some g.number := by
  obtain ⟨number, current, found⟩ := Option.bind_eq_some_iff.mp running
  have named := (answering.numbered number g found).1
  rw [named]
  exact ⟨found, current⟩

theorem live_of_running (answering : Answering s) (running : s.running = some g) :
    g.state.live = true := by
  obtain ⟨held, current⟩ := answering.held_of_running running
  obtain ⟨one, found, alive⟩ := answering.current _ current
  rw [held] at found
  cases found
  exact alive

theorem retire (answering : Answering s) (held : s.generations g.number = some g) (now : Time)
    (cause : Cause) : Answering (s.retireLocked now g cause) := by
  cases alive : g.state.live with
  | true => exact answering.ending held alive (s.retireLocked_ending now cause alive)
  | false =>
    rw [Supervisor.retireLocked, if_pos (State.past_of_dead alive)]
    exact answering

theorem stop (answering : Answering s) (held : s.generations g.number = some g) :
    Answering (s.stopLocked g) := by
  cases alive : g.state.live with
  | true => exact answering.ending held alive (s.stopLocked_ending alive)
  | false =>
    rw [Supervisor.stopLocked, if_pos (State.past_of_dead alive)]
    exact answering

theorem send (answering : Answering s) (held : s.generations g.number = some g) (o : Outgoing) :
    Answering (s.put (g.send o)) := by
  unfold Generation.send
  split <;> exact answering.put held rfl rfl rfl rfl rfl

theorem connectionDone (answering : Answering s) (message : Bytes) :
    Answering (s.connectionDone message) := by
  unfold Supervisor.connectionDone
  split
  · rename_i g running
    split
    · exact answering.send (answering.held_of_running running).1 _
    · exact answering
  · exact answering

theorem end_ (answering : Answering s) : Answering s.end_ := by
  unfold Supervisor.end_
  split
  · exact answering
  have next : Answering { s with ending := true, restart := none } :=
    { answering with }
  dsimp only
  split
  · rename_i g running
    have held := (next.held_of_running running).1
    split
    · exact next.send held _
    · exact next.stop held
    · exact next
  · exact next

theorem close (answering : Answering s) : Answering s.close := by
  unfold Supervisor.close
  split
  · exact answering
  have next : Answering { s with closed := true, ending := true, restart := none } :=
    { answering with }
  dsimp only
  split
  · rename_i g running
    have stopped := next.stop (next.held_of_running running).1
    exact { stopped with }
  · exact { next with }

theorem unreadable (answering : Answering s) (number : Nat) (now : Time) (oversized : Bool) :
    Answering (s.unreadable number now oversized) := by
  unfold Supervisor.unreadable
  split
  · rename_i g found
    have named := (answering.numbered number g found).1
    split
    · exact answering.retire (named ▸ found) now _
    · exact answering
  · exact answering

theorem exited (answering : Answering s) (number : Nat) (now : Time) :
    Answering (s.exited number now) := by
  unfold Supervisor.exited
  split
  · rename_i g found
    have named := (answering.numbered number g found).1
    split
    · exact answering.retire (named ▸ found) now _
    · exact answering
  · exact answering

theorem spawn (answering : Answering s) : Answering s.spawn := by
  unfold Supervisor.spawn
  split
  · rename_i due
    split
    · refine { answering with spawning := ?_, starting := ?_ }
      · intro spawning
        cases spawning
      · intro number starting
        rw [due.2] at starting
        cases starting
    · refine { answering with numbered := ?_, starting := ?_ }
      · intro number g found
        obtain ⟨named, early⟩ := answering.numbered number g found
        exact ⟨named, by dsimp only; omega⟩
      · intro number starting
        cases starting
        refine ⟨due.1, rfl, ?_⟩
        cases found : s.generations (s.number + 1) with
        | none => rfl
        | some g =>
          have := (answering.numbered _ g found).2
          omega
  · exact answering

theorem born {t : Supervisor} {number : Nat} (answering : Answering s) (starting : s.starting = some number)
    (generations : t.generations = Function.update s.generations number (some g))
    (named : g.number = number) (outstanding : g.outstanding = []) (waiting : g.waiting = 0)
    (spaced : Spaced g.answered.spans)
    (current : t.current = if g.state.live then some number else none)
    (alike : Alike
      { s with
        generations := t.generations
        current := t.current
        spawning := false
        starting := none } t) : Answering t := by
  obtain ⟨spawning, latest, absent⟩ := answering.starting number starting
  have idle := answering.spawning spawning
  have beside : ∀ {other : Nat} {one : Generation}, t.generations other = some one →
      (other = number ∧ one = g) ∨ (other ≠ number ∧ s.generations other = some one) := by
    intro other one found
    rw [generations] at found
    exact update_found found
  have here : t.generations number = some g := by rw [generations, Function.update_self]
  have places : t.places = s.places := by
    have mine : t.outstandingIds = [] := by
      unfold Supervisor.outstandingIds Supervisor.running
      rw [current]
      split <;> simp [here, outstanding]
    have none_ : s.outstandingIds = [] := by
      simp [Supervisor.outstandingIds, Supervisor.running, idle]
    simp only [Supervisor.places, mine, none_, alike.after, alike.calling, alike.done]
  refine ⟨?_, ?_, ?_, ?_, ?_, ?_, ?_, ?_, ?_, ?_, ?_, ?_⟩
  · rw [alike.waitingBytes]
    exact answering.roomy
  · intro other one found
    rw [alike.number]
    rcases beside found with ⟨rfl, rfl⟩ | ⟨_, old⟩
    · exact ⟨named, le_of_eq latest⟩
    · exact answering.numbered other one old
  · intro other one found
    rw [alike.waitingBytes]
    rcases beside found with ⟨rfl, rfl⟩ | ⟨_, old⟩
    · exact .none answering.roomy outstanding waiting spaced
    · exact answering.charged other one old
  · intro other one found dead
    rcases beside found with ⟨rfl, rfl⟩ | ⟨_, old⟩
    · exact outstanding
    · exact answering.ended other one old dead
  · intro other one found alive
    rcases beside found with ⟨rfl, rfl⟩ | ⟨_, old⟩
    · rw [current, if_pos alive]
    · have := answering.live other one old alive
      rw [idle] at this
      cases this
  · intro other now
    rw [current] at now
    split at now
    · rename_i alive
      cases now
      exact ⟨g, here, alive⟩
    · cases now
  · intro still
    rw [alike.spawning] at still
    cases still
  · intro other still
    rw [alike.starting] at still
    cases still
  · rw [places, alike.admitted]
    exact answering.places
  · rw [alike.admitted, alike.refused]
    exact answering.distinct
  · rw [alike.answers, alike.admitted]
    exact answering.known
  · rw [alike.answers]
    intro other id told
    obtain ⟨one, found, contains, free⟩ := answering.answered other id told
    have differ : other ≠ number := by
      rintro rfl
      rw [absent] at found
      cases found
    exact ⟨one, by rw [generations, Function.update_of_ne differ]; exact found, contains, free⟩

theorem spaced_nil : Spaced [] := ⟨List.Pairwise.nil, fun _ member => by cases member⟩

theorem spawned (answering : Answering s) (now : Time) (start : Option Bytes) :
    Answering (s.spawned now start) := by
  unfold Supervisor.spawned
  split
  · exact answering
  rename_i number starting
  have idle := answering.spawning (answering.starting number starting).1
  dsimp only
  split
  · -- The generation that could not be started is retired before anything was sent to it.
    have ending := Supervisor.retireLocked_ending (g := { number := number })
      (({ s with spawning := false, starting := none } : Supervisor).put { number := number })
      now .startFailed rfl
    obtain ⟨next, named, dead, outstanding, waiting, answered, generations⟩ := ending.rest
    refine answering.born starting (g := next) ?_ named outstanding waiting ?_ ?_ ?_
    · rw [generations]
      exact Function.update_idem _ _ _
    · rw [answered]
      exact spaced_nil
    · rw [ending.current, dead]
      simp [Supervisor.put, idle]
    · exact { ending with generations := rfl, current := rfl, after := ending.after.trans (List.append_nil _) }
  · rename_i line
    have new : Answering (s.begin_ number line) :=
      answering.born starting rfl rfl rfl rfl spaced_nil rfl
        ⟨rfl, rfl, rfl, rfl, rfl, rfl, rfl, rfl, rfl, rfl, rfl, rfl⟩
    split
    · split
      · rename_i g running
        exact new.stop (new.held_of_running running).1
      · exact new
    · exact new

theorem writeNext (answering : Answering s) (number : Nat) (now : Time) :
    Answering (s.writeNext number now) := by
  unfold Supervisor.writeNext
  split
  · rename_i g found
    have named := (answering.numbered number g found).1
    subst named
    split
    · exact answering.put found rfl rfl rfl rfl rfl
    · exact answering
  · exact answering

theorem wrote (answering : Answering s) (number : Nat) (now : Time) (failed : Bool) :
    Answering (s.wrote number now failed) := by
  unfold Supervisor.wrote
  split
  · rename_i g found
    have named := (answering.numbered number g found).1
    subst named
    split
    · dsimp only
      split
      · have gone : Answering (s.put { g with writing := none, writingSince := none, gone := true }) :=
          answering.put found rfl rfl rfl rfl rfl
        split
        · exact gone.retire (by simp [Supervisor.put]) now .crash
        · exact gone
      · split
        · exact answering.put found rfl rfl rfl rfl rfl
        · exact answering.put found rfl rfl rfl rfl rfl
    · exact answering
  · exact answering

theorem expire (answering : Answering s) (now : Time) : Answering (s.expireLocked now) := by
  unfold Supervisor.expireLocked
  split
  · exact answering
  rename_i g running
  split
  · exact answering.retire (answering.held_of_running running).1 now _
  · exact answering

theorem stopIdle (answering : Answering s) : Answering s.stopIdleLocked := by
  unfold Supervisor.stopIdleLocked
  split
  · exact answering
  rename_i g running
  split
  · exact answering.stop (answering.held_of_running running).1
  · exact answering

theorem tick (answering : Answering s) (now : Time) : Answering (s.tickLocked now) := by
  have second := (answering.expire now).stopIdle
  unfold Supervisor.tickLocked
  dsimp only
  split
  · rename_i due
    refine { second with spawning := fun _ => due.1, starting := ?_ }
    intro number starting
    obtain ⟨spawning, _⟩ := second.starting number starting
    exact absurd spawning due.2.1
  · exact second

theorem answer (answering : Answering s) (held : s.generations g.number = some g)
    (alive : g.state.live = true) {p : Pending} (member : p ∈ g.outstanding) (result : Result) :
    Answering
      { s.put { g with
          outstanding := g.outstanding.filter (·.call.id ≠ p.call.id)
          waiting := g.waiting - p.call.bytes
          answered := g.answered.add p.call.id } with
        after := s.after ++ [(p.call.id, result)]
        answers := s.answers ++ [(g.number, p.call.id)] } := by
  have charged := answering.charged _ g held
  have here := answering.live _ g held alive
  have replacing := Replacing.put (s.after ++ [(p.call.id, result)]) (s.answers ++ [(g.number, p.call.id)])
    s.admitted (charged.answer member) held rfl rfl (fun dead => by rw [alive] at dead; cases dead)
  have admitted : p.call.id ∈ s.admitted := by
    have out : p.call.id ∈ s.outstandingIds := by
      rw [answering.outstandingIds_eq held alive]
      exact List.mem_map_of_mem member
    exact answering.places.mem_iff.mp (List.mem_append_left _ out)
  refine answering.replacing replacing ?_ answering.distinct ?_ ?_
  · have before := answering.places
    have perm := (perm_taken (·.call.id) charged.distinct member).map (·.call.id)
    rw [Supervisor.places, answering.outstandingIds_eq held alive] at before
    refine (List.Perm.of_eq (replacing.places rfl here)).trans (List.Perm.trans ?_ before)
    refine List.Perm.trans ?_ (perm.append_right _).symm
    simp only [List.map_append, List.map_cons, List.map_nil, List.append_assoc, List.cons_append, List.nil_append]
    rw [← List.append_assoc]
    refine List.perm_middle.trans ?_
    rw [List.append_assoc]
    rfl
  · intro number id told
    rcases List.mem_append.mp told with old | new
    · exact answering.known number id old
    · obtain ⟨rfl, rfl⟩ := Prod.mk.inj (List.mem_singleton.mp new)
      exact admitted
  · intro number id told
    rcases List.mem_append.mp told with old | new
    · exact replacing.answered answering old fun contains absent =>
        ⟨(IdSet.add_contains charged.spaced _ id).2 (.inl contains),
          fun kept => absent ((List.filter_sublist.map _).subset kept)⟩
    · obtain ⟨rfl, rfl⟩ := Prod.mk.inj (List.mem_singleton.mp new)
      exact ⟨_, replacing.at_, (IdSet.add_contains charged.spaced _ _).2 (.inr rfl), by simp⟩

theorem result (answering : Answering s) (held : s.generations g.number = some g) (now : Time)
    (id outcome : Option Bytes) (changes : Option (List (Bytes × Bytes)))
    (reason : Option Bytes) :
    Answering (s.resultLocked now g id outcome changes reason) := by
  unfold Supervisor.resultLocked
  split
  · exact { answering with }
  rename_i running
  have alive : g.state.live = true := by
    cases state : g.state <;> simp_all [State.live]
  split
  · exact answering.retire held now _
  split
  · rename_i p found
    have named := List.find?_some found
    simp only [decide_eq_true_eq] at named
    subst named
    exact answering.answer held alive (List.mem_of_find?_eq_some found) _
  · split
    · exact { answering with }
    · exact answering.retire held now _

theorem ready (answering : Answering s) (held : s.generations g.number = some g) (now : Time)
    (version : Option Bytes) : Answering (s.readyLocked now g version) := by
  unfold Supervisor.readyLocked
  split
  · exact answering
  rename_i alive
  split
  · exact answering.retire held now _
  have alive : g.state.live = true := by simpa using alive
  have next : Answering (s.put { g with state := .ready, readyAt := some now }) :=
    answering.put held rfl alive.symm rfl rfl rfl
  exact { next with }

theorem refuseDerived (answering : Answering s) (reason : DerivedRefusal) : Answering (s.refuseDerived reason) :=
  { answering with }

theorem refuseRate (answering : Answering s) (held : s.generations g.number = some g)
    (now : Time) : Answering (s.refuseRate now g) := by
  have next : Answering ((s.refuseDerived .rate).put (g.flooded (now / second))) :=
    (answering.refuseDerived .rate).put held rfl rfl rfl rfl rfl
  unfold Supervisor.refuseRate
  dsimp only
  split
  · exact next.retire (by simp [Supervisor.put]) now .flood
  · exact next

theorem derived (answering : Answering s) (held : s.generations g.number = some g) (now : Time)
    (sources : Option (List Bytes)) (basis : Option Bytes) (record : Bytes) (issued : Nat)
    (room : Bool) (stamped : Option Bytes) :
    Answering (s.derivedLocked now g sources basis record issued room stamped) := by
  unfold Supervisor.derivedLocked
  repeat' split
  all_goals first
    | exact answering.refuseDerived _
    | exact answering.refuseRate held now
    | exact { answering with }

theorem handle (answering : Answering s) (number : Nat) (now : Time) (m : Incoming) :
    Answering (s.handle number now m) := by
  unfold Supervisor.handle
  split
  · exact answering
  rename_i g found
  have named := (answering.numbered number g found).1
  subst named
  split
  · exact answering.ready found now _
  · exact answering.result found now _ _ _ _
  · exact answering.derived found now _ _ _ _ _ _
  all_goals
    split
    · exact answering.retire found now _
    · exact answering

end Answering

/-- What `submit` can do with a call. -/
inductive Submitting (s : Supervisor) (now : Time) (c : Call) : Option Skip × Supervisor → Prop where
  | skipped (reason : Skip) : Submitting s now c (some reason, { s with refused := s.refused ++ [c.id] })
  | sent (g : Generation) (o : Outgoing) (running : s.running = some g)
      (few : g.outstanding.length < inFlight) (room : g.waiting + c.bytes ≤ s.waitingBytes) :
      Submitting s now c
        (none, { s.put (Generation.send { g with
            outstanding := g.outstanding.filter (·.call.id ≠ c.id) ++
              [{ call := c, deadline := now + s.timeout }]
            waiting := g.waiting + c.bytes } o) with admitted := s.admitted ++ [c.id] })

theorem Supervisor.submit_submitting (s : Supervisor) (now : Time) (c : Call) :
    Submitting s now c (s.submit now c) := by
  unfold Supervisor.submit
  dsimp only
  split
  · exact .skipped _
  rename_i g running
  split
  · exact .skipped _
  split
  · exact .skipped _
  split
  · exact .skipped _
  · rename_i open_
    rw [not_or] at open_
    exact .sent g _ running (not_le.mp open_.1) (Int64.not_lt.mp open_.2)

/-- A call handed to `submit`: its id is new, and its bytes are a charge of the
shared allowance, which what already waits is part of. -/
def Submitted (s : Supervisor) (c : Call) : Prop :=
  c.id ∉ s.admitted ∧ c.id ∉ s.refused ∧ 0 ≤ c.bytes.toInt ∧
    ∀ g, s.running = some g → g.waiting.toInt + c.bytes.toInt < 2 ^ 63

theorem Charged.admitted {limit : Int64} {g next : Generation} (p : Pending)
    (charged : Charged limit g) (fresh : p.call.id ∉ g.outstanding.map (·.call.id))
    (positive : 0 ≤ p.call.bytes.toInt) (fits : g.waiting.toInt + p.call.bytes.toInt < 2 ^ 63)
    (few : g.outstanding.length < inFlight) (room : g.waiting + p.call.bytes ≤ limit)
    (outstanding : next.outstanding = g.outstanding ++ [p])
    (waiting : next.waiting = g.waiting + p.call.bytes)
    (answered : next.answered = g.answered) : Charged limit next := by
  have sum : (g.waiting + p.call.bytes).toInt = g.waiting.toInt + p.call.bytes.toInt := by
    have low := g.waiting.le_toInt
    apply toInt_add_of_range <;> omega
  refine ⟨?_, ?_, ?_, ?_, ?_, ?_⟩
  · rw [outstanding, List.map_append]
    exact charged.distinct.append (List.nodup_singleton _) (by simpa using fresh)
  · rw [waiting, outstanding, sum, charged.waiting]
    simp
  · intro one member
    rw [outstanding] at member
    rcases List.mem_append.mp member with old | new
    · exact charged.charges one old
    · exact List.mem_singleton.mp new ▸ positive
  · rw [waiting]
    exact Int64.le_iff_toInt_le.mp room
  · rw [outstanding, List.length_append]
    exact few
  · rw [answered]
    exact charged.spaced

namespace Answering

variable {s : Supervisor}

theorem submit (answering : Answering s) (now : Time) {c : Call} (submitted : Submitted s c) :
    Answering (s.submit now c).2 := by
  obtain ⟨fresh, unrefused, positive, fits⟩ := submitted
  have submitting := s.submit_submitting now c
  generalize s.submit now c = answer at submitting ⊢
  cases submitting with
  | skipped reason =>
    refine { answering with distinct := ?_ }
    have absent : c.id ∉ s.admitted ++ s.refused := by simp [fresh, unrefused]
    have distinct := answering.distinct.append (List.nodup_singleton c.id) (by simpa using absent)
    rwa [List.append_assoc] at distinct
  | sent g o running few room =>
    obtain ⟨held, here⟩ := answering.held_of_running running
    have alive := answering.live_of_running running
    have ids := answering.outstandingIds_eq held alive
    have absent : c.id ∉ g.outstanding.map (·.call.id) := by
      intro member
      rw [← ids] at member
      exact fresh (answering.places.mem_iff.mp (List.mem_append_left _ member))
    have kept : g.outstanding.filter (·.call.id ≠ c.id) = g.outstanding := by
      apply List.filter_eq_self.mpr
      intro p member
      have : p.call.id ≠ c.id := fun same => absent (List.mem_map.mpr ⟨p, member, same⟩)
      simpa using this
    rw [kept]
    obtain ⟨named, state, outstanding, waiting, answered⟩ := Generation.send_same { g with
      outstanding := g.outstanding ++ [{ call := c, deadline := now + s.timeout }]
      waiting := g.waiting + c.bytes } o
    generalize Generation.send _ o = sent at named state outstanding waiting answered ⊢
    have live : sent.state.live = g.state.live := congrArg State.live state
    have charged := (answering.charged _ g held).admitted { call := c, deadline := now + s.timeout }
      absent positive (fits g running) few room outstanding waiting answered
    have replacing := Replacing.put s.after s.answers (s.admitted ++ [c.id]) charged held named live
      fun dead => by rw [live, alive] at dead; cases dead
    refine answering.replacing replacing ?_ ?_ ?_ ?_
    · have before := answering.places
      rw [Supervisor.places, ids] at before
      refine (List.Perm.of_eq (replacing.places live here)).trans (List.Perm.trans ?_ (before.append_right _))
      rw [outstanding, List.map_append, List.append_assoc, List.append_assoc]
      exact List.perm_append_comm.append_left _
    · have absent : c.id ∉ s.admitted ++ s.refused := by simp [fresh, unrefused]
      have added := List.nodup_cons.mpr ⟨absent, answering.distinct⟩
      have moved : (c.id :: (s.admitted ++ s.refused)).Perm
          ((s.admitted ++ [c.id]) ++ s.refused) := by
        rw [List.append_assoc]
        exact List.perm_middle.symm
      exact moved.nodup_iff.mp added
    · exact fun number id told => List.mem_append_left _ (answering.known number id told)
    · refine fun number id told => replacing.answered answering told fun contains free => ⟨answered ▸ contains, ?_⟩
      have differ : id ≠ c.id := fun same => fresh (same ▸ answering.known _ id told)
      simpa [outstanding, differ] using free

theorem callback (answering : Answering s) (place : Nat) : Answering (s.callback place) := by
  unfold Supervisor.callback
  split
  · rename_i one rest found
    refine { answering with places := List.Perm.trans ?_ answering.places }
    have ids := (perm_called found).map Prod.fst
    unfold Supervisor.places
    refine List.Perm.append_left _ (List.Perm.append_left _ ?_)
    refine List.Perm.trans ?_ (ids.append_right _).symm
    rw [List.map_append, List.map_cons, List.map_nil, ← List.append_assoc]
    exact List.perm_append_singleton _ _
  · exact answering

theorem unlock (answering : Answering s) : Answering s.unlock := by
  unfold Supervisor.unlock
  split
  · exact answering
  refine { answering with places := ?_ }
  refine List.Perm.trans ?_ answering.places
  unfold Supervisor.places
  refine List.Perm.append_left _ ?_
  simp only [List.map_nil, List.nil_append, List.flatten_append, List.flatten_cons,
    List.flatten_nil, List.append_nil, List.map_append, List.append_assoc]
  exact List.perm_append_comm_assoc _ _ _

end Answering

end EdgeObserver.Extension
