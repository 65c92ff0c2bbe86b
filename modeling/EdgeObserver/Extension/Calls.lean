import EdgeObserver.Extension.Supervisor

/-!
# Every call is answered once

The calls a supervisor admitted are outstanding at its current generation, in
the hands of a goroutine that is about to run their `Done`, or done: each in one
place. A generation that is no longer current has nothing outstanding.
-/

set_option autoImplicit false

namespace EdgeObserver.Extension

open Library

structure Charged (limit : Int64) (g : Generation) : Prop where
  distinct : (g.outstanding.map (·.call.id)).Nodup
  waiting : g.waiting.toInt = (g.outstanding.map (·.call.bytes.toInt)).sum
  charges : ∀ p ∈ g.outstanding, 0 ≤ p.call.bytes.toInt
  bounded : g.waiting.toInt ≤ limit.toInt
  few : g.outstanding.length ≤ inFlight
  spaced : Spaced g.answered.spans

theorem Charged.same {limit : Int64} {g next : Generation} (charged : Charged limit g)
    (outstanding : next.outstanding = g.outstanding) (waiting : next.waiting = g.waiting)
    (answered : next.answered = g.answered) : Charged limit next where
  distinct := outstanding ▸ charged.distinct
  waiting := by rw [waiting, outstanding]; exact charged.waiting
  charges := outstanding ▸ charged.charges
  bounded := waiting ▸ charged.bounded
  few := outstanding ▸ charged.few
  spaced := answered ▸ charged.spaced

theorem Charged.none {limit : Int64} {g : Generation} (roomy : 0 ≤ limit.toInt)
    (outstanding : g.outstanding = []) (waiting : g.waiting = 0)
    (spaced : Spaced g.answered.spans) : Charged limit g where
  distinct := by simp [outstanding]
  waiting := by simp [outstanding, waiting]
  charges := by simp [outstanding]
  bounded := by simpa [waiting] using roomy
  few := by simp [outstanding]
  spaced := spaced

def Supervisor.outstandingIds (s : Supervisor) : List Nat :=
  (s.running.map (fun g => g.outstanding.map (·.call.id))).getD []

def Supervisor.places (s : Supervisor) : List Nat :=
  s.outstandingIds ++ (s.after.map Prod.fst ++ (s.calling.flatten.map Prod.fst ++ s.done.map Prod.fst))

structure Answering (s : Supervisor) : Prop where
  roomy : 0 ≤ s.waitingBytes.toInt
  numbered : ∀ number g, s.generations number = some g → g.number = number ∧ number ≤ s.number
  charged : ∀ number g, s.generations number = some g → Charged s.waitingBytes g
  ended : ∀ number g, s.generations number = some g → g.state.live = false → g.outstanding = []
  live : ∀ number g, s.generations number = some g → g.state.live = true → s.current = some number
  current : ∀ number, s.current = some number → ∃ g, s.generations number = some g ∧ g.state.live = true
  spawning : s.spawning = true → s.current = none
  starting : ∀ number, s.starting = some number → s.spawning = true ∧ number = s.number ∧ s.generations number = none
  places : s.places.Perm s.admitted
  distinct : (s.admitted ++ s.refused).Nodup
  known : ∀ number id, (number, id) ∈ s.answers → id ∈ s.admitted
  answered : ∀ number id, (number, id) ∈ s.answers → ∃ g, s.generations number = some g ∧
    g.answered.contains id = true ∧ id ∉ g.outstanding.map (·.call.id)

structure Alike (s t : Supervisor) : Prop where
  waitingBytes : t.waitingBytes = s.waitingBytes
  generations : t.generations = s.generations
  current : t.current = s.current
  number : t.number = s.number
  spawning : t.spawning = s.spawning
  starting : t.starting = s.starting
  after : t.after = s.after
  calling : t.calling = s.calling
  done : t.done = s.done
  admitted : t.admitted = s.admitted
  refused : t.refused = s.refused
  answers : t.answers = s.answers

theorem Alike.trans {s t u : Supervisor} (first : Alike s t) (second : Alike t u) : Alike s u :=
  ⟨second.1.trans first.1, second.2.trans first.2, second.3.trans first.3,
    second.4.trans first.4, second.5.trans first.5, second.6.trans first.6,
    second.7.trans first.7, second.8.trans first.8, second.9.trans first.9,
    second.10.trans first.10, second.11.trans first.11, second.12.trans first.12⟩

/-- One generation takes another's place under the same number. It may stop
being live, and is then no longer current. -/
structure Replacing (s t : Supervisor) (g next : Generation) : Prop where
  held : s.generations g.number = some g
  generations : t.generations = Function.update s.generations g.number (some next)
  named : next.number = g.number
  waitingBytes : t.waitingBytes = s.waitingBytes
  number : t.number = s.number
  spawning : t.spawning = s.spawning
  starting : t.starting = s.starting
  current : t.current = if next.state.live = g.state.live then s.current else none
  alive : next.state.live = true → g.state.live = true
  charged : Charged s.waitingBytes next
  ended : next.state.live = false → next.outstanding = []

section Replacing

variable {s t : Supervisor} {g next : Generation}

theorem update_found {generations : Nat → Option Generation} {number other : Nat} {one : Generation}
    (found : Function.update generations number (some g) other = some one) :
    (other = number ∧ one = g) ∨ (other ≠ number ∧ generations other = some one) := by
  by_cases same : other = number
  · subst same
    rw [Function.update_self] at found
    exact .inl ⟨rfl, (Option.some.inj found).symm⟩
  · rw [Function.update_of_ne same] at found
    exact .inr ⟨same, found⟩

theorem Replacing.put (after : List (Nat × Result)) (answers : List (Nat × Nat)) (admitted : List Nat)
    (charged : Charged s.waitingBytes next) (held : s.generations g.number = some g)
    (named : next.number = g.number) (state : next.state.live = g.state.live)
    (ended : next.state.live = false → next.outstanding = []) :
    Replacing s { s.put next with after, answers, admitted } g next where
  held := held
  generations := by rw [← named]; rfl
  named := named
  waitingBytes := rfl
  number := rfl
  spawning := rfl
  starting := rfl
  current := by rw [if_pos state]; rfl
  alive := fun alive => state ▸ alive
  charged := charged
  ended := ended

theorem Replacing.at_ (replacing : Replacing s t g next) :
    t.generations g.number = some next := by
  rw [replacing.generations, Function.update_self]

theorem Replacing.beside (replacing : Replacing s t g next) {number : Nat}
    (other : number ≠ g.number) : t.generations number = s.generations number := by
  rw [replacing.generations, Function.update_of_ne other]

theorem Replacing.running (replacing : Replacing s t g next)
    (state : next.state.live = g.state.live) (here : s.current = some g.number) :
    t.running = some next := by
  have current : t.current = some g.number := by rw [replacing.current, if_pos state, here]
  simp [Supervisor.running, current, replacing.at_]

theorem Replacing.places (replacing : Replacing s t g next)
    (state : next.state.live = g.state.live) (here : s.current = some g.number) :
    t.places = next.outstanding.map (·.call.id) ++
      (t.after.map Prod.fst ++ (t.calling.flatten.map Prod.fst ++ t.done.map Prod.fst)) := by
  simp [Supervisor.places, Supervisor.outstandingIds, replacing.running state here]

theorem Replacing.answered (replacing : Replacing s t g next) (answering : Answering s) {number id : Nat}
    (told : (number, id) ∈ s.answers)
    (kept : g.answered.contains id = true → id ∉ g.outstanding.map (·.call.id) →
      next.answered.contains id = true ∧ id ∉ next.outstanding.map (·.call.id)) :
    ∃ one, t.generations number = some one ∧ one.answered.contains id = true ∧
      id ∉ one.outstanding.map (·.call.id) := by
  obtain ⟨one, found, contains, absent⟩ := answering.answered number id told
  by_cases same : number = g.number
  · subst same
    rw [replacing.held] at found
    cases found
    exact ⟨next, replacing.at_, kept contains absent⟩
  · exact ⟨one, (replacing.beside same).trans found, contains, absent⟩

theorem Answering.replacing (answering : Answering s) (replacing : Replacing s t g next)
    (places : t.places.Perm t.admitted) (distinct : (t.admitted ++ t.refused).Nodup)
    (known : ∀ number id, (number, id) ∈ t.answers → id ∈ t.admitted)
    (answered : ∀ number id, (number, id) ∈ t.answers → ∃ g, t.generations number = some g ∧
      g.answered.contains id = true ∧ id ∉ g.outstanding.map (·.call.id)) :
    Answering t := by
  have held := replacing.held
  -- A generation of `t` is the one put in, or one `s` has under another number.
  have split : ∀ {number : Nat} {one : Generation}, t.generations number = some one →
      (number = g.number ∧ one = next) ∨ (number ≠ g.number ∧ s.generations number = some one) := by
    intro number one found
    rw [replacing.generations] at found
    exact update_found found
  refine ⟨?_, ?_, ?_, ?_, ?_, ?_, ?_, ?_, places, distinct, known, answered⟩
  · rw [replacing.waitingBytes]
    exact answering.roomy
  · intro number one found
    rw [replacing.number]
    rcases split found with ⟨rfl, rfl⟩ | ⟨_, old⟩
    · exact ⟨replacing.named, (answering.numbered _ g held).2⟩
    · exact answering.numbered number one old
  · intro number one found
    rw [replacing.waitingBytes]
    rcases split found with ⟨rfl, rfl⟩ | ⟨_, old⟩
    · exact replacing.charged
    · exact answering.charged number one old
  · intro number one found
    rcases split found with ⟨rfl, rfl⟩ | ⟨_, old⟩
    · exact replacing.ended
    · exact answering.ended number one old
  · intro number one found alive
    rw [replacing.current]
    rcases split found with ⟨rfl, rfl⟩ | ⟨other, old⟩
    · have was := replacing.alive alive
      rw [if_pos (alive.trans was.symm)]
      exact answering.live _ g held was
    · have now := answering.live number one old alive
      by_cases same : next.state.live = g.state.live
      · rw [if_pos same]
        exact now
      have was : g.state.live = true := by
        by_contra dead
        cases after : next.state.live with
        | true => exact dead (replacing.alive after)
        | false => exact same (after.trans (Bool.eq_false_of_not_eq_true dead).symm)
      have here := answering.live _ g held was
      rw [here] at now
      exact absurd (Option.some.inj now).symm other
  · intro number now
    rw [replacing.current] at now
    split at now
    · rename_i same
      obtain ⟨one, found, alive⟩ := answering.current number now
      by_cases here : number = g.number
      · subst here
        rw [held] at found
        cases found
        exact ⟨next, replacing.at_, same.trans alive⟩
      · exact ⟨one, (replacing.beside here).trans found, alive⟩
    · cases now
  · intro spawning
    rw [replacing.spawning] at spawning
    rw [replacing.current, answering.spawning spawning]
    split <;> rfl
  · intro number starting
    rw [replacing.starting] at starting
    obtain ⟨spawning, latest, absent⟩ := answering.starting number starting
    have other : number ≠ g.number := by
      intro same
      rw [same, held] at absent
      cases absent
    rw [replacing.spawning, replacing.number, replacing.beside other]
    exact ⟨spawning, latest, absent⟩

theorem Supervisor.running_eq (held : s.generations g.number = some g)
    (current : s.current = some g.number) : s.running = some g := by
  simp [Supervisor.running, current, held]

theorem Answering.outstandingIds_eq (answering : Answering s)
    (held : s.generations g.number = some g) (alive : g.state.live = true) :
    s.outstandingIds = g.outstanding.map (·.call.id) := by
  simp [Supervisor.outstandingIds, Supervisor.running_eq held (answering.live _ g held alive)]

theorem Replacing.outstandingIds_same (replacing : Replacing s t g next)
    (current : t.current = s.current) (outstanding : next.outstanding = g.outstanding) :
    t.outstandingIds = s.outstandingIds := by
  unfold Supervisor.outstandingIds Supervisor.running
  rw [current]
  cases s.current with
  | none => rfl
  | some number =>
    by_cases here : number = g.number
    · subst here
      simp [replacing.at_, replacing.held, outstanding]
    · simp [replacing.beside here]

theorem Answering.put (answering : Answering s) (held : s.generations g.number = some g)
    (named : next.number = g.number) (state : next.state.live = g.state.live)
    (outstanding : next.outstanding = g.outstanding) (waiting : next.waiting = g.waiting)
    (answered : next.answered = g.answered) : Answering (s.put next) := by
  have replacing : Replacing s (s.put next) g next :=
    .put _ _ _ ((answering.charged _ g held).same outstanding waiting answered) held named state
      fun dead => outstanding ▸ answering.ended _ g held (state ▸ dead)
  refine answering.replacing replacing ?_ answering.distinct answering.known ?_
  · have ids := replacing.outstandingIds_same rfl outstanding
    unfold Supervisor.places
    rw [ids]
    exact answering.places
  · exact fun number id told => replacing.answered answering told
      fun contains absent => ⟨answered ▸ contains, outstanding ▸ absent⟩

structure Ending (s t : Supervisor) (g : Generation) (reason : Reason) : Prop where
  rest : ∃ next : Generation, next.number = g.number ∧ next.state.live = false ∧
    next.outstanding = [] ∧ next.waiting = 0 ∧ next.answered = g.answered ∧
    t.generations = Function.update s.generations g.number (some next)
  current : t.current = if s.current = some g.number then none else s.current
  after : t.after = s.after ++ g.failures reason
  waitingBytes : t.waitingBytes = s.waitingBytes
  number : t.number = s.number
  spawning : t.spawning = s.spawning
  starting : t.starting = s.starting
  calling : t.calling = s.calling
  done : t.done = s.done
  admitted : t.admitted = s.admitted
  refused : t.refused = s.refused
  answers : t.answers = s.answers

theorem Generation.failures_ids (g : Generation) (reason : Reason) :
    ((g.failures reason).map Prod.fst).Perm (g.outstanding.map (·.call.id)) := by
  simp only [Generation.failures, List.map_map, Function.comp_def, List.map_id']
  exact List.perm_insertionSort _ _

theorem Answering.ending (answering : Answering s) (held : s.generations g.number = some g)
    (alive : g.state.live = true) {reason : Reason} (ending : Ending s t g reason) :
    Answering t := by
  obtain ⟨next, named, dead, outstanding, waiting, answered, generations⟩ := ending.rest
  have charged := answering.charged _ g held
  have here := answering.live _ g held alive
  have gone : t.current = none := by rw [ending.current, if_pos here]
  have replacing : Replacing s t g next := { ending with
    held := held
    generations := generations
    named := named
    current := by rw [dead, alive, gone]; rfl
    alive := fun _ => alive
    charged := .none answering.roomy outstanding waiting (answered ▸ charged.spaced)
    ended := fun _ => outstanding }
  refine answering.replacing replacing ?_ ?_ ?_ ?_
  · have before := answering.places
    have none_out : t.outstandingIds = [] := by
      simp [Supervisor.outstandingIds, Supervisor.running, gone]
    unfold Supervisor.places at before ⊢
    rw [answering.outstandingIds_eq held alive] at before
    rw [none_out, ending.after, ending.calling, ending.done, ending.admitted]
    refine List.Perm.trans ?_ before
    have failed := g.failures_ids reason
    simp only [List.nil_append, List.map_append, List.append_assoc]
    refine (List.perm_append_comm_assoc _ _ _).trans ?_
    exact failed.append_right _
  · rw [ending.admitted, ending.refused]
    exact answering.distinct
  · rw [ending.answers, ending.admitted]
    exact answering.known
  · rw [ending.answers]
    exact fun number id told => replacing.answered answering told
      fun contains _ => ⟨answered ▸ contains, by simp [outstanding]⟩

theorem Supervisor.detachLocked_eq (s : Supervisor) (g : Generation) (orderly : Bool) :
    ∃ final : Generation, final.number = g.number ∧ final.state = g.state ∧
      final.outstanding = g.outstanding ∧ final.waiting = g.waiting ∧
      final.answered = g.answered ∧
      s.detachLocked g orderly = { s.put final with
        current := if s.current = some g.number then none else s.current } := by
  unfold Supervisor.detachLocked
  cases orderly with
  | true => exact ⟨{ g with closing := true }, rfl, rfl, rfl, rfl, rfl, rfl⟩
  | false =>
    exact ⟨{ g with closing := true, queue := [], interrupt := true }, rfl, rfl, rfl, rfl, rfl, rfl⟩

theorem Supervisor.backOff_alike (s : Supervisor) (now : Time) (g : Generation) :
    Alike s (s.backOff now g) := by
  simp only [Supervisor.backOff]
  repeat' split
  all_goals exact ⟨rfl, rfl, rfl, rfl, rfl, rfl, rfl, rfl, rfl, rfl, rfl, rfl⟩

theorem Supervisor.detached_ending {s mid : Supervisor} {g last : Generation} {reason : Reason}
    (alike : Alike { s with after := s.after ++ g.failures reason } mid)
    (named : last.number = g.number) (dead : last.state.live = false)
    (outstanding : last.outstanding = []) (waiting : last.waiting = 0)
    (answered : last.answered = g.answered) (orderly : Bool) :
    Ending s (mid.detachLocked last orderly) g reason := by
  obtain ⟨final, number, state, holds, charge, told, made⟩ := mid.detachLocked_eq last orderly
  rw [made]
  exact { alike with
    rest := ⟨final, number.trans named, by rw [state]; exact dead, holds.trans outstanding,
      charge.trans waiting, told.trans answered, by
        simp only [Supervisor.put, number, named, alike.generations]⟩
    current := by rw [named, alike.current] }

theorem State.running_of_live {state : State} (alive : state.live = true) :
    ¬ (state = .retiring ∨ state = .stopping) := by
  rintro (rfl | rfl) <;> cases alive

theorem Supervisor.retireLocked_ending (s : Supervisor) (now : Time) (cause : Cause) (alive : g.state.live = true) :
    Ending s (s.retireLocked now g cause) g (.cause cause) := by
  unfold Supervisor.retireLocked
  rw [if_neg (State.running_of_live alive)]
  apply Supervisor.detached_ending
  case named | dead | outstanding | waiting | answered => rfl
  refine Alike.trans ?_ (Supervisor.backOff_alike _ now _)
  exact ⟨rfl, rfl, rfl, rfl, rfl, rfl, rfl, rfl, rfl, rfl, rfl, rfl⟩

theorem Generation.send_same (g : Generation) (o : Outgoing) :
    (g.send o).number = g.number ∧ (g.send o).state = g.state ∧ (g.send o).outstanding = g.outstanding ∧
      (g.send o).waiting = g.waiting ∧ (g.send o).answered = g.answered := by
  unfold Generation.send
  split <;> exact ⟨rfl, rfl, rfl, rfl, rfl⟩

theorem Supervisor.stopLocked_ending (s : Supervisor) (alive : g.state.live = true) :
    Ending s (s.stopLocked g) g (.cause .timeout) := by
  unfold Supervisor.stopLocked
  rw [if_neg (State.running_of_live alive)]
  dsimp only [Supervisor.failOutstandingLocked]
  split
  · obtain ⟨named, state, outstanding, waiting, answered⟩ := Generation.send_same
      { g with state := .stopping, outstanding := [], waiting := 0 } { line := Supervisor.shutdown }
    apply Supervisor.detached_ending
    · exact ⟨rfl, rfl, rfl, rfl, rfl, rfl, rfl, rfl, rfl, rfl, rfl, rfl⟩
    · exact named
    · rw [state]; rfl
    · exact outstanding
    · exact waiting
    · exact answered
  · apply Supervisor.detached_ending
    case named | dead | outstanding | waiting | answered => rfl
    exact ⟨rfl, rfl, rfl, rfl, rfl, rfl, rfl, rfl, rfl, rfl, rfl, rfl⟩

end Replacing

end EdgeObserver.Extension
