import EdgeObserver.Capture.Followed

/-!
# One connection's calls carry a run

What the calls on one stream keep, in the order they are made, holds in every
state a run of the session reaches.
-/

set_option autoImplicit false

namespace EdgeObserver.Capture

open Probe Library Fragment

section Identity

variable {f g : Stream} {t : Transfer}

def Stream.Same (f g : Stream) : Prop := g.id = f.id ∧ g.handle = f.handle

theorem Stream.Measuring.same {answer : Written} {fate : Fate}
    (measuring : f.Measuring t answer g fate) : f.Same g := by
  cases measuring with
  | empty | stopped => exact ⟨rfl, rfl⟩
  | handed => cases answer <;> exact ⟨rfl, rfl⟩

theorem Locked.Finals.same {l l' : Locked} {settlers : List Settler}
    (finals : l.Finals settlers l') : l.stream.Same l'.stream := by
  cases finals with
  | unnumbered => exact ⟨rfl, rfl⟩
  | unsettled => rw [Locked.cutBoth_stream]; exact ⟨rfl, rfl⟩
  | settled => rw [Locked.settle_stream]; exact ⟨rfl, rfl⟩

end Identity

/-- The calls a run may make, and what each of them keeps of the one stream it
reaches. `Fit` is what is known of a transfer in the stream it belongs to. -/
structure Rule (allowed : Session → Call → Prop) (Fit : List Happened → Stream → Transfer → Prop)
    (Live : List Happened → Stream → Prop)
    (Done : List Happened → Stream → Connection.Record → Option Final → Prop)
    (Each : Happened → Prop) : Prop where
  frame : ∀ history g one, Live history g → Apart g one → Live (one :: history) g
  begins : ∀ {s : Session} {t answer accepted} (endings : List Happened), Sane s →
    allowed s (.transfer t answer accepted) → Endings endings →
    (∀ g ∈ s.streams, g.handle = t.handle → Session.joins g t.sequence.occupancy = false) →
      Live (endings ++ s.history) (s.opening t).stream ∧ Fit (endings ++ s.history) (s.opening t).stream t
  found : ∀ {s : Session} {t answer accepted f}, allowed s (.transfer t answer accepted) →
    s.find t.handle = some f → Session.joins f t.sequence.occupancy = true → Live s.history f → Fit s.history f t
  unmeasured : ∀ {history f t} (stats : Stats), Live history f → Fit history f t →
    t.measured = false → Live (.transferred f.id t .unmeasured :: history) (Locked.unmeasured ⟨stats, f⟩ t).stream
  measured : ∀ {history f t answer g fate}, Live history f → Fit history f t →
    t.measured = true → ¬ (t.length = 0 ∧ t.sequence.number = 0) → f.Measuring t answer g fate →
      Live (.transferred f.id t fate :: history) g ∧ Each (.transferred f.id t fate)
  refused : ∀ {s : Session} {t f} (stats : Stats), allowed s (.refused t) →
    s.find t.handle = some f → f.occupancy = t.sequence.occupancy → t.sequence.number ≠ 0 →
      Live s.history f → Live (.refused f.id t :: s.history) (Locked.refuse ⟨stats, f⟩ t).stream
  retired : ∀ {history f} (stats : Stats) (time : Time), Live history f →
    let g := (Locked.cutBoth ⟨stats, f⟩ .terminalUnsettled neverEnded).stream
    Done history g (g.record .unobserved time) none
  closed : ∀ {s : Session} {c accepted f}, allowed s (.closed c accepted) →
    s.find c.handle = some f → Session.joins f c.sequence.occupancy = true → Live s.history f →
      let g := (s.settled f c).stream
      Done s.history g
        { g.record (if c.final.exited then .unobserved else .handleReleased) c.time with
          slot := c.slot } (some c.final)
  finished : ∀ {s : Session} {time accepted f endings} (stats : Stats),
    allowed s (.finish time accepted) → f ∈ s.streams → Endings endings →
    Live (endings ++ s.history) f →
      let g := (Locked.final ⟨stats, f⟩ s.settlers).stream
      Done (endings ++ s.history) g (g.record .stillOpen time) none
  otherwise : ∀ one, (∀ connection t record answer, one ≠ .transferred connection t (.handed record answer)) → Each one

def Stats.tally (stats : Stats) : Int64 :=
  stats.transfers - (stats.empty + stats.unmeasured + stats.records + stats.rejected)

/-- The ways a transfer can go in a session. `stats` is the counters once it is
counted, before any stream is touched. -/
inductive Transferring (s : Session) (t : Transfer) (answer : Written) (accepted : Bool) :
    Session → Prop where
  | stale (stats : Stats) (tally : stats.tally = s.stats.tally)
      (lost : stats.lost = s.stats.lost) (older : s.stale t = true) :
      Transferring s t answer accepted (Session.happened { s with stats } (.transferred 0 t .stale))
  | nowhere (stats : Stats) (tally : stats.tally = s.stats.tally) (lost : stats.lost = s.stats.lost) (fate : Fate)
      (fated : fate = .unmeasured ∨ fate = .empty) (unnumbered : t.sequence.number = 0) :
      Transferring s t answer accepted (Session.happened { s with stats } (.transferred 0 t fate))
  | unmeasured (stats : Stats) (tally : stats.tally = s.stats.tally)
      (lost : stats.lost = s.stats.lost) (unread : t.measured = false) (s' : Session) (f : Stream)
      (followed : Session.follow { s with stats } t accepted = (s', f)) :
      Transferring s t answer accepted
        ((s'.keep (Locked.unmeasured ⟨s'.stats, f⟩ t)).happened (.transferred f.id t .unmeasured))
  | measured (stats : Stats) (tally : stats.tally = s.stats.tally + 1)
      (lost : stats.lost = s.stats.lost) (read : t.measured = true)
      (something : ¬ (t.length = 0 ∧ t.sequence.number = 0)) (s' : Session) (f : Stream)
      (followed : Session.follow { s with stats } t accepted = (s', f)) :
      Transferring s t answer accepted
        ((s'.keep (Locked.measured ⟨s'.stats, f⟩ t answer).1).happened
          (.transferred f.id t (Locked.measured ⟨s'.stats, f⟩ t answer).2))

theorem transfer_transferring (s : Session) (t : Transfer) (answer : Written) (accepted : Bool) :
    Transferring s t answer accepted (s.transfer t answer accepted) := by
  have unaware : ∀ stats, Session.stale { s with stats } t = s.stale t := fun _ => rfl
  unfold Session.transfer
  by_cases older : s.stale t = true
  · simp only [unaware, older, if_true]
    refine .stale _ ?_ ?_ older
    · simp only [Stats.tally]
      grind
    · rfl
  · simp only [unaware, older, Bool.false_eq_true, if_false]
    -- The early count is no part of what the cases say.
    generalize counting : (if t.early = true then ({ s with
        stats := { s.stats with
          transfers := s.stats.transfers + 1, early := s.stats.early + 1 } } : Session)
      else { s with stats := { s.stats with transfers := s.stats.transfers + 1 } }) = counted
    have is : ∃ stats, counted = { s with stats } ∧ stats.tally = s.stats.tally + 1 ∧
        stats.lost = s.stats.lost := by
      rw [← counting]
      split
      all_goals
        refine ⟨_, rfl, ?_, rfl⟩
        simp only [Stats.tally]
        grind
    obtain ⟨stats, rfl, tally, lost⟩ := is
    by_cases read : t.measured = true
    · simp only [read, Bool.true_eq_false, if_false]
      by_cases something : t.length = 0 ∧ t.sequence.number = 0
      · rw [if_pos something]
        refine .nowhere { stats with empty := stats.empty + 1 } ?_ lost .empty (.inr rfl) something.2
        simp only [Stats.tally] at tally ⊢
        grind
      · rw [if_neg something]
        exact .measured stats tally lost read something _ _ rfl
    · have unread : t.measured = false := by simpa using read
      rw [if_pos unread]
      by_cases went : moved t = true ∨ t.early = true
      · rw [if_pos went]
        refine .unmeasured { stats with unmeasured := stats.unmeasured + 1 } ?_ lost unread _ _ rfl
        simp only [Stats.tally] at tally ⊢
        grind
      · have unnumbered : t.sequence.number = 0 := by
          by_contra numbered
          exact went (.inl (by simp [moved, numbered]))
        rw [if_neg went]
        refine .nowhere { stats with unmeasured := stats.unmeasured + 1 } ?_ lost .unmeasured (.inl rfl) unnumbered
        simp only [Stats.tally] at tally ⊢
        grind

inductive Refusing (s : Session) (t : Transfer) : Session → Prop where
  | nowhere (stats : Stats) (tally : stats.tally = s.stats.tally) (lost : stats.lost = s.stats.lost)
      (other : t.sequence.number = 0 ∨ ∀ f, s.find t.handle = some f → f.occupancy ≠ t.sequence.occupancy) :
      Refusing s t (Session.happened { s with stats } (.refused 0 t))
  | taken (stats : Stats) (tally : stats.tally = s.stats.tally)
      (lost : stats.lost = s.stats.lost) (f : Stream) (found : s.find t.handle = some f)
      (own : f.occupancy = t.sequence.occupancy) (numbered : t.sequence.number ≠ 0) :
      Refusing s t ((Session.keep { s with stats } (Locked.refuse ⟨stats, f⟩ t)).happened (.refused f.id t))

theorem refused_refusing (s : Session) (t : Transfer) : Refusing s t (s.refused t) := by
  have unaware : ∀ stats, Session.find { s with stats } t.handle = s.find t.handle := fun _ => rfl
  unfold Session.refused
  simp only [unaware]
  split
  · exact .nowhere _ rfl rfl (.inl ‹_›)
  rename_i numbered
  cases found : s.find t.handle with
  | none => exact .nowhere _ rfl rfl (.inr fun f same => by rw [found] at same; cases same)
  | some f =>
    dsimp only
    split
    · rename_i other
      refine .nowhere _ rfl rfl (.inr fun g same => ?_)
      rw [found] at same
      cases same
      exact other
    · rename_i own
      refine .taken _ ?_ ?_ f found (by simpa using own) numbered <;> rfl

inductive Closing (s : Session) (c : Ending) (accepted : Bool) : Session → Prop where
  | unmatched : Closing s c accepted s.unmatched
  | retired (f : Stream) (found : s.find c.handle = some f) :
      Closing s c accepted (s.retire f c.time accepted).unmatched
  | settled (f : Stream) (found : s.find c.handle = some f) (joins : Session.joins f c.sequence.occupancy = true) :
      Closing s c accepted
        (Session.write
          { s.drop f.handle with
            stats :=
              { (s.settled f c).stats with closed := (s.settled f c).stats.closed + 1 } }
          (s.settled f c).stream
          { (s.settled f c).stream.record
              (if c.final.exited then .unobserved else .handleReleased) c.time with
            slot := c.slot }
          (some c.final) accepted)

theorem closed_closing (s : Session) (c : Ending) (accepted : Bool) :
    Closing s c accepted (s.closed c accepted) := by
  unfold Session.closed
  cases found : s.find c.handle with
  | none => exact .unmatched
  | some f =>
    dsimp only
    split
    · exact .unmatched
    split
    · exact .retired f found
    · rename_i joins
      exact .settled f found (by simpa using joins)

section Calls

variable {allowed : Session → Call → Prop}
variable {Fit : List Happened → Stream → Transfer → Prop}
variable {Live : List Happened → Stream → Prop}
variable {Done : List Happened → Stream → Connection.Record → Option Final → Prop}
variable {Each : Happened → Prop}
variable (rule : Rule allowed Fit Live Done Each)
variable {s : Session}

theorem find_of_mem (sane : Sane s) {f : Stream} (member : f ∈ s.streams) :
    s.find f.handle = some f := by
  cases found : s.find f.handle with
  | none => exact absurd rfl (find_none found f member)
  | some g =>
    obtain ⟨listed, same⟩ := find_some found
    rw [List.inj_on_of_nodup_map sane.handles listed member same]

include rule in
theorem retire_holds (holds : Holds Live Done Each s) {f : Stream} (member : f ∈ s.streams)
    (time : Time) (accepted : Bool) : Holds Live Done Each (s.retire f time accepted) := by
  refine holds.ending rule.frame member ?_ (rule.retired s.stats time (holds.live f member))
    (rule.otherwise _ (by simp)) ?_ ?_ rfl rfl
  · rw [Locked.cutBoth_stream]; rfl
  · exact List.filter_sublist
  · intro h kept
    simpa using (List.mem_filter.mp kept).2

structure Recounted (s s' : Session) : Prop where
  streams : s'.streams = s.streams
  next : s'.next = s.next
  observing : s'.observing = s.observing
  history : s'.history = s.history

theorem Recounted.find {s' : Session} (recounted : Recounted s s') (handle : Handle) :
    s'.find handle = s.find handle := by
  unfold Session.find
  rw [recounted.streams]

theorem Recounted.opening {s' : Session} (recounted : Recounted s s') (t : Transfer) :
    (s'.opening t).stream = (s.opening t).stream := by
  simp only [Session.opening_stream, Session.fresh, recounted.next, recounted.observing]

theorem opening_same (t : Transfer) :
    (s.opening t).stream.id = s.next + 1 ∧ (s.opening t).stream.handle = t.handle := by
  rw [Session.opening_stream]
  exact ⟨rfl, rfl⟩

include rule in
theorem follow_holds (holds : Holds Live Done Each s) {s' : Session} {t : Transfer}
    {answer : Written} {accepted : Bool} (may : allowed s (.transfer t answer accepted))
    (recounted : Recounted s s') :
    let followed := s'.follow t accepted
    Holds Live Done Each followed.1 ∧ followed.2 ∈ followed.1.streams ∧ Fit followed.1.history followed.2 t := by
  have holds' : Holds Live Done Each s' := holds.aside recounted.streams recounted.next recounted.history
  intro followed
  cases found : s'.find t.handle with
  | none =>
    have is : followed = s'.begin_ t := by simp only [followed, Session.follow, found]
    have unfollowed := find_none found
    obtain ⟨live, fit⟩ := rule.begins [] holds.sane may (fun _ member => absurd member List.not_mem_nil)
      (fun g member same => absurd same (unfollowed g (recounted.streams ▸ member)))
    rw [List.nil_append, ← recounted.history, ← recounted.opening t] at live fit
    obtain ⟨id, handle⟩ := opening_same (s := s') t
    rw [is]
    exact ⟨holds'.beginning (handle ▸ unfollowed) id live rfl rfl rfl,
      List.mem_append_right _ (List.mem_singleton.mpr rfl), fit⟩
  | some f =>
    obtain ⟨member, same⟩ := find_some found
    by_cases joins : Session.joins f t.sequence.occupancy = true
    · have is : followed = (s', f) := by simp only [followed, Session.follow, found, joins, if_true]
      rw [is]
      refine ⟨holds', member, ?_⟩
      rw [recounted.history]
      refine rule.found may (recounted.find _ ▸ found) joins ?_
      exact recounted.history ▸ holds'.live f member
    · have is : followed = (s'.retire f t.time accepted).begin_ t := by
        simp only [followed, Session.follow, found, joins]
        rfl
      have retired := retire_holds rule holds' member t.time accepted
      have others : ∀ g ∈ (s'.retire f t.time accepted).streams, g.handle ≠ f.handle := by
        intro g kept
        simpa using (List.mem_filter.mp kept).2
      obtain ⟨live, fit⟩ := rule.begins [_] holds.sane may
        (fun one is => ⟨_, _, _, List.mem_singleton.mp is⟩) (by
          intro g listed handle
          have : g = f := List.inj_on_of_nodup_map holds'.sane.handles
            (recounted.streams ▸ listed) member (handle.trans same.symm)
          simpa [this] using joins)
      have opened : ((s'.retire f t.time accepted).opening t).stream = (s.opening t).stream := by
        rw [← recounted.opening t, Session.opening_stream, Session.opening_stream]
        rfl
      rw [List.singleton_append, ← recounted.history, ← opened] at live fit
      obtain ⟨id, handle⟩ := opening_same (s := s'.retire f t.time accepted) t
      rw [is]
      exact ⟨retired.beginning (handle ▸ same ▸ others) id live rfl rfl rfl,
        List.mem_append_right _ (List.mem_singleton.mpr rfl), fit⟩

theorem apart_unfollowed (sane : Sane s) {t : Transfer} {one : Happened}
    (is : one = .refused 0 t ∨ ∃ fate, one = .transferred 0 t fate)
    (other : t.sequence.number = 0 ∨ ∀ f, s.find t.handle = some f → f.occupancy ≠ t.sequence.occupancy) :
    ∀ g ∈ s.streams, Apart g one := by
  intro g member
  have named := (sane.named g member).1
  have apart : t.sequence.number = 0 ∨ t.handle ≠ g.handle ∨
      t.sequence.occupancy ≠ g.occupancy := by
    refine other.imp_right fun others => ?_
    by_cases same : t.handle = g.handle
    · exact .inr (others g (same ▸ find_of_mem sane member)).symm
    · exact .inl same
  rcases is with rfl | ⟨fate, rfl⟩ <;> exact ⟨Nat.ne_of_lt named, fun _ => apart⟩

include rule in
theorem transfer_holds (holds : Holds Live Done Each s) {t : Transfer} {answer : Written}
    {accepted : Bool} (may : allowed s (.transfer t answer accepted)) :
    Holds Live Done Each (s.transfer t answer accepted) := by
  have recounted : ∀ stats, Recounted s { s with stats } := fun _ => ⟨rfl, rfl, rfl, rfl⟩
  have transferring := transfer_transferring s t answer accepted
  generalize s.transfer t answer accepted = s'' at transferring ⊢
  cases transferring with
  | stale stats _ _ older =>
    have holds' : Holds Live Done Each { s with stats } := holds.aside rfl rfl rfl
    refine holds'.note rule.frame rfl (by simp) ?_ (rule.otherwise _ (by simp))
    refine apart_unfollowed holds'.sane (.inr ⟨_, rfl⟩) (.inr fun f found same => ?_)
    have : s.find t.handle = some f := found
    simp [Session.stale, this, same] at older
  | nowhere stats _ _ fate fated unnumbered =>
    have holds' : Holds Live Done Each { s with stats } := holds.aside rfl rfl rfl
    refine holds'.note rule.frame rfl (by simp) ?_ (rule.otherwise _ ?_)
    · exact apart_unfollowed holds'.sane (.inr ⟨_, rfl⟩) (.inl unnumbered)
    · rcases fated with rfl | rfl <;> simp
  | unmeasured stats _ _ unread s' f followed =>
    obtain ⟨holds', member, fit⟩ := follow_holds rule holds may (recounted stats)
    rw [followed] at holds' member fit
    have stream := Locked.unmeasured_stream (l := ⟨s'.stats, f⟩) (t := t)
    refine holds'.update rule.frame member ?_ ?_ rfl
      (rule.unmeasured _ (holds'.live f member) fit unread) (rule.otherwise _ (by simp))
    · rw [stream]; rfl
    · rw [stream]
  | measured stats _ _ read something s' f followed =>
    obtain ⟨holds', member, fit⟩ := follow_holds rule holds may (recounted stats)
    rw [followed] at holds' member fit
    have measuring := Stream.measured_measuring (f := f) (t := t) s'.stats answer
    obtain ⟨live, each⟩ := rule.measured (holds'.live f member) fit read something measuring
    exact holds'.update rule.frame member measuring.same.2 measuring.same.1 rfl live each

include rule in
theorem refused_holds (holds : Holds Live Done Each s) {t : Transfer}
    (may : allowed s (.refused t)) : Holds Live Done Each (s.refused t) := by
  have refusing := refused_refusing s t
  generalize s.refused t = s' at refusing ⊢
  cases refusing with
  | nowhere stats _ _ other =>
    have holds' : Holds Live Done Each { s with stats } := holds.aside rfl rfl rfl
    exact holds'.note rule.frame rfl (by simp) (apart_unfollowed holds'.sane (.inl rfl) other)
      (rule.otherwise _ (by simp))
  | taken stats _ _ f found own numbered =>
    have holds' : Holds Live Done Each { s with stats } := holds.aside rfl rfl rfl
    obtain ⟨member, _⟩ := find_some found
    have stream := Locked.refuse_stream (l := ⟨stats, f⟩) (t := t)
    have live := rule.refused stats may found own numbered (holds.live f member)
    refine holds'.update rule.frame member ?_ ?_ rfl live (rule.otherwise _ (by simp))
    · rw [stream]; rfl
    · rw [stream]

include rule in
theorem closed_holds (holds : Holds Live Done Each s) {c : Ending} {accepted : Bool}
    (may : allowed s (.closed c accepted)) : Holds Live Done Each (s.closed c accepted) := by
  have closing := closed_closing s c accepted
  generalize s.closed c accepted = s' at closing ⊢
  cases closing with
  | unmatched => exact holds.aside rfl rfl rfl
  | retired f found =>
    exact (retire_holds rule holds (find_some found).1 c.time accepted).aside rfl rfl rfl
  | settled f found joins =>
    obtain ⟨member, _⟩ := find_some found
    refine holds.ending rule.frame member ?_ (rule.closed may found joins (holds.live f member))
      (rule.otherwise _ (by simp)) ?_ ?_ rfl rfl
    · unfold Session.settled
      rw [Locked.settle_stream]
      rfl
    · exact List.filter_sublist
    · intro h kept
      simpa using (List.mem_filter.mp kept).2

include rule in
theorem finals_holds {time : Time} {accepted : Nat → Bool}
    (may : allowed s (.finish time accepted)) (rest : List Stream) :
    ∀ (stats : Stats) (endings : List Happened) (s' : Session), Holds Live Done Each s' →
      s'.streams = rest → (∀ f ∈ rest, f ∈ s.streams) → Endings endings →
      s'.history = endings ++ s.history →
      Holds Live Done Each
        ((Session.finals s.settlers stats rest).2.foldl
          (fun s f => s.write f (f.record .stillOpen time) none (accepted f.id))
          { s' with streams := [] }) := by
  induction rest with
  | nil =>
    intro stats endings s' holds streams _ _ _
    exact holds.aside streams.symm rfl rfl
  | cons f rest ih =>
    intro stats endings s' holds streams among ended history
    have member : f ∈ s'.streams := streams ▸ List.mem_cons_self
    have done := rule.finished stats may (among f List.mem_cons_self) ended (history ▸ holds.live f member)
    have same := (Locked.final_finals (l := ⟨stats, f⟩) s.settlers).same
    simp only [Session.finals, List.foldl_cons]
    generalize (Locked.final ⟨stats, f⟩ s.settlers) = l at done same ⊢
    have next : Holds Live Done Each (Session.write { s' with streams := rest } l.stream
        (l.stream.record .stillOpen time) none (accepted l.stream.id)) := by
      refine holds.ending rule.frame member same.1 (history ▸ done) (rule.otherwise _ (by simp)) ?_ ?_ rfl rfl
      · exact streams ▸ List.sublist_cons_self f rest
      · intro h kept
        have distinct := holds.sane.handles
        rw [streams, List.map_cons, List.nodup_cons] at distinct
        exact fun is => distinct.1 (is ▸ List.mem_map.mpr ⟨h, kept, rfl⟩)
    refine ih l.stats (.ended l.stream (l.stream.record .stillOpen time) none :: endings) _ next rfl
      (fun g member => among g (List.mem_cons_of_mem _ member)) ?_ ?_
    · intro one happened
      rcases List.mem_cons.mp happened with new | old
      · exact ⟨_, _, _, new⟩
      · exact ended one old
    · rw [List.cons_append, ← history]
      rfl

include rule in
theorem step_holds (holds : Holds Live Done Each s) {call : Call} (may : allowed s call) :
    Holds Live Done Each (s.step call).2 := by
  cases call with
  | transfer t answer accepted => exact transfer_holds rule holds may
  | refused t => exact refused_holds rule holds may
  | closed c accepted => exact closed_holds rule holds may
  | finish time accepted =>
    exact finals_holds rule may s.streams s.stats [] { s with stats := (Session.finals s.settlers s.stats s.streams).1 }
      (holds.aside rfl rfl rfl) rfl (fun _ member => member)
      (fun _ member => absurd member List.not_mem_nil) rfl
  | settling settler | observing capability => exact holds.aside rfl rfl rfl

include rule in
theorem after_holds {recording : Bool} {calls : List Call} (along : Along Session.step allowed { recording } calls) :
    Holds Live Done Each (after recording calls) := by
  refine along_keeps Session.step (Holds Live Done Each) (fun s call holds may => step_holds rule holds may) ?_ along
  refine ⟨⟨List.nodup_nil, List.nodup_nil, ?_, ?_, ?_⟩, ?_, ?_, ?_⟩
  · exact fun f member => absurd member List.not_mem_nil
  · exact fun one member => absurd member List.not_mem_nil
  · intro later earlier f record final split
    simp at split
  · exact fun f member => absurd member List.not_mem_nil
  · intro later earlier f record final split
    simp at split
  · exact fun one member => absurd member List.not_mem_nil

end Calls

/-!
## The numbers a connection was told of

What a history says of the producer's numbers: those that came to a connection
while it was followed, and those of its occupancy that came while it was not.
-/

def Happened.arrival (connection : Nat) (direction : Direction) : Happened → Option UInt64
  | .transferred id t _ | .refused id t =>
    if id = connection ∧ t.direction = direction ∧ t.sequence.occupancy ≠ 0 ∧
        t.sequence.number ≠ 0 then some t.sequence.number
    else none
  | .ended _ _ _ => none

def arrivals (history : List Happened) (connection : Nat) (direction : Direction) : List UInt64 :=
  history.filterMap (Happened.arrival connection direction)

def Happened.outside (handle : Handle) (occupancy : UInt64) (direction : Direction) : Happened → Option UInt64
  | .transferred id t _ | .refused id t =>
    if id = 0 ∧ t.handle = handle ∧ t.sequence.occupancy = occupancy ∧
        t.direction = direction ∧ occupancy ≠ 0 ∧ t.sequence.number ≠ 0 then
      some t.sequence.number
    else none
  | .ended _ _ _ => none

def unfollowed (history : List Happened) (handle : Handle) (occupancy : UInt64) (direction : Direction) : List UInt64 :=
  history.filterMap (Happened.outside handle occupancy direction)

section Frame

variable {history : List Happened} {f : Stream} {one : Happened} {direction : Direction}

theorem arrivals_apart (apart : Apart f one) :
    arrivals (one :: history) f.id direction = arrivals history f.id direction := by
  refine List.filterMap_cons_none ?_
  cases one with
  | transferred id t fate | refused id t => exact if_neg fun here => apart.1 here.1
  | ended => rfl

theorem unfollowed_apart (apart : Apart f one) :
    unfollowed (one :: history) f.handle f.occupancy direction = unfollowed history f.handle f.occupancy direction := by
  refine List.filterMap_cons_none ?_
  cases one with
  | transferred id t fate | refused id t =>
    refine if_neg fun here => ?_
    rcases apart.2 here.1 with none_ | handle | occupancy
    · exact here.2.2.2.2.2 none_
    · exact handle here.2.1
    · exact occupancy here.2.2.1
  | ended => rfl

variable {handle : Handle} {endings : List Happened} {id : Nat} {t : Transfer} {occupancy : UInt64}

theorem unfollowed_here (here : one.connection ≠ 0) :
    unfollowed (one :: history) handle occupancy direction = unfollowed history handle occupancy direction := by
  refine List.filterMap_cons_none ?_
  cases one with
  | transferred id t fate | refused id t => exact if_neg fun none_ => here none_.1
  | ended => rfl

theorem unfollowed_endings (ended : Endings endings) : unfollowed (endings ++ history) handle occupancy direction =
      unfollowed history handle occupancy direction := by
  unfold unfollowed
  rw [List.filterMap_append, List.filterMap_eq_nil_iff.mpr, List.nil_append]
  intro one member
  obtain ⟨f, record, final, rfl⟩ := ended one member
  rfl

theorem opening_past {s : Session} (sane : Sane s) (ended : Endings endings) :
    ∀ one ∈ endings ++ s.history, one.connection ≠ (s.opening t).stream.id := by
  intro one happened
  rw [(opening_same t).1]
  rcases List.mem_append.mp happened with ending | earlier
  · obtain ⟨f, record, final, rfl⟩ := ended one ending
    exact Nat.ne_of_lt (Nat.succ_pos _)
  · exact Nat.ne_of_lt (Nat.lt_succ_of_le (sane.past one earlier))

theorem arrivals_new (past : ∀ one ∈ history, one.connection ≠ id) :
    arrivals history id direction = [] := by
  refine List.filterMap_eq_nil_iff.mpr fun one member => ?_
  have elsewhere := past one member
  cases one with
  | transferred id' t fate | refused id' t => exact if_neg fun here => elsewhere here.1
  | ended => rfl

theorem arrivals_here (is : one = .refused id t ∨ ∃ fate, one = .transferred id t fate) :
    arrivals (one :: history) id direction =
      if t.direction = direction ∧ t.sequence.occupancy ≠ 0 ∧ t.sequence.number ≠ 0 then
        t.sequence.number :: arrivals history id direction
      else arrivals history id direction := by
  have brought : one.arrival id direction =
      if t.direction = direction ∧ t.sequence.occupancy ≠ 0 ∧ t.sequence.number ≠ 0 then
        some t.sequence.number
      else none := by
    rcases is with rfl | ⟨fate, rfl⟩ <;> simp only [Happened.arrival, true_and]
  unfold arrivals
  rw [List.filterMap_cons, brought]
  split
  · rw [if_neg]
    intro here
    simp_all
  · rename_i number is
    split at is
    · rw [if_pos ‹_›]
      cases is
      rfl
    · cases is

end Frame

end EdgeObserver.Capture
