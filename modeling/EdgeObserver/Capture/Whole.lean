import EdgeObserver.Capture.Rule

/-!
# A whole direction

A direction whose record establishes every position was handed on whole: each
numbered transfer of it that moved bytes was given to the sink and accepted. A
refusal stops the whole connection and cuts one direction, so a transfer of the
other one after it is the case apart.
-/

set_option autoImplicit false

namespace EdgeObserver.Capture

open Fragment Probe Library

def Happened.Moved (connection : Nat) (direction : Direction) : Happened → Prop
  | .transferred id t _ | .refused id t =>
    id = connection ∧ t.direction = direction ∧ t.sequence.occupancy ≠ 0 ∧
      t.sequence.number ≠ 0 ∧ (t.length ≠ 0 ∨ t.measured = false)
  | .ended _ _ _ => False

def Happened.Missed (f : Stream) (direction : Direction) (one : Happened) : Prop :=
  one.Moved 0 direction ∧ (one.outside f.handle f.occupancy direction).isSome = true

def Happened.Accepted (one : Happened) : Prop :=
  ∃ connection t record, one = .transferred connection t (.handed record .accepted)

namespace Way

variable {w : Way} {sequence : Sequence} {t : Transfer} {direction : Direction}

theorem cut_placement {fromOffset : Nat} {because : Connection.Reason} {lost : Int64}
    {why : Bytes} : (w.cut fromOffset because lost why).placement ≠ none := Option.some_ne_none _

theorem see_whole (whole : (w.see sequence).placement = none) :
    w.placement = none ∧ sequence.number = w.numbered + 1 ∧
      (w.see sequence).numbered =
        if sequence.number > w.numbered then sequence.number else w.numbered := by
  unfold see at whole ⊢
  dsimp only at whole ⊢
  by_cases next : sequence.number = w.numbered + 1
  · rw [if_pos next] at whole ⊢
    refine ⟨?_, next, ?_⟩
    · split at whole <;> exact whole
    · split <;> rfl
  · rw [if_neg next] at whole
    by_cases past : sequence.number > w.numbered + 1
    · rw [if_pos past] at whole
      split at whole <;> exact absurd whole cut_placement
    · rw [if_neg past] at whole
      split at whole <;> exact absurd whole cut_placement

theorem numbers_whole (known : direction ≠ .unknown) (whole : (w.numbers direction t).placement = none) :
    w.placement = none ∧ t.sequence.occupancy ≠ 0 ∧ (direction ≠ t.direction → w.numbers direction t = w) ∧
      (direction = t.direction → t.sequence.number = w.numbered + 1 ∧
        (w.numbers direction t).numbered =
          if t.sequence.number > w.numbered then t.sequence.number else w.numbered) := by
  unfold numbers at whole ⊢
  by_cases none_ : t.sequence.occupancy = 0
  · rw [if_pos none_, if_neg known] at whole
    exact absurd whole cut_placement
  rw [if_neg none_] at whole ⊢
  by_cases own : direction = t.direction
  · rw [if_pos own] at whole ⊢
    obtain ⟨before, next, after⟩ := see_whole whole
    unfold overlap at before next after ⊢
    split at before
    · exact absurd before cut_placement
    · rename_i apart
      rw [if_neg apart] at next after ⊢
      exact ⟨before, none_, fun other => absurd own other, fun _ => ⟨next, after⟩⟩
  · rw [if_neg own] at whole ⊢
    exact ⟨whole, none_, fun _ => rfl, fun same => absurd same own⟩

theorem settleTail_whole {ending : Bool} {terminal : Terminal}
    (whole : (w.settleTail ending terminal).placement = none) :
    w.placement = none ∧ Locked.terminalOf terminal = w.numbered := by
  unfold settleTail at whole
  dsimp only at whole
  split at whole
  · generalize (if ending = true then _ else _ : Int64) = located at whole
    split at whole <;> exact absurd whole cut_placement
  · split at whole
    · exact absurd whole cut_placement
    · exact ⟨whole, by grind⟩

theorem settle_whole {ending : Bool} {terminal : Terminal} (whole : (w.settle ending terminal).placement = none) :
    w.placement = none ∧ Locked.terminalOf terminal = w.numbered := by
  unfold settle at whole
  split at whole
  · exact absurd whole cut_placement
  · exact settleTail_whole whole

theorem refuse_placement : (w.refuse t).placement ≠ none := by
  unfold refuse
  dsimp only
  split
  · exact Option.some_ne_none _
  · split <;> exact Option.some_ne_none _

end Way

structure WholeIn (history : List Happened) (f : Stream) (direction : Direction) : Prop where
  covered : ∀ n, n ≠ 0 → n ≤ (f.way direction).numbered → n ∈ arrivals history f.id direction
  apart : ∀ n ∈ arrivals history f.id direction, n ∉ unfollowed history f.handle f.occupancy direction
  accepted : ∀ one ∈ history, one.Moved f.id direction → one.Accepted

def Whole (history : List Happened) (f : Stream) : Prop :=
  0 < f.id ∧ ∀ direction, direction ≠ .unknown → (f.way direction).placement = none → WholeIn history f direction

def Overlooked (f : Stream) (t : Transfer) : Prop :=
  f.loss.reason ≠ "" ∧ t.measured = true ∧ t.length ≠ 0 ∧
    (f.way t.direction).placement = none ∧ t.sequence.occupancy ≠ 0 ∧
    t.sequence.overlapped = false ∧ t.sequence.number = (f.way t.direction).numbered + 1

instance (f : Stream) (t : Transfer) : Decidable (Overlooked f t) := inferInstanceAs (Decidable (_ ∧ _))

def Reaches (history : List Happened) (f : Stream) (final : Final) : Prop :=
  final.known = true → ∀ direction ∈ [Direction.sent, .received],
    ∀ n ∈ unfollowed history f.handle f.occupancy direction, n ≤ Locked.terminalOf (final.inDirection direction)

instance (history : List Happened) (f : Stream) (final : Final) : Decidable (Reaches history f final) :=
  have (direction : Direction) : Decidable (∀ n ∈ unfollowed history f.handle f.occupancy direction,
      n ≤ Locked.terminalOf (final.inDirection direction)) := List.decidableBAll _ _
  inferInstanceAs (Decidable (_ → ∀ _ ∈ _, _))

/-- No transfer is overlooked. A number told of while its connection is not
followed is not used again, and the connection's ending reaches it. -/
def Attended (s : Session) : Call → Prop
  | .transfer t _ _ =>
    t.sequence.number ∉ unfollowed s.history t.handle t.sequence.occupancy t.direction ∧
      ∀ f ∈ s.find t.handle, Session.joins f t.sequence.occupancy = true → ¬ Overlooked f t
  | .closed c _ =>
    ∀ f ∈ s.find c.handle, Session.joins f c.sequence.occupancy = true → Reaches s.history f c.final
  | .finish _ _ =>
    ∀ f ∈ s.streams, ∀ settler ∈ s.settlers, ∀ held ∈ (settler.settled f.handle).toOption,
      held.occupancy = f.occupancy → Reaches s.history f held.final
  | .refused _ | .settling _ | .observing _ => True

instance (s : Session) (call : Call) : Decidable (Attended s call) :=
  match call with
  | .transfer _ _ _ => inferInstanceAs (Decidable (_ ∧ _))
  | .closed _ _ => inferInstanceAs (Decidable (∀ _ ∈ _, _))
  | .finish _ _ => inferInstanceAs (Decidable (∀ _ ∈ _, _))
  | .refused _ | .settling _ | .observing _ => inferInstanceAs (Decidable True)

section Steps

variable {history : List Happened} {f g : Stream} {t : Transfer} {one : Happened}

structure Counts (f g : Stream) (t : Transfer) (direction : Direction) : Prop where
  before : (f.way direction).placement = none
  numbered : (g.way direction).numbered = (f.way direction).numbered ∨
    (direction = t.direction ∧ t.sequence.occupancy ≠ 0 ∧ t.sequence.number = (f.way direction).numbered + 1 ∧
      (g.way direction).numbered = t.sequence.number)

theorem Whole.call (whole : Whole history f) (same : g.id = f.id ∧ g.handle = f.handle)
    (occupancy : g.occupancy = f.occupancy)
    (is : one = .refused f.id t ∨ ∃ fate, one = .transferred f.id t fate)
    (counts : ∀ direction, direction ≠ .unknown → (g.way direction).placement = none → Counts f g t direction)
    (fresh : t.sequence.occupancy ≠ 0 → t.sequence.number ∉ unfollowed history f.handle f.occupancy t.direction)
    (accepted : t.direction ≠ .unknown → (g.way t.direction).placement = none →
      one.Moved f.id t.direction → one.Accepted) : Whole (one :: history) g := by
  obtain ⟨named, whole⟩ := whole
  have here : one.connection ≠ 0 := by
    rcases is with rfl | ⟨fate, rfl⟩ <;> exact Nat.ne_of_gt named
  refine ⟨same.1 ▸ named, fun direction known uncut => ?_⟩
  obtain ⟨before, numbered⟩ := counts direction known uncut
  obtain ⟨covered, apart, old⟩ := whole direction known before
  have arrived : arrivals (one :: history) f.id direction = _ := arrivals_here is
  constructor
  · intro n nonzero below
    rw [same.1, arrived]
    rcases numbered with unchanged | ⟨own, placed, next, now⟩
    · have := covered n nonzero (unchanged ▸ below)
      split
      · exact List.mem_cons_of_mem _ this
      · exact this
    · rw [now] at below
      have some_ : t.sequence.number ≠ 0 := by
        intro zero
        rw [zero] at below
        exact nonzero (by grind)
      rw [if_pos ⟨own.symm, placed, some_⟩]
      by_cases last : n = t.sequence.number
      · exact last ▸ List.mem_cons_self
      · exact List.mem_cons_of_mem _ (covered n nonzero (by grind))
  · intro n arrival
    rw [same.1, arrived] at arrival
    rw [same.2, occupancy, unfollowed_here here]
    split at arrival
    · rename_i own
      rcases List.mem_cons.mp arrival with new | earlier
      · rw [new, ← own.1]
        exact fresh own.2.1
      · exact apart n earlier
    · exact apart n arrival
  · intro any happened moved
    rw [same.1] at moved
    rcases List.mem_cons.mp happened with new | earlier
    · subst new
      have own : direction = t.direction := by
        rcases is with rfl | ⟨fate, rfl⟩ <;> exact moved.2.1.symm
      subst own
      exact accepted known uncut moved
    · exact old any earlier moved

variable {how : Connection.Ending} {direction : Direction} {l : Locked} {time : Time}

theorem numbers_counts (known : direction ≠ .unknown) (whole : ((f.numbers t).way direction).placement = none) :
    Counts f (f.numbers t) t direction ∧ t.sequence.occupancy ≠ 0 ∧
      (direction = t.direction → t.sequence.overlapped = false ∧
        t.sequence.number = (f.way direction).numbered + 1) := by
  have whole' : ((f.way direction).numbers direction t).placement = none := whole
  obtain ⟨before, placed, other, own⟩ := Way.numbers_whole known whole'
  refine ⟨⟨before, ?_⟩, placed, ?_⟩
  · by_cases same : direction = t.direction
    · obtain ⟨next, numbered⟩ := own same
      by_cases past : t.sequence.number > (f.way direction).numbered
      · rw [if_pos past] at numbered
        exact .inr ⟨same, placed, next, numbered⟩
      · rw [if_neg past] at numbered
        exact .inl numbered
    · exact .inl (congrArg Way.numbered (other same))
  · intro same
    refine ⟨?_, (own same).1⟩
    by_contra overlapped
    have cut : t.sequence.overlapped = true := by simpa using overlapped
    unfold Way.numbers at whole'
    rw [if_neg placed, if_pos same] at whole'
    have := (Way.see_whole whole').1
    rw [Way.overlap, if_pos cut] at this
    exact Way.cut_placement this

theorem place_way (f : Stream) (t : Transfer) (direction : Direction) :
    ((f.place t).way direction).placement = ((f.numbers t).way direction).placement ∧
      ((f.place t).way direction).numbered = ((f.numbers t).way direction).numbered := by
  by_cases own : direction = t.direction
  · subst own
    simp [Stream.place, Locked.place, Locked.advance, Way.bind]
  · simp [Stream.place, Locked.place, Stream.set_other own]

theorem Counts.congr {h : Stream} (counts : Counts f g t direction)
    (same : (h.way direction).numbered = (g.way direction).numbered) : Counts f h t direction :=
  ⟨counts.before, by rw [same]; exact counts.numbered⟩

structure Meets (history : List Happened) (f : Stream) (t : Transfer) : Prop where
  joins : Session.joins f t.sequence.occupancy = true
  handle : f.handle = t.handle
  fresh : t.sequence.number ∉ unfollowed history t.handle t.sequence.occupancy t.direction
  seen : ¬ Overlooked f t

theorem Meets.outside (meets : Meets history f t) (placed : t.sequence.occupancy ≠ 0) :
    t.sequence.number ∉ unfollowed history f.handle f.occupancy t.direction := by
  have joins := meets.joins
  simp only [Session.joins, Bool.or_eq_true, beq_iff_eq] at joins
  rcases joins with (none_ | none_) | same
  · exact absurd none_ placed
  · intro member
    obtain ⟨one, _, is⟩ := List.mem_filterMap.mp member
    cases one <;> simp [Happened.outside, none_] at is
  · rw [same, meets.handle]
    exact meets.fresh

theorem whole_unmeasured (stats : Stats) (whole : Whole history f) (meets : Meets history f t) :
    Whole (.transferred f.id t .unmeasured :: history) (Locked.unmeasured ⟨stats, f⟩ t).stream := by
  rw [Locked.unmeasured_stream]
  refine whole.call ⟨rfl, rfl⟩ rfl (.inr ⟨_, rfl⟩) ?_ meets.outside ?_
  · intro direction known uncut
    dsimp only at uncut
    by_cases went : moved t = false
    · rw [if_pos went] at uncut
      exact ⟨uncut, .inl (by simp [went])⟩
    rw [if_neg went] at uncut
    by_cases own : direction = t.direction
    · rw [if_pos own] at uncut
      exact absurd uncut Way.cut_placement
    · rw [if_neg own] at uncut
      exact (numbers_counts known uncut).1.congr (by simp [went, own, Stream.numbers, Stream.ways])
  · intro _ uncut moved_
    have went : moved t = true := by simp [moved, moved_.2.2.2.1]
    simp [went] at uncut
    exact absurd uncut Way.cut_placement

theorem whole_measured {answer : Written} {fate : Fate} (whole : Whole history f)
    (meets : Meets history f t) (read : t.measured = true)
    (measuring : f.Measuring t answer g fate) : Whole (.transferred f.id t fate :: history) g := by
  cases measuring with
  | empty none_ =>
    refine whole.call ⟨rfl, rfl⟩ rfl (.inr ⟨_, rfl⟩) ?_ meets.outside ?_
    · intro direction known uncut
      have same : ∀ w, w = ((f.numbers t).set t.direction
          (({ (f.numbers t).way t.direction with
              empties := ((f.numbers t).way t.direction).empties + 1 } : Way).resolve
            t.sequence.number (f.next t))).way direction →
          w.placement = ((f.numbers t).way direction).placement ∧
            w.numbered = ((f.numbers t).way direction).numbered := by
        rintro w rfl
        by_cases own : direction = t.direction
        · subst own
          simp
        · simp [Stream.set_other own]
      obtain ⟨placement, numbered⟩ := same _ rfl
      exact (numbers_counts known (placement ▸ uncut)).1.congr numbered
    · intro _ _ moved_
      rcases moved_.2.2.2.2 with some_ | unread
      · exact absurd none_ some_
      · rw [read] at unread
        cases unread
  | stopped bytes reason =>
    refine whole.call ⟨rfl, rfl⟩ rfl (.inr ⟨_, rfl⟩) ?_ meets.outside ?_
    · exact fun direction known uncut => (numbers_counts known uncut).1
    · intro known uncut _
      obtain ⟨counts, placed, own⟩ := numbers_counts known uncut
      obtain ⟨apart, next⟩ := own rfl
      exact absurd ⟨reason, read, bytes, counts.before, placed, apart, next⟩ meets.seen
  | handed bytes running =>
    have same : ∀ direction,
        ((((f.place t).answered t.direction (f.fragment t).offset answer).way direction).placement = none →
          ((f.numbers t).way direction).placement = none ∧ (direction = t.direction → answer = .accepted)) ∧
        (((f.place t).answered t.direction (f.fragment t).offset answer).way direction).numbered =
          ((f.numbers t).way direction).numbered := by
      intro direction
      obtain ⟨placement, numbered⟩ := place_way f t direction
      cases answer with
      | accepted => exact ⟨fun uncut => ⟨placement ▸ uncut, fun _ => rfl⟩, numbered⟩
      | limit | failed =>
        by_cases own : direction = t.direction
        · subst own
          refine ⟨fun uncut => ?_, ?_⟩
          · simp only [Stream.answered, Stream.set_same] at uncut
            exact absurd uncut Way.cut_placement
          · simp only [Stream.answered, Stream.set_same]
            exact numbered
        · simp only [Stream.answered, Stream.set_other own]
          exact ⟨fun uncut => ⟨placement ▸ uncut, fun is => absurd is own⟩, numbered⟩
    refine whole.call (Stream.Measuring.handed bytes running).same ?_ (.inr ⟨_, rfl⟩) ?_ meets.outside ?_
    · cases answer <;> rfl
    · intro direction known uncut
      exact (numbers_counts known ((same direction).1 uncut).1).1.congr (same direction).2
    · intro _ uncut _
      have := ((same t.direction).1 uncut).2 rfl
      subst this
      exact ⟨_, _, _, rfl⟩

theorem whole_refused (stats : Stats) (whole : Whole history f) :
    Whole (.refused f.id t :: history) (Locked.refuse ⟨stats, f⟩ t).stream := by
  obtain ⟨named, whole⟩ := whole
  rw [Locked.refuse_stream]
  refine ⟨named, fun direction known uncut => ?_⟩
  dsimp only at uncut
  -- The refused direction is cut, so only the other is left to say anything of.
  by_cases own : direction = t.direction
  · rw [if_pos own] at uncut
    exact absurd uncut Way.refuse_placement
  rw [if_neg own] at uncut
  obtain ⟨covered, apart, old⟩ := whole direction known uncut
  have arrived : arrivals (.refused f.id t :: history) f.id direction =
      arrivals history f.id direction := by
    rw [arrivals_here (.inl rfl), if_neg fun here => own here.1.symm]
  refine ⟨?_, ?_, ?_⟩
  · intro n nonzero below
    rw [arrived]
    refine covered n nonzero ?_
    simpa [own] using below
  · intro n arrival
    rw [arrived] at arrival
    have here : (Happened.refused f.id t).connection ≠ 0 := Nat.ne_of_gt named
    have outside : unfollowed (.refused f.id t :: history) f.handle f.occupancy direction =
        unfollowed history f.handle f.occupancy direction := unfollowed_here here
    exact outside ▸ apart n arrival
  · intro any happened moved
    rcases List.mem_cons.mp happened with new | earlier
    · subst new
      exact absurd moved.2.1.symm own
    · exact old any earlier moved

theorem placed_established {p : Connection.Placement}
    (member : p ∈ (f.record how time).placements) (established : p.positions = .established) :
    p.direction ≠ .unknown ∧ (f.way p.direction).placement = none := by
  obtain ⟨direction, carried, is⟩ := List.mem_map.mp member
  subst is
  have own : (f.placed direction).direction = direction := by
    unfold Stream.placed
    split <;> rfl
  rw [own]
  constructor
  · obtain ⟨among, _⟩ := List.mem_filter.mp carried
    rintro rfl
    simp at among
  · cases placed : (f.way direction).placement with
    | none => rfl
    | some held =>
      simp only [Stream.placed, placed] at established
      split at established <;> cases established

/-- Every transfer of a direction the record establishes was accepted, those
told of before the connection was followed with the others. -/
def Delivered (history : List Happened) (f : Stream) (record : Connection.Record) (_ : Option Final) : Prop :=
  ∀ p ∈ record.placements, p.positions = .established → ∀ one ∈ history,
    one.Moved f.id p.direction ∨ one.Missed f p.direction → one.Accepted

theorem Whole.ends (whole : Whole history f) {final : Option Final} (same : g.id = f.id ∧ g.handle = f.handle)
    (occupancy : g.occupancy = f.occupancy)
    (tail : ∀ direction, direction ≠ .unknown → (g.way direction).placement = none →
      (f.way direction).placement = none ∧
        ∀ n ∈ unfollowed history f.handle f.occupancy direction, n ≤ (f.way direction).numbered) :
    Delivered history g (g.record how time) final := by
  intro p member established one happened told
  obtain ⟨known, uncut⟩ := placed_established member established
  obtain ⟨before, reached⟩ := tail p.direction known uncut
  obtain ⟨covered, apart, accepted⟩ := whole.2 p.direction known before
  rcases told with moved | ⟨moved, missed⟩
  · exact accepted one happened (same.1 ▸ moved)
  rw [same.2, occupancy] at missed
  obtain ⟨n, is⟩ := Option.isSome_iff_exists.mp missed
  have outside : n ∈ unfollowed history f.handle f.occupancy p.direction := List.mem_filterMap.mpr ⟨one, happened, is⟩
  have nonzero : n ≠ 0 := by
    cases one <;> simp only [Happened.outside] at is
    all_goals
      first
        | cases is
        | split at is
          · cases is
            rename_i here
            exact here.2.2.2.2.2
          · cases is
  exact absurd outside (apart n (covered n nonzero (reached n outside)))

theorem settle_tail {final : Final} {ending : Bool}
    (reaches : Reaches history l.stream final) (known : direction ≠ .unknown)
    (uncut : ((l.settle final ending).stream.way direction).placement = none) :
    (l.stream.way direction).placement = none ∧
      ∀ n ∈ unfollowed history l.stream.handle l.stream.occupancy direction, n ≤ (l.stream.way direction).numbered := by
  rw [Locked.settle_stream] at uncut
  simp only [Stream.ways, known, if_false] at uncut
  split at uncut
  · rename_i settled
    obtain ⟨before, last⟩ := Way.settle_whole uncut
    refine ⟨before, fun n outside => ?_⟩
    rw [← last]
    refine reaches settled direction ?_ n outside
    cases direction <;> simp at known ⊢
  · exact absurd uncut Way.cut_placement

theorem cutBoth_tail {because : Connection.Reason} {why : Bytes} (known : direction ≠ .unknown) :
    ((l.cutBoth because why).stream.way direction).placement ≠ none := by
  rw [Locked.cutBoth_stream]
  simp only [Stream.ways, known, if_false]
  exact Way.cut_placement

end Steps

theorem whole_rule : Rule Attended Meets Whole Delivered (fun _ => True) where
  frame history g one whole apart := by
    refine ⟨whole.1, fun direction known uncut => ?_⟩
    obtain ⟨covered, fresh, accepted⟩ := whole.2 direction known uncut
    refine ⟨?_, ?_, ?_⟩
    · rw [arrivals_apart apart]
      exact covered
    · rw [arrivals_apart apart, unfollowed_apart apart]
      exact fresh
    · intro any happened moved
      rcases List.mem_cons.mp happened with new | earlier
      · subst new
        cases any with
        | transferred id t fate | refused id t => exact absurd moved.1 apart.1
        | ended => exact moved.elim
      · exact accepted any earlier moved
  begins := by
    intro s t answer accepted endings sane may ended _
    obtain ⟨id, handle⟩ := opening_same (s := s) t
    have past := opening_past (t := t) sane ended
    constructor
    · refine ⟨by rw [id]; exact Nat.succ_pos _, fun direction known uncut => ?_⟩
      have none_ : arrivals (endings ++ s.history) (s.opening t).stream.id direction = [] := arrivals_new past
      refine ⟨?_, ?_, ?_⟩
      · intro n nonzero below
        have zero : ((s.opening t).stream.way direction).numbered = 0 := by
          rw [Session.opening_stream]
          simp only [Stream.ways]
          split <;> rfl
        rw [zero] at below
        exact absurd (by grind) nonzero
      · rw [none_]
        exact fun n arrival => absurd arrival List.not_mem_nil
      · intro one happened moved
        cases one with
        | transferred id' t' fate | refused id' t' => exact absurd moved.1 (past _ happened)
        | ended => exact moved.elim
    · refine ⟨?_, handle, ?_, ?_⟩
      · rw [Session.opening_stream]
        simp [Session.joins, Stream.ways, Session.fresh]
      · rw [unfollowed_endings ended]
        exact may.1
      · intro overlooked
        rw [Session.opening_stream] at overlooked
        exact overlooked.1 rfl
  found := by
    intro s t answer accepted f may found joins _
    exact ⟨joins, (find_some found).2, (find_some found).2 ▸ may.1, may.2 f found joins⟩
  unmeasured stats whole meets _ := whole_unmeasured stats whole meets
  measured whole meets read _ measuring := ⟨whole_measured whole meets read measuring, trivial⟩
  refused stats _ _ _ _ whole := whole_refused stats whole
  retired := by
    intro history f stats time whole
    refine whole.ends ?_ ?_ fun direction known uncut => absurd uncut (cutBoth_tail known)
    all_goals rw [Locked.cutBoth_stream]
    · exact ⟨rfl, rfl⟩
    · rfl
  closed := by
    intro s c accepted f may found joins whole g
    have reaches := may f found joins
    suffices Delivered s.history g (g.record (if c.final.exited then .unobserved else .handleReleased) c.time)
        (some c.final) from this
    refine whole.ends ?_ ?_ ?_
    · unfold g Session.settled
      rw [Locked.settle_stream]
      exact ⟨rfl, rfl⟩
    · unfold g Session.settled
      rw [Locked.settle_stream]
      rfl
    · intro direction known uncut
      exact settle_tail (l := Locked.unlocated ⟨s.stats, f⟩ c.sequence.unlocated) reaches known uncut
  finished := by
    intro s time accepted f endings stats may member ended whole
    have finals := Locked.final_finals (l := ⟨stats, f⟩) s.settlers
    have same := finals.same
    generalize Locked.final ⟨stats, f⟩ s.settlers = l at finals same ⊢
    cases finals with
    | unnumbered none_ =>
      refine whole.ends same rfl fun direction known uncut => ⟨uncut, fun n outside => ?_⟩
      obtain ⟨one, _, is⟩ := List.mem_filterMap.mp outside
      have none_ : f.occupancy = 0 := none_
      cases one <;> simp [Happened.outside, none_] at is
    | unsettled why =>
      refine whole.ends same ?_ fun direction known uncut => absurd uncut (cutBoth_tail known)
      rw [Locked.cutBoth_stream]
      rfl
    | settled settler held unlocated among answer own =>
      have answered : held ∈ (settler.settled f.handle).toOption := by
        have answer : settler.settled f.handle = .ok held := answer
        rw [answer]
        rfl
      have reaches : Reaches (endings ++ s.history) f held.final := by
        intro known direction listed n outside
        rw [unfollowed_endings ended] at outside
        exact may f member settler among held answered own known direction listed n outside
      refine whole.ends same ?_ ?_
      · rw [Locked.settle_stream]
        rfl
      · intro direction known uncut
        exact settle_tail (l := Locked.unlocated ⟨stats, f⟩ unlocated) reaches known uncut
  otherwise _ _ := trivial

/-- In every run in which no transfer is overlooked, a placement that
establishes every position is of a direction all of whose numbered transfers
with bytes were handed to the sink and accepted, and a connection still followed
has cut every direction of which one was not. -/
theorem whole_accepted (recording : Bool) (calls : List Call)
    (attended : Along Session.step Attended { recording } calls) :
    let s := after recording calls
    (∀ later earlier f record final, s.history = later ++ .ended f record final :: earlier →
      ∀ p ∈ record.placements, p.positions = .established → ∀ one ∈ earlier,
        one.Moved f.id p.direction ∨ one.Missed f p.direction → one.Accepted) ∧
    ∀ f ∈ s.streams, ∀ direction, direction ≠ .unknown →
      (f.way direction).placement = none → ∀ one ∈ s.history, one.Moved f.id direction → one.Accepted := by
  have holds := after_holds whole_rule attended
  constructor
  · intro later earlier f record final split
    exact holds.done later earlier f record final split
  · intro f member direction known uncut
    exact ((holds.live f member).2 direction known uncut).accepted

def oneHandle (direction : Direction) (occupancy number : UInt64) (length : UInt32) : Transfer :=
  { process := { pid := 7 }
    endpoint := 1
    direction := direction
    length := length
    time := 9
    sequence := { occupancy := occupancy, number := number } }

def lastPlacements (s : Session) : List (Direction × Connection.Positions × Connection.Count) :=
  match s.history with
  | .ended _ record _ :: _ => record.placements.map (fun p => (p.direction, p.positions, p.lost))
  | _ => []

/-- The sent direction is refused; the received transfer after it is rejected,
and its direction is still established with nothing lost. -/
theorem other_direction_overlooked :
    let final : Final := { known := true, sent := { last := 1 }, received := { last := 2 } }
    let s := after true
      [.transfer (oneHandle .received 5 1 4) .accepted true, .refused (oneHandle .sent 5 1 4),
        .transfer (oneHandle .received 5 2 4) .accepted true,
        .closed { endpoint := 1, time := 9, sequence := { occupancy := 5 }, final } true]
    lastPlacements s =
        [(.sent, .unknownThroughout, Connection.uncounted gateRefused),
          (.received, .established, Connection.counted 0)] ∧
      s.stats.rejected = 1 ∧ s.stats.records = 1 := by
  decide

/-- Both directions are refused after the first transfer, and the rest of the
connection is rejected. -/
theorem whole_accepted_refused :
    let final : Final := { known := true, sent := { last := 2 }, received := { last := 2 } }
    let calls : List Call :=
      [.transfer (oneHandle .received 5 1 4) .accepted true, .refused (oneHandle .sent 5 1 4),
        .refused (oneHandle .received 5 2 4),
        .transfer (oneHandle .sent 5 2 4) .accepted true,
        .closed { endpoint := 1, time := 9, sequence := { occupancy := 5 }, final } true]
    (after true calls).stats.rejected = 1 ∧
      ∀ later earlier f record final,
        (after true calls).history = later ++ .ended f record final :: earlier →
          ∀ p ∈ record.placements, p.positions = .established → ∀ one ∈ earlier,
            one.Moved f.id p.direction ∨ one.Missed f p.direction → one.Accepted := by
  intro final calls
  exact ⟨by decide, (whole_accepted true calls (by decide)).1⟩

end EdgeObserver.Capture
