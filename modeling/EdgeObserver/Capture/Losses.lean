import EdgeObserver.Capture.Rule

/-!
# What became of every transfer

The counters against what they count: every transfer reported is empty,
unmeasured, placed or rejected, and every transfer counted lost is counted in
one direction of one connection.
-/

set_option autoImplicit false

namespace EdgeObserver.Capture

open Fragment Probe Library

def Way.lost (w : Way) : Int64 := (w.placement.map Placement.lost).getD 0

def Stream.lost (f : Stream) : Int64 := (f.way .unknown).lost + (f.way .sent).lost + (f.way .received).lost

def lostEnded : List Happened → Int64
  | [] => 0
  | .ended f _ _ :: rest => f.lost + lostEnded rest
  | .transferred _ _ _ :: rest | .refused _ _ :: rest => lostEnded rest

def lostFollowed : List Stream → Int64
  | [] => 0
  | f :: rest => f.lost + lostFollowed rest

theorem lostFollowed_append (these those : List Stream) :
    lostFollowed (these ++ those) = lostFollowed these + lostFollowed those := by
  induction these with
  | nil => simp [lostFollowed]
  | cons f rest ih =>
    simp only [List.cons_append, lostFollowed, ih]
    grind

theorem Stream.set_lost (f : Stream) (direction : Direction) (w : Way) :
    (f.set direction w).lost = f.lost - (f.way direction).lost + w.lost := by
  cases direction <;> simp [Stream.lost, Stream.set] <;> grind

theorem Way.cut_lost (w : Way) (fromOffset : Nat) (because : Connection.Reason) (lost : Int64)
    (why : Bytes) : (w.cut fromOffset because lost why).lost = w.lost + lost := by
  cases placed : w.placement <;> simp [Way.lost, Way.cut, Placement.more, placed]

namespace Locked

/-- Two states of a call under the lock that account for transfers alike, and
whose lost transfers differ by as much on the counter as on the stream. -/
structure Even (l l' : Locked) : Prop where
  tally : l'.stats.tally = l.stats.tally
  due : l'.stats.lost - l'.stream.lost = l.stats.lost - l.stream.lost

variable {k l : Locked} {direction : Direction} {t : Transfer}

theorem Even.refl (l : Locked) : Even l l := ⟨rfl, rfl⟩

theorem Even.trans {l' : Locked} (one : Even k l) (other : Even l l') : Even k l' :=
  ⟨other.tally.trans one.tally, other.due.trans one.due⟩

theorem Even.cut (even : Even k l) (fromOffset : Nat) (because : Connection.Reason)
    (why : Bytes) : Even k (l.cut direction fromOffset because 0 why) := by
  refine even.trans ⟨?_, ?_⟩
  · unfold Locked.cut
    dsimp only
    split <;> rfl
  · rw [cut_stream, Stream.set_lost, Way.cut_lost]
    have kept : (l.cut direction fromOffset because 0 why).stats.lost = l.stats.lost := by
      unfold Locked.cut
      dsimp only
      split <;> rfl
    rw [kept]
    grind

theorem Even.lose (even : Even k l) (missing : Int64) : Even k (l.lose direction missing) := by
  refine even.trans ⟨?_, ?_⟩
  · unfold Locked.lose Locked.cut
    dsimp only
    split <;> rfl
  · rw [lose_stream, Stream.set_lost, Way.cut_lost]
    have more : (l.lose direction missing).stats.lost = l.stats.lost + missing := by
      unfold Locked.lose Locked.cut
      dsimp only
      split <;> rfl
    rw [more]
    grind

theorem Even.cutBoth (even : Even k l) (because : Connection.Reason) (why : Bytes) :
    Even k (l.cutBoth because why) := (even.cut _ _ _).cut _ _ _

theorem Even.unlocated (even : Even k l) (unlocated : UInt64) : Even k (l.unlocated unlocated) := by
  refine even.trans ⟨?_, ?_⟩
  all_goals
    unfold Locked.unlocated
    dsimp only
    split <;> rfl

theorem Even.set (even : Even k l) {w : Way} (same : w.placement = (l.stream.way direction).placement) :
    Even k ⟨l.stats, l.stream.set direction w⟩ := by
  refine even.trans ⟨rfl, ?_⟩
  have kept : w.lost = (l.stream.way direction).lost := by simp only [Way.lost, same]
  dsimp only
  rw [Stream.set_lost, kept]
  grind

theorem Even.count (even : Even k l) (sequence : Sequence) :
    Even k (l.count direction sequence).1 := by
  unfold Locked.count
  dsimp only
  have first : Even k ⟨l.stats, l.stream.set direction
      { l.stream.way direction with
        first :=
          if (l.stream.way direction).first = 0 then sequence.number
          else (l.stream.way direction).first }⟩ := even.set rfl
  generalize Locked.mk l.stats (l.stream.set direction _) = l' at first ⊢
  generalize (l.stream.way direction).numbered = last
  by_cases past : sequence.number > last
  · rw [if_pos past]
    refine Even.set ?_ rfl
    split
    · exact first
    · split
      · exact first.lose _
      · exact first.cut _ _ _
  · rw [if_neg past]
    split
    · exact first
    · split
      · exact first.lose _
      · exact first.cut _ _ _

theorem Even.number (even : Even k l) : Even k (l.number t).1 := by
  unfold Locked.number
  have located := even.unlocated t.sequence.unlocated
  generalize l.unlocated t.sequence.unlocated = l at located ⊢
  dsimp only
  split
  · refine Even.cutBoth ?_ _ _
    exact located.trans ⟨rfl, rfl⟩
  refine Even.count ?_ _
  split
  · exact located.cut _ _ _
  · exact located

theorem Even.settleIn (even : Even k l) (ending : Bool) (terminal : Terminal) :
    Even k (l.settleIn ending direction terminal) := by
  have tail : Even k (l.settleTail ending direction terminal) := by
    unfold settleTail
    dsimp only
    generalize (if ending = true then _ else _ : Int64) = located
    split
    · split
      · exact even.lose _
      · exact even.cut _ _ _
    · split
      · exact even.cut _ _ _
      · exact even
  unfold Locked.settleIn
  split
  · exact tail.cut _ _ _
  · exact tail

theorem Even.settle (even : Even k l) (final : Final) (ending : Bool) :
    Even k (l.settle final ending) := by
  unfold Locked.settle
  split
  · exact (even.settleIn _ _).settleIn _ _
  · exact even.cutBoth _ _

theorem final_even (settlers : List Settler) : Even l (l.final settlers) := by
  have finals := final_finals (l := l) settlers
  generalize l.final settlers = l' at finals ⊢
  cases finals with
  | unnumbered => exact .refl l
  | unsettled why => exact (Even.refl l).cutBoth _ _
  | settled settler held unlocated => exact ((Even.refl l).unlocated _).settle _ _

theorem refuse_even : Even l (l.refuse t) := by
  unfold refuse
  dsimp only
  have stopped : Even l ⟨l.stats, { l.stream with loss := l.stream.loss.stop "input_limit" }⟩ := ⟨rfl, rfl⟩
  have cut := @Even.cut _ _ t.direction stopped (l.stream.way t.direction).offset .observationLost Capture.gateRefused
  generalize Locked.cut ⟨l.stats, _⟩ _ _ _ 0 _ = l' at cut ⊢
  have first : Even l ⟨l'.stats, l'.stream.set t.direction
      { l'.stream.way t.direction with
        first :=
          if (l.stream.way t.direction).first = 0 then t.sequence.number
          else (l.stream.way t.direction).first }⟩ := cut.set rfl
  generalize Locked.mk l'.stats (l'.stream.set t.direction _) = l'' at first ⊢
  split
  · exact first
  refine Even.set ?_ rfl
  split
  · exact first.cut _ _ _
  · exact first

theorem unmeasured_even : Even l (l.unmeasured t) := by
  unfold unmeasured
  have early : Even l (if t.early = true then
      { l with stream := { l.stream with earlySeen := l.stream.earlySeen + 1 } } else l) := by
    split
    · exact ⟨rfl, rfl⟩
    · exact .refl l
  generalize (if t.early = true then _ else l : Locked) = l' at early ⊢
  dsimp only
  split
  · exact early.number.cut _ _ _
  · exact early

theorem measured_spends (answer : Written) :
    (l.measured t answer).1.stats.tally = l.stats.tally - 1 ∧
      (l.measured t answer).1.stats.lost - (l.measured t answer).1.stream.lost = l.stats.lost - l.stream.lost := by
  have even := (Even.refl l).number (t := t)
  unfold measured
  generalize l.number t = result at even ⊢
  obtain ⟨l', next⟩ := result
  dsimp only at even ⊢
  by_cases none_ : t.length = 0
  · simp only [none_, if_true]
    have set : Even l ⟨l'.stats, (l'.empty t next).stream⟩ := even.set (by rw [Way.resolve_placement])
    refine ⟨?_, set.due⟩
    rw [← even.tally]
    simp only [empty, Stats.tally]
    grind
  · simp only [none_, if_false]
    split
    · refine ⟨?_, even.due⟩
      rw [← even.tally]
      simp only [Stats.tally]
      grind
    · have placed : Even l (l'.place t next) := by
        have more : Even l ⟨l'.stats, { l'.stream with
            sequence := l'.stream.sequence + 1
            early := if t.early then
                l'.stream.early ++
                  [{ direction := t.direction
                     offset := (l'.stream.way t.direction).offset
                     length := t.length }]
              else l'.stream.early }⟩ := even.trans ⟨rfl, rfl⟩
        exact more.set (by rw [advance, Way.resolve_placement]; rfl)
      generalize l'.place t next = p at placed ⊢
      have counted : ∀ q : Locked, q.stats.tally = p.stats.tally - 1 → q.stats.lost = p.stats.lost →
          q.stream.lost = p.stream.lost → ∀ q', Even q q' →
          q'.stats.tally = l.stats.tally - 1 ∧ q'.stats.lost - q'.stream.lost = l.stats.lost - l.stream.lost := by
        intro q tally lost stream q' even'
        refine ⟨by rw [even'.tally, tally, placed.tally], ?_⟩
        rw [even'.due, lost, stream, placed.due]
      cases answer with
      | accepted =>
        refine counted ⟨{ p.stats with records := p.stats.records + 1 }, p.stream⟩ ?_ rfl rfl _ (.refl _)
        simp only [Stats.tally]
        grind
      | limit | failed =>
        refine counted _ ?_ ?_ ?_ _ ((Even.refl _).cut _ _ _)
        · simp only [Stats.tally]
          grind
        · rfl
        · rfl

end Locked

section Sessions

variable {s s' : Session} {f g : Stream}

theorem lostFollowed_perm {these those : List Stream} (perm : these.Perm those) :
    lostFollowed these = lostFollowed those := by
  induction perm with
  | nil => rfl
  | cons f _ ih => rw [lostFollowed, lostFollowed, ih]
  | swap f g rest =>
    simp only [lostFollowed]
    grind
  | trans _ _ first second => exact first.trans second

theorem lostFollowed_replaced (streams : List Stream) (handle : g.handle = f.handle)
    (distinct : (streams.map Stream.handle).Nodup) (member : f ∈ streams) :
    lostFollowed (streams.map (fun h => if h.handle = g.handle then g else h)) =
      lostFollowed streams - f.lost + g.lost := by
  have perm := perm_taken Stream.handle distinct member
  have untouched : (streams.filter (·.handle ≠ f.handle)).map (fun h => if h.handle = g.handle then g else h) =
      streams.filter (·.handle ≠ f.handle) := by
    refine (List.map_congr_left fun h kept => if_neg ?_).trans (List.map_id' _)
    simpa [handle] using List.of_mem_filter kept
  rw [lostFollowed_perm (perm.map _), lostFollowed_perm perm, List.map_cons, if_pos handle.symm, untouched,
    lostFollowed, lostFollowed]
  grind

theorem lostFollowed_dropped (streams : List Stream)
    (distinct : (streams.map Stream.handle).Nodup) (member : f ∈ streams) :
    lostFollowed (streams.filter (fun h => h.handle ≠ f.handle)) = lostFollowed streams - f.lost := by
  rw [lostFollowed_perm (perm_taken Stream.handle distinct member), lostFollowed]
  grind

def Session.debt (s : Session) : Int64 := s.stats.lost - (lostFollowed s.streams + lostEnded s.history)

structure Settled (s s' : Session) : Prop where
  tally : s'.stats.tally = s.stats.tally
  debt : s'.debt = s.debt

theorem keep_debt (sane : Sane s) (member : f ∈ s.streams) {l : Locked} (handle : l.stream.handle = f.handle)
    (due : l.stats.lost - l.stream.lost = s.stats.lost - f.lost) {one : Happened}
    (open_ : ∀ g record final, one ≠ .ended g record final) :
    ((s.keep l).happened one).debt = s.debt := by
  have followed : lostFollowed (s.keep l).streams = lostFollowed s.streams - f.lost + l.stream.lost :=
    lostFollowed_replaced s.streams handle sane.handles member
  have ended : lostEnded (one :: s.history) = lostEnded s.history := by
    cases one with
    | transferred => rfl
    | refused => rfl
    | ended g record final => exact absurd rfl (open_ g record final)
  have is : ((s.keep l).happened one).debt =
      l.stats.lost - (lostFollowed (s.keep l).streams + lostEnded (one :: s.history)) := rfl
  rw [is, followed, ended]
  unfold Session.debt
  grind

theorem write_settled {stats : Stats} {streams : List Stream} {record : Connection.Record}
    {final : Option Final} {accepted : Bool} (tally : stats.tally = s.stats.tally)
    (due : stats.lost - g.lost = s.stats.lost - f.lost)
    (fewer : lostFollowed streams = lostFollowed s.streams - f.lost) :
    Settled s (Session.write { s with stats, streams } g record final accepted) := by
  have counted : ∀ counted : Stats, counted.tally = stats.tally → counted.lost = stats.lost →
      Settled s (Session.happened { s with stats := counted, streams } (.ended g record final)) := by
    intro counted tally' lost
    refine ⟨tally'.trans tally, ?_⟩
    have is : (Session.happened { s with stats := counted, streams } (.ended g record final)).debt =
        counted.lost - (lostFollowed streams + (g.lost + lostEnded s.history)) := rfl
    rw [is, fewer, lost]
    unfold Session.debt
    grind
  unfold Session.write
  dsimp only
  split
  · exact counted _ rfl rfl
  · exact counted _ rfl rfl

theorem retire_settled (sane : Sane s) (member : f ∈ s.streams) (time : Time) (accepted : Bool) :
    Settled s (s.retire f time accepted) := by
  have even := (Locked.Even.refl ⟨s.stats, f⟩).cutBoth .terminalUnsettled neverEnded
  unfold Session.retire
  generalize Locked.cutBoth ⟨s.stats, f⟩ .terminalUnsettled neverEnded = l at even ⊢
  exact write_settled (f := f) even.tally even.due (lostFollowed_dropped s.streams sane.handles member)

theorem begin_settled (t : Transfer) : Settled s (s.begin_ t).1 := by
  have opening : (s.opening t).stats.tally = s.stats.tally ∧
      (s.opening t).stats.lost - (s.opening t).stream.lost = s.stats.lost := by
    unfold Session.opening
    dsimp only
    have fresh : (s.fresh t).lost = 0 := rfl
    have counted : ∀ stats : Stats, stats.tally = s.stats.tally → stats.lost = s.stats.lost →
        ∀ l, Locked.Even ⟨stats, s.fresh t⟩ l →
          l.stats.tally = s.stats.tally ∧ l.stats.lost - l.stream.lost = s.stats.lost := by
      intro stats tally lost l even
      refine ⟨even.tally.trans tally, ?_⟩
      rw [even.due]
      dsimp only
      rw [lost, fresh]
      grind
    have even : ∀ stats : Stats, Locked.Even ⟨stats, s.fresh t⟩
        (if t.sequence.beginUnlocated > 0 ∧ t.sequence.occupancy ≠ 0 ∧ t.sequence.born = false then
          (Locked.cut ⟨stats, s.fresh t⟩ .sent 0 .observationLost 0 lostBefore).cut
            .received 0 .observationLost 0 lostBefore
        else ⟨stats, s.fresh t⟩) := by
      intro stats
      split
      · exact ((Locked.Even.refl _).cut _ _ _).cut _ _ _
      · exact .refl _
    cases t.executed.validate with
    | error _ =>
      exact counted { s.stats with unattributed := s.stats.unattributed + 1 } rfl rfl _ (even _)
    | ok _ => exact counted s.stats rfl rfl _ (even _)
  obtain ⟨tally, due⟩ := opening
  refine ⟨tally, ?_⟩
  have is : (s.begin_ t).1.debt = (s.opening t).stats.lost -
      (lostFollowed (s.streams ++ [(s.opening t).stream]) + lostEnded s.history) := rfl
  rw [is, lostFollowed_append]
  simp only [lostFollowed, Session.debt]
  grind

theorem sane_rule : Rule (fun _ _ => True) (fun _ _ _ => True) (fun _ _ => True)
    (fun _ _ _ _ => True) (fun _ => True) where
  frame _ _ _ _ _ := trivial
  begins _ _ _ _ _ := ⟨trivial, trivial⟩
  found _ _ _ _ := trivial
  unmeasured _ _ _ _ := trivial
  measured _ _ _ _ _ := ⟨trivial, trivial⟩
  refused _ _ _ _ _ _ := trivial
  retired _ _ _ := trivial
  closed _ _ _ _ := trivial
  finished _ _ _ _ _ := trivial
  otherwise _ _ := trivial

theorem Sane.holds (sane : Sane s) : Holds (fun _ _ => True) (fun _ _ _ _ => True) (fun _ => True) s :=
  ⟨sane, fun _ _ => trivial, fun _ _ _ _ _ _ => trivial, fun _ _ => trivial⟩

theorem follow_settled (sane : Sane s) (t : Transfer) (accepted : Bool) :
    Settled s (s.follow t accepted).1 ∧ Sane (s.follow t accepted).1 ∧
      (s.follow t accepted).2 ∈ (s.follow t accepted).1.streams := by
  obtain ⟨holds, member, _⟩ := @follow_holds _ _ _ _ _ sane_rule s sane.holds s t .accepted
    accepted trivial ⟨rfl, rfl, rfl, rfl⟩
  refine ⟨?_, holds.sane, member⟩
  unfold Session.follow
  split
  · exact begin_settled t
  rename_i f found
  split
  · exact ⟨rfl, rfl⟩
  · have retired := retire_settled sane (find_some found).1 t.time accepted
    have begun := begin_settled (s := s.retire f t.time accepted) t
    exact ⟨begun.tally.trans retired.tally, begun.debt.trans retired.debt⟩

def Balanced (s : Session) : Prop := s.stats.tally = 0 ∧ s.debt = 0

theorem Balanced.settled (balanced : Balanced s) (settled : Settled s s') : Balanced s' :=
  ⟨settled.tally.trans balanced.1, settled.debt.trans balanced.2⟩

theorem transfer_balanced (sane : Sane s) (balanced : Balanced s) (t : Transfer)
    (answer : Written) (accepted : Bool) : Balanced (s.transfer t answer accepted) := by
  have recounted : ∀ stats, Sane { s with stats } := fun stats =>
    { sane with }
  have transferring := transfer_transferring s t answer accepted
  generalize s.transfer t answer accepted = s'' at transferring ⊢
  cases transferring with
  | stale stats tally lost older | nowhere stats tally lost fate fated unnumbered =>
    refine balanced.settled ⟨tally, ?_⟩
    simp only [Session.debt, Session.happened, lostEnded, lost]
  | unmeasured stats tally lost unread s' f followed =>
    obtain ⟨settled, sane', member⟩ := follow_settled (recounted stats) t accepted
    rw [followed] at settled sane' member
    have even := Locked.unmeasured_even (l := ⟨s'.stats, f⟩) (t := t)
    refine ⟨?_, ?_⟩
    · exact even.tally.trans (settled.tally.trans (tally.trans balanced.1))
    · rw [keep_debt sane' member (by rw [Locked.unmeasured_stream]; rfl) even.due (by simp), settled.debt]
      have := balanced.2
      simp only [Session.debt, lost] at this ⊢
      exact this
  | measured stats tally lost read something s' f followed =>
    obtain ⟨settled, sane', member⟩ := follow_settled (recounted stats) t accepted
    rw [followed] at settled sane' member
    obtain ⟨spent, due⟩ := Locked.measured_spends (l := ⟨s'.stats, f⟩) (t := t) answer
    have measuring := Stream.measured_measuring (f := f) (t := t) s'.stats answer
    refine ⟨?_, ?_⟩
    · have before : s'.stats.tally = s.stats.tally + 1 := settled.tally.trans tally
      refine spent.trans ?_
      dsimp only
      rw [before, balanced.1]
      rfl
    · rw [keep_debt sane' member measuring.same.2 due (by simp), settled.debt]
      have := balanced.2
      simp only [Session.debt, lost] at this ⊢
      exact this

theorem refused_balanced (sane : Sane s) (balanced : Balanced s) (t : Transfer) :
    Balanced (s.refused t) := by
  have refusing := refused_refusing s t
  generalize s.refused t = s' at refusing ⊢
  cases refusing with
  | nowhere stats tally lost other =>
    refine balanced.settled ⟨tally, ?_⟩
    simp only [Session.debt, Session.happened, lostEnded, lost]
  | taken stats tally lost f found own numbered =>
    have sane' : Sane { s with stats } := { sane with }
    have even := Locked.refuse_even (l := ⟨stats, f⟩) (t := t)
    refine balanced.settled ⟨even.tally.trans tally, ?_⟩
    have member : f ∈ ({ s with stats } : Session).streams := (find_some found).1
    rw [keep_debt sane' member (by rw [Locked.refuse_stream]; rfl) even.due (by simp)]
    simp only [Session.debt, lost]

theorem closed_balanced (sane : Sane s) (balanced : Balanced s) (c : Ending) (accepted : Bool) :
    Balanced (s.closed c accepted) := by
  have closing := closed_closing s c accepted
  generalize s.closed c accepted = s' at closing ⊢
  cases closing with
  | unmatched => exact balanced.settled ⟨rfl, rfl⟩
  | retired f found =>
    have retired := retire_settled sane (find_some found).1 c.time accepted
    exact balanced.settled { retired with }
  | settled f found joins =>
    have even := ((Locked.Even.refl ⟨s.stats, f⟩).unlocated c.sequence.unlocated).settle c.final true
    exact balanced.settled (write_settled (f := f) even.tally even.due
      (lostFollowed_dropped s.streams sane.handles (find_some found).1))

theorem finals_even (settlers : List Settler) (streams : List Stream) (stats : Stats) :
    (Session.finals settlers stats streams).1.tally = stats.tally ∧
      (Session.finals settlers stats streams).1.lost - lostFollowed (Session.finals settlers stats streams).2 =
        stats.lost - lostFollowed streams := by
  induction streams generalizing stats with
  | nil => exact ⟨rfl, rfl⟩
  | cons f rest ih =>
    have even := Locked.final_even (l := ⟨stats, f⟩) settlers
    simp only [Session.finals, lostFollowed]
    generalize Locked.final ⟨stats, f⟩ settlers = l at even ⊢
    obtain ⟨tally, lost⟩ := ih l.stats
    refine ⟨tally.trans even.tally, ?_⟩
    have due := even.due
    dsimp only at due
    grind

theorem writes_debt (record : Stream → Connection.Record) (accepted : Nat → Bool) (ended : List Stream) (s : Session) :
    (ended.foldl (fun s f => s.write f (record f) none (accepted f.id)) s).stats.tally = s.stats.tally ∧
      (ended.foldl (fun s f => s.write f (record f) none (accepted f.id)) s).debt = s.debt - lostFollowed ended := by
  induction ended generalizing s with
  | nil => exact ⟨rfl, by simp [lostFollowed]⟩
  | cons f rest ih =>
    have written : (s.write f (record f) none (accepted f.id)).stats.tally = s.stats.tally ∧
        (s.write f (record f) none (accepted f.id)).debt = s.debt - f.lost := by
      unfold Session.write
      dsimp only
      constructor
      · simp only [Session.happened]
        split <;> rfl
      · simp only [Session.debt, Session.happened, lostEnded]
        split <;> grind
    obtain ⟨tally, debt⟩ := ih (s.write f (record f) none (accepted f.id))
    rw [List.foldl_cons, tally, debt, written.1, written.2, lostFollowed]
    exact ⟨rfl, by grind⟩

theorem finish_balanced (balanced : Balanced s) (time : Time) (accepted : Nat → Bool) :
    Balanced (s.finish time accepted) := by
  unfold Session.finish
  obtain ⟨tally, lost⟩ := finals_even s.settlers s.streams s.stats
  generalize Session.finals s.settlers s.stats s.streams = result at tally lost ⊢
  obtain ⟨stats, ended⟩ := result
  dsimp only at tally lost ⊢
  obtain ⟨tally', debt⟩ := writes_debt (fun f => f.record .stillOpen time) accepted ended
    { s with stats := stats, streams := [] }
  refine ⟨tally'.trans (tally.trans balanced.1), debt.trans ?_⟩
  have := balanced.2
  simp only [Session.debt, lostFollowed] at this ⊢
  grind

theorem step_balanced (sane : Sane s) (balanced : Balanced s) (call : Call) :
    Balanced (s.step call).2 := by
  cases call with
  | transfer t answer accepted => exact transfer_balanced sane balanced t answer accepted
  | refused t => exact refused_balanced sane balanced t
  | closed c accepted => exact closed_balanced sane balanced c accepted
  | finish time accepted => exact finish_balanced balanced time accepted
  | settling settler | observing capability => exact balanced

theorem after_balanced (recording : Bool) (calls : List Call) :
    Balanced (after recording calls) := by
  refine (run_keeps Session.step (fun s => Sane s ∧ Balanced s) ?_ ?_ calls).2
  · rintro s call ⟨sane, balanced⟩
    exact ⟨(step_holds sane_rule sane.holds trivial).sane, step_balanced sane balanced call⟩
  · refine ⟨?_, by decide +revert, by simp [Session.debt, lostEnded, lostFollowed]⟩
    have empty : Along Session.step (fun _ _ => True) { recording } [] := trivial
    exact (after_holds sane_rule empty).sane

/-- After any calls, no two streams share a handle or an id, and once a connection has
ended nothing more happens to it and no stream has its id. -/
theorem ids_never_reused (recording : Bool) (calls : List Call) :
    let s := after recording calls
    (s.streams.map Stream.handle).Nodup ∧ (s.streams.map Stream.id).Nodup ∧
      ∀ later earlier f record final, s.history = later ++ .ended f record final :: earlier →
        (∀ one ∈ later, one.connection ≠ f.id) ∧ ∀ g ∈ s.streams, g.id ≠ f.id := by
  have any : Along Session.step (fun _ _ => True) { recording } calls := along_of_always (fun _ _ => trivial) _ _
  have sane := (after_holds sane_rule any).sane
  refine ⟨sane.handles, sane.ids, fun later earlier f record final split => ?_⟩
  obtain ⟨quiet, free, -⟩ := sane.gone later earlier f record final split
  exact ⟨quiet, free⟩

end Sessions

end EdgeObserver.Capture
