import EdgeObserver.Capture.Losses
import EdgeObserver.Library.Words

/-!
# Losses by number

A gap in the numbers is counted where it is seen and the tail where the ending
is read, so on a connection whose numbers came in order the two add up to the
numbers that never came.
-/

set_option autoImplicit false

namespace EdgeObserver.Capture

open Fragment Probe Library

theorem toInt64_toInt {x : UInt64} (small : x.toNat < 2 ^ 63) : x.toInt64.toInt = x.toNat := by
  rw [← Int64.toInt_toBitVec, UInt64.toBitVec_toInt64]
  refine BitVec.toInt_eq_toNat_of_lt ?_
  have : x.toBitVec.toNat = x.toNat := rfl
  omega

structure Way.Exact (w : Way) (came : List UInt64) : Prop where
  newest : w.numbered = came.headD 0
  enough : came.length ≤ w.numbered.toNat
  lost : w.lost.toInt = w.numbered.toNat - came.length

def Orderly (came : List UInt64) : Prop := came.Pairwise (· > ·) ∧ (came.headD 0).toNat < 2 ^ 63 + came.length

def Way.Tallied (w : Way) (came : List UInt64) : Prop := Orderly came → w.Exact came

namespace Way

variable {w w' : Way} {came : List UInt64} {sequence : Sequence} {t : Transfer}
variable {direction : Direction}

theorem Exact.of_eq (exact : w.Exact came) (numbered : w'.numbered = w.numbered)
    (lost : w'.lost = w.lost) : w'.Exact came :=
  ⟨numbered.trans exact.newest, numbered ▸ exact.enough, numbered ▸ lost ▸ exact.lost⟩

theorem Tallied.of_eq (tallied : w.Tallied came) (numbered : w'.numbered = w.numbered)
    (lost : w'.lost = w.lost) : w'.Tallied came :=
  fun orderly => (tallied orderly).of_eq numbered lost

theorem cut_lost_zero (fromOffset : Nat) (because : Connection.Reason) (why : Bytes) :
    (w.cut fromOffset because 0 why).lost = w.lost := by
  rw [cut_lost]
  grind

theorem overlap_lost (overlapped : Bool) : (w.overlap overlapped).lost = w.lost := by
  unfold overlap
  split
  · exact cut_lost_zero _ _ _
  · rfl

theorem overlap_numbered (overlapped : Bool) : (w.overlap overlapped).numbered = w.numbered := by
  unfold overlap
  split <;> rfl

theorem see_unnumbered (none_ : sequence.number = 0) :
    (w.see sequence).numbered = w.numbered ∧ (w.see sequence).lost = w.lost := by
  unfold see
  dsimp only
  have low : ¬ sequence.number > w.numbered := by grind
  rw [if_neg low]
  by_cases next : sequence.number = w.numbered + 1
  · rw [if_pos next]
    exact ⟨rfl, rfl⟩
  · have behind : ¬ sequence.number > w.numbered + 1 := by grind
    rw [if_neg next, if_neg behind]
    exact ⟨rfl, cut_lost_zero _ _ _⟩

theorem see_past (past : w.numbered < sequence.number) :
    (w.see sequence).numbered = sequence.number ∧
      (w.see sequence).lost = w.lost + (sequence.number - w.numbered - 1).toInt64 := by
  have kept : ∀ cut : Way,
      ({ cut with numbered := sequence.number, droppedBelow := sequence.dropped } : Way).lost =
        cut.lost := fun _ => rfl
  unfold see
  dsimp only
  rw [if_pos past]
  refine ⟨rfl, ?_⟩
  rw [kept]
  by_cases next : sequence.number = w.numbered + 1
  · rw [if_pos next]
    have nothing : (sequence.number - w.numbered - 1).toInt64 = 0 := by
      have : sequence.number - w.numbered - 1 = 0 := by grind
      rw [this]
      rfl
    rw [nothing]
    show w.lost = w.lost + 0
    grind
  · have further : sequence.number > w.numbered + 1 := by grind
    rw [if_neg next, if_pos further]
    exact cut_lost _ _ _ _ _

theorem orderly_older {n : UInt64} (orderly : Orderly (n :: came)) (numbered : n ≠ 0) :
    Orderly came ∧ came.headD 0 < n := by
  obtain ⟨ordered, few⟩ := orderly
  obtain ⟨newer, ordered⟩ := List.pairwise_cons.mp ordered
  rw [List.headD_cons, List.length_cons] at few
  have older : came.headD 0 < n := by
    cases came with
    | nil => exact UInt64.pos_iff_ne_zero.mpr numbered
    | cons m rest => exact newer m List.mem_cons_self
  have : (came.headD 0).toNat < n.toNat := UInt64.lt_iff_toNat_lt.mp older
  exact ⟨⟨ordered, by omega⟩, older⟩

theorem Tallied.see (tallied : w.Tallied came) (numbered : sequence.number ≠ 0) :
    (w.see sequence).Tallied (sequence.number :: came) := by
  intro orderly
  obtain ⟨older, past⟩ := orderly_older orderly numbered
  obtain ⟨newest, enough, lost⟩ := tallied older
  rw [← newest] at past
  obtain ⟨numbered', lost'⟩ := see_past past
  have few := orderly.2
  rw [List.headD_cons, List.length_cons] at few
  have above : w.numbered.toNat < sequence.number.toNat := UInt64.lt_iff_toNat_lt.mp past
  have gap : (sequence.number - w.numbered - 1).toNat =
      sequence.number.toNat - w.numbered.toNat - 1 := by
    have some_ : (sequence.number - w.numbered).toNat = sequence.number.toNat - w.numbered.toNat :=
      UInt64.toNat_sub_of_le _ _ (UInt64.le_of_lt past)
    rw [UInt64.toNat_sub_of_le, some_]
    · rfl
    · rw [UInt64.le_iff_toNat_le, some_]
      exact Nat.sub_pos_of_lt above
  have counted : (sequence.number - w.numbered - 1).toInt64.toInt =
      ((sequence.number.toNat - w.numbered.toNat - 1 : Nat) : Int) := by
    rw [toInt64_toInt (by omega), gap]
  refine ⟨numbered', ?_, ?_⟩
  · rw [numbered', List.length_cons]
    omega
  · rw [lost', toInt_add_of_range (by omega) (by omega), counted, lost, numbered', List.length_cons]
    omega

theorem Tallied.numbers (tallied : w.Tallied came) :
    (w.numbers direction t).Tallied
      (if t.direction = direction ∧ t.sequence.occupancy ≠ 0 ∧ t.sequence.number ≠ 0 then
        t.sequence.number :: came
      else came) := by
  unfold Way.numbers
  by_cases none_ : t.sequence.occupancy = 0
  · have absent : ¬ (t.direction = direction ∧ t.sequence.occupancy ≠ 0 ∧
        t.sequence.number ≠ 0) := fun here => here.2.1 none_
    rw [if_pos none_, if_neg absent]
    split
    · exact tallied
    · exact tallied.of_eq rfl (cut_lost_zero _ _ _)
  · rw [if_neg none_]
    have overlapped : (w.overlap t.sequence.overlapped).Tallied came :=
      tallied.of_eq (overlap_numbered _) (overlap_lost _)
    by_cases own : direction = t.direction
    · rw [if_pos own]
      by_cases unnumbered : t.sequence.number = 0
      · rw [if_neg fun here => here.2.2 unnumbered]
        obtain ⟨numbered, lost⟩ := see_unnumbered (w := w.overlap t.sequence.overlapped) unnumbered
        exact overlapped.of_eq numbered lost
      · rw [if_pos ⟨own.symm, none_, unnumbered⟩]
        exact overlapped.see unnumbered
    · rw [if_neg own, if_neg fun here => own here.1.symm]
      exact tallied

theorem resolve_lost {n : UInt64} {next : Bool} : (w.resolve n next).lost = w.lost := by
  unfold Way.lost
  rw [resolve_placement]

theorem Exact.settle (exact : w.Exact came) {terminal : Terminal} (idle : terminal.inFlight = false)
    (past : ∀ n ∈ came, n ≤ terminal.last) (few : terminal.last.toNat < 2 ^ 63 + came.length) :
    (w.settle true terminal).lost.toInt = terminal.last.toNat - came.length := by
  obtain ⟨newest, enough, lost⟩ := exact
  have reached : w.numbered ≤ terminal.last := by
    rw [newest]
    cases came with
    | nil => exact UInt64.zero_le
    | cons n rest => exact past n List.mem_cons_self
  have whole : Locked.terminalOf terminal = terminal.last := by
    simp [Locked.terminalOf, idle]
  have low := UInt64.le_iff_toNat_le.mp reached
  have settled : w.settle true terminal = w.settleTail true terminal := by
    simp [Way.settle, idle]
  rw [settled]
  unfold settleTail
  rw [whole]
  by_cases more : terminal.last > w.numbered
  · have counted : (terminal.last - w.numbered).toInt64.toInt =
        ((terminal.last.toNat - w.numbered.toNat : Nat) : Int) := by
      have gap := UInt64.toNat_sub_of_le _ _ reached
      rw [toInt64_toInt (by omega), gap]
    have above : w.numbered.toNat < terminal.last.toNat := UInt64.lt_iff_toNat_lt.mp more
    have located : (terminal.last - w.numbered).toInt64 > 0 := by
      refine Int64.lt_iff_toInt_lt.mpr ?_
      rw [counted]
      simp only [Int64.toInt_zero]
      omega
    simp only [more, located, if_true]
    rw [cut_lost, toInt_add_of_range (by omega) (by omega), counted, lost]
    omega
  · have same : terminal.last = w.numbered := UInt64.le_antisymm (UInt64.not_lt.mp more) reached
    have level : ¬ terminal.last < w.numbered := UInt64.not_lt.mpr reached
    rw [if_neg more, if_neg level, lost, same]

end Way

def Counted (history : List Happened) (f : Stream) : Prop :=
  (∀ t, Happened.refused f.id t ∉ history) → ∀ direction, (f.way direction).Tallied (arrivals history f.id direction)

structure Terminal.Ahead (terminal : Terminal) (came : List UInt64) : Prop where
  past : ∀ n ∈ came, n ≤ terminal.last
  few : terminal.last.toNat < 2 ^ 63 + came.length

/-- Where the numbers of a direction came in order up to a known ending, with
none refused and no call in flight, it has counted those that did not come. -/
def Recorded (history : List Happened) (f : Stream) (record : Connection.Record) : Option Final → Prop
  | none => True
  | some final =>
    final.known = true → (∀ t, Happened.refused f.id t ∉ history) →
      ∀ direction, direction ≠ .unknown →
        let came := arrivals history f.id direction
        let terminal := final.inDirection direction
        terminal.inFlight = false → came.Pairwise (· > ·) → Terminal.Ahead terminal came →
          (f.way direction).lost.toInt = terminal.last.toNat - came.length ∧
            ∀ p ∈ record.placements, p.direction = direction → p.lost.known = true →
              p.lost.value = (f.way direction).lost

section Steps

variable {history : List Happened} {f g : Stream} {t : Transfer}

theorem Counted.here {fate : Fate} (counted : Counted history f) (id : g.id = f.id)
    (same : ∀ direction, (g.way direction).numbered = ((f.way direction).numbers direction t).numbered ∧
      (g.way direction).lost = ((f.way direction).numbers direction t).lost) :
    Counted (.transferred f.id t fate :: history) g := by
  intro unrefused direction
  rw [id] at unrefused ⊢
  rw [arrivals_here (.inr ⟨fate, rfl⟩)]
  have before := counted (fun t' member => unrefused t' (List.mem_cons_of_mem _ member)) direction
  exact before.numbers.of_eq (same direction).1 (same direction).2

theorem counted_unmeasured (stats : Stats) (counted : Counted history f) :
    Counted (.transferred f.id t .unmeasured :: history) (Locked.unmeasured ⟨stats, f⟩ t).stream := by
  rw [Locked.unmeasured_stream]
  cases went : moved t with
  | false =>
    -- It took no number, so nothing came with it.
    have unnumbered : t.sequence.number = 0 := by
      by_contra numbered
      simp [moved, numbered] at went
    intro unrefused direction
    have none_ : arrivals (.transferred f.id t .unmeasured :: history) f.id direction =
        arrivals history f.id direction := by
      rw [arrivals_here (.inr ⟨_, rfl⟩)]
      exact if_neg fun here => here.2.2 unnumbered
    have before := counted (fun t' member => unrefused t' (List.mem_cons_of_mem _ member)) direction
    show Way.Tallied _ (arrivals (.transferred f.id t .unmeasured :: history) f.id direction)
    rw [none_]
    exact before.of_eq rfl rfl
  | true =>
    refine counted.here rfl fun direction => ?_
    simp only [Bool.true_eq_false, if_false]
    split
    · exact ⟨rfl, Way.cut_lost_zero _ _ _⟩
    · exact ⟨rfl, rfl⟩

theorem counted_measured {answer : Written} {fate : Fate} (counted : Counted history f)
    (measuring : f.Measuring t answer g fate) : Counted (.transferred f.id t fate :: history) g := by
  have id := measuring.same.1
  have placed : ∀ direction,
      ((f.place t).way direction).numbered = ((f.way direction).numbers direction t).numbered ∧
        ((f.place t).way direction).lost = ((f.way direction).numbers direction t).lost := by
    intro direction
    by_cases own : direction = t.direction
    · subst own
      simp only [Stream.place, Locked.place, Stream.set_same, Locked.advance]
      exact ⟨Way.resolve_numbered, Way.resolve_lost⟩
    · simp only [Stream.place, Locked.place, Stream.set_other own]
      exact ⟨rfl, rfl⟩
  cases measuring with
  | empty none_ =>
    refine counted.here id fun direction => ?_
    by_cases own : direction = t.direction
    · subst own
      rw [Stream.set_same]
      exact ⟨Way.resolve_numbered, Way.resolve_lost⟩
    · rw [Stream.set_other own]
      exact ⟨rfl, rfl⟩
  | stopped bytes reason => exact counted.here id fun _ => ⟨rfl, rfl⟩
  | handed bytes running =>
    have cut : ∀ (h : Stream) (offset : Nat) direction, h.way = (f.place t).way →
        (((h.set t.direction ((h.way t.direction).cut offset .observationLost 0
            Capture.intakeRefused)).way direction).numbered =
          ((f.way direction).numbers direction t).numbered ∧
        ((h.set t.direction ((h.way t.direction).cut offset .observationLost 0
            Capture.intakeRefused)).way direction).lost =
          ((f.way direction).numbers direction t).lost) := by
      intro h offset direction same
      by_cases own : direction = t.direction
      · subst own
        rw [Stream.set_same, Way.cut_lost_zero, same]
        exact placed _
      · rw [Stream.set_other own, same]
        exact placed _
    cases answer with
    | accepted => exact counted.here id placed
    | limit => exact counted.here id fun d => cut { f.place t with loss := _ } _ d rfl
    | failed => exact counted.here id fun d => cut (f.place t) _ d rfl

theorem placed_lost {direction : Direction} (known : (f.placed direction).lost.known = true) :
    (f.placed direction).lost.value = (f.way direction).lost := by
  unfold Stream.placed Way.lost at *
  cases placed : (f.way direction).placement with
  | none => rfl
  | some held =>
    rw [placed] at known
    dsimp only at known ⊢
    split
    · rfl
    · rename_i partial_
      rw [if_neg partial_] at known
      cases known

theorem placed_direction {direction : Direction} :
    (f.placed direction).direction = direction := by
  unfold Stream.placed
  split <;> rfl

theorem Counted.settled {final : Final} {l : Locked} (counted : Counted history l.stream)
    (how : Connection.Ending) (time : Time) (slot : Option Nat) :
    Recorded history (l.settle final true).stream
      { (l.settle final true).stream.record how time with slot } (some final) := by
  intro known unrefused direction named came terminal idle ordered ahead
  have id : (l.settle final true).stream.id = l.stream.id := by
    rw [Locked.settle_stream]
    rfl
  have way : (l.settle final true).stream.way direction =
      (l.stream.way direction).settle true terminal := by
    rw [Locked.settle_stream]
    simp only [Stream.ways, named, known, if_true, if_false]
    rfl
  simp only [came, id] at unrefused ordered ahead ⊢
  refine ⟨?_, ?_⟩
  · have newest : ((arrivals history l.stream.id direction).headD 0).toNat ≤
        terminal.last.toNat := by
      cases listed : arrivals history l.stream.id direction with
      | nil => exact Nat.zero_le _
      | cons n rest =>
        exact UInt64.le_iff_toNat_le.mp (ahead.past n (by rw [listed]; exact List.mem_cons_self))
    have exact_ := counted unrefused direction ⟨ordered, Nat.lt_of_le_of_lt newest ahead.few⟩
    rw [way]
    exact exact_.settle idle ahead.past ahead.few
  · intro p listed own counts
    obtain ⟨other, _, rfl⟩ := List.mem_map.mp listed
    rw [placed_direction] at own
    subst own
    exact placed_lost counts

end Steps

theorem counted_rule : Rule (fun _ _ => True) (fun _ _ _ => True) Counted Recorded
    (fun _ => True) where
  frame history g one counted apart := by
    intro unrefused direction
    rw [arrivals_apart apart]
    exact counted (fun t member => unrefused t (List.mem_cons_of_mem _ member)) direction
  begins := by
    intro s t answer accepted endings sane may ended _
    refine ⟨fun _ direction => ?_, trivial⟩
    rw [arrivals_new (opening_past sane ended), Session.opening_stream]
    intro _
    simp only [Stream.ways]
    split <;> exact ⟨rfl, Nat.zero_le _, by decide⟩
  found _ _ _ _ := trivial
  unmeasured stats counted _ _ := counted_unmeasured stats counted
  measured counted _ _ _ measuring := ⟨counted_measured counted measuring, trivial⟩
  refused := by
    intro s t f stats may found own numbered counted unrefused
    have id : (Locked.refuse ⟨stats, f⟩ t).stream.id = f.id := by
      rw [Locked.refuse_stream]
    exact absurd (List.mem_cons_self) (id ▸ unrefused t)
  retired _ _ _ := trivial
  closed := by
    intro s c accepted f may found joins counted
    exact Counted.settled (l := Locked.unlocated ⟨s.stats, f⟩ c.sequence.unlocated) counted _ _ _
  finished _ _ _ _ _ := trivial
  otherwise _ _ := trivial

def missing (last : UInt64) (came : List UInt64) : Finset Nat :=
  (Finset.Icc 1 last.toNat).filter (fun n => n ∉ came.map UInt64.toNat)

theorem missing_card {last : UInt64} {came : List UInt64} (ordered : came.Pairwise (· > ·))
    (within : ∀ n ∈ came, n ≠ 0 ∧ n ≤ last) :
    ((missing last came).card : Int) = last.toNat - came.length := by
  have distinct : (came.map UInt64.toNat).Nodup := by
    refine List.Nodup.map (fun _ _ same => UInt64.toNat_inj.mp same) ?_
    exact ordered.imp fun above => (UInt64.ne_of_lt above).symm
  have among : (came.map UInt64.toNat).toFinset ⊆ Finset.Icc 1 last.toNat := by
    intro n listed
    obtain ⟨m, member, rfl⟩ := List.mem_map.mp (List.mem_toFinset.mp listed)
    obtain ⟨nonzero, below⟩ := within m member
    refine Finset.mem_Icc.mpr ⟨?_, UInt64.le_iff_toNat_le.mp below⟩
    exact Nat.one_le_iff_ne_zero.mpr fun zero => nonzero (UInt64.toNat_inj.mp zero)
  have rest : missing last came = Finset.Icc 1 last.toNat \ (came.map UInt64.toNat).toFinset := by
    ext n
    simp [missing]
  have count : (came.map UInt64.toNat).toFinset.card = came.length := by
    rw [List.toFinset_card_of_nodup distinct, List.length_map]
  have least := Finset.card_le_card among
  rw [rest, Finset.card_sdiff_of_subset among, count, Nat.card_Icc]
  rw [count, Nat.card_Icc] at least
  omega

theorem arrivals_ne_zero {history : List Happened} {id : Nat} {direction : Direction} {n : UInt64}
    (came : n ∈ arrivals history id direction) : n ≠ 0 := by
  obtain ⟨one, _, is⟩ := List.mem_filterMap.mp came
  cases one with
  | transferred id' t fate | refused id' t =>
    obtain ⟨here, same⟩ := Option.ite_none_right_eq_some.mp is
    cases same
    exact here.2.2.2
  | ended => cases is

/-- After any calls every transfer is empty, unmeasured, placed or rejected, and
every lost one is counted in a direction of a connection. A direction whose
numbers came in order up to a known ending has counted exactly those that did
not come. -/
theorem losses_accounted (recording : Bool) (calls : List Call) :
    let s := after recording calls
    s.stats.transfers = s.stats.empty + s.stats.unmeasured + s.stats.records + s.stats.rejected ∧
      s.stats.lost = lostEnded s.history + lostFollowed s.streams ∧
      ∀ later earlier f record final, s.history = later ++ .ended f record (some final) :: earlier →
        final.known = true → (∀ t, Happened.refused f.id t ∉ earlier) →
          ∀ direction, direction ≠ .unknown →
            let came := arrivals earlier f.id direction
            let terminal := final.inDirection direction
            terminal.inFlight = false → came.Pairwise (· > ·) → Terminal.Ahead terminal came →
              (f.way direction).lost.toInt = (terminal.last.toNat - came.length : Int) ∧
                (f.way direction).lost.toInt = ((missing terminal.last came).card : Int) ∧
                ∀ p ∈ record.placements, p.direction = direction → p.lost.known = true →
                  p.lost.value = (f.way direction).lost := by
  obtain ⟨tally, debt⟩ := after_balanced recording calls
  refine ⟨?_, ?_, ?_⟩
  · simp only [Stats.tally] at tally
    grind
  · simp only [Session.debt] at debt
    grind
  · intro later earlier f record final split known unrefused direction named came terminal idle ordered ahead
    have any : Along Session.step (fun _ _ => True) { recording } calls := along_of_always (fun _ _ => trivial) _ _
    obtain ⟨lost, recorded⟩ := (after_holds counted_rule any).done later earlier f record
      (some final) split known unrefused direction named idle ordered ahead
    have rest := missing_card ordered fun n member => ⟨arrivals_ne_zero member, ahead.past n member⟩
    exact ⟨lost, lost.trans rest.symm, recorded⟩

def Happened.isRefused : Happened → Bool
  | .refused _ _ => true
  | .transferred _ _ _ | .ended _ _ _ => false

/-- What a known ending without refusals last left of a direction: the count of
the lost, what the ending said of it and the numbers that came. -/
def lastLosses (s : Session) (direction : Direction) : Option (Int64 × Terminal × List UInt64) :=
  match s.history with
  | .ended f _ (some final) :: earlier =>
    if final.known = true ∧ earlier.all (fun one => !one.isRefused) = true then
      some ((f.way direction).lost, final.inDirection direction, arrivals earlier f.id direction)
    else none
  | _ => none

theorem lastLosses_some {s : Session} {direction : Direction} {lost : Int64} {terminal : Terminal} {came : List UInt64}
    (last : lastLosses s direction = some (lost, terminal, came)) :
    ∃ f record final earlier, s.history = .ended f record (some final) :: earlier ∧
      final.known = true ∧ (∀ t, Happened.refused f.id t ∉ earlier) ∧
        (f.way direction).lost = lost ∧ final.inDirection direction = terminal ∧
          arrivals earlier f.id direction = came := by
  unfold lastLosses at last
  split at last
  · rename_i f record final earlier listed
    obtain ⟨⟨known, unrefused⟩, same⟩ := Option.ite_none_right_eq_some.mp last
    cases same
    refine ⟨f, record, final, earlier, listed, known, fun t member => ?_, rfl, rfl, rfl⟩
    exact absurd (List.all_eq_true.mp unrefused _ member) (by simp [Happened.isRefused])
  · cases last

def sentTransfer (number : UInt64) : Call :=
  .transfer
    { process := { pid := 7 }
      endpoint := 1
      direction := .sent
      length := 4
      time := 9
      sequence := { occupancy := 5, number } } .accepted true

def sentEnding (last : UInt64) : Call :=
  .closed
    { endpoint := 1
      time := 9
      sequence := { occupancy := 5 }
      final := { known := true, sent := { last } } } true

/-- A last number behind one that came: three are counted lost where the last
number leaves one and two did not come. And a tail longer than the counter holds
is not counted. -/
theorem behind_last_counted :
    lastLosses (after true [sentTransfer 1, sentTransfer 5, sentEnding 3]) .sent = some (3, { last := 3 }, [5, 1]) ∧
      (missing 3 [5, 1]).card = 2 ∧
      lastLosses (after true [sentTransfer 1, sentEnding 9223372036854775810]) .sent =
        some (0, { last := 9223372036854775810 }, [1]) := by
  decide

/-- A gap of three and a tail of two. -/
theorem losses_accounted_gap :
    lastLosses (after true [sentTransfer 1, sentTransfer 5, sentEnding 7]) .sent = some (5, { last := 7 }, [5, 1]) ∧
      (5 : Int64).toInt = ((missing 7 [5, 1]).card : Int) := by
  have last : lastLosses (after true [sentTransfer 1, sentTransfer 5, sentEnding 7]) .sent =
      some (5, { last := 7 }, [5, 1]) := by decide
  obtain ⟨f, record, final, earlier, listed, known, unrefused, lost, terminal, came⟩ := lastLosses_some last
  have located := (losses_accounted true [sentTransfer 1, sentTransfer 5, sentEnding 7]).2.2
    [] earlier f record final listed known unrefused .sent (by decide)
  rw [terminal, came, lost] at located
  have up : ∀ n ∈ [(5 : UInt64), 1], n ≤ 7 := List.forall_mem_cons.mpr ⟨by decide, List.forall_mem_singleton.mpr (by decide)⟩
  exact ⟨last, (located rfl (by decide) ⟨up, by decide⟩).2.1⟩

end EdgeObserver.Capture
