import EdgeObserver.Capture.Session

/-!
# The two directions apart

Everything a call does to a stream's positions and numbers it does to each
direction by itself. Here each operation under the lock is that function of one
direction, and the stream it leaves.
-/

set_option autoImplicit false

namespace EdgeObserver.Capture

open Fragment Probe

namespace Stream

variable {f : Stream} {direction other : Direction} {w w' : Way}

@[simp] theorem set_same : (f.set direction w).way direction = w := if_pos rfl

theorem set_other (apart : other ≠ direction) : (f.set direction w).way other = f.way other := if_neg apart

def ways (f : Stream) (unlocated : UInt64) (way : Direction → Way) : Stream := { f with way, unlocated }

theorem set_eq : f.set direction w = f.ways f.unlocated (fun each => if each = direction then w else f.way each) := rfl

end Stream

namespace Way

def see (w : Way) (sequence : Sequence) : Way :=
  let first := if w.first = 0 then sequence.number else w.first
  let cut :=
    if sequence.number = w.numbered + 1 then { w with first }
    else if sequence.number > w.numbered + 1 then
      ({ w with first } : Way).cut w.offset .observationLost (sequence.number - w.numbered - 1).toInt64 []
    else ({ w with first } : Way).cut w.offset .operationsOverlapped 0 arrivedBehind
  if sequence.number > w.numbered then
    { cut with numbered := sequence.number, droppedBelow := sequence.dropped }
  else cut

def overlap (w : Way) (overlapped : Bool) : Way :=
  if overlapped then w.cut w.offset .operationsOverlapped 0 callsOverlapped else w

def numbers (w : Way) (direction : Direction) (t : Transfer) : Way :=
  if t.sequence.occupancy = 0 then
    if direction = .unknown then w else w.cut w.offset .sequenceUnavailable 0 noSequence
  else if direction = t.direction then (w.overlap t.sequence.overlapped).see t.sequence
  else w

def settleTail (w : Way) (ending : Bool) (terminal : Terminal) : Way :=
  if Locked.terminalOf terminal > w.numbered then
    let missing := (Locked.terminalOf terminal - w.numbered).toInt64
    let located := if ending then missing else Locked.tail w terminal missing
    if located > 0 then w.cut w.offset .observationLost located []
    else w.cut w.offset .terminalUnsettled 0 undelivered
  else if Locked.terminalOf terminal < w.numbered then
    w.cut w.offset .terminalUnsettled 0 behindDelivered
  else w

def settle (w : Way) (ending : Bool) (terminal : Terminal) : Way :=
  if ending = true ∧ terminal.inFlight = true then
    (w.settleTail ending terminal).cut w.offset .terminalUnsettled 0 stillInFlight
  else w.settleTail ending terminal

def refuse (w : Way) (t : Transfer) : Way :=
  let cut := { w.cut w.offset .observationLost 0 Capture.gateRefused with
    first := if w.first = 0 then t.sequence.number else w.first }
  if t.sequence.number ≤ w.numbered then cut
  else
    { (if t.sequence.number > w.numbered + 1 then
        cut.cut w.offset .observationLost 0 refusedPast
      else cut) with
      numbered := t.sequence.number
      droppedBelow := t.sequence.dropped }

@[simp] theorem resolve_placement {w : Way} {n : UInt64} {next : Bool} :
    (w.resolve n next).placement = w.placement := by
  unfold resolve
  split <;> rfl

@[simp] theorem resolve_numbered {w : Way} {n : UInt64} {next : Bool} :
    (w.resolve n next).numbered = w.numbered := by
  unfold resolve
  split <;> rfl

end Way

namespace Locked

variable {l : Locked} {direction : Direction} {t : Transfer}

variable {ending : Bool} {why : Bytes} {because : Connection.Reason} {terminal : Terminal}

theorem cut_stream {fromOffset : Nat} {lost : Int64} :
    (l.cut direction fromOffset because lost why).stream =
      l.stream.set direction ((l.stream.way direction).cut fromOffset because lost why) := rfl

theorem lose_stream {missing : Int64} : (l.lose direction missing).stream =
    l.stream.set direction ((l.stream.way direction).cut (l.stream.way direction).offset .observationLost missing []) :=
  rfl

theorem cutBoth_stream :
    (l.cutBoth because why).stream = l.stream.ways l.stream.unlocated (fun each =>
      if each = .unknown then l.stream.way each
      else (l.stream.way each).cut (l.stream.way each).offset because 0 why) := by
  unfold cutBoth
  simp only [cut_stream, Stream.set_eq, Stream.ways]
  congr 1
  funext each
  cases each <;> simp

theorem count_stream {sequence : Sequence} : (l.count direction sequence).1.stream =
    l.stream.set direction ((l.stream.way direction).see sequence) := by
  unfold count Way.see
  simp only [beq_iff_eq]
  split <;> split <;> (try split) <;>
    simp only [cut_stream, lose_stream, Stream.set_eq, Stream.ways] <;>
    (congr 1; funext each; by_cases here : each = direction <;> simp [here, Way.cut])

theorem number_stream : (l.number t).1.stream =
    l.stream.ways (max l.stream.unlocated t.sequence.unlocated) (fun each => (l.stream.way each).numbers each t) := by
  unfold number Way.numbers
  by_cases none_ : t.sequence.occupancy = 0
  · simp only [none_, if_true, cutBoth_stream]
    rfl
  simp only [none_, if_false, count_stream]
  unfold Way.overlap
  split <;> simp only [Stream.set_eq, Stream.ways, cut_stream, unlocated] <;>
    (congr 1; funext each; by_cases here : each = t.direction <;> simp [here])

theorem number_next : (l.number t).2 = true ↔
    t.sequence.occupancy ≠ 0 ∧ t.sequence.number = (l.stream.way t.direction).numbered + 1 := by
  unfold number
  by_cases none_ : t.sequence.occupancy = 0
  · simp [none_]
  simp only [none_, if_false, count, beq_iff_eq, ne_eq, not_false_eq_true, true_and]
  split
  · rw [cut_stream, Stream.set_same]
    rfl
  · rfl

theorem settleTail_stream :
    (l.settleTail ending direction terminal).stream =
      l.stream.set direction ((l.stream.way direction).settleTail ending terminal) := by
  unfold settleTail Way.settleTail
  dsimp only
  have kept : l.stream.set direction (l.stream.way direction) = l.stream := by
    simp only [Stream.set]
    congr 1
    funext each
    by_cases here : each = direction <;> simp [here]
  split
  · generalize (if ending = true then _ else _ : Int64) = located
    split <;> rfl
  · split
    · rfl
    · exact kept.symm

theorem settleIn_stream :
    (l.settleIn ending direction terminal).stream =
      l.stream.set direction ((l.stream.way direction).settle ending terminal) := by
  unfold settleIn Way.settle
  split
  · rw [cut_stream, settleTail_stream, Stream.set_same]
    simp only [Stream.set_eq, Stream.ways]
    congr 1
    funext each
    by_cases here : each = direction <;> simp [here]
  · exact settleTail_stream

theorem settle_stream {final : Final} : (l.settle final ending).stream =
    l.stream.ways l.stream.unlocated (fun each =>
      if each = .unknown then l.stream.way each
      else if final.known then (l.stream.way each).settle ending (final.inDirection each)
      else (l.stream.way each).cut (l.stream.way each).offset .terminalUnsettled 0 noOccupancy) := by
  unfold settle
  split
  · simp only [settleIn_stream, Stream.set_eq, Stream.ways]
    congr 1
    funext each
    cases each <;> simp [Final.inDirection]
  · exact cutBoth_stream

theorem refuse_stream : (l.refuse t).stream =
    { l.stream with
      loss := l.stream.loss.stop "input_limit"
      way := fun each =>
        if each = t.direction then (l.stream.way each).refuse t else l.stream.way each } := by
  unfold refuse Way.refuse
  dsimp only
  by_cases low : t.sequence.number ≤ (l.stream.way t.direction).numbered
  · simp only [low, if_true, cut_stream, Stream.set]
    congr 1
    funext each
    by_cases here : each = t.direction <;> simp [here, low]
  · simp only [low, if_false]
    by_cases past : t.sequence.number > (l.stream.way t.direction).numbered + 1
    all_goals
      simp only [past, if_true, if_false, cut_stream, Stream.set]
      congr 1
      funext each
      by_cases here : each = t.direction
      · subst here
        simp only [low, past, if_true, if_false]
      · simp only [here, if_false]

theorem unmeasured_stream : (l.unmeasured t).stream =
    { l.stream with
      earlySeen := if t.early then l.stream.earlySeen + 1 else l.stream.earlySeen
      unlocated :=
        if moved t then max l.stream.unlocated t.sequence.unlocated else l.stream.unlocated
      way := fun each =>
        if moved t = false then l.stream.way each
        else if each = t.direction then
          ((l.stream.way each).numbers each t).cut ((l.stream.way each).numbers each t).offset
            .lengthUnmeasured 0 []
        else (l.stream.way each).numbers each t } := by
  unfold unmeasured
  cases went : moved t <;> cases early : t.early <;>
    simp only [if_true, if_false, Bool.false_eq_true, Bool.true_eq_false, cut_stream,
      number_stream, Stream.set, Stream.ways] <;>
    (congr 1; funext each; by_cases here : each = t.direction <;> simp [here])

/-- Where production stopped with a stream open: cut for want of an ending, left
as it is where it had no numbers, or settled against its occupancy's last. -/
inductive Finals (l : Locked) (settlers : List Settler) : Locked → Prop where
  | unnumbered (none_ : l.stream.occupancy = 0) : Finals l settlers l
  | unsettled (why : Bytes) : Finals l settlers (l.cutBoth .terminalUnsettled why)
  | settled (settler : Settler) (held : Settlement) (unlocated : UInt64)
      (member : settler ∈ settlers) (answer : settler.settled l.stream.handle = .ok held)
      (own : held.occupancy = l.stream.occupancy) :
      Finals l settlers ((l.unlocated unlocated).settle held.final false)

theorem holder_mem {handle : Handle} {held : Option (Settler × Settlement)}
    {settlers : List Settler} {settler : Settler} {one : Settlement}
    (found : holder handle held settlers = .ok (some (settler, one))) :
    held = some (settler, one) ∨ (settler ∈ settlers ∧ settler.settled handle = .ok one) := by
  induction settlers generalizing held with
  | nil => exact .inl (Except.ok.inj found)
  | cons first rest ih =>
    unfold holder at found
    split at found
    · cases found
    rename_i answer asked
    split at found
    · exact (ih found).imp_right fun later => ⟨List.mem_cons_of_mem _ later.1, later.2⟩
    split at found
    · cases found
    rcases ih found with same | later
    · cases same
      exact .inr ⟨List.mem_cons_self, asked⟩
    · exact .inr ⟨List.mem_cons_of_mem _ later.1, later.2⟩

theorem final_finals (settlers : List Settler) : Finals l settlers (l.final settlers) := by
  unfold final
  split
  · exact .unnumbered ‹_›
  split
  · exact .unsettled _
  · exact .unsettled _
  rename_i settler held found
  split
  · exact .unsettled _
  rename_i own
  split
  · exact .unsettled _
  · rcases holder_mem found with none_ | ⟨member, answer⟩
    · cases none_
    · exact .settled settler held _ member answer (by simpa using own)

end Locked

namespace Stream

variable {f : Stream} {t : Transfer}

def numbers (f : Stream) (t : Transfer) : Stream :=
  f.ways (max f.unlocated t.sequence.unlocated) (fun each => (f.way each).numbers each t)

def next (f : Stream) (t : Transfer) : Bool :=
  t.sequence.occupancy ≠ 0 && t.sequence.number = (f.way t.direction).numbered + 1

def place (f : Stream) (t : Transfer) : Stream := (Locked.place ⟨{}, f.numbers t⟩ t (f.next t)).stream

def fragment (f : Stream) (t : Transfer) : Fragment.Record :=
  { Locked.fragment ⟨{}, f.numbers t⟩ t with evidence := (f.place t).evidence }

def answered (f : Stream) (direction : Direction) (offset : Nat) : Written → Stream
  | .accepted => f
  | .limit =>
    { f with loss := f.loss.stop "intake_exhausted" }.set direction
      ((f.way direction).cut offset .observationLost 0 Capture.intakeRefused)
  | .failed =>
    f.set direction ((f.way direction).cut offset .observationLost 0 Capture.intakeRefused)

inductive Measuring (f : Stream) (t : Transfer) (answer : Written) : Stream → Fate → Prop where
  | empty (none_ : t.length = 0) :
      Measuring f t answer
        ((f.numbers t).set t.direction
          (({ (f.numbers t).way t.direction with
              empties := ((f.numbers t).way t.direction).empties + 1 } : Way).resolve
            t.sequence.number (f.next t)))
        .empty
  | stopped (bytes : t.length ≠ 0) (reason : f.loss.reason ≠ "") : Measuring f t answer (f.numbers t) .stopped
  | handed (bytes : t.length ≠ 0) (running : f.loss.reason = "") :
      Measuring f t answer ((f.place t).answered t.direction (f.fragment t).offset answer)
        (.handed (f.fragment t) answer)

theorem measured_measuring (stats : Stats) (answer : Written) :
    Measuring f t answer (Locked.measured ⟨stats, f⟩ t answer).1.stream (Locked.measured ⟨stats, f⟩ t answer).2 := by
  have stream : (Locked.number ⟨stats, f⟩ t).1.stream = f.numbers t := Locked.number_stream
  have next : (Locked.number ⟨stats, f⟩ t).2 = f.next t := by
    rw [Bool.eq_iff_iff, Locked.number_next]
    simp [Stream.next]
  unfold Locked.measured
  generalize Locked.number ⟨stats, f⟩ t = result at stream next
  obtain ⟨l, after⟩ := result
  subst next
  dsimp only at stream ⊢
  by_cases none_ : t.length = 0
  · simp only [none_, if_true, Locked.empty, stream]
    exact .empty none_
  simp only [none_, if_false, stream]
  by_cases running : f.loss.reason = ""
  · have token : (f.numbers t).loss.reason = "" := running
    rw [if_neg (not_not.mpr token)]
    have kept : Measuring f t answer _ _ := .handed none_ running
    have fragment : { l.fragment t with evidence := (l.place t (f.next t)).stream.evidence } =
        f.fragment t := by
      simp only [Stream.fragment, Stream.place, Locked.fragment, Locked.place, stream]
    have place : (l.place t (f.next t)).stream = f.place t := by
      simp only [Stream.place, Locked.place, stream]
    have offset : (l.fragment t).offset = (f.fragment t).offset := by rw [← fragment]
    rw [fragment]
    cases answer with
    | accepted =>
      simpa only [Locked.answered, Stream.answered, place] using kept
    | limit | failed =>
      simpa only [Locked.answered, Stream.answered, Locked.cut_stream, place, offset] using kept
  · have token : (f.numbers t).loss.reason ≠ "" := running
    rw [if_pos token]
    exact .stopped none_ running

end Stream

theorem Session.opening_stream {s : Session} {t : Transfer} : (s.opening t).stream =
    (s.fresh t).ways t.sequence.unlocated (fun each =>
      if (t.sequence.beginUnlocated > 0 ∧ t.sequence.occupancy ≠ 0 ∧ t.sequence.born = false) ∧ each ≠ .unknown then
        ({} : Way).cut 0 .observationLost 0 lostBefore
      else {}) := by
  unfold Session.opening
  dsimp only
  by_cases lost : t.sequence.beginUnlocated > 0 ∧ t.sequence.occupancy ≠ 0 ∧ t.sequence.born = false
  · rw [if_pos lost]
    simp only [Locked.cut_stream, Stream.set_eq, Stream.ways]
    congr 1
    funext each
    cases each <;> simp [lost, Session.fresh]
  · rw [if_neg lost]
    simp only [lost, false_and, if_false]
    rfl

end EdgeObserver.Capture
