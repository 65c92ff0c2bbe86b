import EdgeObserver.Http1.Tally
import EdgeObserver.Reconstruct.Opening

/-!
# Messages are handed over in order

The messages a pairing hands over of one half lie in its direction one after
another, whatever calls it is given and whatever its account answers.
-/

set_option autoImplicit false

namespace EdgeObserver.Reconstruct

open Library Http1 EdgeObserver.Stream Fragment

/-!
## What reading leaves alone

Inside a call the halves take messages, wait and stop. None of that moves what the
side was read off, and each change to a half is one of a few.
-/

def Desk.fixed {Shape : Type} (d : Desk Shape) : Desk Shape :=
  { d with directions := fun _ => {}, sides := fun _ => {}, methods := [], limit := none, why := .needInput }

def Side.stop (s : Side) : Side := if s.stopped then s else { s with stopped := true, waiting := false }

def Side.trim (s : Side) (base i : Nat) : Side :=
  let s := { s with done := s.done.take (i - base + 1) }
  if base + s.done.length > i then s.stop else s

namespace Side

@[simp] theorem stop_done (s : Side) : s.stop.done = s.done := by
  unfold stop
  split <;> rfl

@[simp] theorem stop_reads (s : Side) : s.stop.parser = s.parser := by
  unfold stop
  split <;> rfl

@[simp] theorem stop_stopped (s : Side) : s.stop.stopped = true := by
  unfold stop
  split
  · assumption
  · rfl

@[simp] theorem trim_done (s : Side) (base i : Nat) : (s.trim base i).done = s.done.take (i - base + 1) := by
  unfold trim
  dsimp only
  split
  · exact stop_done _
  · rfl

@[simp] theorem trim_reads (s : Side) (base i : Nat) : (s.trim base i).parser = s.parser := by
  unfold trim
  dsimp only
  split
  · exact stop_reads _
  · rfl

theorem trim_stopped (s : Side) (base i : Nat) :
    (s.trim base i).stopped = true ↔ s.stopped = true ∨ i < base + (s.done.take (i - base + 1)).length := by
  unfold trim
  dsimp only
  split
  · rename_i past
    simp only [stop_stopped, true_iff]
    exact .inr past
  · rename_i within
    constructor
    · exact .inl
    · rintro (stopped | past)
      · exact stopped
      · exact absurd past within

end Side

namespace Pairing

variable {Shape : Type} (p : Pairing Shape)

/-! ## Stopping -/

theorem stopSide_fixed (h : Half) : (p.stopSide h).fixed = p.fixed := by
  unfold stopSide
  dsimp only
  split
  · rfl
  · simp [Desk.fixed, setHeld, setDirection, setSide]

theorem stopSide_sides (h : Half) : (p.stopSide h).sides = Function.update p.sides h (p.sides h).stop := by
  unfold stopSide Side.stop
  dsimp only
  split
  · exact (Function.update_eq_self h p.sides).symm
  · simp [setHeld, setDirection, setSide]

theorem trim_fixed (i : Nat) (h : Half) : (p.trim i h).fixed = p.fixed := by
  unfold trim
  dsimp only
  split
  · rw [stopSide_fixed]
    simp [Desk.fixed, setSide]
  · simp [Desk.fixed, setSide]

theorem trim_sides (i : Nat) (h : Half) :
    (p.trim i h).sides = Function.update p.sides h ((p.sides h).trim p.base i) := by
  unfold trim Side.trim
  simp only [setSide, releaseAll_toDesk, Function.update_self, gt_iff_lt]
  split
  · rw [stopSide_sides]
    simp
  · rfl

theorem setLimit_fixed (i : Nat) (why : Result) (h : Half) : (p.setLimit i why h).fixed = p.fixed := by
  unfold setLimit
  split
  · rfl
  · have trimmed := (trim_fixed _ i .responses).trans (trim_fixed { p with limit := some i, why } i .requests)
    dsimp only
    generalize ({ p with limit := some i, why }.trim i .requests).trim i .responses = q at trimmed ⊢
    exact trimmed

theorem setLimit_sides (i : Nat) (why : Result) (h : Half) : (p.setLimit i why h).sides = p.sides ∨
    (p.setLimit i why h).sides = fun other => (p.sides other).trim p.base i := by
  unfold setLimit
  split
  · exact .inl rfl
  · have base := congrArg Desk.base (trim_fixed { p with limit := some i, why } i .requests)
    have base : ({ p with limit := some i, why }.trim i .requests).base = p.base := base
    right
    dsimp only
    funext other
    rw [trim_sides, trim_sides, base]
    cases other <;> simp

/-! ## Letting go -/

theorem discard_fixed (h : Half) : (p.discard h).fixed = p.fixed := by
  unfold discard
  dsimp only
  rw [stopSide_fixed]
  simp [Desk.fixed, setSide]

theorem discard_sides (h : Half) :
    (p.discard h).sides = Function.update p.sides h { p.sides h with done := [] }.stop := by
  unfold discard
  dsimp only
  rw [stopSide_sides]
  simp [setSide]

theorem dropHeld_fixed (d : Direction) : (p.dropHeld d).fixed = p.fixed := by
  simp [dropHeld, setHeld, setDirection, Desk.fixed]

theorem dropHeld_sides (d : Direction) : (p.dropHeld d).sides = p.sides := by
  simp [dropHeld, setHeld, setDirection]

structure LetGo (p q : Pairing Shape) : Prop where
  fixed : q.fixed = ({ p with unread := true, decided := true, role := .unknown } : Pairing Shape).fixed
  parser : ∀ h, (q.sides h).parser = (p.sides h).parser
  sides : p.routed = true → ∀ h, (q.sides h).stopped = true ∧ (q.sides h).done = []
  unrouted : p.routed = false → q.sides = p.sides

theorem markUnread_letGo : LetGo p p.markUnread := by
  unfold markUnread
  dsimp only
  -- The halves, where there are any, and then what is held of each direction.
  have halves : LetGo p (if p.routed then { (({ p with unread := true, decided := true, role := .unknown } :
        Pairing Shape).discard .requests).discard .responses with methods := [] }
      else { p with unread := true, decided := true, role := .unknown }) := by
    split
    · rename_i routed
      refine ⟨(discard_fixed _ .responses).trans (discard_fixed _ .requests), fun h => ?_, fun _ h => ?_, ?_⟩
      · dsimp only
        rw [discard_sides, discard_sides]
        cases h <;> simp
      · dsimp only
        rw [discard_sides, discard_sides]
        cases h <;> simp
      · simp [routed]
    · rename_i unrouted
      exact ⟨rfl, fun _ => rfl, fun routed => absurd routed unrouted, fun _ => rfl⟩
  generalize (if p.routed then _ else _ : Pairing Shape) = q at halves ⊢
  have sides : (((q.dropHeld .unknown).dropHeld .sent).dropHeld .received).sides = q.sides := by
    rw [dropHeld_sides, dropHeld_sides, dropHeld_sides]
  refine ⟨?_, sides ▸ halves.parser, sides ▸ halves.sides, sides ▸ halves.unrouted⟩
  rw [dropHeld_fixed, dropHeld_fixed, dropHeld_fixed, halves.fixed]

theorem popSide_eq (h : Half) :
    p.popSide h = ((p.setSide h { p.sides h with done := (p.sides h).done.tail }).setDirection (p.sides h).direction
      { p.directions (p.sides h).direction with
        settled := ((p.sides h).done.head?.map (·.message.endsAt)).getD
          (p.directions (p.sides h).direction).settled }, (p.sides h).done.head?) := by
  unfold popSide
  dsimp only
  split
  · rename_i none
    have side : { p.sides h with done := ([] : List Finished) } = p.sides h := by rw [← none]
    simp [none, setSide, setDirection, side]
  · rename_i f rest found
    simp [found, setSide, setDirection]

end Pairing

/-! ## Halves in order -/

/-- A half whose finished messages lie end to end from no earlier than `low`, up
to where its parser is settled while the half goes on. -/
structure Side.Lined (low : Nat) (s : Side) : Prop where
  sound : s.parser.Sound
  tally : s.parser.Tally
  spent : s.parser.ended = true → s.parser.charge = 0
  fresh : s.parser.started = false → s.parser.phase = .betweenMessages ∧ s.done = [] ∧ low = 0
  past : s.parser.ended = true → s.parser.phase = .betweenMessages
  tiles : ∃ first after, low ≤ first ∧ Tiles first (s.done.map Finished.message) after ∧
    (s.stopped = false → s.parser.started = true → after = s.parser.settled)

theorem Tiles.take {start after : Nat} {messages : List Http1.Message} (tiles : Tiles start messages after)
    (n : Nat) : ∃ after, Tiles start (messages.take n) after := by
  induction messages generalizing start n with
  | nil => exact ⟨start, by simp [Tiles]⟩
  | cons m rest ih =>
    cases n with
    | zero => exact ⟨start, rfl⟩
    | succ n =>
      obtain ⟨offset, extent, later⟩ := tiles
      obtain ⟨after, kept⟩ := ih later n
      exact ⟨after, offset, extent, kept⟩

namespace Side.Lined

variable {low : Nat} {s t : Side}

/-- A side that keeps its parser and the first of its messages; it stops where it drops one. -/
theorem shorten (lined : s.Lined low) (parser : t.parser = s.parser) (n : Nat) (done : t.done = s.done.take n)
    (goes : t.stopped = false → t.done = s.done ∧ s.stopped = false) : t.Lined low := by
  obtain ⟨first, after, late, tiles, settled⟩ := lined.tiles
  refine ⟨parser ▸ lined.sound, parser ▸ lined.tally, parser ▸ lined.spent, ?_, parser ▸ lined.past, ?_⟩
  · rw [parser, done]
    intro unstarted
    obtain ⟨between, none, zero⟩ := lined.fresh unstarted
    exact ⟨between, by simp [none], zero⟩
  cases stopped : t.stopped with
  | true =>
    obtain ⟨after, kept⟩ := Tiles.take tiles n
    refine ⟨first, after, late, ?_, by simp⟩
    rw [done, List.map_take]
    exact kept
  | false =>
    obtain ⟨same, going⟩ := goes stopped
    refine ⟨first, after, late, same ▸ tiles, fun _ started => ?_⟩
    rw [parser] at started ⊢
    exact settled going started

theorem congr (lined : s.Lined low) (parser : t.parser = s.parser) (done : t.done = s.done)
    (stopped : s.stopped = true → t.stopped = true) : t.Lined low := by
  refine lined.shorten parser s.done.length (by rw [done, List.take_length]) fun goes => ⟨done, ?_⟩
  by_contra was
  simp [stopped (by simpa using was)] at goes

theorem stop (lined : s.Lined low) : s.stop.Lined low :=
  lined.congr (Side.stop_reads s) (Side.stop_done s) fun _ => Side.stop_stopped s

theorem trim (lined : s.Lined low) (base i : Nat) : (s.trim base i).Lined low := by
  have stops := Side.trim_stopped s base i
  refine lined.shorten (Side.trim_reads s base i) (i - base + 1) (Side.trim_done s base i) fun goes => ?_
  rw [goes, List.length_take] at stops
  simp only [Bool.false_eq_true, false_iff, not_or] at stops
  rw [Side.trim_done, List.take_of_length_le (by omega)]
  exact ⟨rfl, by simpa using stops.1⟩

theorem takes (lined : s.Lined low) (goes : s.stopped = false) {parser : Parser} (taken : List Finished) (start : Nat)
    (sound : parser.Sound) (tally : parser.Tally) (spent : parser.ended = true → parser.charge = 0)
    (past : parser.ended = true → parser.phase = .betweenMessages) (begun : parser.started = true)
    (stands : s.parser.started = true → start = s.parser.settled)
    (tiles : Tiles start (taken.map Finished.message) parser.settled) :
    Side.Lined low { s with parser, done := s.done ++ taken } := by
  refine ⟨sound, tally, spent, by simp [begun], past, ?_⟩
  by_cases started : s.parser.started = true
  · obtain ⟨first, after, late, before, settled⟩ := lined.tiles
    have here : after = start := (settled goes started).trans (stands started).symm
    subst here
    refine ⟨first, parser.settled, late, ?_, fun _ _ => rfl⟩
    rw [List.map_append]
    exact before.append tiles
  · obtain ⟨_, none, zero⟩ := lined.fresh (by simpa using started)
    refine ⟨start, parser.settled, by omega, ?_, fun _ _ => rfl⟩
    rw [none, List.nil_append]
    exact tiles

theorem letGo (lined : s.Lined low) (parser : t.parser = s.parser) (done : t.done = [])
    (stopped : t.stopped = true) : t.Lined low := lined.shorten parser 0 (by simp [done]) (by simp [stopped])

end Side.Lined

namespace Pairing

variable {Shape : Type} {low : Half → Nat} {p q : Pairing Shape}

structure Lined (low : Half → Nat) (p : Pairing Shape) : Prop where
  sides : ∀ h, (p.sides h).Lined (low h)
  unrouted : p.routed = false → ∀ h, (p.sides h).parser.started = false

theorem routed_of_fixed (same : q.fixed = p.fixed) : q.routed = p.routed := by
  have routed := congrArg Desk.routed same
  exact routed

theorem Lined.of_sides (lined : p.Lined low) (sides : q.sides = p.sides) (routed : q.routed = p.routed) : q.Lined low :=
  ⟨sides ▸ lined.sides, by rw [sides, routed]; exact lined.unrouted⟩

variable {h : Half}

theorem Lined.replace {s : Side} (lined : p.Lined low) (side : s.Lined (low h))
    (fresh : p.routed = false → s.parser.started = false) : (p.setSide h s).Lined low := by
  refine ⟨fun other => ?_, fun unrouted other => ?_⟩
  all_goals by_cases same : other = h
  · subst same
    simpa [Pairing.setSide] using side
  · simpa [Pairing.setSide, same] using lined.sides other
  · subst same
    simpa [Pairing.setSide] using fresh unrouted
  · simpa [Pairing.setSide, same] using lined.unrouted unrouted other

theorem Lined.setSide {h : Half} {s : Side} (lined : p.Lined low) (routed : p.routed = true)
    (side : s.Lined (low h)) : (p.setSide h s).Lined low :=
  lined.replace side (by simp [routed])

/-- What everything inside a call does to a pairing: its halves stay in line, and
what the side was read off stands. -/
structure Keeps (low : Half → Nat) (p q : Pairing Shape) : Prop where
  fixed : q.fixed = p.fixed
  lined : p.Lined low → q.Lined low

namespace Keeps

theorem refl (p : Pairing Shape) : Keeps low p p := ⟨rfl, id⟩

theorem trans {r : Pairing Shape} (first : Keeps low p q) (second : Keeps low q r) : Keeps low p r :=
  ⟨second.fixed.trans first.fixed, second.lined ∘ first.lined⟩

theorem routed (keeps : Keeps low p q) : q.routed = p.routed := routed_of_fixed keeps.fixed

theorem of_sides (fixed : q.fixed = p.fixed) (sides : q.sides = p.sides) : Keeps low p q :=
  ⟨fixed, fun lined => lined.of_sides sides (routed_of_fixed fixed)⟩

theorem of_each (fixed : q.fixed = p.fixed) (parser : ∀ h, (q.sides h).parser = (p.sides h).parser)
    (sides : ∀ h, (p.sides h).Lined (low h) → (q.sides h).Lined (low h)) : Keeps low p q := by
  refine ⟨fixed, fun lined => ⟨fun h => sides h (lined.sides h), fun unrouted h => ?_⟩⟩
  rw [parser]
  exact lined.unrouted (routed_of_fixed fixed ▸ unrouted) h

theorem setSide {s : Side} (parser : s.parser = (p.sides h).parser) (done : s.done = (p.sides h).done)
    (stopped : (p.sides h).stopped = true → s.stopped = true) : Keeps low p (p.setSide h s) := by
  refine ⟨rfl, fun lined => lined.replace ((lined.sides h).congr parser done stopped) fun unrouted => ?_⟩
  rw [parser]
  exact lined.unrouted unrouted h

end Keeps

theorem stopSide_keeps (p : Pairing Shape) (h : Half) : Keeps low p (p.stopSide h) := by
  refine .of_each (stopSide_fixed p h) (fun other => ?_) fun other side => ?_
  all_goals
    rw [stopSide_sides]
    by_cases same : other = h
  · subst same
    simp
  · simp [same]
  · subst same
    simpa using side.stop
  · simpa [same] using side

theorem setLimit_keeps (p : Pairing Shape) (i : Nat) (why : Result) (h : Half) : Keeps low p (p.setLimit i why h) := by
  rcases setLimit_sides p i why h with same | trimmed
  · exact .of_sides (setLimit_fixed p i why h) same
  · refine .of_each (setLimit_fixed p i why h) (fun other => ?_) fun other side => ?_
    · rw [trimmed, Side.trim_reads]
    · rw [trimmed]
      exact side.trim p.base i

theorem boundary_keeps (p : Pairing Shape) (i : Nat) (m : Http1.Message) (h : Half) :
    Keeps low p (p.boundary i m h) := by
  unfold boundary
  split
  · exact setLimit_keeps p i .unsupported h
  · exact .refl p

theorem finishSide_keeps (p : Pairing Shape) (h : Half) (why : Result) : Keeps low p (p.finishSide h why) :=
  (setLimit_keeps p _ why h).trans (stopSide_keeps _ h)

theorem noteRequest_keeps (p : Pairing Shape) (i : Nat) (message : Http1.Message) :
    Keeps low p (p.noteRequest i message) := by
  have noted : Keeps low p (if (p.sides .requests).headSeen then p
      else { p with methods := p.methods ++ [message.method] }.boundary i message .requests) := by
    split
    · exact .refl p
    · have listed : Keeps low p { p with methods := p.methods ++ [message.method] } := .of_sides rfl rfl
      exact listed.trans (boundary_keeps _ i message .requests)
  exact noted.trans (.setSide rfl rfl id)

theorem closeAt_keeps (p : Pairing Shape) (h : Half) (i : Nat) (result : Result) :
    Keeps low p (p.closeAt h i result) := by
  have limited : Keeps low p (if result.stopped then p.setLimit i result h else p) := by
    split
    · exact setLimit_keeps p i result h
    · exact .refl p
  unfold closeAt
  dsimp only
  generalize (if result.stopped then p.setLimit i result h else p) = q at limited ⊢
  split
  · exact limited.trans (stopSide_keeps q h)
  · exact limited

theorem finish_keeps (p : Pairing Shape) (h : Half) (result : Result) (message : Http1.Message) (charge : Charge) :
    Keeps low (p.setSide h { p.sides h with done := (p.sides h).done ++ [{ message, charge }] })
      (p.finish h result message charge) := by
  cases h with
  | requests => exact (noteRequest_keeps _ _ message).trans (closeAt_keeps _ .requests _ result)
  | responses => exact closeAt_keeps _ .responses _ result

theorem finish_fixed (p : Pairing Shape) (h : Half) (result : Result) (message : Http1.Message) (charge : Charge) :
    (p.finish h result message charge).fixed = p.fixed := by
  have finished : Keeps (fun _ => 0) _ _ := finish_keeps p h result message charge
  exact finished.fixed

theorem settle_fixed (p : Pairing Shape) (h : Half) (r : Reading) : (p.settle h r).fixed = p.fixed := by
  unfold settle
  dsimp only
  split
  · exact finish_fixed _ h _ _ _
  · rfl

theorem setParser_lined {parser : Parser} (lined : p.Lined low) (routed : p.routed = true)
    (side : Side.Lined (low h) { p.sides h with parser }) (reserver : Ledger Charge) :
    (p.setParser h parser reserver).Lined low :=
  (lined.setSide routed side).of_sides rfl rfl

theorem settle_lined {r : Reading} (lined : p.Lined low) (routed : p.routed = true)
    (goes : (p.sides h).stopped = false) (tallies : r.Tallies (p.sides h).parser) (sound : r.parser.Sound)
    (spent : r.parser.ended = true → r.parser.charge = 0)
    (past : r.parser.ended = true → r.parser.phase = .betweenMessages)
    (begun : r.parser.started = true)
    (headless : ∀ progress ∈ r.event, progress.message ≠ none → progress.result ≠ .head) :
    (p.settle h r).Lined low := by
  have silent : (∀ progress ∈ r.event, progress.message = none) →
      (p.setParser h r.parser (p.reserver.releaseAll r.released)).Lined low := by
    intro none
    have kept := tallies.kept fun progress event => .inr (none progress event)
    have side := (lined.sides h).takes goes [] r.parser.settled sound tallies.parser spent past begun (fun _ => kept) rfl
    rw [List.append_nil] at side
    exact setParser_lined lined routed side _
  unfold settle
  dsimp only
  cases event : r.event with
  | none =>
    refine silent ?_
    simp [event]
  | some progress =>
    obtain ⟨consumed, result, message, charge⟩ := progress
    cases message with
    | none =>
      refine silent ?_
      rw [event]
      rintro _ ⟨⟩
      rfl
    | some message =>
      obtain ⟨tallied, offset, settled⟩ := tallies.handed _ event (headless _ event (by simp)) message rfl
      have side := (lined.sides h).takes goes [{ message, charge }] message.offset sound
        tallies.parser spent past begun (fun _ => offset) ⟨rfl, tallied.extent, settled.symm⟩
      refine (finish_keeps _ h result message charge).lined ?_
      refine Lined.of_sides (lined.setSide routed side) ?_ rfl
      simp [setParser, Pairing.setSide]

theorem answer_keeps (p : Pairing Shape) : Keeps low p p.answer := by
  unfold answer
  dsimp only
  split
  · exact .refl p
  rename_i waits
  simp only [not_or, Bool.not_eq_false, Bool.not_eq_true] at waits
  obtain ⟨routed, _, goes⟩ := waits
  have known : Keeps low p (p.setSide .responses { p.sides .responses with waiting := false }) := .setSide rfl rfl id
  split
  · exact .refl p
  rename_i method _
  cases called : (p.sides .responses).parser.answer method with
  | error refusal => exact known
  | ok answered =>
    refine ⟨settle_fixed _ .responses answered, fun lined => ?_⟩
    obtain ⟨sound, tally, _, fresh, _, _⟩ := lined.sides .responses
    obtain ⟨keeps, open?, headless⟩ := Parser.answer_keeps sound called
    obtain ⟨tallies, _⟩ := Parser.answer_tallies tally called
    obtain ⟨awaiting, _⟩ := Parser.answer_eq called
    -- A parser that awaits an answer has a message in progress, so it was begun.
    have begun : (p.sides .responses).parser.started = true := by
      by_contra unstarted
      rw [(fresh (by simpa using unstarted)).1] at awaiting
      cases awaiting
    refine settle_lined (known.lined lined) routed ?_ ?_ keeps.sound.parser (by simp [open?]) (by simp [open?])
      ((Parser.answer_started called).1.trans begun) fun progress event _ => headless progress event
    · simpa [Pairing.setSide] using goes
    · simpa [Pairing.setSide] using tallies

theorem head_keeps (p : Pairing Shape) (h : Half) (m : Http1.Message) : Keeps low p (p.head h m) := by
  unfold head
  dsimp only
  cases h with
  | requests =>
    refine Keeps.trans ?_ (boundary_keeps _ _ m .requests)
    exact .trans (q := { p with methods := p.methods ++ [m.method] }) (.of_sides rfl rfl) (.setSide rfl rfl id)
  | responses =>
    have bounded : Keeps low p _ := boundary_keeps p (p.base + (p.sides .responses).done.length) m .responses
    dsimp only
    generalize p.boundary (p.base + (p.sides .responses).done.length) m .responses = q at bounded ⊢
    refine Keeps.trans ?_ (answer_keeps _)
    exact bounded.trans (.setSide rfl rfl id)

theorem took_fixed (p : Pairing Shape) (h : Half) (progress : Progress) : (p.took h progress).fixed = p.fixed := by
  have head : ∀ m, Keeps (fun _ => 0) p (p.head h m) := head_keeps p h
  unfold took
  split
  · exact (head _).fixed
  · rfl
  any_goals exact finish_fixed p h _ _ _
  rfl

theorem took_lined {progress : Progress}
    (silent : progress.result = .head ∨ progress.message = none → p.Lined low)
    (taken : progress.result ≠ .head → ∀ message ∈ progress.message, ∀ charge,
      (p.setSide h { p.sides h with done := (p.sides h).done ++ [{ message, charge }] }).Lined low)
    (returned : ∀ m, progress.message = some m →
      progress.result = .head ∨ progress.result = .framed ∨ progress.result.stopped = true) :
    (p.took h progress).Lined low := by
  obtain ⟨consumed, result, message, charge⟩ := progress
  cases message with
  | none =>
    have lined := silent (.inr rfl)
    cases result with
    | needRequest => exact lined.replace ((lined.sides h).congr rfl rfl id) fun unrouted => lined.unrouted unrouted h
    | _ => exact lined
  | some m =>
    rcases returned m rfl with rfl | rfl | stopped
    · exact (head_keeps p h m).lined (silent (.inl rfl))
    · exact (finish_keeps p h _ m charge).lined (taken (by simp) m rfl charge)
    · cases result with
      | malformed | limit | unsupported | cut =>
        exact (finish_keeps p h _ m charge).lined (taken (by simp) m rfl charge)
      | _ => cases stopped

structure Advances (advance : Nat → Pairing Shape → Pairing Shape) : Prop where
  sides : ∀ n q, (advance n q).sides = q.sides
  fixed : ∀ n q, (advance n q).fixed = q.fixed

theorem advances_next (d : Direction) : Advances (advanceNext d : Nat → Pairing Shape → Pairing Shape) := ⟨fun _ _ => rfl, fun _ _ => rfl⟩

theorem advances_held (d : Direction) : Advances (advanceHeld d : Nat → Pairing Shape → Pairing Shape) := by
  constructor
  all_goals
    intro n q
    unfold advanceHeld
    split <;> rfl

variable {advance : Nat → Pairing Shape → Pairing Shape}

theorem Advances.keeps (advances : Advances advance) (n : Nat) (p : Pairing Shape) : Keeps low p (advance n p) :=
  .of_sides (advances.fixed n p) (advances.sides n p)

theorem leave_keeps (advances : Advances advance) (h : Half) (p : Pairing Shape) (part : Part) :
    Keeps low p (leave h advance p part).1 := by
  unfold leave
  split
  · exact advances.keeps _ _
  · exact .refl p

theorem fed_lined {part : Part} {fed : Parser.Fed} (lined : p.Lined low) (routed : p.routed = true)
    (goes : (p.sides h).stopped = false) (called : (p.sides h).parser.feed p.reserver part = .ok fed) :
    (fed.progress.result = .head ∨ fed.progress.message = none → (p.setParser h fed.parser fed.ledger).Lined low) ∧
      (fed.progress.result ≠ .head → ∀ message ∈ fed.progress.message, ∀ charge,
        Side.Lined (low h)
          { p.sides h with parser := fed.parser, done := (p.sides h).done ++ [{ message, charge }] }) := by
  have side := lined.sides h
  have tallies := Parser.feed_tallies side.sound side.tally (fun fresh => (side.fresh fresh).1) called
  have sound := (Parser.feed_keeps side.sound called).sound
  have open? : fed.parser.ended = false := by
    rw [tallies.ended, Parser.startedAt_ended]
    exact (Parser.feed_taken called).2.1
  have begun : fed.parser.started = true := by
    rw [tallies.started, Parser.startedAt_started]
  have stands : (p.sides h).parser.started = true →
      ((p.sides h).parser.startedAt part.offset).settled = (p.sides h).parser.settled := by
    intro started
    rw [Parser.startedAt_of_started started]
  constructor
  · intro silent
    have read := side.takes goes [] _ sound tallies.parser (by simp [open?]) (by simp [open?]) begun stands
      (tallies.kept silent).symm
    rw [List.append_nil] at read
    exact setParser_lined lined routed read _
  · intro whole message carried charge
    obtain ⟨tallied, offset, settled⟩ := tallies.handed whole message carried
    exact side.takes goes [{ message, charge }] message.offset sound tallies.parser
      (by simp [open?]) (by simp [open?]) begun (fun started => offset.trans (stands started))
      ⟨rfl, tallied.extent, settled.symm⟩

theorem read_keeps (advances : Advances advance) (h : Half) (fuel : Nat) (part : Part) (routed : p.routed = true) :
    Keeps low p (p.read h advance fuel part).1 := by
  induction fuel generalizing p part with
  | zero => exact leave_keeps advances h p part
  | succ fuel ih =>
    unfold read
    dsimp only
    split
    · rename_i reads
      obtain ⟨_, _, goes⟩ := reads
      cases called : (p.sides h).parser.feed p.reserver part with
      | error refusal => exact (finishSide_keeps p h .malformed).trans (leave_keeps advances h _ part)
      | ok fed =>
        obtain ⟨sides, fixed⟩ : (advance fed.progress.consumed (p.setParser h fed.parser fed.ledger)).sides = _ ∧ _ :=
          ⟨advances.sides _ _, advances.fixed _ _⟩
        have quiet : p.Lined low → fed.progress.result = .head ∨ fed.progress.message = none →
            (advance fed.progress.consumed (p.setParser h fed.parser fed.ledger)).Lined low :=
          fun lined none => (advances.keeps _ _).lined ((fed_lined lined routed goes called).1 none)
        dsimp only
        split
        · rename_i refused
          refine ⟨fixed, fun lined => quiet lined (.inr ?_)⟩
          by_contra carries
          obtain ⟨m, carries⟩ := Option.ne_none_iff_exists'.mp carries
          have := (Parser.feed_came (lined.sides h).sound called).message carries
          simp [refused, Result.stopped] at this
        · generalize advance fed.progress.consumed (p.setParser h fed.parser fed.ledger) = q at sides fixed quiet ⊢
          have took : Keeps low p (q.took h fed.progress) := by
            refine ⟨(took_fixed q h fed.progress).trans fixed, fun lined => took_lined (quiet lined)
              (fun whole message carried charge => ?_) fun _ => (Parser.feed_came (lined.sides h).sound called).message⟩
            refine Lined.of_sides (lined.setSide routed ((fed_lined lined routed goes called).2 whole message carried
              charge)) ?_ (routed_of_fixed fixed)
            simp [Pairing.setSide, sides, setParser]
          exact took.trans (ih _ (took.routed.trans routed))
    · exact leave_keeps advances h p part

/-! ## What is held -/

theorem dropRead_keeps (p : Pairing Shape) (d : Direction) : Keeps low p (p.dropRead d) := by
  unfold dropRead
  split
  · exact .refl p
  · split
    · exact .of_sides (by simp [setHeld, setDirection, Desk.fixed]) (by simp [setHeld, setDirection])
    · exact .refl p

theorem pumpSide_keeps (h : Half) (fuel : Nat) (p : Pairing Shape) (moved : Bool) :
    Keeps low p (pumpSide h fuel p moved).1 := by
  induction fuel generalizing p moved with
  | zero => exact .refl p
  | succ fuel ih =>
    unfold pumpSide
    dsimp only
    split
    · exact .refl p
    rename_i first rest held
    split
    · rename_i reads
      have routed : p.routed = true := by
        have known := reads.1
        simp only [readable, Bool.and_eq_true] at known
        exact known.1.1
      have read : Keeps low p _ := (read_keeps (advances_held (p.sides h).direction) h (first.part.length + 1)
        first.part routed).trans (dropRead_keeps _ (p.sides h).direction)
      split
      · exact read
      · exact read.trans ((answer_keeps _).trans (ih _ _))
    · exact .refl p

theorem pumpLoop_keeps (fuel : Nat) (p : Pairing Shape) : Keeps low p (pumpLoop fuel p).1 := by
  induction fuel generalizing p with
  | zero => exact .refl p
  | succ fuel ih =>
    unfold pumpLoop
    split
    · have answered : Keeps low p p.answer := answer_keeps p
      dsimp only
      generalize p.answer = q at answered ⊢
      have first := answered.trans (pumpSide_keeps .requests (q.heldLength (q.sides .requests).direction + 1) q false)
      generalize pumpSide .requests (q.heldLength (q.sides .requests).direction + 1) q false = out at first ⊢
      split
      · exact first
      have second := first.trans
        (pumpSide_keeps .responses (out.1.heldLength (out.1.sides .responses).direction + 1) out.1 out.2.1)
      generalize pumpSide .responses (out.1.heldLength (out.1.sides .responses).direction + 1) out.1 out.2.1 = last
        at second ⊢
      split
      · exact second
      · split
        · exact second.trans (ih _)
        · exact second
    · exact .refl p

theorem pump_keeps (p : Pairing Shape) : Keeps low p p.pump.1 := pumpLoop_keeps _ p

theorem hold_keeps (p : Pairing Shape) (d : Direction) (part : Part) : Keeps low p (p.hold d part).1 := by
  unfold hold
  dsimp only
  split
  · exact .of_sides rfl rfl
  · split <;> exact .of_sides rfl rfl

/-! ## The side -/

def KeepsSide (p q : Pairing Shape) : Prop := p.decided = true → q.decided = true ∧ q.role = p.role

theorem KeepsSide.trans {r : Pairing Shape} (first : KeepsSide p q) (second : KeepsSide q r) : KeepsSide p r := by
  intro decided
  obtain ⟨still, role⟩ := first decided
  obtain ⟨last, same⟩ := second still
  exact ⟨last, same.trans role⟩

theorem KeepsSide.of_fixed (same : q.fixed = p.fixed) : KeepsSide p q := by
  have decided := congrArg Desk.decided same
  have role := congrArg Desk.role same
  exact fun was => ⟨decided.trans was, role⟩

/-- What a call does to a pairing: its halves stay in line, and a side once decided
stands. -/
structure Stays (low : Half → Nat) (p q : Pairing Shape) : Prop where
  lined : p.Lined low → q.Lined low
  side : KeepsSide p q

theorem Stays.trans {r : Pairing Shape} (first : Stays low p q) (second : Stays low q r) : Stays low p r :=
  ⟨second.lined ∘ first.lined, first.side.trans second.side⟩

theorem Keeps.stays (keeps : Keeps low p q) : Stays low p q := ⟨keeps.lined, .of_fixed keeps.fixed⟩

theorem Stays.of_sides (sides : q.sides = p.sides) (routed : q.routed = p.routed) (decided : q.decided = p.decided)
    (role : q.role = p.role) : Stays low p q :=
  ⟨fun lined => lined.of_sides sides routed, fun was => ⟨decided.trans was, role⟩⟩

theorem newParser_lined (kind : Kind) (limits : Http1.Limits) (direction : Direction) :
    Side.Lined 0 { direction, parser := newParser kind limits } := by
  have tiled := Session.Tiled.start kind limits []
  refine ⟨tiled.books.sound, tiled.tally, by simp [newParser], fun _ => ⟨rfl, rfl, rfl⟩, by simp [newParser], 0, 0,
    Nat.le_refl _, rfl, by simp [newParser]⟩

theorem route_lined (lined : p.Lined low) (unrouted : p.routed = false) (requests : Direction) :
    (p.route requests).Lined low := by
  refine ⟨fun h => ?_, fun not => ?_⟩
  · have zero := ((lined.sides h).fresh (lined.unrouted unrouted h)).2.2
    rw [zero]
    exact newParser_lined _ _ _
  · cases not

theorem markUnread_lined (lined : p.Lined low) : p.markUnread.Lined low := by
  obtain ⟨fixed, parser, sides, unrouted⟩ := markUnread_letGo p
  have same : p.markUnread.routed = p.routed := by
    have routed := congrArg Desk.routed fixed
    exact routed
  cases routed : p.routed with
  | false => exact lined.of_sides (unrouted routed) same
  | true =>
    refine ⟨fun h => ?_, fun unrouted => ?_⟩
    · obtain ⟨stopped, done⟩ := sides routed h
      exact (lined.sides h).letGo (parser h) done stopped
    · rw [same, routed] at unrouted
      cases unrouted

theorem agree_lined (lined : p.Lined low) : p.agree.Lined low := by
  unfold agree
  dsimp only
  split
  · split
    · exact markUnread_lined lined
    · exact lined.of_sides rfl rfl
  · exact lined

theorem decide_lined (lined : p.Lined low) : p.decide.Lined low := by
  unfold Pairing.decide
  dsimp only
  split
  · exact lined
  split
  · exact agree_lined lined
  rename_i unrouted
  have unrouted : p.routed = false := by simpa using unrouted
  split
  · exact markUnread_lined lined
  split
  · exact agree_lined (route_lined lined unrouted .sent)
  split
  · exact agree_lined (route_lined lined unrouted .received)
  split
  · exact markUnread_lined lined
  · exact lined

theorem decide_stays (p : Pairing Shape) : Stays low p p.decide := by
  refine ⟨decide_lined, fun decided => ?_⟩
  unfold Pairing.decide
  rw [if_pos decided]
  exact ⟨decided, rfl⟩

/-! ## The calls -/

theorem start_keeps (p : Pairing Shape) (d : Direction) (offset : Nat) : Keeps low p (p.start d offset) := by
  unfold start
  split
  · exact .refl p
  · exact .of_sides rfl rfl

theorem acceptHeld_stays (p : Pairing Shape) (d : Direction) (part : Part) : Stays low p (p.acceptHeld d part).1 := by
  have held : Keeps low p (p.hold d part).1 := hold_keeps p d part
  unfold acceptHeld
  generalize p.hold d part = out at held ⊢
  obtain ⟨q, kept⟩ := out
  cases kept with
  | false => exact held.stays
  | true =>
    have moved := (held.trans ((advances_next d).keeps part.length q)).stays
    dsimp only
    split
    · exact moved
    · refine Stays.trans ?_ (decide_stays _)
      exact moved.trans (.of_sides rfl rfl rfl rfl)

theorem acceptRead_keeps (routed : p.routed = true) (d : Direction) (h : Half) (part : Part) :
    Keeps low p (p.acceptRead d h part).1 := by
  have read : Keeps low p (p.read h (advanceNext d) (part.length + 1) part).1 :=
    read_keeps (advances_next d) h (part.length + 1) part routed
  unfold acceptRead
  generalize p.read h (advanceNext d) (part.length + 1) part = out at read ⊢
  obtain ⟨q, rest, refused⟩ := out
  dsimp only at read ⊢
  split
  · exact read
  split
  · have held := read.trans (hold_keeps q d rest)
    generalize q.hold d rest = out at held ⊢
    obtain ⟨r, kept⟩ := out
    cases kept with
    | false => exact held
    | true => exact held.trans ((advances_next d).keeps rest.length r)
  · exact read

theorem routed_of_sideOf {d : Direction} (found : p.sideOf d = some h) : p.routed = true := by
  unfold sideOf at found
  split at found
  · cases found
  · rename_i routed
    simpa using routed

theorem accept_stays (p : Pairing Shape) (d : Direction) (part : Part) : Stays low p (p.accept d part).1 := by
  unfold accept
  cases found : p.sideOf d with
  | none => exact acceptHeld_stays p d part
  | some h =>
    dsimp only
    split
    · exact ((advances_next d).keeps part.length p).stays
    split
    · exact acceptHeld_stays p d part
    · exact (acceptRead_keeps (routed_of_sideOf found) d h part).stays

theorem endSide_keeps (p : Pairing Shape) (h : Half) : Keeps low p (p.endSide h) := by
  have past : Keeps low p (p.setSide h { p.sides h with ended := true }) := .setSide rfl rfl id
  unfold endSide
  dsimp only
  split
  · exact .refl p
  split
  · exact past
  rename_i goes
  refine ⟨settle_fixed _ h _, fun lined => ?_⟩
  have goes : (p.sides h).stopped = false := by simpa using goes
  have side := lined.sides h
  obtain ⟨keeps, _, spent⟩ := Parser.finish_keeps side.sound side.spent
  obtain ⟨tallies, _, between⟩ := Parser.finish_tallies side.sound side.tally side.past
  have started := Parser.finish_started (p.sides h).parser
  by_cases begun : (p.sides h).parser.started = true
  · have routed : p.routed = true := by
      by_contra unrouted
      simp [lined.unrouted (by simpa using unrouted) h] at begun
    refine settle_lined (past.lined lined) routed ?_ ?_ keeps.sound.parser (fun _ => spent) (fun _ => between)
      (started.trans begun) ?_
    · simpa [Pairing.setSide] using goes
    · simpa [Pairing.setSide] using tallies
    · intro progress event _
      rw [Parser.finish_result _ progress event]
      simp
  · -- A parser that was never fed ends without a message.
    have unstarted : (p.sides h).parser.started = false := by simpa using begun
    obtain ⟨idle, none, zero⟩ := side.fresh unstarted
    have ended : Side.Lined (low h)
        { p.sides h with ended := true, parser := { (p.sides h).parser with ended := true } } := by
      have sound := keeps.sound.parser
      have tally := tallies.parser
      rw [Parser.finish_between idle] at sound tally spent
      refine ⟨sound, tally, fun _ => spent, fun _ => ⟨idle, none, zero⟩, fun _ => idle, ?_⟩
      obtain ⟨first, after, late, tiles, _⟩ := side.tiles
      exact ⟨first, after, late, tiles, by simp [unstarted]⟩
    rw [Parser.finish_between idle]
    refine Lined.of_sides (lined.replace ended fun _ => unstarted) ?_ rfl
    simp [settle, setParser, Pairing.setSide]

theorem drain_keeps (fuel : Nat) (p : Pairing Shape) : Keeps low p (drain fuel p).1 := by
  induction fuel generalizing p with
  | zero => exact .refl p
  | succ fuel ih =>
    have pumped : Keeps low p p.answer.pump.1 := (answer_keeps p).trans (pump_keeps p.answer)
    unfold drain
    generalize p.answer.pump = out at pumped ⊢
    dsimp only
    split
    · exact pumped
    split
    · exact pumped
    · exact pumped.trans (ih _)

end Pairing

/-! ## What is handed over -/

def Exchange.message {Shape : Type} (e : Exchange Shape) : Half → Option (Message Shape)
  | .requests => e.request
  | .responses => e.response

def Follows {Shape : Type} (low : Nat) (message : Option (Message Shape)) (after : Nat) : Prop :=
  match message with
  | none => after = low
  | some m => low ≤ m.message.offset ∧ m.message.offset ≤ m.message.endsAt ∧ after = m.message.endsAt

def Ordered {Shape : Type} (low : Half → Nat) : List (Exchange Shape) → (Half → Nat) → Prop
  | [], after => after = low
  | e :: rest, after => ∃ next : Half → Nat, (∀ h, Follows (low h) (e.message h) (next h)) ∧ Ordered next rest after

theorem Ordered.append {Shape : Type} {low mid after : Half → Nat} {xs ys : List (Exchange Shape)}
    (first : Ordered low xs mid) (second : Ordered mid ys after) : Ordered low (xs ++ ys) after := by
  induction xs generalizing low with
  | nil =>
    cases first
    exact second
  | cons x rest ih =>
    obtain ⟨next, follows, more⟩ := first
    exact ⟨next, follows, ih more⟩

@[simp] theorem read_message {Shape : Type} (json : Bytes → Except String Shape) (m : Http1.Message) :
    (Reconstruct.read json m).message = m := by
  unfold Reconstruct.read
  iterate 4
    split
    · rfl
  split <;> rfl

theorem Side.Lined.pop {Shape : Type} {low : Nat} {s : Side} (lined : s.Lined low) (json : Bytes → Except String Shape) :
    ∃ after, Follows low (s.done.head?.map fun f => Reconstruct.read json f.message) after ∧
      Side.Lined after { s with done := s.done.tail } := by
  cases done : s.done with
  | nil => exact ⟨low, rfl, lined.congr rfl done.symm id⟩
  | cons f rest =>
    obtain ⟨first, after, late, tiles, settled⟩ := lined.tiles
    rw [done] at tiles
    obtain ⟨offset, extent, later⟩ := tiles
    refine ⟨f.message.endsAt, ⟨?_, ?_, ?_⟩, lined.sound, lined.tally, lined.spent, ?_, lined.past, f.message.endsAt,
      after, Nat.le_refl _, later, settled⟩
    · rw [read_message, offset]
      exact late
    · rw [read_message]
      exact extent
    · rw [read_message]
    · intro unstarted
      have none := (lined.fresh unstarted).2.1
      rw [done] at none
      cases none

namespace Pairing

variable {Shape : Type} {low : Half → Nat} {p : Pairing Shape}

theorem pop_eq (p : Pairing Shape) : (∀ h, p.pop.1.sides h = { p.sides h with done := (p.sides h).done.tail }) ∧
    (∀ h, p.pop.2.message h = (p.sides h).done.head?.map fun f => Reconstruct.read p.limits.json f.message) ∧
    { p.pop.1.fixed with base := 0 } = { p.fixed with base := 0 } := by
  unfold pop
  rw [popSide_eq]
  dsimp only
  rw [popSide_eq]
  refine ⟨fun h => ?_, fun h => ?_, rfl⟩
  · cases h <;> simp [setSide, setDirection]
  · cases h <;> simp [Exchange.message, setSide, setDirection]

theorem pop_keepsSide (p : Pairing Shape) : KeepsSide p p.pop.1 := by
  have decided := congrArg Desk.decided (pop_eq p).2.2
  have role := congrArg Desk.role (pop_eq p).2.2
  exact fun was => ⟨decided.trans was, role⟩

theorem pop_lined (lined : p.Lined low) :
    ∃ after, (∀ h, Follows (low h) (p.pop.2.message h) (after h)) ∧ p.pop.1.Lined after := by
  obtain ⟨sides, messages, same⟩ := pop_eq p
  have routed : p.pop.1.routed = p.routed := by
    have routed := congrArg Desk.routed same
    exact routed
  choose after follows popped using fun h => (lined.sides h).pop p.limits.json
  refine ⟨after, fun h => messages h ▸ follows h, fun h => sides h ▸ popped h, fun unrouted h => ?_⟩
  rw [sides]
  exact lined.unrouted (routed ▸ unrouted) h

theorem stopAll_stays (p : Pairing Shape) : Stays low p p.stopAll :=
  .trans (q := { p with stop := p.why }) (.of_sides rfl rfl rfl rfl)
    ((stopSide_keeps _ .requests).trans (stopSide_keeps _ .responses)).stays

structure HandsOver (low : Half → Nat) (p : Pairing Shape) (exchanges : List (Exchange Shape))
    (q : Pairing Shape) : Prop where
  ordered : ∃ after, Ordered low exchanges after ∧ q.Lined after
  side : KeepsSide p q

variable {exchanges : List (Exchange Shape)} {q : Pairing Shape}

theorem HandsOver.nothing (stays : Stays low p q) (lined : p.Lined low) : HandsOver low p [] q :=
  ⟨⟨low, rfl, stays.lined lined⟩, stays.side⟩

theorem HandsOver.after {r : Pairing Shape} (side : KeepsSide p q)
    (hands : HandsOver low q exchanges r) : HandsOver low p exchanges r := ⟨hands.ordered, side.trans hands.side⟩

theorem HandsOver.cons (lined : p.Lined low)
    (rest : ∀ after, p.pop.1.Lined after → HandsOver after p.pop.1 exchanges q) :
    HandsOver low p (p.pop.2 :: exchanges) q := by
  obtain ⟨next, follows, popped⟩ := pop_lined lined
  obtain ⟨⟨after, ordered, last⟩, side⟩ := rest next popped
  exact ⟨⟨after, ⟨next, follows, ordered⟩, last⟩, (pop_keepsSide p).trans side⟩

theorem handOverLoop_handsOver (fuel : Nat) (lined : p.Lined low) :
    HandsOver low p (handOverLoop fuel p).2 (handOverLoop fuel p).1 := by
  induction fuel generalizing p low with
  | zero => exact .nothing (Keeps.refl p).stays lined
  | succ fuel ih =>
    unfold handOverLoop
    dsimp only
    split
    · split
      · exact .cons lined fun after popped => .nothing (stopAll_stays _) popped
      · exact .nothing (Keeps.refl p).stays lined
    split
    · exact .nothing (Keeps.refl p).stays lined
    · exact .cons lined fun after popped => ih popped

theorem handOverRest_handsOver (fuel : Nat) (lined : p.Lined low) :
    HandsOver low p (handOverRest fuel p).2 (handOverRest fuel p).1 := by
  induction fuel generalizing p low with
  | zero => exact .nothing (Keeps.refl p).stays lined
  | succ fuel ih =>
    unfold handOverRest
    dsimp only
    split
    · refine .cons lined fun after popped => ?_
      split
      · have stays : Stays after _ _ := stopAll_stays p.pop.1
        exact (ih (stays.lined popped)).after stays.side
      · exact ih popped
    · exact .nothing (Keeps.refl p).stays lined

theorem handOver_handsOver (lined : p.Lined low) : HandsOver low p p.handOver.2 p.handOver.1 := by
  unfold handOver
  split
  · exact .nothing (Keeps.refl p).stays lined
  · exact handOverLoop_handsOver ((p.sides .requests).done.length + 1) lined

theorem feed_handsOver {d : Direction} {part : Part} {step : Step Shape} (lined : p.Lined low)
    (fed : p.feed d part = .ok (q, step)) : HandsOver low p step.exchanges q := by
  unfold feed at fed
  split at fed
  · cases fed
  have begun : Stays low p (p.start d part.offset) := (start_keeps p d part.offset).stays
  dsimp only at fed
  generalize p.start d part.offset = r at begun fed
  split at fed
  · cases fed
    exact .nothing (begun.trans ((advances_next d).keeps part.length r).stays) lined
  -- What was held is read, then the part, then whatever it unblocked.
  have first := begun.trans (pump_keeps r).stays
  generalize r.pump = out at first fed
  split at fed
  · cases fed
    exact .nothing first lined
  have taken := first.trans (accept_stays out.1 d part)
  generalize out.1.accept d part = took at taken fed
  split at fed
  · cases fed
    exact .nothing taken lined
  have last := taken.trans (pump_keeps took.1).stays
  generalize took.1.pump = out at last fed
  split at fed
  · cases fed
    exact .nothing last lined
  cases fed
  exact (handOver_handsOver (last.lined lined)).after last.side

theorem finishInput_handsOver (lined : p.Lined low) :
    HandsOver low p p.finishInput.2.exchanges p.finishInput.1 := by
  unfold finishInput
  split
  · exact .nothing (Keeps.refl p).stays lined
  dsimp only
  split
  · exact .nothing (.of_sides rfl rfl rfl rfl) lined
  -- Both directions are closed, so the side is decided before anything is read.
  have closed : Stays low p
      ((({ p with ending := true } : Pairing Shape).closeBeginning .sent).closeBeginning .received).decide := by
    refine Stays.trans ?_ (decide_stays _)
    exact .of_sides rfl rfl rfl rfl
  generalize ((({ p with ending := true } : Pairing Shape).closeBeginning .sent).closeBeginning .received).decide = r
    at closed ⊢
  split
  · exact .nothing (closed.trans (.of_sides rfl rfl rfl rfl)) lined
  have pumped := closed.trans (pump_keeps r).stays
  generalize r.pump = out at pumped ⊢
  split
  · exact .nothing pumped lined
  have drained := pumped.trans ((endSide_keeps out.1 .requests).trans (drain_keeps
    ((out.1.endSide .requests).heldLength .sent + (out.1.endSide .requests).heldLength .received + 2) _)).stays
  generalize (out.1.endSide .requests).drain ((out.1.endSide .requests).heldLength .sent +
    (out.1.endSide .requests).heldLength .received + 2) = last at drained ⊢
  split
  · exact .nothing drained lined
  have closing := drained.trans (endSide_keeps last.1 .responses).stays
  generalize last.1.endSide .responses = s at closing ⊢
  obtain ⟨⟨after, ordered, rest⟩, same⟩ :=
    handOverRest_handsOver ((s.sides .requests).done.length + (s.sides .responses).done.length) (closing.lined lined)
  generalize s.handOverRest ((s.sides .requests).done.length + (s.sides .responses).done.length) = out
    at ordered rest same ⊢
  exact ⟨⟨after, ordered, rest.of_sides rfl rfl⟩, closing.side.trans (same.trans fun was => ⟨was, rfl⟩)⟩

theorem newPairing_lined (limits : Limits Shape) (reserver : Ledger Charge) :
    (newPairing limits reserver).Lined fun _ => 0 :=
  ⟨fun _ => newParser_lined _ _ _, fun _ _ => rfl⟩

def take (done : Pairing Shape × List (Exchange Shape)) (given : Direction × Part) :
    Pairing Shape × List (Exchange Shape) :=
  match done.1.feed given.1 given.2 with
  | .error _ => done
  | .ok (p, step) => (p, done.2 ++ step.exchanges)

def InOrder (done : Pairing Shape × List (Exchange Shape)) : Prop :=
  ∃ low, Ordered (fun _ => 0) done.2 low ∧ done.1.Lined low

theorem InOrder.take {done : Pairing Shape × List (Exchange Shape)} (before : InOrder done)
    (given : Direction × Part) : InOrder (take done given) := by
  obtain ⟨low, ordered, lined⟩ := before
  unfold Pairing.take
  split
  · exact ⟨low, ordered, lined⟩
  · next fed =>
    obtain ⟨after, more, lined⟩ := (feed_handsOver lined fed).ordered
    exact ⟨after, ordered.append more, lined⟩

/-- However the parts of the two directions interleave, and whatever the account
answers, the messages of each half lie one after another in all that is handed over,
at the end included. -/
theorem exchanges_ordered (limits : Limits Shape) (reserver : Ledger Charge) (given : List (Direction × Part)) :
    let done := given.foldl take (newPairing limits reserver, [])
    ∃ after, Ordered (fun _ => 0) (done.2 ++ done.1.finishInput.2.exchanges) after := by
  have start : InOrder (newPairing limits reserver, []) := ⟨_, rfl, newPairing_lined limits reserver⟩
  obtain ⟨low, ordered, lined⟩ := List.foldlRecOn given take start fun _ before part _ => before.take part
  obtain ⟨after, more, -⟩ := (finishInput_handsOver lined).ordered
  exact ⟨after, ordered.append more⟩

end Pairing

end EdgeObserver.Reconstruct
