import EdgeObserver.Processing.Chain
import EdgeObserver.Processing.Placed

/-!
# What an excluded exchange is told

Along its chain an excluded exchange is given its reason once: why it was excluded
alone, or what its connection line records. Which pipelines can write it does not
depend on the exchange.
-/

set_option autoImplicit false

namespace EdgeObserver.Processing

open Fragment

variable {Shape Raw : Type} {w : Worker Shape}

/-! ## What a truncation says -/

theorem keptOut_cases (source : Reconstruct.Exchange Shape) (role : Reconstruct.Role) :
    keptOut source role = .sent ∨ keptOut source role = .received := by
  unfold keptOut
  by_cases served : role = .server
  all_goals
    simp only [served, if_true, if_false]
    split <;> simp

variable {b : Batch Shape} {d : Direction} {omitted : PrefixCut} {stop : TruncationStop}

theorem Batch.stopIn_omitted {stop : Option PrefixCut} (released : Nat)
    (later : ∀ cut, stop = some cut → omitted.offset < cut.offset) : stopIn stop (some omitted) released = omitted := by
  unfold stopIn
  cases stop with
  | none => rfl
  | some cut =>
    have below := later cut rfl
    simp only [Option.getD_some, reduceCtorEq, false_or]
    rw [if_neg (Nat.not_le.mpr below)]

theorem Batch.stopOf_direction
    (is : b.stopOf d = some stop) : stop.direction = d := by
  unfold stopOf at is
  split at is
  · cases is
  · cases is
    rfl

theorem Batch.truncation_find (is : b.stopOf d = some stop)
    (either : d = .sent ∨ d = .received) : b.truncation.find? (·.direction = d) = some stop := by
  unfold truncation
  rcases either with rfl | rfl
  · rw [List.filterMap_cons_some is]
    simp [stopOf_direction is]
  rw [List.filterMap_cons]
  cases other : b.stopOf .sent with
  | none => simp [is, stopOf_direction is]
  | some first => simp [is, stopOf_direction is, stopOf_direction other]

theorem exclusionReason_truncation {source : Reconstruct.Exchange Shape} {role : Reconstruct.Role} (is : b.omitted (keptOut source role) = some omitted)
    (read : omitted.offset < (b.place (keptOut source role)).fed) (ok : ∀ d, (b.place d).Ok)
    (below : b.released (keptOut source role) ≤ omitted.offset) :
    exclusionReason source role b.truncation = omitted.reason := by
  have stopped : b.stopOf (keptOut source role) = some
      { direction := keptOut source role, offset := b.released (keptOut source role), reason := omitted.reason,
        evidenceOffset := omitted.offset } := by
    unfold Batch.stopOf
    rw [if_neg (by omega), is, Batch.stopIn_omitted _ fun cut later => Nat.lt_of_lt_of_le read ((ok _).stop cut later)]
  unfold exclusionReason
  rw [Batch.truncation_find stopped (keptOut_cases source role)]

/-! ## What was told -/

def Reason.ofContent : Reason → Bool
  | .contentCodingUnsupported | .contentDecodingFailed | .contentDecodedTooLarge | .contentDecodingTooCostly => true
  | _ => false

namespace Batch

/-- A reason given an exchange for good: the exchange that stopped its connection
lies below what was read, or the connection ended with it. -/
def Decided (b : Batch Shape) (source : Reconstruct.Exchange Shape) (role : Reconstruct.Role) (reason : Reason) :
    Prop :=
  (∃ omitted, b.omitted (keptOut source role) = some omitted ∧ omitted.reason = reason ∧
    omitted.offset < (b.place (keptOut source role)).fed) ∨
  (b.ended = true ∧ exclusionReason source role b.truncation = reason)

def Halted (b : Batch Shape) : Prop := ∃ p, b.parse = some p ∧ p.excluded = true

def Told (b : Batch Shape) (d : Dispatch Shape) : Prop :=
  d.excluded = true → (∃ reason, d.reason = some reason ∧ reason.ofContent = true) ∨
    (b.Halted ∧ ∀ reason, d.reason = some reason → b.Decided d.source d.role reason)

structure Given (Shape : Type) where
  source : Reconstruct.Exchange Shape
  role : Reconstruct.Role
  reason : Reason

def AllTold (given : List (Given Shape)) (b : Batch Shape) : Prop :=
  b.cut = false → b.lost = false →
    (∀ g ∈ given, b.Halted ∧ b.Decided g.source g.role g.reason) ∧ (∀ d ∈ b.chain, b.Told d) ∧
    ∀ d ∈ b.sent, b.Told d ∧ (d.excluded = true → d.reason ≠ none)

structure Later (b c : Batch Shape) : Prop where
  cut : c.cut = false → b.cut = false
  lost : c.lost = false → b.lost = false
  halted : b.Halted → c.Halted
  decided : ∀ source role reason, b.Decided source role reason → c.Decided source role reason

theorem Later.told {b c : Batch Shape} {d : Dispatch Shape} (later : Later b c) (told : b.Told d) : c.Told d := by
  intro excluded
  rcases told excluded with alone | ⟨halted, decided⟩
  · exact .inl alone
  · exact .inr ⟨later.halted halted, fun reason is => later.decided _ _ _ (decided reason is)⟩

theorem AllTold.chained {given : List (Given Shape)} {b c : Batch Shape} (told : AllTold given b) (later : Later b c)
    (sent : c.sent = b.sent)
    (chain : b.cut = false → b.lost = false → (∀ d ∈ b.chain, b.Told d) → ∀ d ∈ c.chain, b.Told d) :
    AllTold given c := by
  intro cut lost
  have cut := later.cut cut
  have lost := later.lost lost
  obtain ⟨all, chained, submitted⟩ := told cut lost
  refine ⟨fun g member => ?_, fun d member => ?_, fun d member => ?_⟩
  · exact ⟨later.halted (all g member).1, later.decided _ _ _ (all g member).2⟩
  · exact later.told (chain cut lost chained d member)
  · exact ⟨later.told (submitted d (sent ▸ member)).1, (submitted d (sent ▸ member)).2⟩

theorem AllTold.later {given : List (Given Shape)} {b c : Batch Shape} (told : AllTold given b) (later : Later b c)
    (chain : c.chain = b.chain) (sent : c.sent = b.sent) : AllTold given c :=
  told.chained later sent fun _ _ chained => chain ▸ chained

variable {b c : Batch Shape} {given : List (Given Shape)}

theorem Later.of_same (input : c.toInput = b.toInput) (parse : c.parse = b.parse)
    (ended : c.ended = b.ended) : Later b c := by
  have decided : ∀ source role reason, b.Decided source role reason → c.Decided source role reason := by
    intro source role reason is
    unfold Decided truncation stopOf omitted released at *
    rwa [input, parse, ended]
  exact ⟨fun is => by rwa [input] at is, fun is => by rwa [input] at is, fun is => by rwa [Halted, parse], decided⟩

/-! ## Along the chain -/

def Alike (d e : Dispatch Shape) : Prop :=
  e.source = d.source ∧ e.role = d.role ∧ e.excluded = d.excluded ∧ e.reason = d.reason

theorem Told.alike {b : Batch Shape} {d e : Dispatch Shape} (told : b.Told d) (alike : Alike d e) : b.Told e := by
  obtain ⟨source, role, excluded, reason⟩ := alike
  unfold Told
  rwa [source, role, excluded, reason]

theorem edited_alike {d e : Dispatch Shape} (edited : Edited d e) : Alike d e := by
  obtain ⟨_, _, _, _, _, rfl⟩ := edited
  exact ⟨rfl, rfl, rfl, rfl⟩

theorem resolve_alike (read : Field → Raw → Except Failure Replacement) (d : Dispatch Shape) (said : Answer Raw)
    (room : List Bool) : Alike d (w.resolve read d said room).1 := by
  cases said with
  | unchanged | failed reason => exact ⟨rfl, rfl, rfl, rfl⟩
  | changed changes =>
    have resolves := resolve_resolves w read d changes room
    generalize w.resolve read d (.changed changes) room = out at resolves ⊢
    cases resolves with
    | failed => exact ⟨rfl, rfl, rfl, rfl⟩
    | @changed replacements =>
      have after := edited_alike (rechains_edited w d.k replacements d)
      exact after

theorem settled_decided {source : Reconstruct.Exchange Shape} {role : Reconstruct.Role}
    {reason : Reason} (is : b.settled source role = some reason) : b.Decided source role reason := by
  unfold settled at is
  cases found : b.omitted (keptOut source role) with
  | none => simp [found] at is
  | some omitted =>
    simp only [found] at is
    split at is
    · cases is
    · rename_i read
      simp only [not_or, ge_iff_le, Nat.not_le] at read
      exact .inl ⟨omitted, found, Option.some.inj is, read.2⟩

structure Same (b c : Batch Shape) : Prop where
  input : c.toInput = b.toInput
  parse : c.parse = b.parse
  ended : c.ended = b.ended
  unsettled : c.unsettled = b.unsettled

theorem Same.refl (b : Batch Shape) : Same b b := ⟨rfl, rfl, rfl, rfl⟩

theorem Same.trans {b c e : Batch Shape} (first : Same b c) (second : Same c e) : Same b e :=
  ⟨second.input.trans first.input, second.parse.trans first.parse, second.ended.trans first.ended,
    second.unsettled.trans first.unsettled⟩

theorem Same.later (same : Same b c) : Later b c := .of_same same.input same.parse same.ended

theorem Same.closing {b c : Batch Shape} (same : Same b c) : c.closing w = b.closing w := by
  unfold Batch.closing Batch.truncation Batch.stopOf Batch.discarded Batch.omitted Batch.released
  rw [same.input, same.parse, same.unsettled]

theorem step_spec (fuel : Nat) (d : Dispatch Shape) (b : Batch Shape) :
    Same b (step w fuel d b).2.2 ∧ (step w fuel d b).2.2.line = b.line ∧ Alike d (step w fuel d b).2.1 ∧
      ∀ e ∈ (step w fuel d b).2.2.sent, e ∈ b.sent ∨ Alike d e := by
  induction fuel generalizing d b with
  | zero => exact ⟨⟨rfl, rfl, rfl, rfl⟩, rfl, ⟨rfl, rfl, rfl, rfl⟩, fun _ => .inl⟩
  | succ fuel ih =>
    unfold step
    split
    · have submitted : ∀ e ∈ b.sent ++ [d], e ∈ b.sent ∨ Alike d e := by
        intro e member
        rcases List.mem_append.mp member with before | now
        · exact .inl before
        · exact .inr (List.mem_singleton.mp now ▸ ⟨rfl, rfl, rfl, rfl⟩)
      simp only
      split
      · exact ⟨⟨rfl, rfl, rfl, rfl⟩, rfl, ⟨rfl, rfl, rfl, rfl⟩, submitted⟩
      obtain ⟨same, line, alike, sent⟩ := ih { d with outcomes := d.outcomes ++ [.failed (.said _)], k := d.k + 1 }
        { b with sent := b.sent ++ [d], outside := { b.outside with submits := b.outside.submits.tail } }
      refine ⟨{ same with }, line, alike, fun e member => ?_⟩
      rcases sent e member with before | now
      · exact submitted e before
      · exact .inr now
    · exact ⟨⟨rfl, rfl, rfl, rfl⟩, rfl, ⟨rfl, rfl, rfl, rfl⟩, fun _ => .inl⟩

theorem told_settled {d : Dispatch Shape} (told : b.Told d) :
    b.Told { d with
      reason := if d.excluded && d.reason.isNone then b.settled d.source d.role else d.reason } := by
  intro excluded
  have excluded : d.excluded = true := excluded
  simp only [excluded, Bool.true_and]
  rcases told excluded with ⟨reason, is, alone⟩ | ⟨halted, decided⟩
  · exact .inl ⟨reason, by simp [is], alone⟩
  refine .inr ⟨halted, fun reason is => ?_⟩
  split at is
  · exact settled_decided is
  · exact decided reason is

theorem stepChain_told (fuel : Nat) (told : AllTold given b) :
    AllTold given (stepChain w fuel b) ∧ Same b (stepChain w fuel b) ∧ (stepChain w fuel b).line = b.line := by
  induction fuel generalizing b with
  | zero => exact ⟨told, .refl b, rfl⟩
  | succ fuel ih =>
    unfold stepChain
    cases chained : b.chain with
    | nil => exact ⟨told, .refl b, rfl⟩
    | cons d rest =>
      simp only
      have first : b.cut = false → b.lost = false → b.Told { d with
          reason := if d.excluded && d.reason.isNone then b.settled d.source d.role else d.reason } :=
        fun cut lost => told_settled ((told cut lost).2.1 d (chained ▸ List.mem_cons_self))
      generalize (if d.excluded && d.reason.isNone then b.settled d.source d.role else d.reason) = reason at first ⊢
      split
      · exact ⟨told, .refl b, rfl⟩
      split
      · exact ⟨told, .refl b, rfl⟩
      rename_i decidable
      obtain ⟨same, line, alike, sent⟩ := step_spec (w := w) (w.entries.length + 1) { d with reason } b
      generalize step w (w.entries.length + 1) { d with reason } b = out at same line alike sent ⊢
      obtain ⟨waits, e, c⟩ := out
      simp only at same line alike sent
      have after : ∀ chain ⊆ e :: rest, ∀ calling written,
          AllTold given { c with chain, calling, written } := by
        intro chain inside calling written cut lost
        have cut : b.cut = false := same.later.cut cut
        have lost : b.lost = false := same.later.lost lost
        obtain ⟨all, behind, submitted⟩ := told cut lost
        have later : Later b { c with chain, calling, written } := .of_same same.input same.parse same.ended
        refine ⟨fun g member => ⟨later.halted (all g member).1, later.decided _ _ _ (all g member).2⟩,
          fun x member => ?_, fun x member => ?_⟩
        · rcases List.mem_cons.mp (inside member) with rfl | member
          · exact later.told ((first cut lost).alike alike)
          · exact later.told (behind x (chained ▸ List.mem_cons_of_mem _ member))
        · rcases sent x member with before | now
          · exact ⟨later.told (submitted x before).1, (submitted x before).2⟩
          refine ⟨later.told ((first cut lost).alike now), fun excluded missing => decidable ?_⟩
          obtain ⟨-, -, sameExcluded, sameReason⟩ := now
          simp only at sameExcluded sameReason
          simp [← sameExcluded, ← sameReason, excluded, missing]
      have moved : ∀ chain calling written, Same b { c with chain, calling, written } :=
        fun _ _ _ => { same with }
      cases waits with
      | true => exact ⟨after _ (List.Subset.refl _) true c.written, moved _ _ _, line⟩
      | false =>
        obtain ⟨told, same, kept⟩ := ih
          (after rest (List.subset_cons_self _ _) c.calling (if e.excluded then c.written else c.written ++ [e]))
        exact ⟨told, (moved _ _ _).trans same, kept.trans line⟩

theorem decideTail_told (told : AllTold given b)
    (past : b.ended = true ∨ b.cut = true) : AllTold given b.decideTail ∧ Same b b.decideTail := by
  have same : Same b b.decideTail := ⟨rfl, rfl, rfl, rfl⟩
  refine ⟨told.chained same.later rfl fun cut lost chained x member => ?_, same⟩
  have ended : b.ended = true := past.resolve_right (by simp [cut])
  obtain ⟨d, inside, rfl⟩ := List.mem_map.mp member
  split
  · rename_i waits
    rw [Bool.and_eq_true, Option.isNone_iff_eq_none] at waits
    intro _
    rcases chained d inside waits.1 with ⟨reason, is, -⟩ | ⟨halted, -⟩
    · rw [waits.2] at is
      cases is
    · refine .inr ⟨halted, fun reason is => .inr ⟨ended, ?_⟩⟩
      simp only [cut, lost, Bool.false_eq_true, if_false] at is
      exact Option.some.inj is
  · exact chained d inside

def Closed (w : Worker Shape) (b : Batch Shape) : Prop :=
  ∀ closing, b.line = some closing → b.ended = true ∧ b.chain = [] ∧ closing = b.closing w

theorem Closed.same {b c : Batch Shape} (closed : Closed w b) (same : Same b c) (line : c.line = b.line)
    (chain : b.chain = [] → c.chain = []) : Closed w c := by
  intro closing is
  obtain ⟨ended, past, written⟩ := closed closing (line ▸ is)
  exact ⟨same.ended.trans ended, chain past, written.trans same.closing.symm⟩

theorem stepChain_nil (fuel : Nat) (chain : b.chain = []) : stepChain w fuel b = b := by
  cases fuel with
  | zero => rfl
  | succ fuel => simp only [stepChain, chain]

theorem close_closed (ended : b.ended = true) (chain : b.chain = []) :
    Closed w (b.close w) ∧ Same b (b.close w) := by
  have same : Same b (b.close w) := ⟨rfl, rfl, ended.symm, rfl⟩
  refine ⟨fun closing is => ⟨rfl, chain, ?_⟩, same⟩
  rw [same.closing]
  exact (Option.some.inj is).symm

theorem AllTold.same {given : List (Given Shape)} {b c : Batch Shape} (told : AllTold given b) (same : Same b c)
    (chain : c.chain = b.chain) (sent : c.sent = b.sent) : AllTold given c := told.later same.later chain sent

theorem advanceChain_told (told : AllTold given b) (closed : Closed w b) :
    AllTold given (b.advanceChain w) ∧ Same b (b.advanceChain w) ∧ Closed w (b.advanceChain w) := by
  unfold advanceChain
  have decided : AllTold given (if b.cut then b.decideTail else b) ∧ Same b (if b.cut then b.decideTail else b) ∧
      Closed w (if b.cut then b.decideTail else b) := by
    split
    · rename_i cut
      obtain ⟨told, same⟩ := decideTail_told told (.inr cut)
      exact ⟨told, same, closed.same same rfl fun chain => by simp [decideTail, chain]⟩
    · exact ⟨told, .refl b, closed⟩
  generalize (if b.cut then b.decideTail else b) = c at decided ⊢
  obtain ⟨told, first, closed⟩ := decided
  obtain ⟨told, second, line⟩ := stepChain_told (w := w) (c.chain.length + 1) told
  have closed : Closed w (stepChain w (c.chain.length + 1) c) :=
    closed.same second line fun chain => by rw [stepChain_nil _ chain, chain]
  simp only
  split
  · rename_i past
    simp only [Bool.and_eq_true, List.isEmpty_iff] at past
    obtain ⟨closed, third⟩ := close_closed (w := w) past.1.1 past.2
    exact ⟨told.same third rfl rfl, (first.trans second).trans third, closed⟩
  · exact ⟨told, first.trans second, closed⟩

end Batch

/-! ## Preparing and copying -/

theorem undo_failed {index : Nat} {side : Config.Message} {m : Message Shape} {coding : Option ContentCoding.Coding}
    {reason : Reason} (failed : w.undo index side m coding = .failed reason) :
    reason = .contentDecodingFailed ∨ reason = .contentDecodedTooLarge ∨ reason = .contentDecodingTooCostly := by
  unfold Worker.undo at failed
  split at failed
  · cases failed
  · split at failed <;> cases failed <;> simp

theorem ranked_content {reasons : List Reason} (content : ∃ reason ∈ reasons,
      reason = .contentDecodingFailed ∨ reason = .contentDecodedTooLarge ∨ reason = .contentDecodingTooCostly) :
    ∃ reason, ranked reasons = some reason ∧ reason.ofContent = true := by
  obtain ⟨reason, member, is⟩ := content
  unfold ranked
  cases found : [Reason.contentDecodingFailed, .contentDecodedTooLarge, .contentDecodingTooCostly].find?
      (· ∈ reasons) with
  | none =>
    rw [List.find?_eq_none] at found
    exact absurd (decide_eq_true member) (found reason (by simpa using is))
  | some first =>
    refine ⟨first, rfl, ?_⟩
    have among := List.mem_of_find?_eq_some found
    simp only [List.mem_cons, List.not_mem_nil, or_false] at among
    rcases among with rfl | rfl | rfl <;> rfl

theorem prepare_goes (excluded : Bool) (index : Nat) (x : Exchange Shape) :
    ((w.prepare excluded index x).verdict = .write → excluded = false) ∧
    ((w.prepare excluded index x).verdict = .exclude → excluded = false ∧
      ∃ reason, (w.prepare excluded index x).reason = some reason ∧ reason.ofContent = true) := by
  unfold Worker.prepare
  cases x.request with
  | none => exact ⟨nofun, nofun⟩
  | some request =>
    cases x.response with
    | none => exact ⟨nofun, nofun⟩
    | some response =>
      simp only
      split
      · exact ⟨nofun, nofun⟩
      rename_i goes
      have goes : excluded = false := by
        simp only [Bool.or_eq_true, not_or, Bool.not_eq_true] at goes
        exact goes.1.1.1
      split
      · exact ⟨nofun, fun _ => ⟨goes, _, rfl, rfl⟩⟩
      cases first : w.undo index .request request (codingOf request.message).1 with
      | refused => exact ⟨nofun, nofun⟩
      | kept m =>
        cases second : w.undo index .response response (codingOf response.message).1 with
        | refused => exact ⟨nofun, nofun⟩
        | kept n => exact ⟨fun _ => goes, nofun⟩
        | failed reason =>
          exact ⟨nofun, fun _ => ⟨goes, ranked_content ⟨reason, by simp, undo_failed second⟩⟩⟩
      | failed reason =>
        cases second : w.undo index .response response (codingOf response.message).1 with
        | refused => exact ⟨nofun, nofun⟩
        | kept n | failed other =>
          exact ⟨nofun, fun _ => ⟨goes, ranked_content ⟨reason, by simp, undo_failed first⟩⟩⟩

def Pipeline.Broken (p : Pipeline) : Prop := ∃ slot ∈ p.slots, slot.arguments = none ∨ slot.implementation = none

theorem apply_none (reads : Reads Shape) (r : SlotRun Shape) (slot : EffectiveSlot) :
    r.apply reads slot = none ↔ slot.arguments = none ∨ slot.implementation = none := by
  unfold SlotRun.apply
  cases slot.arguments <;> cases slot.implementation <;> simp

theorem applySlots_broken (slots : List EffectiveSlot) (run : SlotRun Shape) (units : Nat) (room : List Bool) :
    ((w.applySlots slots run units room).1 = .failed →
      ∃ slot ∈ slots, slot.arguments = none ∨ slot.implementation = none) ∧
    ∀ made more, (w.applySlots slots run units room).1 = .made made more →
      ¬∃ slot ∈ slots, slot.arguments = none ∨ slot.implementation = none := by
  induction slots generalizing run units room with
  | nil =>
    unfold Worker.applySlots
    exact ⟨(fun failed => nomatch failed), by simp⟩
  | cons slot rest ih =>
    unfold Worker.applySlots
    cases applied : run.apply w.reads slot with
    | none => exact ⟨fun _ => ⟨slot, List.mem_cons_self, (apply_none _ _ _).mp applied⟩, fun _ _ made => nomatch made⟩
    | some next =>
      have goes : ¬(slot.arguments = none ∨ slot.implementation = none) := by
        rw [← apply_none w.reads run slot, applied]
        nofun
      simp only [List.mem_cons, exists_eq_or_imp, goes, false_or]
      split
      · split
        · exact ⟨(fun failed => nomatch failed), fun _ _ made => nomatch made⟩
        · exact ih _ _ _
      · exact ih _ _ _

theorem policyCopy_broken (source : Exchange Shape) (p : Pipeline) (room : List Bool) :
    ((w.policyCopy source p.slots room).1 = .failed → p.Broken) ∧
    ∀ made more, (w.policyCopy source p.slots room).1 = .made made more → ¬p.Broken := by
  unfold Worker.policyCopy
  split
  · exact ⟨(fun failed => nomatch failed), fun _ _ made => nomatch made⟩
  · exact applySlots_broken _ _ _ _

structure Failed (w : Worker Shape) (failed : List Bytes) : Prop where
  distinct : failed.Nodup
  broken : ∀ name ∈ failed, ∃ p ∈ w.pipelines, p.reconstructs = true ∧ p.Broken ∧ p.name = name

def Goes (w : Worker Shape) : Prop := ∃ p ∈ w.pipelines, p.reconstructs = true ∧ ¬p.Broken

theorem copyAll_failed (source : Exchange Shape) (pipelines : List Pipeline) (inside : pipelines ⊆ w.pipelines)
    (c : Copying Shape) (room : List Bool) (failed : Failed w c.failed) (goes : c.first.isSome = true → Goes w) :
    Failed w (w.copyAll source pipelines c room).1.failed ∧
      ((w.copyAll source pipelines c room).1.first.isSome = true → Goes w) := by
  induction pipelines generalizing c room with
  | nil => exact ⟨failed, goes⟩
  | cons p rest ih =>
    have member : p ∈ w.pipelines := inside List.mem_cons_self
    have tail : rest ⊆ w.pipelines := fun q is => inside (List.mem_cons_of_mem _ is)
    unfold Worker.copyAll
    split
    · exact ih tail c room failed goes
    rename_i reads
    simp only [not_or, Bool.not_eq_false] at reads
    obtain ⟨breaks, sound⟩ := policyCopy_broken (w := w) source p room
    cases copied : w.policyCopy source p.slots room with
    | mk made room =>
      rw [copied] at breaks sound
      cases made with
      | full => exact ⟨failed, goes⟩
      | failed =>
        refine ih tail _ room ⟨?_, ?_⟩ goes
        · exact List.nodup_append.mpr ⟨failed.distinct, List.nodup_singleton _, fun name known other is same =>
            reads.2 (List.mem_singleton.mp is ▸ same ▸ known)⟩
        · intro name known
          rcases List.mem_append.mp known with before | now
          · exact failed.broken name before
          · exact ⟨p, member, reads.1, breaks rfl, (List.mem_singleton.mp now).symm⟩
      | made run units => exact ih tail _ room failed fun _ => ⟨p, member, reads.1, sound run units rfl⟩

theorem failed_lt {failed : List Bytes} (kept : Failed w failed) (goes : Goes w) :
    failed.length < (w.pipelines.filter (·.reconstructs)).length := by
  classical
  obtain ⟨sound, member, reads, unbroken⟩ := goes
  have inside : failed ⊆ ((w.pipelines.filter (·.reconstructs)).filter fun p => decide p.Broken).map (·.name) := by
    intro name known
    obtain ⟨p, listed, reads, broken, is⟩ := kept.broken name known
    exact List.mem_map.mpr ⟨p, by simp [listed, reads, broken], is⟩
  have few := (List.subperm_of_subset kept.distinct inside).length_le
  rw [List.length_map] at few
  refine Nat.lt_of_le_of_lt few (List.length_filter_lt_length_iff_exists.mpr ⟨sound, ?_, ?_⟩)
  · simp [member, reads]
  · simpa using unbroken

end EdgeObserver.Processing
