import EdgeObserver.Processing.Chain

/-!
# Nothing undecoded leaves with an excluded exchange

Two exchanges the same but for the bytes of coded bodies whose decoding did not
complete are copied, told and written alike, over every continuation of a run.
-/

set_option autoImplicit false

namespace EdgeObserver.Processing

open Fragment EdgeObserver.Stream

variable {Shape Raw : Type} {w : Worker Shape}

/-! ## What an extension is sent -/

/-- A body as an extension is sent it: as the record writes it, with what policy did
to it, or the marker of one whose decoding did not complete. -/
inductive SentBody (Shape : Type) where
  | omitted (length holed elided : Nat) (framing : Http1.Framing) (reason : Option Reason)
  | record (kept : Bytes) (length holed elided : Nat) (framing : Http1.Framing) (content : Option Content)
      (shape : Option Shape) (shapeRefused : String) (disposition : Option Disposition)

structure SentMessage (Shape : Type) where
  kind : Http1.Kind
  complete : Bool
  framed : Bool
  defect : Http1.Defect
  line : Option (Bytes × Bytes × Bytes × Nat × Bytes)
  headers : Option (List Http1.Header × List Http1.Header)
  body : Option (SentBody Shape)

inductive SentSide (Shape : Type) where
  | unselected
  | absent
  | present (m : SentMessage Shape)

structure Sent (Shape : Type) where
  id : Nat
  connection : Nat
  index : Nat
  excluded : Option (Option Reason)
  complete : Bool
  request : SentSide Shape
  response : SentSide Shape
  removed : List PolicyExclusion
  identified : Bool

namespace Dispatch

variable (d : Dispatch Shape)

def sentSide (entry : List Field) (side : Config.Message) : SentSide Shape :=
  if Field.line side ∉ entry ∧ Field.headers side ∉ entry ∧ Field.body side ∉ entry then .unselected
  else match d.run.exchange.side side with
    | none => .absent
    | some m =>
      let h := m.message
      .present
        { kind := h.kind, complete := h.complete, framed := h.framed, defect := h.defect
          line := if Field.line side ∉ entry then none else match side with
            | .request => some (h.method, h.target, h.protocol, 0, [])
            | .response => some ([], [], h.protocol, h.status, h.reason)
          headers := if Field.headers side ∈ entry then some (h.headers, h.trailers) else none
          body :=
            if Field.body side ∉ entry then none
            else if d.omitted side then some (.omitted h.bodyLength h.bodyHoled h.bodyElided h.framing d.reason)
            else some (.record h.body h.bodyLength h.bodyHoled h.bodyElided h.framing m.content m.shape
              m.shapeRefused (d.run.bodies side)) }

def removals : List PolicyExclusion :=
  d.replaced.foldl (fun out entry => if entry.1 ∈ out then out else out ++ [entry.1]) d.run.evidence

def fieldOfRemoval (e : PolicyExclusion) : Field :=
  if Config.headerFieldPrefix.isPrefixOf e.field then .headers e.message
  else if e.field = Config.targetQueryField ∨ Config.queryFieldPrefix.isPrefixOf e.field then .line e.message
  else .body e.message

def exchangeMessage (entry : List Field) (connection : Nat) (identified : Bool) : Sent Shape where
  id := d.id
  connection
  index := d.index
  excluded := if d.excluded then some d.reason else none
  complete := d.run.exchange.complete
  request := d.sentSide entry .request
  response := d.sentSide entry .response
  removed := d.removals.filter fun e => decide (fieldOfRemoval e ∈ entry)
  identified := identified && decide (Field.connection ∈ entry)

end Dispatch

/-! ## What policy reads -/

def veil (m : Reconstruct.Message Shape) : Reconstruct.Message Shape :=
  if m.message.bodyLength ≠ 0 ∧ encoded m.message = true then { message := { m.message with body := [] } } else m

def veiled (x : Reconstruct.Exchange Shape) : Reconstruct.Exchange Shape :=
  { request := x.request.map veil, response := x.response.map veil, complete := x.complete }

variable {excluded known : Bool} {d e : Dispatch Shape} {index : Nat} {x y : Reconstruct.Exchange Shape} {α : Type}

theorem veil_head (f : Http1.Message → α) (same : ∀ h, f { h with body := [] } = f h)
    (m : Reconstruct.Message Shape) : f (veil m).message = f m.message := by
  unfold veil
  split
  · exact same m.message
  · rfl

theorem veiled_head (f : Http1.Message → α) (same : ∀ h, f { h with body := [] } = f h)
    {m n : Option (Reconstruct.Message Shape)} (alike : m.map veil = n.map veil) :
    m.map (fun m => f m.message) = n.map (fun m => f m.message) := by
  have through : ∀ o : Option (Reconstruct.Message Shape),
      o.map (fun m => f m.message) = (o.map veil).map fun m => f m.message := by
    intro o
    cases o with
    | none => rfl
    | some m => exact congrArg some (veil_head f same m).symm
  rw [through m, through n, alike]

def Worker.undone (w : Worker Shape) (index : Nat) (side : Config.Message) (m : Message Shape) : Message Shape :=
  match w.undo index side m (codingOf m.message).1 with
  | .kept n => n
  | _ => m

theorem undone_eq (index : Nat) (side : Config.Message) (m : Message Shape)
    (none : (w.undone index side m).content = none) : w.undone index side m = m := by
  unfold Worker.undone Worker.undo at *
  cases coding : (codingOf m.message).1 with
  | none => rfl
  | some c =>
    rw [coding] at none
    simp only at none ⊢
    cases decoded : w.decoder index side c m.message.body with
    | mk outcome body =>
      rw [decoded] at none
      cases outcome <;> try rfl
      simp only [Processing.decoded] at none
      split at none
      · cases none
      · split at none <;> cases none

def unread (x : Exchange Shape) : Bool :=
  x.request.any (fun m => (codingOf m.message).2 == .unsupported) ||
    x.response.any (fun m => (codingOf m.message).2 == .unsupported)

theorem prepare_exclude {x : Exchange Shape}
    (excludes : (w.prepare excluded index x).verdict = .exclude) (side : Config.Message) :
    (w.prepare excluded index x).exchange.side side =
      if unread x then x.side side else (x.side side).map (w.undone index side) := by
  unfold Worker.prepare at excludes ⊢
  cases first : x.request with
  | none => simp [first] at excludes
  | some request =>
    cases second : x.response with
    | none => simp [first, second] at excludes
    | some response =>
      simp only [first, second] at excludes ⊢
      split at excludes
      · cases excludes
      rename_i goes
      rw [if_neg goes]
      split at excludes
      · rename_i unsupported
        rw [if_pos unsupported, if_pos (by simpa [unread, first, second] using unsupported)]
      rename_i supported
      rw [if_neg supported, if_neg (by simpa [unread, first, second] using supported)]
      cases one : w.undo index .request request (codingOf request.message).1 <;>
        cases other : w.undo index .response response (codingOf response.message).1 <;>
        simp only [one, other, reduceCtorEq] at excludes <;>
        cases side <;> simp [Exchange.side, Worker.undone, first, second, one, other]

theorem prepare_stop {x : Exchange Shape}
    (stops : (w.prepare excluded index x).verdict = .stop) : (w.prepare excluded index x).exchange = x := by
  unfold Worker.prepare at stops ⊢
  split at stops
  · rename_i request response first second
    simp only [first, second] at stops ⊢
    split at stops
    · rename_i stopped
      rw [if_pos stopped]
    split at stops
    · cases stops
    · cases one : w.undo index .request request (codingOf request.message).1 <;>
        cases other : w.undo index .response response (codingOf response.message).1 <;>
        simp [one, other] at stops
  · rfl

def Worker.prepared (w : Worker Shape) (known excluded : Bool) (index : Nat) (x : Reconstruct.Exchange Shape) :
    Prepared Shape :=
  if known then w.prepare excluded index (.handed x) else { verdict := .stop, exchange := .handed x }

structure Alike (w : Worker Shape) (known excluded : Bool) (index : Nat) (x y : Reconstruct.Exchange Shape) : Prop where
  veiled : veiled x = veiled y
  verdict : (w.prepared known excluded index x).verdict = (w.prepared known excluded index y).verdict
  excludes : (w.prepared known excluded index x).verdict = .stop ∨
    (w.prepared known excluded index x).verdict = .exclude
  reason : (w.prepared known excluded index x).reason = (w.prepared known excluded index y).reason
  undecoded : ∀ side, (Exchange.handed x).side side ≠ (Exchange.handed y).side side →
    ((w.prepared known excluded index x).exchange.side side).all (·.content.isNone) = true ∧
    ((w.prepared known excluded index y).exchange.side side).all (·.content.isNone) = true

def messageOf (x : Reconstruct.Exchange Shape) : Config.Message → Option (Reconstruct.Message Shape)
  | .request => x.request
  | .response => x.response

theorem handed_side (x : Reconstruct.Exchange Shape) (side : Config.Message) :
    (Exchange.handed x).side side = (messageOf x side).map fun m => { toMessage := m } := by
  cases side <;> rfl

theorem veiled_side (alike : veiled x = veiled y) (side : Config.Message) :
    (messageOf x side).map veil = (messageOf y side).map veil := by
  simp only [veiled, Reconstruct.Exchange.mk.injEq] at alike
  cases side
  · exact alike.1
  · exact alike.2.1

theorem prepared_side (alike : Alike w known excluded index x y) :
    ∃ made : Config.Message → Message Shape → Message Shape,
      (∀ side m, (made side m).content = none → made side m = m) ∧
      (∀ side, (w.prepared known excluded index x).exchange.side side = ((Exchange.handed x).side side).map (made side)) ∧
      ∀ side, (w.prepared known excluded index y).exchange.side side = ((Exchange.handed y).side side).map (made side) := by
  have kept : ∀ z : Exchange Shape, ∀ side, z.side side = (z.side side).map id := by simp
  obtain ⟨veiled, verdict, excludes, -, -⟩ := alike
  unfold Worker.prepared at *
  cases known with
  | false => exact ⟨fun _ m => m, fun _ _ _ => rfl, kept _, kept _⟩
  | true =>
    simp only [if_true] at *
    rcases excludes with stops | out
    · rw [prepare_stop stops, prepare_stop (verdict ▸ stops)]
      exact ⟨fun _ m => m, fun _ _ _ => rfl, kept _, kept _⟩
    -- Which codings are unsupported is read from the heads, so it is the same for both.
    have same : unread (Exchange.handed x) = unread (Exchange.handed y) := by
      have coding : ∀ m n : Option (Reconstruct.Message Shape), m.map veil = n.map veil →
          (m.map fun m => ({ toMessage := m } : Message Shape)).any (fun m => (codingOf m.message).2 == .unsupported) =
          (n.map fun m => ({ toMessage := m } : Message Shape)).any fun m => (codingOf m.message).2 == .unsupported := by
        intro m n alike
        have heads := veiled_head (fun h => (codingOf h).2 == .unsupported) (fun _ => rfl) alike
        cases m <;> cases n <;> simp_all
      exact congrArg₂ (· || ·) (coding _ _ (veiled_side veiled .request)) (coding _ _ (veiled_side veiled .response))
    have first := prepare_exclude out
    have second := prepare_exclude (verdict ▸ out)
    cases none : unread (Exchange.handed x) with
    | true =>
      simp only [none, if_true] at first
      simp only [← same, none, if_true] at second
      exact ⟨fun _ m => m, fun _ _ _ => rfl, fun side => (first side).trans (kept _ side),
        fun side => (second side).trans (kept _ side)⟩
    | false =>
      simp only [none, Bool.false_eq_true, if_false] at first
      simp only [← same, none, Bool.false_eq_true, if_false] at second
      exact ⟨w.undone index, fun side m => undone_eq index side m, first, second⟩

theorem bare_handed (m : Reconstruct.Message Shape) :
    (if ({ toMessage := m } : Message Shape).isUndecoded then Message.bare { toMessage := m } else { toMessage := m }) =
      ({ toMessage := veil m } : Message Shape) ∧
    ({ toMessage := m } : Message Shape).isUndecoded = ({ toMessage := veil m } : Message Shape).isUndecoded := by
  constructor
  · unfold veil
    by_cases coded : m.message.bodyLength ≠ 0 ∧ encoded m.message = true
    · rw [if_pos coded, if_pos (by simpa [Message.isUndecoded] using coded)]
      rfl
    · rw [if_neg coded, if_neg (by simpa [Message.isUndecoded] using coded)]
  · exact (veil_head (fun h => h.bodyLength != 0 && encoded h) (fun _ => rfl) m).symm

theorem prepared_complete (known excluded : Bool) (index : Nat) (x : Reconstruct.Exchange Shape) :
    (w.prepared known excluded index x).exchange.complete = x.complete := by
  unfold Worker.prepared Worker.prepare
  repeat' split
  all_goals rfl

theorem alike_undecoded (alike : Alike w known excluded index x y) :
    undecoded (w.prepared known excluded index x).exchange = undecoded (w.prepared known excluded index y).exchange := by
  obtain ⟨made, stays, first, second⟩ := prepared_side alike
  have sides : ∀ side,
      (((w.prepared known excluded index x).exchange.side side).map fun m => if m.isUndecoded then m.bare else m) =
        (((w.prepared known excluded index y).exchange.side side).map fun m => if m.isUndecoded then m.bare else m) ∧
      ((w.prepared known excluded index x).exchange.side side).any Message.isUndecoded =
        ((w.prepared known excluded index y).exchange.side side).any Message.isUndecoded := by
    intro side
    by_cases same : (Exchange.handed x).side side = (Exchange.handed y).side side
    · rw [first, second, same]
      exact ⟨rfl, rfl⟩
    -- Neither was decoded, so each is as it was handed over, and only its head is left.
    have unmade : ∀ o : Option (Message Shape), (o.map (made side)).all (·.content.isNone) = true →
        o.map (made side) = o := by
      intro o none
      cases o with
      | none => rfl
      | some m => exact congrArg some (stays side m (by simpa using none))
    obtain ⟨left, right⟩ := alike.undecoded side same
    rw [first] at left ⊢
    rw [second] at right ⊢
    rw [unmade _ left, unmade _ right, handed_side, handed_side]
    have blank : ∀ o : Option (Reconstruct.Message Shape),
        ((o.map fun m => ({ toMessage := m } : Message Shape)).map fun m => if m.isUndecoded then m.bare else m) =
          ((o.map veil).map fun m => { toMessage := m }) ∧
        (o.map fun m => ({ toMessage := m } : Message Shape)).any Message.isUndecoded =
          ((o.map veil).map fun m => ({ toMessage := m } : Message Shape)).any Message.isUndecoded := by
      intro o
      cases o with
      | none => exact ⟨rfl, rfl⟩
      | some m => exact ⟨congrArg some (bare_handed m).1, (bare_handed m).2⟩
    have left := blank (messageOf x side)
    have right := blank (messageOf y side)
    rw [veiled_side alike.veiled side] at left
    exact ⟨left.1.trans right.1.symm, left.2.trans right.2.symm⟩
  have complete : (veiled x).complete = (veiled y).complete := by rw [alike.veiled]
  have complete : x.complete = y.complete := complete
  unfold undecoded
  refine Prod.ext ?_ (funext fun side => (sides side).2)
  simp only [Exchange.mk.injEq, prepared_complete, complete, and_true]
  exact ⟨(sides .request).1, (sides .response).1⟩

/-! ## Two runs -/

def Twin (d e : Dispatch Shape) : Prop :=
  e = d ∨ (d.excluded = true ∧ ∃ source, e = { d with source } ∧ veiled d.source = veiled source)

theorem keptOut_veiled (alike : veiled x = veiled y) (role : Reconstruct.Role) :
    keptOut x role = keptOut y role := by
  have heads := veiled_head supportedMessage (fun _ => rfl) (veiled_side alike .request)
  have through : ∀ z : Reconstruct.Exchange Shape, z.request.any (supportedMessage ·.message) =
      (z.request.map fun m => supportedMessage m.message).getD false := by
    intro z
    cases z.request <;> rfl
  unfold keptOut
  rw [through x, through y, show x.request.map (fun m => supportedMessage m.message) =
    y.request.map fun m => supportedMessage m.message from heads]

def Twins (b c : Batch Shape) : Prop :=
  ∃ chain sent, c = { b with chain, sent } ∧ List.Forall₂ Twin b.chain chain ∧ List.Forall₂ Twin b.sent sent

theorem Twin.refl (d : Dispatch Shape) : Twin d d := .inl rfl

theorem Twin.sent (twin : Twin d e) (entry : List Field) (connection : Nat) (identified : Bool) :
    e.exchangeMessage entry connection identified = d.exchangeMessage entry connection identified := by
  rcases twin with rfl | ⟨-, source, rfl, -⟩ <;> rfl

theorem Twin.reason {d e : Dispatch Shape} (twin : Twin d e) (reason : Option Reason) :
    Twin { d with reason } { e with reason } := by
  rcases twin with rfl | ⟨out, source, rfl, alike⟩
  · exact .inl rfl
  · exact .inr ⟨out, source, rfl, alike⟩

theorem Twin.fixed (twin : Twin d e) : e.excluded = d.excluded ∧ e.reason = d.reason := by
  rcases twin with rfl | ⟨-, source, rfl, -⟩ <;> exact ⟨rfl, rfl⟩

namespace Batch

variable {b c : Batch Shape}

theorem twins_refl (b : Batch Shape) : Twins b b :=
  ⟨b.chain, b.sent, rfl, List.forall₂_same.mpr fun d _ => .refl d, List.forall₂_same.mpr fun d _ => .refl d⟩

theorem settled_twin {d e : Dispatch Shape} (twin : Twin d e) : b.settled e.source e.role = b.settled d.source d.role := by
  rcases twin with rfl | ⟨-, source, rfl, alike⟩
  · rfl
  · simp only [Batch.settled, keptOut_veiled alike]

theorem exclusionReason_twin {d e : Dispatch Shape} (twin : Twin d e) (stops : List TruncationStop) :
    exclusionReason e.source e.role stops = exclusionReason d.source d.role stops := by
  rcases twin with rfl | ⟨-, source, rfl, alike⟩
  · rfl
  · simp only [exclusionReason, keptOut_veiled alike]

theorem step_twins (fuel : Nat) {d e : Dispatch Shape} (twin : Twin d e) (twins : Twins b c) :
    (step w fuel e c).1 = (step w fuel d b).1 ∧ Twin (step w fuel d b).2.1 (step w fuel e c).2.1 ∧
      Twins (step w fuel d b).2.2 (step w fuel e c).2.2 := by
  induction fuel generalizing d e b c with
  | zero => exact ⟨rfl, twin, twins⟩
  | succ fuel ih =>
    have at_ : e.k = d.k := by
      rcases twin with rfl | ⟨-, source, rfl, -⟩ <;> rfl
    obtain ⟨chain, sent, rfl, chained, logged⟩ := twins
    have after : Twins { b with sent := b.sent ++ [d], outside := { b.outside with submits := b.outside.submits.tail } }
        { b with
          chain, sent := sent ++ [e], outside := { b.outside with submits := b.outside.submits.tail } } :=
      ⟨chain, sent ++ [e], rfl, chained, List.rel_append logged (.cons twin .nil)⟩
    unfold Batch.step
    simp only [at_]
    split
    · split
      · exact ⟨rfl, twin, after⟩
      refine ih ?_ after
      rcases twin with rfl | ⟨out, source, rfl, alike⟩
      · exact .inl rfl
      · exact .inr ⟨out, source, rfl, alike⟩
    · exact ⟨rfl, twin, ⟨chain, sent, rfl, chained, logged⟩⟩

theorem stepChain_twins (fuel : Nat) (twins : Twins b c) : Twins (stepChain w fuel b) (stepChain w fuel c) := by
  induction fuel generalizing b c with
  | zero => exact twins
  | succ fuel ih =>
    have whole := twins
    obtain ⟨chain, sent, rfl, chained, logged⟩ := twins
    unfold stepChain
    cases held : b.chain with
    | nil =>
      rw [held] at chained
      cases chained
      exact whole
    | cons d rest =>
      rw [held] at chained
      obtain ⟨e, others, twin, behind, rfl⟩ := List.forall₂_cons_left_iff.mp chained
      simp only
      -- Neither reads more of its source than its twin, so both wait for the same reason.
      have same : (if e.excluded && e.reason.isNone then
            ({ b with chain := e :: others, sent } : Batch Shape).settled e.source e.role else e.reason) =
          if d.excluded && d.reason.isNone then b.settled d.source d.role else d.reason := by
        rw [twin.fixed.1, twin.fixed.2]
        exact ite_congr rfl (fun _ => settled_twin twin) fun _ => rfl
      rw [same]
      generalize (if d.excluded && d.reason.isNone then b.settled d.source d.role else d.reason) = reason
      rw [show (e.excluded && reason.isNone) = (d.excluded && reason.isNone) by rw [twin.fixed.1]]
      split
      · exact whole
      split
      · exact whole
      obtain ⟨waits, went, after⟩ := step_twins (w := w) (w.entries.length + 1) (twin.reason reason) whole
      generalize step w (w.entries.length + 1) { d with reason } b = first at waits went after ⊢
      generalize step w (w.entries.length + 1) { e with reason } _ = second at waits went after ⊢
      obtain ⟨one, d', b'⟩ := first
      obtain ⟨two, e', c'⟩ := second
      simp only at waits went after
      subst waits
      obtain ⟨chain', sent', rfl, -, logged'⟩ := after
      cases two with
      | true => exact ⟨_, _, rfl, .cons went behind, logged'⟩
      | false =>
        refine ih ⟨others, sent', ?_, behind, logged'⟩
        rcases went with rfl | ⟨out, source, rfl, -⟩
        · rfl
        · simp [out]

theorem decideTail_twins (twins : Twins b c) : Twins b.decideTail c.decideTail := by
  obtain ⟨chain, sent, rfl, chained, logged⟩ := twins
  refine ⟨_, sent, rfl, ?_, logged⟩
  refine List.forall₂_map_left_iff.mpr (List.forall₂_map_right_iff.mpr (chained.imp fun d e twin => ?_))
  have told : exclusionReason e.source e.role ({ b with chain, sent } : Batch Shape).truncation =
      exclusionReason d.source d.role b.truncation := exclusionReason_twin twin b.truncation
  rw [told, show (e.excluded && e.reason.isNone) = (d.excluded && d.reason.isNone) by rw [twin.fixed.1, twin.fixed.2]]
  split
  · exact twin.reason _
  · exact twin

theorem advanceChain_twins (twins : Twins b c) : Twins (b.advanceChain w) (c.advanceChain w) := by
  have decided : Twins (if b.cut then b.decideTail else b) (if c.cut then c.decideTail else c) := by
    have same : c.cut = b.cut := by
      obtain ⟨chain, sent, rfl, -⟩ := twins
      rfl
    rw [same]
    split
    · exact decideTail_twins twins
    · exact twins
  unfold Batch.advanceChain
  generalize (if b.cut then b.decideTail else b) = first at decided ⊢
  generalize (if c.cut then c.decideTail else c) = second at decided ⊢
  have length : second.chain.length = first.chain.length := by
    obtain ⟨chain, sent, rfl, chained, -⟩ := decided
    exact chained.length_eq.symm
  have after := stepChain_twins (w := w) (first.chain.length + 1) decided
  simp only [length]
  generalize stepChain w (first.chain.length + 1) first = b' at after ⊢
  generalize stepChain w (first.chain.length + 1) second = c' at after ⊢
  have whole := after
  obtain ⟨chain, sent, rfl, chained, logged⟩ := after
  have empty : ∀ l m : List (Dispatch Shape), List.Forall₂ Twin l m → m.isEmpty = l.isEmpty := by
    rintro _ _ (_ | _) <;> rfl
  simp only [empty _ _ chained]
  split
  · exact ⟨chain, sent, rfl, chained, logged⟩
  · exact whole

theorem cutOff_twins (twins : Twins b c) : Twins b.cutOff c.cutOff := by
  obtain ⟨chain, sent, rfl, chained, logged⟩ := twins
  unfold Batch.cutOff
  simp only
  split <;> exact ⟨chain, sent, rfl, chained, logged⟩

theorem lose_twins (twins : Twins b c) : Twins b.lose c.lose := by
  obtain ⟨chain, sent, rfl, chained, logged⟩ := twins
  unfold Batch.lose
  simp only
  split <;> exact ⟨chain, sent, rfl, chained, logged⟩

theorem answer_twins (read : Field → Raw → Except Failure Replacement) (said : Answer Raw) (twins : Twins b c) :
    Twins (b.answer w read said) (c.answer w read said) := by
  have whole := twins
  obtain ⟨chain, sent, rfl, chained, logged⟩ := twins
  unfold Batch.answer
  cases held : b.chain with
  | nil =>
    rw [held] at chained
    cases chained
    exact whole
  | cons d rest =>
    rw [held] at chained
    obtain ⟨e, others, twin, behind, rfl⟩ := List.forall₂_cons_left_iff.mp chained
    simp only
    split
    · have same : ∀ room, (w.resolve read e said room).2 = (w.resolve read d said room).2 ∧
          Twin (w.resolve read d said room).1 (w.resolve read e said room).1 := by
        intro room
        rcases twin with rfl | ⟨out, source, rfl, alike⟩
        · exact ⟨rfl, .inl rfl⟩
        have refused : ∀ d : Dispatch Shape, d.excluded = true → ∀ changes,
            w.change read d d.k changes room = (d, .error .excluded, room) :=
          fun d out changes => if_pos out
        cases said with
        | unchanged | failed reason => exact ⟨rfl, .inr ⟨out, source, rfl, alike⟩⟩
        | changed changes =>
          simp only [Worker.resolve, refused d out, refused { d with source } out]
          exact ⟨trivial, .inr ⟨out, source, rfl, alike⟩⟩
      obtain ⟨rest', went⟩ := same b.outside.room
      generalize w.resolve read d said b.outside.room = first at rest' went ⊢
      generalize w.resolve read e said b.outside.room = second at rest' went ⊢
      obtain ⟨d', cuts, room⟩ := first
      obtain ⟨e', cuts', room'⟩ := second
      cases rest'
      have answered : Twins { b with chain := d' :: rest, calling := false, outside := { b.outside with room } }
          { b with chain := e' :: others, sent, calling := false, outside := { b.outside with room } } :=
        ⟨_, sent, rfl, .cons went behind, logged⟩
      apply advanceChain_twins
      simp only
      split
      · exact cutOff_twins answered
      · exact answered
    · exact whole

/-- Both messages of a twin end and stop where the other's do. -/
theorem link_twins (p : Parsing Shape) (known : Bool) (verdict : Verdict) {d e : Dispatch Shape} (twin : Twin d e)
    (twins : Twins b c) : Twins (b.link p known verdict d) (c.link p known verdict e) := by
  have role : e.role = d.role ∧ e.reason = d.reason := by
    rcases twin with rfl | ⟨-, source, rfl, -⟩ <;> exact ⟨rfl, rfl⟩
  have heads : ∀ {α : Type} (f : Http1.Message → α), (∀ h, f { h with body := [] } = f h) → ∀ side,
      (messageOf e.source side).map (fun m => f m.message) = (messageOf d.source side).map fun m => f m.message := by
    intro α f same side
    rcases twin with rfl | ⟨-, source, rfl, alike⟩
    · rfl
    · exact (veiled_head f same (veiled_side alike side)).symm
  have ends := heads (·.endsAt) fun _ => rfl
  have stops := heads messageStop fun _ => rfl
  obtain ⟨chain, sent, rfl, chained, logged⟩ := twins
  have added : ∀ {d e : Dispatch Shape}, Twin d e → List.Forall₂ Twin (b.chain ++ [d]) (chain ++ [e]) :=
    fun twin => List.rel_append chained (.cons twin .nil)
  cases verdict with
  | exclude =>
    refine ⟨_, sent, ?_, added twin, logged⟩
    simp only [Batch.link, Parsing.excludeAlone, role, show e.source.request.map (·.message.endsAt) = _ from ends .request,
      show e.source.response.map (·.message.endsAt) = _ from ends .response, messageOf]
  | stop =>
    refine ⟨_, sent, ?_, added (twin.reason _), logged⟩
    have same : p.stopAt e.source e.role = p.stopAt d.source d.role := by
      simp only [Parsing.stopAt, role, show e.source.request.map (fun m => messageStop m.message) = _ from stops .request,
        show e.source.response.map (fun m => messageStop m.message) = _ from stops .response, messageOf]
    simp only [Batch.link, same]
    rw [← settled_twin twin]
    rfl
  | write | cut =>
    refine ⟨_, sent, ?_, added twin, logged⟩
    simp only [Batch.link, Parsing.release, role, show e.source.request.map (·.message.endsAt) = _ from ends .request,
      show e.source.response.map (·.message.endsAt) = _ from ends .response, messageOf]

section

variable {known excluded : Bool} {index : Nat} {x y : Reconstruct.Exchange Shape}
  (handed : x = y ∨ Processing.Alike w known excluded index x y)

include handed

theorem handed_veiled : veiled x = veiled y := by
  rcases handed with rfl | alike
  · rfl
  · exact alike.veiled

theorem handed_prepared :
    (w.prepared known excluded index x).verdict = (w.prepared known excluded index y).verdict ∧
      (w.prepared known excluded index x).reason = (w.prepared known excluded index y).reason := by
  rcases handed with rfl | alike
  · exact ⟨rfl, rfl⟩
  · exact ⟨alike.verdict, alike.reason⟩

/-- What policy reads of the two is the same. -/
theorem handed_copied (kept : Config.Message → Bool) :
    (if (w.prepared known excluded index x).verdict ≠ .write then undecoded (w.prepared known excluded index x).exchange
      else ((w.prepared known excluded index x).exchange, kept)) =
    if (w.prepared known excluded index x).verdict ≠ .write then undecoded (w.prepared known excluded index y).exchange
      else ((w.prepared known excluded index y).exchange, kept) := by
  rcases handed with rfl | alike
  · rfl
  · have out : (w.prepared known excluded index x).verdict ≠ .write := by
      rcases alike.excludes with is | is <;> rw [is] <;> nofun
    rw [if_pos out, if_pos out, alike_undecoded alike]

theorem handed_twin (d : Dispatch Shape)
    (out : d.excluded = decide ((w.prepared known excluded index x).verdict ≠ .write)) (of : d.source = x) :
    Twin d { d with source := y } := by
  subst of
  rcases handed with rfl | alike
  · exact .inl rfl
  · refine .inr ⟨?_, y, rfl, alike.veiled⟩
    rcases alike.excludes with is | is <;> rw [out, is] <;> rfl

end

/-- An exchange put on the chain in two runs: the same, or excluded in both and the
same but for bodies that are not decoded. -/
theorem enchain_twins {p : Parsing Shape} {x y : Reconstruct.Exchange Shape} (role : Reconstruct.Role)
    (handed : x = y ∨ Processing.Alike w (p.identified || b.identifies) p.excluded p.exchanges x y) (twins : Twins b c) :
    Twins (b.enchain w p x role) (c.enchain w p y role) := by
  have veils := handed_veiled handed
  have complete : x.complete = y.complete := (show (veiled x).complete = (veiled y).complete by rw [veils])
  have countable : ∀ side, (messageOf x side).any (countableMessage ·.message) =
      (messageOf y side).any (countableMessage ·.message) := by
    intro side
    have heads := veiled_head countableMessage (fun _ => rfl) (veiled_side veils side)
    cases one : messageOf x side <;> cases other : messageOf y side <;> simp_all
  obtain ⟨verdict, reason⟩ := handed_prepared handed
  have copied := handed_copied handed
  have twin := handed_twin handed
  obtain ⟨chain, sent, rfl, chained, logged⟩ := twins
  unfold Worker.prepared at verdict reason copied twin
  unfold Batch.enchain
  simp only [show ({ b with chain, sent } : Batch Shape).identifies = b.identifies from rfl, complete,
    show x.request.any (countableMessage ·.message) = _ from countable .request,
    show x.response.any (countableMessage ·.message) = _ from countable .response, messageOf, ← verdict, ← reason, copied]
  generalize (if (p.identified || b.identifies) = true then w.prepare p.excluded p.exchanges (.handed x) else _) = prep
    at twin ⊢
  generalize (if prep.verdict ≠ .write then undecoded _ else (_, fun _ => false)) = read
  split
  · exact cutOff_twins ⟨chain, sent, rfl, chained, logged⟩
  generalize w.copyAll read.1 w.pipelines { failed := p.failed } b.outside.room = made
  split
  · exact cutOff_twins ⟨chain, sent, rfl, chained, logged⟩
  split
  · exact ⟨chain, sent, rfl, chained, logged⟩
  · split
    · exact ⟨chain, sent, rfl, chained, logged⟩
    · exact advanceChain_twins (link_twins _ _ _ (twin _ rfl rfl) ⟨chain, sent, rfl, chained, logged⟩)

theorem handOverAll_twins (xs : List (Reconstruct.Exchange Shape)) (twins : Twins b c) :
    Twins (handOverAll w xs b) (handOverAll w xs c) := by
  unfold handOverAll
  induction xs generalizing b c with
  | nil => exact twins
  | cons x rest ih =>
    refine ih ?_
    have whole := twins
    obtain ⟨chain, sent, rfl, chained, logged⟩ := twins
    simp only
    split
    · exact whole
    unfold Batch.handOver
    simp only
    split
    · exact whole
    · split
      · exact whole
      · exact enchain_twins _ (.inl rfl) whole

/-- What is done with a connection apart from its chain. -/
theorem twins_map (f : Batch Shape → Batch Shape)
    (apart : ∀ chain sent, f { b with chain, sent } = { f b with chain, sent } ∧ (f b).chain = b.chain ∧
      (f b).sent = b.sent) (twins : Twins b c) : Twins (f b) (f c) := by
  obtain ⟨chain, sent, rfl, chained, logged⟩ := twins
  obtain ⟨same, chain_eq, sent_eq⟩ := apart chain sent
  exact ⟨chain, sent, same, chain_eq ▸ chained, sent_eq ▸ logged⟩

theorem parsed_twins (p : Option (Parsing Shape)) (twins : Twins b c) :
    Twins { b with parse := p } { c with parse := p } :=
  twins_map (fun b => { b with parse := p }) (fun _ _ => ⟨rfl, rfl, rfl⟩) twins

theorem twins_fixed (twins : Twins b c) : c.toInput = b.toInput ∧ c.parse = b.parse ∧ c.ended = b.ended ∧
    c.outside = b.outside ∧ c.calling = b.calling := by
  obtain ⟨chain, sent, rfl, -⟩ := twins
  exact ⟨rfl, rfl, rfl, rfl, rfl⟩

theorem read_twins (d : Direction) (fuel : Nat) (part : Part) (twins : Twins b c) :
    Twins (Batch.read w d fuel part b) (Batch.read w d fuel part c) := by
  induction fuel generalizing part b c with
  | zero => exact twins
  | succ fuel ih =>
    have fixed := twins_fixed twins
    unfold Batch.read
    simp only [fixed.2.1]
    split
    · exact twins
    split
    · exact twins
    split
    · obtain ⟨chain, sent, rfl, chained, logged⟩ := twins
      exact ⟨chain, sent, rfl, chained, logged⟩
    rename_i p _ _ _ _ _ pairing step _
    have after := handOverAll_twins (w := w) step.exchanges (parsed_twins
      (some { p with pairing := some pairing, fedBytes := p.fedBytes + step.consumed }) twins)
    generalize handOverAll w step.exchanges _ = b' at after ⊢
    generalize handOverAll w step.exchanges _ = c' at after ⊢
    rw [show c'.cut = b'.cut from congrArg Input.cut (twins_fixed after).1]
    split
    · exact after
    split
    · exact cutOff_twins after
    have marked : Twins
        (if step.result.stopped then { b' with parse := b'.parse.map fun p => { p with stopped := true } } else b')
        (if step.result.stopped then { c' with parse := c'.parse.map fun p => { p with stopped := true } }
          else c') := by
      split
      · exact twins_map (fun b => { b with parse := b.parse.map fun p => { p with stopped := true } })
          (fun _ _ => ⟨rfl, rfl, rfl⟩) after
      · exact after
    split
    · exact marked
    · exact ih _ marked

theorem begin_twins (twins : Twins b c) : Twins (b.begin w) (c.begin w) := by
  have whole := twins
  obtain ⟨chain, sent, rfl, chained, logged⟩ := twins
  unfold Batch.begin
  simp only
  split
  · exact whole
  · split
    · exact ⟨chain, sent, rfl, chained, logged⟩
    · exact cutOff_twins ⟨chain, sent, rfl, chained, logged⟩

theorem readPlaced_twins (placed : Record × Bytes) (twins : Twins b c) :
    Twins (b.readPlaced w placed) (c.readPlaced w placed) := by
  unfold Batch.readPlaced
  rw [show c.cut = b.cut from congrArg Input.cut (twins_fixed twins).1]
  split
  · exact twins
  have begun := begin_twins (w := w) twins
  generalize b.begin w = b' at begun ⊢
  generalize c.begin w = c' at begun ⊢
  have whole := begun
  obtain ⟨chain, sent, rfl, chained, logged⟩ := begun
  simp only
  split
  · exact whole
  split
  · exact whole
  split
  · exact ⟨chain, sent, rfl, chained, logged⟩
  · split
    · exact whole
    · exact read_twins _ _ _ whole

theorem feed_twins (retired : Bool) (twins : Twins b c) : Twins (b.feed w retired) (c.feed w retired) := by
  unfold Batch.feed
  simp only [(twins_fixed twins).1]
  generalize takeAll retired _ b.toInput = taken
  have put : Twins { b with toInput := taken.1 } { c with toInput := taken.1 } :=
    twins_map (fun b => { b with toInput := taken.1 }) (fun _ _ => ⟨rfl, rfl, rfl⟩) twins
  split
  · exact put
  generalize taken.2 = placed
  generalize ({ b with toInput := taken.1 } : Batch Shape) = b' at put ⊢
  generalize ({ c with toInput := taken.1 } : Batch Shape) = c' at put ⊢
  induction placed generalizing b' c' with
  | nil => exact put
  | cons first rest ih => exact ih _ _ (readPlaced_twins first put)

theorem finishReading_twins (twins : Twins b c) : Twins (b.finishReading w) (c.finishReading w) := by
  unfold Batch.finishReading
  simp only [(twins_fixed twins).2.1]
  split
  · exact twins
  split
  · exact twins
  split
  · exact twins
  rename_i p _ _ pairing _ _
  have after := handOverAll_twins (w := w) pairing.finishInput.2.exchanges
    (parsed_twins (some { p with pairing := some pairing.finishInput.1 }) twins)
  generalize handOverAll w _ _ = b' at after ⊢
  generalize handOverAll w _ _ = c' at after ⊢
  rw [show c'.cut = b'.cut from congrArg Input.cut (twins_fixed after).1]
  split
  · exact after
  split
  · exact cutOff_twins after
  · exact twins_map (fun b => { b with parse := b.parse.map fun p => { p with ended := true } })
      (fun _ _ => ⟨rfl, rfl, rfl⟩) after

theorem readRetired_twins (twins : Twins b c) : Twins (b.readRetired w) (c.readRetired w) := by
  have whole := twins
  obtain ⟨chain, sent, rfl, chained, logged⟩ := twins
  unfold Batch.readRetired
  simp only
  split
  · exact whole
  split
  · exact ⟨chain, sent, rfl, chained, logged⟩
  have fed : Twins (Batch.feed w { b with toInput := b.certify } true)
      (Batch.feed w { b with toInput := b.certify, chain, sent } true) :=
    feed_twins true ⟨chain, sent, rfl, chained, logged⟩
  generalize Batch.feed w { b with toInput := b.certify } true = b' at fed ⊢
  generalize Batch.feed w { b with toInput := b.certify, chain, sent } true = c' at fed ⊢
  have after := fed
  obtain ⟨chain, sent, rfl, -⟩ := fed
  simp only
  split
  · exact after
  · exact finishReading_twins after

theorem processBatch_twins (twins : Twins b c) : Twins (b.processBatch w) (c.processBatch w) := by
  have after := readRetired_twins (w := w) twins
  unfold Batch.processBatch
  generalize b.readRetired w = b' at after ⊢
  generalize c.readRetired w = c' at after ⊢
  obtain ⟨chain, sent, rfl, chained, logged⟩ := after
  have empty : chain = [] ↔ b'.chain = [] := by
    rw [← List.length_eq_zero_iff, ← List.length_eq_zero_iff, chained.length_eq]
  simp only [ne_eq, empty]
  split
  · refine advanceChain_twins (decideTail_twins ?_)
    exact ⟨chain, sent, rfl, chained, logged⟩
  · exact ⟨chain, sent, rfl, chained, logged⟩

theorem retire_twins (final lost : Bool) (twins : Twins b c) :
    Twins (b.retire w final lost).1 (c.retire w final lost).1 ∧
      (c.retire w final lost).2 = (b.retire w final lost).2 := by
  obtain ⟨chain, sent, rfl, chained, logged⟩ := twins
  unfold Batch.retire
  simp only
  split
  · exact ⟨processBatch_twins ⟨chain, sent, rfl, chained, logged⟩, rfl⟩
  · exact ⟨⟨chain, sent, rfl, chained, logged⟩, rfl⟩

theorem advance_twins (twins : Twins b c) : Twins (b.advance w) (c.advance w) := by
  have whole := twins
  obtain ⟨chain, sent, rfl, chained, logged⟩ := twins
  unfold Batch.advance
  simp only
  split
  · exact whole
  · exact feed_twins false whole

theorem next_twins (read : Field → Raw → Except Failure Replacement) (event : Event Raw) (twins : Twins b c) :
    Twins (b.next w read event) (c.next w read event) := by
  have lost : ∀ flag : Bool, Twins (if flag then b.lose else b) (if flag then c.lose else c) := by
    intro flag
    cases flag with
    | false => exact twins
    | true => exact lose_twins twins
  have same : c.ended = b.ended := (twins_fixed twins).2.2.1
  cases ended : b.ended with
  | true =>
    cases event with
    | answer said => exact answer_twins read said twins
    | _ => simpa only [Batch.next, same, ended, if_true] using twins
  | false =>
    cases event with
    | answer said => exact answer_twins read said twins
    | turn final settled left =>
      simp only [Batch.next, same, ended, Bool.false_eq_true, if_false]
      have put := lost left
      generalize (if left then b.lose else b) = b' at put ⊢
      generalize (if left then c.lose else c) = c' at put ⊢
      obtain ⟨looked, ends⟩ : Twins (if settled then b'.retire w final left else (b', false)).1
            (if settled then c'.retire w final left else (c', false)).1 ∧
          (if settled then c'.retire w final left else (c', false)).2 =
            (if settled then b'.retire w final left else (b', false)).2 := by
        cases settled with
        | false => exact ⟨put, rfl⟩
        | true => exact retire_twins final left put
      generalize (if settled then b'.retire w final left else (b', false)) = first at looked ends ⊢
      generalize (if settled then c'.retire w final left else (c', false)) = second at looked ends ⊢
      obtain ⟨b'', ready⟩ := first
      obtain ⟨c'', also⟩ := second
      cases ends
      cases ready with
      | true => exact looked
      | false => exact advanceChain_twins (advance_twins looked)
    | sweep final left =>
      simp only [Batch.next, same, ended, Bool.false_eq_true, if_false]
      exact (retire_twins final left (lost left)).1
    | bound =>
      simp only [Batch.next, same, ended, Bool.false_eq_true, if_false]
      exact cutOff_twins twins
    | fragment f | retirement r =>
      simp only [Batch.next, same, ended, Bool.false_eq_true, if_false]
      obtain ⟨chain, sent, rfl, chained, logged⟩ := twins
      exact ⟨chain, sent, rfl, chained, logged⟩
    | unsettle =>
      have whole := twins
      simp only [Batch.next, same, ended, Bool.false_eq_true, if_false]
      obtain ⟨chain, sent, rfl, chained, logged⟩ := twins
      simp only
      split
      · exact advanceChain_twins (decideTail_twins ⟨chain, sent, rfl, chained, logged⟩)
      · exact whole

theorem run_twins (read : Field → Raw → Except Failure Replacement) (events : List (Event Raw)) (twins : Twins b c) :
    Twins (b.run w read events) (c.run w read events) := by
  unfold Batch.run
  induction events generalizing b c with
  | nil => exact twins
  | cons event rest ih => exact ih (next_twins read event twins)

theorem twins_sent (twins : Twins b c) (entry : List Field) (connection : Nat) (identified : Bool) :
    c.sent.map (·.exchangeMessage entry connection identified) =
      b.sent.map (·.exchangeMessage entry connection identified) := by
  obtain ⟨chain, sent, rfl, -, logged⟩ := twins
  simp only
  generalize b.sent = first at logged ⊢
  induction logged with
  | nil => rfl
  | cons twin _ ih => rw [List.map_cons, List.map_cons, twin.sent, ih]

end Batch

/-- Nothing undecoded leaves with an excluded exchange. Where two exchanges are the
same but for the bytes of bodies whose decoding did not complete, and are excluded
for the same reason, policy reads the same, and however the connection goes on,
every extension is sent the same and the same lines are written. -/
theorem undecoded_withheld (w : Worker Shape) (read : Field → Raw → Except Failure Replacement) (b : Batch Shape)
    (p : Parsing Shape) (role : Reconstruct.Role) (x y : Reconstruct.Exchange Shape)
    (alike : Alike w (p.identified || b.identifies) p.excluded p.exchanges x y)
    (rest : List (Reconstruct.Exchange Shape)) (parts : List (Direction × Part)) (events : List (Event Raw)) :
    let policy := fun z => undecoded (w.prepared (p.identified || b.identifies) p.excluded p.exchanges z).exchange
    let after := fun z => Batch.run w read
      (parts.foldl (fun b part => b.read w part.1 part.2.length part.2) (Batch.handOverAll w rest (b.enchain w p z role)))
      events
    policy x = policy y ∧
    (∀ entry connection identified,
      (after x).sent.map (·.exchangeMessage entry connection identified) =
        (after y).sent.map (·.exchangeMessage entry connection identified)) ∧
    (after x).written = (after y).written ∧ (after x).line = (after y).line := by
  intro policy after
  have twins : Twins (after x) (after y) := by
    have put := Batch.handOverAll_twins (w := w) rest (Batch.enchain_twins role (.inr alike) (Batch.twins_refl b))
    refine Batch.run_twins read events ?_
    generalize Batch.handOverAll w rest (b.enchain w p x role) = first at put ⊢
    generalize Batch.handOverAll w rest (b.enchain w p y role) = second at put ⊢
    induction parts generalizing first second with
    | nil => exact put
    | cons part others ih => exact ih _ _ (Batch.read_twins part.1 part.2.length part.2 put)
  refine ⟨alike_undecoded alike, fun entry connection identified => ?_, ?_⟩
  · exact (Batch.twins_sent twins entry connection identified).symm
  · obtain ⟨chain, sent, is, -⟩ := twins
    rw [is]
    exact ⟨rfl, rfl⟩

def codedExchange (body : Bytes) : Reconstruct.Exchange Unit where
  request := some { message :=
    { kind := .request, method := [71, 69, 84], target := [47], protocol := [72, 84, 84, 80, 47, 49, 46, 49]
      complete := true, framed := true, endsAt := 18 } }
  response := some { message :=
    { kind := .response, status := 200, protocol := [72, 84, 84, 80, 47, 49, 46, 49]
      headers := [{ name := ascii "Content-Encoding", value := ascii "gzip" }]
      framing := .contentLength, body, bodyLength := 2, complete := true, framed := true, endsAt := 40 } }
  complete := true

def codedWorker : Worker Unit where
  limits := { json := fun _ => .error "" }
  pipelines := [{ name := [], reconstructs := true, slots := [] }]
  entries := [[.body .response]]
  decoder := fun _ _ _ _ => (.decodingFailed, [])

theorem undecoded_withheld_gzip :
    let after := fun body : Bytes => Batch.run codedWorker (fun (_ : Field) (_ : Unit) => .error .malformed)
      (Batch.enchain codedWorker { process := { pid := 7 }, id := 1, outside := { ids := [1] } }
        { pairing := none, identified := true } (codedExchange body) .client) [.answer .unchanged]
    (after [31, 139]).sent.length = 1 ∧
    (after [31, 139]).sent.map (·.exchangeMessage [.body .response] 1 true) =
      (after [1, 2]).sent.map (·.exchangeMessage [.body .response] 1 true) := by
  refine ⟨by decide +kernel, ?_⟩
  have alike : Alike codedWorker true false 0 (codedExchange [31, 139]) (codedExchange [1, 2]) := by
    refine ⟨by decide +kernel, by decide +kernel, .inr (by decide +kernel), by decide +kernel, fun side _ => ?_⟩
    cases side <;> decide +kernel
  exact (undecoded_withheld codedWorker (fun _ _ => .error .malformed) { process := { pid := 7 }, id := 1, outside := { ids := [1] } }
    { pairing := none, identified := true } .client (codedExchange [31, 139]) (codedExchange [1, 2]) alike [] []
    [.answer .unchanged]).2.1 [.body .response] 1 true

end EdgeObserver.Processing
