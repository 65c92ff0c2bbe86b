import EdgeObserver.Processing.Told
import EdgeObserver.Reconstruct.Order

/-!
# An exclusion decided early is decided right

A reason given an excluded exchange while its connection is open is the one its
connection line records: the exchange that stopped the connection lies below what
was read, and every stop recorded later at or past it.
-/

set_option autoImplicit false

namespace EdgeObserver.Processing

open Fragment EdgeObserver.Stream

variable {Shape Raw : Type} {w : Worker Shape} {fragments : List Record} {low next : Reconstruct.Half → Nat}

def Event.fragment? : Event Raw → Option Record
  | .fragment f => some f
  | _ => none

/-! ## What a reading released -/

def lowIn (role : Reconstruct.Role) (low : Reconstruct.Half → Nat) (d : Direction) : Nat :=
  if d = (directions role).1 then low .requests
  else if d = (directions role).2 then low .responses
  else 0

theorem lowIn_mono {role : Reconstruct.Role} (le : ∀ h, low h ≤ next h) (d : Direction) :
    lowIn role low d ≤ lowIn role next d := by
  unfold lowIn
  split
  · exact le _
  · split
    · exact le _
    · exact Nat.le_refl _

structure Parsing.Holds (w : Worker Shape) (low : Reconstruct.Half → Nat) (p : Parsing Shape) : Prop where
  fresh : p.excluded = false → ∀ d, p.omitted d = none
  below : ∀ d omitted, p.omitted d = some omitted → p.released d ≤ omitted.offset
  within : ∀ q, p.pairing = some q → ∀ d, d ≠ .unknown → p.released d ≤ lowIn q.roleSaid.1 low d
  failed : Failed w p.failed
  goes : p.excluded = true → Goes w

namespace Parsing

variable {p : Parsing Shape}

theorem Holds.mono (holds : p.Holds w low) (le : ∀ h, low h ≤ next h) : p.Holds w next :=
  { holds with within := fun q is d known => Nat.le_trans (holds.within q is d known) (lowIn_mono le d) }

theorem Holds.copied {failed : List Bytes} (holds : p.Holds w low) (kept : Failed w failed) (identified countable : Bool)
    (exchanges : Nat) : ({ p with identified, countable, failed, exchanges } : Parsing Shape).Holds w low :=
  { holds with failed := kept }

theorem Holds.stopParsing (holds : p.Holds w low) : (Batch.stopParsing p).Holds w low := by
  unfold Batch.stopParsing
  split
  · exact holds
  · exact { holds with within := fun _ is => nomatch is }

theorem follows_le {x : Reconstruct.Exchange Shape} (follows : ∀ h, Reconstruct.Follows (low h) (x.message h) (next h))
    (h : Reconstruct.Half) : low h ≤ next h := by
  have one := follows h
  unfold Reconstruct.Follows at one
  cases is : x.message h with
  | none =>
    rw [is] at one
    exact Nat.le_of_eq one.symm
  | some m =>
    rw [is] at one
    obtain ⟨above, more, is⟩ := one
    exact is ▸ Nat.le_trans above more

theorem follows_end {message : Option (Reconstruct.Message Shape)} {low after : Nat}
    (follows : Reconstruct.Follows low message after) : (message.map (·.message.endsAt)).getD 0 ≤ after := by
  cases message with
  | none => exact Nat.zero_le _
  | some m => exact Nat.le_of_eq follows.2.2.symm

theorem messageStop_above {low after : Nat} {m : Reconstruct.Message Shape}
    (follows : Reconstruct.Follows low (some m) after) : low ≤ (messageStop m.message).offset :=
  Nat.le_trans follows.1 (messageStop_within m.message follows.2.1)

variable {x : Reconstruct.Exchange Shape} {q : Reconstruct.Pairing Shape}

theorem Holds.advanced {released : Direction → Nat} (holds : p.Holds w low) (goes : p.excluded = false)
    (paired : p.pairing = some q) (follows : ∀ h, Reconstruct.Follows (low h) (x.message h) (next h))
    (within : ∀ d, d ≠ .unknown → p.released d ≤ lowIn q.roleSaid.1 next d →
      (x.request.map (·.message.endsAt)).getD 0 ≤ next .requests →
      (x.response.map (·.message.endsAt)).getD 0 ≤ next .responses → released d ≤ lowIn q.roleSaid.1 next d) :
    ({ p with released } : Parsing Shape).Holds w next := by
  refine { holds with below := fun d omitted is => ?_, within := fun r is d known => ?_ }
  · cases (holds.fresh goes d).symm.trans is
  · cases paired.symm.trans is
    exact within d known (Nat.le_trans (holds.within q paired d known) (lowIn_mono (follows_le follows) d))
      (follows_end (follows .requests)) (follows_end (follows .responses))

theorem Holds.excludeAlone (holds : p.Holds w low) (goes : p.excluded = false) (paired : p.pairing = some q)
    (follows : ∀ h, Reconstruct.Follows (low h) (x.message h) (next h)) (reason : Option Reason) :
    (p.excludeAlone x q.roleSaid.1 reason).Holds w next := by
  refine { holds.advanced goes paired follows fun d known before request response => ?_ with }
  unfold lowIn at before ⊢
  generalize q.roleSaid.1 = role at before ⊢
  cases role <;> cases d <;> simp_all [directions, Parsing.excludeAlone]

theorem Holds.release (holds : p.Holds w low) (goes : p.excluded = false) (paired : p.pairing = some q)
    (follows : ∀ h, Reconstruct.Follows (low h) (x.message h) (next h)) :
    (p.release x q.roleSaid.1).Holds w next := by
  refine { holds.advanced goes paired follows fun d known before request response => ?_ with }
  unfold lowIn at before ⊢
  generalize q.roleSaid.1 = role at before ⊢
  cases role <;> cases d <;> simp_all [directions, Parsing.release]

theorem Holds.stopAt (holds : p.Holds w low) (goes : Goes w) (paired : p.pairing = some q)
    (follows : ∀ h, Reconstruct.Follows (low h) (x.message h) (next h)) :
    (p.stopAt x q.roleSaid.1).Holds w next := by
  have after := holds.mono (follows_le follows)
  unfold Parsing.stopAt
  split
  · exact after
  rename_i first
  have clear := holds.fresh (by simpa using first)
  refine ⟨nofun, fun d omitted is => ?_, after.within, after.failed, fun _ => goes⟩
  have before := holds.within q paired d
  have request := follows .requests
  have response := follows .responses
  simp only [Reconstruct.Exchange.message] at request response
  unfold lowIn at before
  cases role : q.roleSaid.1 <;> cases d <;>
    simp only [role, directions, clear, reduceCtorEq, ne_eq, not_true_eq_false, not_false_eq_true, and_false,
      and_true, if_true, if_false, Option.or_none, Option.map_eq_some_iff, forall_const] at is before
  all_goals
    obtain ⟨m, is, rfl⟩ := is
    simp only [is] at request response
    exact Nat.le_trans before (messageStop_above (by assumption))

structure Later (p r : Parsing Shape) : Prop where
  excluded : p.excluded = true → r.excluded = true
  omitted : ∀ d omitted, p.omitted d = some omitted → r.omitted d = some omitted

theorem Later.same {r : Parsing Shape} (excluded : r.excluded = p.excluded) (omitted : r.omitted = p.omitted) :
    Later p r := ⟨fun is => excluded.trans is, fun d at_ is => by rw [omitted, is]⟩

theorem Later.stopParsing (p : Parsing Shape) : Later p (Batch.stopParsing p) := by
  unfold Batch.stopParsing
  split <;> exact .same rfl rfl

theorem Holds.stopAt_later (holds : p.Holds w low) (role : Reconstruct.Role) : Later p (p.stopAt x role) := by
  unfold Parsing.stopAt
  split
  · exact .same rfl rfl
  rename_i first
  refine ⟨fun _ => rfl, fun d omitted is => ?_⟩
  rw [holds.fresh (by simpa using first) d] at is
  cases is

end Parsing

/-! ## Reading -/

structure Input.Reads (b c : Input) : Prop where
  place : c.place = b.place
  evidence : c.evidence = b.evidence
  lost : c.lost = b.lost
  retirement : c.retirement = b.retirement
  unfed : ∀ sequence f, c.unfed sequence = some f → b.unfed sequence = some f
  invalid : c.invalid = false → b.invalid = false
  cut : c.cut = false → b.cut = false

theorem Input.Reads.refl (b : Input) : Input.Reads b b :=
  ⟨rfl, rfl, rfl, rfl, fun _ _ is => is, fun is => is, fun is => is⟩

theorem Input.Reads.trans {b c e : Input} (first : Input.Reads b c) (second : Input.Reads c e) : Input.Reads b e :=
  ⟨second.place.trans first.place, second.evidence.trans first.evidence, second.lost.trans first.lost,
    second.retirement.trans first.retirement, fun s f is => first.unfed s f (second.unfed s f is),
    fun is => first.invalid (second.invalid is), fun is => first.cut (second.cut is)⟩

theorem Input.Vouched.reads {b c : Input} (vouched : b.Vouched fragments) (reads : Input.Reads b c) :
    c.Vouched fragments := by
  obtain ⟨ok, unfed, untaken, source, established, cut⟩ := vouched
  rw [← reads.evidence] at source
  rw [← reads.place, ← reads.evidence] at untaken established cut
  refine ⟨reads.place ▸ ok, fun s f is => ?_, untaken, source, established, cut⟩
  obtain ⟨known, numbered, short⟩ := unfed s f (reads.unfed s f is)
  exact ⟨known, numbered, fun valid => short (reads.invalid valid)⟩

namespace Batch

theorem Later.read {b c : Batch Shape} (reads : Input.Reads b.toInput c.toInput) (ended : b.ended = false)
    (parse : ∀ p, b.parse = some p → ∃ r, c.parse = some r ∧ Parsing.Later p r) : Later b c := by
  refine ⟨reads.cut, fun is => reads.lost ▸ is, ?_, ?_⟩
  · rintro ⟨p, is, excluded⟩
    obtain ⟨r, now, later⟩ := parse p is
    exact ⟨r, now, later.excluded excluded⟩
  · rintro source role reason (⟨omitted, is, same, read⟩ | ⟨past, -⟩)
    · refine .inl ⟨omitted, ?_, same, by rw [reads.place]; exact read⟩
      cases held : b.parse with
      | none => simp [Batch.omitted, held] at is
      | some p =>
        obtain ⟨r, now, later⟩ := parse p held
        simp only [Batch.omitted, held, now, Option.bind_some] at is ⊢
        exact later.omitted _ _ is
    · rw [ended] at past
      cases past

/-- A connection being read, from the input `start`: its halves stand at `low`, and
what reads it keeps `kept`. -/
structure Reading (w : Worker Shape) (given : List (Given Shape)) (start : Input) (low : Reconstruct.Half → Nat)
    (kept : Reconstruct.Pairing Shape → Prop) (b : Batch Shape) : Prop where
  input : Input.Reads start b.toInput
  parse : ∀ p, b.parse = some p → p.Holds w low
  pairing : ∀ p q, b.parse = some p → p.pairing = some q → kept q
  told : AllTold given b
  closed : Closed w b
  ended : b.ended = false
  settled : b.unsettled = false

variable {given : List (Given Shape)} {start : Input} {kept : Reconstruct.Pairing Shape → Prop} {b : Batch Shape}

theorem Closed.of_none (line : b.line = none) : Closed w b := fun closing is => by
  rw [line] at is
  cases is

theorem Closed.line (closed : Closed w b) (ended : b.ended = false) : b.line = none := by
  cases is : b.line with
  | none => rfl
  | some closing =>
    rw [(closed closing is).1] at ended
    cases ended

theorem Reading.line (reading : Reading w given start low kept b) : b.line = none := reading.closed.line reading.ended

theorem Reading.step {c : Batch Shape} {keeps : Reconstruct.Pairing Shape → Prop}
    (reading : Reading w given start low kept b) (reads : Input.Reads b.toInput c.toInput)
    (parse : ∀ p, b.parse = some p → ∃ r, c.parse = some r ∧ Parsing.Later p r ∧ r.Holds w next ∧
      ∀ q, r.pairing = some q → keeps q)
    (begun : b.parse = none → c.parse = none) (chain : c.chain = b.chain) (sent : c.sent = b.sent)
    (ended : c.ended = b.ended) (unsettled : c.unsettled = b.unsettled) (line : c.line = b.line) :
    Reading w given start next keeps c := by
  have later : Later b c := .read reads reading.ended fun p is => by
    obtain ⟨r, now, later, -⟩ := parse p is
    exact ⟨r, now, later⟩
  have found : ∀ r, c.parse = some r → r.Holds w next ∧ ∀ q, r.pairing = some q → keeps q := by
    intro r is
    cases held : b.parse with
    | none =>
      rw [begun held] at is
      cases is
    | some p =>
      obtain ⟨r', now, -, holds, same⟩ := parse p held
      rw [now] at is
      cases is
      exact ⟨holds, same⟩
  exact ⟨reading.input.trans reads, fun r is => (found r is).1, fun r q is paired => (found r is).2 q paired,
    reading.told.later later chain sent, .of_none (line.trans reading.line), ended.trans reading.ended,
    unsettled.trans reading.settled⟩

theorem Reading.mono (reading : Reading w given start low kept b) (le : ∀ h, low h ≤ next h) :
    Reading w given start next kept b :=
  { reading with parse := fun p is => (reading.parse p is).mono le }

theorem Reading.outside (reading : Reading w given start low kept b) (outside : Outside) :
    Reading w given start low kept { b with outside } :=
  reading.step (.refl _) (fun p is => ⟨p, is, .same rfl rfl, reading.parse p is, fun q => reading.pairing p q is⟩)
    (fun is => is) rfl rfl rfl rfl rfl

theorem stopParsing_pairing {p : Parsing Shape} {q : Reconstruct.Pairing Shape}
    (paired : (stopParsing p).pairing = some q) : p.pairing = some q := by
  unfold stopParsing at paired
  split at paired
  · exact paired
  · cases paired

theorem Reading.cutOff (reading : Reading w given start low kept b) : Reading w given start low kept b.cutOff := by
  unfold Batch.cutOff
  split
  · exact reading
  refine reading.step ⟨rfl, rfl, rfl, rfl, (fun _ _ is => nomatch is), fun is => is, fun is => nomatch is⟩
    (fun p is => ?_) (fun is => by simp [discard, is]) rfl rfl rfl rfl rfl
  refine ⟨stopParsing p, by simp [discard, is], .stopParsing p, (reading.parse p is).stopParsing, fun q paired => ?_⟩
  exact reading.pairing p q is (stopParsing_pairing paired)

theorem Reading.advanceChain (reading : Reading w given start low kept b) :
    Reading w given start low kept (b.advanceChain w) := by
  obtain ⟨told, same, closed⟩ := advanceChain_told reading.told reading.closed
  exact ⟨same.input ▸ reading.input, same.parse ▸ reading.parse, same.parse ▸ reading.pairing, told, closed,
    same.ended.trans reading.ended, same.unsettled.trans reading.settled⟩

theorem Reading.append {d : Dispatch Shape} (reading : Reading w given start low kept b)
    (told : b.cut = false → b.lost = false → b.Told d) :
    Reading w given start low kept { b with chain := b.chain ++ [d] } := by
  refine { reading with
    told := reading.told.chained (.of_same rfl rfl rfl) rfl fun cut lost behind x member => ?_
    closed := .of_none reading.line }
  rcases List.mem_append.mp member with before | now
  · exact behind x before
  · cases List.mem_singleton.mp now
    exact told cut lost

theorem Reading.parsed {p r : Parsing Shape} (reading : Reading w given start low kept b) (is : b.parse = some p)
    (later : Parsing.Later p r) (holds : r.Holds w next) (same : r.pairing = p.pairing) (invalid : Bool)
    (more : invalid = false → b.invalid = false) :
    Reading w given start next kept { b with parse := some r, invalid } := by
  refine reading.step ⟨rfl, rfl, rfl, rfl, fun _ _ is => is, more, fun is => is⟩ (fun o was => ?_)
    (fun none => by rw [none] at is; cases is) rfl rfl rfl rfl rfl
  rw [is] at was
  cases was
  exact ⟨r, rfl, later, holds, fun q paired => reading.pairing p q is (same ▸ paired)⟩

theorem Reading.link {p r : Parsing Shape} {q : Reconstruct.Pairing Shape} {verdict : Verdict} {known : Bool}
    {d : Dispatch Shape} (reading : Reading w given start low kept b) (is : b.parse = some p)
    (holds : r.Holds w low) (later : Parsing.Later p r) (same : r.pairing = p.pairing) (paired : r.pairing = some q)
    (role : d.role = q.roleSaid.1)
    (follows : ∀ h, Reconstruct.Follows (low h) (d.source.message h) (next h))
    (goes : Goes w) (excluded : d.excluded = decide (verdict ≠ .write))
    (alone : verdict = .exclude → r.excluded = false ∧ ∃ reason, d.reason = some reason ∧ reason.ofContent = true)
    (written : verdict = .write → r.excluded = false) (uncut : verdict ≠ .cut) :
    Reading w given start next kept (b.link r known verdict d) := by
  unfold Batch.link
  cases verdict with
  | cut => exact absurd rfl uncut
  | exclude =>
    obtain ⟨clear, content⟩ := alone rfl
    have after : Parsing.Later p (r.excludeAlone d.source d.role d.reason) := { later with }
    exact (reading.parsed is after (role ▸ holds.excludeAlone clear paired follows d.reason) same b.invalid
      fun is => is).append fun _ _ _ => .inl content
  | write =>
    have after : Parsing.Later p (r.release d.source d.role) := { later with }
    refine (reading.parsed is after (role ▸ holds.release (written rfl) paired follows) same b.invalid
      fun is => is).append fun _ _ out => ?_
    rw [excluded] at out
    cases out
  | stop =>
    have stopped : Parsing.Later p (r.stopAt d.source d.role) := by
      have more := holds.stopAt_later (x := d.source) d.role
      exact ⟨fun is => more.excluded (later.excluded is), fun e omitted is =>
        more.omitted e omitted (later.omitted e omitted is)⟩
    have pairing : (r.stopAt d.source d.role).pairing = p.pairing := by
      unfold Parsing.stopAt
      split <;> exact same
    have halts : (r.stopAt d.source d.role).excluded = true := by
      unfold Parsing.stopAt
      split
      · assumption
      · rfl
    refine (reading.parsed is stopped (role ▸ holds.stopAt goes paired follows) pairing (b.invalid || !known)
      fun valid => ?_).append fun _ _ _ => .inr ⟨⟨_, rfl, halts⟩, fun _ told => settled_decided told⟩
    simp only [Bool.or_eq_false_iff] at valid
    exact valid.1

theorem Reading.enchain {p : Parsing Shape} {q : Reconstruct.Pairing Shape} {x : Reconstruct.Exchange Shape}
    (reading : Reading w given start low kept b) (is : b.parse = some p) (paired : p.pairing = some q)
    (follows : ∀ h, Reconstruct.Follows (low h) (x.message h) (next h)) :
    Reading w given start next kept (b.enchain w p x q.roleSaid.1) := by
  have le := Parsing.follows_le follows
  have holds := reading.parse p is
  have parsed : ∀ (failed : List Bytes) (identified countable : Bool) (exchanges : Nat), Failed w failed →
      Reading w given start low kept
        { b with parse := some { p with identified, countable, failed, exchanges }, invalid := b.invalid } :=
    fun failed identified countable exchanges fails =>
      reading.parsed (r := { p with identified, countable, failed, exchanges }) is (.same rfl rfl)
        (holds.copied fails identified countable exchanges) rfl b.invalid fun is => is
  unfold Batch.enchain
  simp only
  have prepared : ∀ known : Bool,
      (((if known then w.prepare p.excluded p.exchanges (.handed x)
        else { verdict := .stop, exchange := .handed x } : Prepared Shape).verdict = .write → p.excluded = false) ∧
      ((if known then w.prepare p.excluded p.exchanges (.handed x)
        else { verdict := .stop, exchange := .handed x } : Prepared Shape).verdict = .exclude → p.excluded = false ∧
        ∃ reason, (if known then w.prepare p.excluded p.exchanges (.handed x)
          else { verdict := .stop, exchange := .handed x } : Prepared Shape).reason = some reason ∧
          reason.ofContent = true)) := by
    intro known
    cases known with
    | false => exact ⟨nofun, nofun⟩
    | true => exact prepare_goes p.excluded p.exchanges (.handed x)
  have prepared := prepared (p.identified || b.identifies)
  generalize (if (p.identified || b.identifies) = true then w.prepare p.excluded p.exchanges (.handed x)
    else { verdict := .stop, exchange := .handed x }) = prep at prepared ⊢
  split
  · exact ((parsed p.failed _ _ p.exchanges holds.failed).cutOff).mono le
  rename_i uncut
  generalize (if prep.verdict ≠ .write then undecoded prep.exchange else (prep.exchange, fun _ => false)) = copied
  obtain ⟨fails, goes⟩ := copyAll_failed (w := w) copied.1 w.pipelines (List.Subset.refl _)
    { failed := p.failed } b.outside.room holds.failed nofun
  generalize w.copyAll copied.1 w.pipelines { failed := p.failed } b.outside.room = copies at fails goes ⊢
  obtain ⟨c, room⟩ := copies
  simp only at fails goes ⊢
  split
  · exact (((parsed c.failed _ _ p.exchanges fails).outside _).cutOff).mono le
  cases first : c.first with
  | none => exact ((parsed c.failed _ _ p.exchanges fails).outside _).mono le
  | some made =>
    obtain ⟨run, policy, slots⟩ := made
    simp only
    split
    · exact ((parsed c.failed _ _ (p.exchanges + 1) fails).outside _).mono le
    refine Reading.advanceChain (Reading.link (q := q)
      ((parsed c.failed _ _ p.exchanges fails).outside { b.outside with room, ids := b.outside.ids.tail }) rfl
      (holds.copied fails _ _ (p.exchanges + 1)) (.same rfl rfl) rfl paired rfl follows
      (goes (by rw [first]; rfl)) rfl prepared.2 prepared.1 uncut)

theorem Reading.handOver {x : Reconstruct.Exchange Shape} (reading : Reading w given start low kept b)
    (follows : ∀ h, Reconstruct.Follows (low h) (x.message h) (next h)) :
    Reading w given start next kept (b.handOver w x) := by
  unfold Batch.handOver
  cases is : b.parse with
  | none => exact reading.mono (Parsing.follows_le follows)
  | some p =>
    cases paired : p.pairing with
    | none =>
      simp only [paired]
      exact reading.mono (Parsing.follows_le follows)
    | some q =>
      simp only [paired]
      exact reading.enchain is paired follows

theorem Reading.handOverAll {after : Reconstruct.Half → Nat} (xs : List (Reconstruct.Exchange Shape))
    (reading : Reading w given start low kept b) (ordered : Reconstruct.Ordered low xs after) :
    Reading w given start after kept (b.handOverAll w xs) := by
  induction xs generalizing b low with
  | nil =>
    cases ordered
    exact reading
  | cons x rest ih =>
    obtain ⟨next, follows, ordered⟩ := ordered
    refine ih ?_ ordered
    simp only
    split
    · exact reading.mono (Parsing.follows_le follows)
    · exact reading.handOver follows

def Read (w : Worker Shape) (given : List (Given Shape)) (start : Input) (b : Batch Shape) : Prop :=
  ∃ low, Reading w given start low (fun q => q.Lined low) b

theorem Read.cutOff (read : Read w given start b) : Read w given start b.cutOff := by
  obtain ⟨low, reading⟩ := read
  exact ⟨low, reading.cutOff⟩

theorem Holds.paired {p : Parsing Shape} {q r : Reconstruct.Pairing Shape} (holds : p.Holds w low)
    (paired : p.pairing = some q) (side : q.KeepsSide r) (fedBytes : Nat) :
    ({ p with pairing := some r, fedBytes } : Parsing Shape).Holds w low := by
  refine { holds with within := fun s is d known => ?_ }
  cases is
  have before := holds.within q paired d known
  unfold Reconstruct.Pairing.roleSaid at before ⊢
  cases decided : q.decided with
  | true =>
    obtain ⟨still, role⟩ := side decided
    rw [decided] at before
    rwa [still, role]
  | false =>
    rw [decided] at before
    have none : lowIn Reconstruct.Role.unknown low d = 0 := by
      simp [lowIn, directions, known]
    exact Nat.le_trans (Nat.le_trans before (Nat.le_of_eq none)) (Nat.zero_le _)

theorem Read.handsOver {p : Parsing Shape} {q r : Reconstruct.Pairing Shape} {xs : List (Reconstruct.Exchange Shape)}
    (reading : Reading w given start low (fun q => q.Lined low) b) (is : b.parse = some p)
    (paired : p.pairing = some q) (hands : q.HandsOver low xs r) (fedBytes : Nat) :
    Read w given start (Batch.handOverAll w xs { b with parse := some { p with pairing := some r, fedBytes } }) := by
  obtain ⟨⟨after, ordered, lined⟩, side⟩ := hands
  have begun : Reading w given start low (fun s => s = r)
      { b with parse := some { p with pairing := some r, fedBytes } } := by
    refine reading.step (.refl _) (fun o was => ?_) (fun none => by rw [none] at is; cases is) rfl rfl rfl rfl rfl
    rw [is] at was
    cases was
    exact ⟨_, rfl, .same rfl rfl, Holds.paired (reading.parse p is) paired side fedBytes,
      fun s same => (Option.some.inj same).symm⟩
  have done := begun.handOverAll xs ordered
  exact ⟨after, { done with pairing := fun s t was same => done.pairing s t was same ▸ lined }⟩

theorem Read.mark (read : Read w given start b) (mark : Parsing Shape → Parsing Shape)
    (pairing : ∀ p, (mark p).pairing = p.pairing) (holds : ∀ p low, p.Holds w low → (mark p).Holds w low)
    (later : ∀ p, Parsing.Later p (mark p)) : Read w given start { b with parse := b.parse.map mark } := by
  obtain ⟨low, reading⟩ := read
  refine ⟨low, reading.step (.refl _) (fun p is => ?_) (fun none => by simp [none]) rfl rfl rfl rfl rfl⟩
  exact ⟨mark p, by simp [is], later p, holds p low (reading.parse p is),
    fun q same => reading.pairing p q is (pairing p ▸ same)⟩

theorem Read.read (d : Direction) (fuel : Nat) (part : Part) (read : Read w given start b) :
    Read w given start (b.read w d fuel part) := by
  induction fuel generalizing b part with
  | zero => exact read
  | succ fuel ih =>
    unfold Batch.read
    cases is : b.parse with
    | none => exact read
    | some p =>
      cases paired : p.pairing with
      | none =>
        simp only [paired]
        exact read
      | some q =>
        simp only [paired]
        obtain ⟨low, reading⟩ := read
        cases fed : q.feed d part with
        | error why =>
          refine ⟨low, reading.step ⟨rfl, rfl, rfl, rfl, fun _ _ is => is, (fun is => nomatch is), fun is => is⟩
            (fun o was => ?_) (fun none => by rw [none] at is; cases is) rfl rfl rfl rfl rfl⟩
          rw [is] at was
          cases was
          refine ⟨_, rfl, .stopParsing p, (reading.parse p is).stopParsing, fun r same => ?_⟩
          simp [stopParsing, paired] at same
        | ok out =>
          obtain ⟨r, step⟩ := out
          have hands := Reconstruct.Pairing.feed_handsOver (reading.pairing p q is paired) fed
          have after := Read.handsOver reading is paired hands (p.fedBytes + step.consumed)
          simp only
          generalize Batch.handOverAll w step.exchanges _ = c at after ⊢
          split
          · exact after
          split
          · exact after.cutOff
          have marked : Read w given start (if step.result.stopped then
              { c with parse := c.parse.map fun p => { p with stopped := true } } else c) := by
            split
            · exact after.mark _ (fun _ => rfl) (fun _ _ holds => { holds with }) fun _ => .same rfl rfl
            · exact after
          split
          · exact marked
          · exact ih _ marked

theorem Read.begin (read : Read w given start b) : Read w given start (b.begin w) := by
  unfold Batch.begin
  split
  · exact read
  rename_i fresh
  simp only [Bool.or_eq_true, not_or, Bool.not_eq_true, Option.isSome_eq_false_iff, Option.isNone_iff_eq_none]
    at fresh
  obtain ⟨low, reading⟩ := read
  have asked := reading.outside { b.outside with room := (reserve b.outside.room).2 }
  simp only
  split
  · have later : Later b { b with
        parse := some { pairing := some (Reconstruct.newPairing w.limits { answers := b.outside.growth }) }
        outside := { b.outside with room := (reserve b.outside.room).2 } } :=
      .read (.refl _) reading.ended fun p is => by rw [fresh.1] at is; cases is
    refine ⟨fun _ => 0, asked.input, ?_, ?_, reading.told.later later rfl rfl, .of_none reading.line, reading.ended,
      reading.settled⟩
    · rintro p ⟨⟩
      exact ⟨fun _ _ => rfl, (fun _ _ is => nomatch is), fun _ _ _ _ => Nat.zero_le _,
        ⟨List.nodup_nil, (fun _ known => nomatch known)⟩, nofun⟩
    · rintro p q ⟨⟩ ⟨⟩
      exact Reconstruct.Pairing.newPairing_lined _ _
  · exact Read.cutOff ⟨low, asked⟩

theorem Read.readPlaced (read : Read w given start b) (placed : Record × Bytes) :
    Read w given start (b.readPlaced w placed) := by
  unfold Batch.readPlaced
  split
  · exact read
  have begun := read.begin
  simp only
  cases is : (b.begin w).parse with
  | none => exact begun
  | some p =>
    simp only
    split
    · exact begun
    split
    · obtain ⟨low, reading⟩ := begun
      exact ⟨low, reading.parsed (r := { p with skipped := p.skipped + placed.2.length }) is (.same rfl rfl)
        { reading.parse p is with } rfl (b.begin w).invalid fun is => is⟩
    · split
      · exact begun
      · exact begun.read _ _ _

theorem Read.finishReading (read : Read w given start b) : Read w given start (b.finishReading w) := by
  unfold Batch.finishReading
  cases is : b.parse with
  | none => exact read
  | some p =>
    cases paired : p.pairing with
    | none =>
      simp only [paired]
      exact read
    | some q =>
      simp only [paired]
      split
      · exact read
      obtain ⟨low, reading⟩ := read
      have hands := Reconstruct.Pairing.finishInput_handsOver (reading.pairing p q is paired)
      have after := Read.handsOver reading is paired hands p.fedBytes
      generalize Batch.handOverAll w q.finishInput.2.exchanges _ = c at after ⊢
      split
      · exact after
      · split
        · exact after.cutOff
        · exact after.mark _ (fun _ => rfl) (fun _ _ holds => { holds with }) fun _ => .same rfl rfl

/-! ## Placing -/

theorem takeAll_vouched (promised : Promised fragments) (fuel : Nat) {b : Input} (vouched : b.Vouched fragments)
    (valid : b.invalid = false) (taken : b.evidence.taken = true)
    (through : 0 < fuel → b.fed + fuel ≤ b.evidence.through) :
    (takeAll false fuel b).1.Vouched fragments ∧ Input.Onward b (takeAll false fuel b).1 := by
  induction fuel generalizing b with
  | zero => exact ⟨vouched, .refl b⟩
  | succ fuel ih =>
    have reaches := through (Nat.succ_pos _)
    obtain ⟨after, evidence, goes⟩ := Input.take_vouched promised vouched valid taken (by omega)
    obtain ⟨-, onward⟩ := Input.take_ok false vouched.ok fun f found => (vouched.unfed _ f found).2.2 valid
    unfold takeAll
    generalize b.take false = out at after evidence goes onward ⊢
    obtain ⟨c, placed⟩ := out
    cases placed with
    | none => exact ⟨after, onward⟩
    | some one =>
      obtain ⟨fed, still⟩ := goes rfl
      simp only at after evidence fed still onward
      obtain ⟨rest, more⟩ := ih after still (evidence ▸ taken) fun _ => by rw [fed, evidence]; omega
      exact ⟨rest, onward.trans more⟩

theorem takeAll_ok (retired : Bool) (fuel : Nat) {b : Input} (ok : ∀ d, (b.place d).Ok)
    (short : ∀ sequence f, b.unfed sequence = some f → f.payload.length ≤ f.length.toNat) :
    (∀ d, ((takeAll retired fuel b).1.place d).Ok) ∧ Input.Onward b (takeAll retired fuel b).1 := by
  induction fuel generalizing b with
  | zero => exact ⟨ok, .refl b⟩
  | succ fuel ih =>
    obtain ⟨after, onward⟩ := Input.take_ok retired ok (short _)
    have fewer : ∀ sequence f, (b.take retired).1.unfed sequence = some f → b.unfed sequence = some f := by
      intro sequence f found
      unfold Input.take at found
      split at found
      · exact found
      split at found
      · exact found
      simp only at found
      by_cases here : sequence = b.fed + 1
      · subst here
        simp at found
      · rwa [Function.update_of_ne here] at found
    unfold takeAll
    generalize b.take retired = out at after onward fewer ⊢
    obtain ⟨c, placed⟩ := out
    cases placed with
    | none => exact ⟨after, onward⟩
    | some one =>
      obtain ⟨rest, more⟩ := ih after fun s f found => short s f (fewer s f found)
      exact ⟨rest, onward.trans more⟩

/-! ## The run -/

structure Sound (w : Worker Shape) (fragments : List Record) (given : List (Given Shape)) (b : Batch Shape) : Prop where
  ok : ∀ d, (b.place d).Ok
  vouched : b.ended = false → b.toInput.Vouched fragments
  usable : b.toInput.Usable
  retired : b.ended = true → b.unsettled = true ∨ b.retirement.isSome = true
  unsettled : b.unsettled = true → b.ended = true
  parse : ∃ low, ∀ p, b.parse = some p → p.Holds w low ∧ ∀ q, p.pairing = some q → q.Lined low
  told : AllTold given b
  closed : Closed w b

theorem Sound.open (sound : Sound w fragments given b) (ended : b.ended = false) : b.unsettled = false ∧ b.line = none := by
  refine ⟨?_, sound.closed.line ended⟩
  cases is : b.unsettled with
  | false => rfl
  | true =>
    rw [sound.unsettled is] at ended
    cases ended

theorem Later.input {i : Input} (ended : b.ended = false) (fed : ∀ d, (b.place d).fed ≤ (i.place d).fed)
    (cut : i.cut = b.cut) (lost : i.lost = b.lost) : Later b { b with toInput := i } := by
  refine ⟨fun is => cut ▸ is, fun is => lost ▸ is, fun is => is, ?_⟩
  rintro source role reason (⟨omitted, is, same, read⟩ | ⟨past, -⟩)
  · exact .inl ⟨omitted, is, same, Nat.lt_of_lt_of_le read (fed _)⟩
  · rw [ended] at past
    cases past

theorem Sound.reading {start : Input} (sound : Sound w fragments given b) (ended : b.ended = false)
    (onward : Input.Onward b.toInput start) : Read w given start { b with toInput := start } := by
  obtain ⟨low, parse⟩ := sound.parse
  obtain ⟨unsettled, line⟩ := sound.open ended
  have later := Later.input ended onward.fed onward.cut onward.lost
  exact ⟨low, .refl _, fun p is => (parse p is).1, fun p q is => (parse p is).2 q, sound.told.later later rfl rfl,
    .of_none line, ended, unsettled⟩

theorem Read.sound {start : Input} (read : Read w given start b) (vouched : start.Vouched fragments)
    (usable : start.Usable) : Sound w fragments given b := by
  obtain ⟨low, reading⟩ := read
  have ended : b.ended ≠ true := by simp [reading.ended]
  refine ⟨reading.input.place ▸ vouched.ok, fun _ => vouched.reads reading.input,
    fun r is valid => usable r (reading.input.retirement ▸ is) (reading.input.invalid valid),
    fun is => absurd is ended, fun is => ?_, ⟨low, fun p is => ⟨reading.parse p is, fun q => reading.pairing p q is⟩⟩,
    reading.told, reading.closed⟩
  rw [reading.settled] at is
  cases is

theorem Sound.advanceChain (sound : Sound w fragments given b) : Sound w fragments given (b.advanceChain w) := by
  obtain ⟨told, same, closed⟩ := advanceChain_told sound.told sound.closed
  refine ⟨same.input ▸ sound.ok, fun is => same.input ▸ sound.vouched (same.ended ▸ is), same.input ▸ sound.usable, ?_,
    ?_, same.parse ▸ sound.parse, told, closed⟩
  · rw [same.ended, same.unsettled, same.input]
    exact sound.retired
  · rw [same.ended, same.unsettled]
    exact sound.unsettled

theorem Sound.input {i : Input} (sound : Sound w fragments given b) (ended : b.ended = false)
    (vouched : i.Vouched fragments) (usable : i.Usable) (fed : ∀ d, (b.place d).fed ≤ (i.place d).fed)
    (cut : i.cut = b.cut) (lost : i.lost = b.lost) : Sound w fragments given { b with toInput := i } := by
  obtain ⟨unsettled, line⟩ := sound.open ended
  have told := sound.told.later (.input ended fed cut lost) rfl rfl
  refine ⟨vouched.ok, fun _ => vouched, usable, fun past => ?_, sound.unsettled, sound.parse, told, .of_none line⟩
  rw [show b.ended = true from past] at ended
  cases ended

theorem Sound.discarded {c : Batch Shape} (sound : Sound w fragments given b) (line : b.line = none)
    (input : ∃ cut lost, c = { b.discard with cut, lost }) (dropped : c.cut = true ∨ c.lost = true) :
    Sound w fragments given c := by
  obtain ⟨cut, lost, rfl⟩ := input
  obtain ⟨low, parse⟩ := sound.parse
  refine ⟨sound.ok, fun ended => ?_, fun r is valid => sound.usable r is valid, sound.retired, sound.unsettled,
    ⟨low, fun p is => ?_⟩, fun uncut found => ?_, .of_none line⟩
  · exact { sound.vouched ended with unfed := fun _ _ is => nomatch is }
  · cases held : b.parse with
    | none => simp [discard, held] at is
    | some r =>
      simp only [discard, held, Option.map_some, Option.some.injEq] at is
      subst is
      refine ⟨(parse r held).1.stopParsing, fun q paired => ?_⟩
      exact (parse r held).2 q (stopParsing_pairing paired)
  · rw [uncut, found] at dropped
    simp at dropped

theorem Sound.cutOff (sound : Sound w fragments given b) (line : b.line = none) : Sound w fragments given b.cutOff := by
  unfold Batch.cutOff
  split
  · exact sound
  · exact sound.discarded line ⟨true, b.lost, rfl⟩ (.inl rfl)

theorem Sound.lose (sound : Sound w fragments given b) (line : b.line = none) : Sound w fragments given b.lose := by
  unfold Batch.lose
  split
  · exact sound
  · exact sound.discarded line ⟨b.cut, true, rfl⟩ (.inr rfl)

theorem Read.readAll {start : Input} (read : Read w given start b) (placed : List (Record × Bytes)) :
    Read w given start (placed.foldl (Batch.readPlaced w) b) := by
  induction placed generalizing b with
  | nil => exact read
  | cons one rest ih => exact ih (read.readPlaced one)

theorem Sound.advance (promised : Promised fragments) (sound : Sound w fragments given b) (ended : b.ended = false) :
    Sound w fragments given (b.advance w) := by
  unfold Batch.advance
  split
  · exact sound
  rename_i goes
  simp only [Bool.or_eq_true, not_or, Bool.not_eq_true] at goes
  have vouched := sound.vouched ended
  unfold Batch.feed
  obtain ⟨after, onward⟩ : (takeAll false (b.certifiedThrough false - b.toInput.fed) b.toInput).1.Vouched fragments ∧
      Input.Onward b.toInput (takeAll false (b.certifiedThrough false - b.toInput.fed) b.toInput).1 := by
    unfold Input.certifiedThrough
    simp only [Bool.false_eq_true, if_false]
    split
    · rename_i usable
      rw [Bool.and_eq_true] at usable
      exact takeAll_vouched promised _ vouched goes.2 usable.1 fun some => by omega
    · rw [Nat.zero_sub]
      exact ⟨vouched, .refl _⟩
  generalize takeAll false (b.certifiedThrough false - b.toInput.fed) b.toInput = out at after onward ⊢
  obtain ⟨start, placed⟩ := out
  have usable := sound.usable.onward onward
  have read := sound.reading ended onward
  simp only
  split
  · exact read.sound after usable
  · exact (read.readAll placed).sound after usable

theorem Sound.readRetired (sound : Sound w fragments given b) (ended : b.ended = false) :
    ∃ start : Input, (∀ d, (start.place d).Ok) ∧ start.Usable ∧ start.retirement = b.retirement ∧
      Read w given start (b.readRetired w) := by
  have vouched := sound.vouched ended
  unfold Batch.readRetired
  split
  · exact ⟨b.toInput, sound.ok, sound.usable, rfl, sound.reading ended (.refl _)⟩
  rename_i goes
  simp only [Bool.or_eq_true, not_or, Bool.not_eq_true] at goes
  split
  · have onward : Input.Onward b.toInput { b.toInput with invalid := true } :=
      ⟨fun _ => Nat.le_refl _, rfl, rfl, rfl, nofun⟩
    exact ⟨{ b.toInput with invalid := true }, sound.ok, sound.usable.onward onward, rfl, sound.reading ended onward⟩
  · rename_i agrees
    have agrees : ∀ r, b.retirement = some r → b.evidence.taken = true → r.agrees b.evidence = .ok () := by
      intro r is taken
      simpa [is, taken] using agrees
    obtain ⟨ok, certified⟩ := Input.certify_ok vouched sound.usable goes.1.1 agrees
    have short : ∀ sequence f, b.certify.unfed sequence = some f → f.payload.length ≤ f.length.toNat := by
      rw [Input.certify_eq]
      exact fun sequence f found => (vouched.unfed sequence f found).2.2 goes.1.1
    unfold Batch.feed
    simp only
    obtain ⟨ok, onward⟩ := takeAll_ok true (b.certify.certifiedThrough true - b.certify.fed) ok short
    generalize takeAll true (b.certify.certifiedThrough true - b.certify.fed) b.certify = out at ok onward ⊢
    obtain ⟨start, placed⟩ := out
    have onward := certified.trans onward
    have read := sound.reading ended onward
    refine ⟨start, ok, sound.usable.onward onward, onward.retirement, ?_⟩
    have fed : Read w given start (if start.invalid then { b with toInput := start }
        else placed.foldl (Batch.readPlaced w) { b with toInput := start }) := by
      split
      · exact read
      · exact read.readAll placed
    simp only
    generalize (if start.invalid = true then ({ b with toInput := start } : Batch Shape)
        else placed.foldl (Batch.readPlaced w) { b with toInput := start }) = c at fed ⊢
    split
    · exact fed
    · exact fed.finishReading

theorem Read.ends {start : Input} (read : Read w given start b) (unsettled : Bool)
    (ok : ∀ d, (start.place d).Ok) (usable : start.Usable)
    (retired : unsettled = true ∨ start.retirement.isSome = true) :
    Sound w fragments given { b with ended := true, unsettled } := by
  obtain ⟨low, reading⟩ := read
  have later : Later b { b with ended := true, unsettled } := by
    refine ⟨fun is => is, fun is => is, fun is => is, ?_⟩
    rintro source role reason (early | ⟨past, -⟩)
    · exact .inl early
    · rw [reading.ended] at past
      cases past
  refine ⟨reading.input.place ▸ ok, nofun,
    fun r is valid => usable r (reading.input.retirement ▸ is) (reading.input.invalid valid),
    fun _ => ?_, fun _ => rfl, ⟨low, fun p is => ⟨reading.parse p is, fun q => reading.pairing p q is⟩⟩,
    reading.told.later later rfl rfl, .of_none reading.line⟩
  · show unsettled = true ∨ b.retirement.isSome = true
    rwa [reading.input.retirement]

theorem Sound.decideTail (sound : Sound w fragments given b) (ended : b.ended = true) (line : b.line = none) :
    Sound w fragments given b.decideTail := by
  obtain ⟨told, same⟩ := decideTail_told sound.told (.inl ended)
  exact { sound with told, closed := .of_none line }

theorem Sound.close (sound : Sound w fragments given b) (ended : b.ended = true) (chain : b.chain = []) :
    Sound w fragments given (b.close w) := by
  obtain ⟨closed, same⟩ := close_closed (w := w) ended chain
  exact { sound with
    vouched := fun is => nomatch is
    retired := fun _ => sound.retired ended
    unsettled := fun _ => rfl
    told := sound.told.same same rfl rfl
    closed }

theorem Sound.processBatch (sound : Sound w fragments given b) (ended : b.ended = false)
    (retired : b.retirement.isSome = true) : Sound w fragments given (b.processBatch w) := by
  obtain ⟨start, ok, usable, same, read⟩ := sound.readRetired ended
  unfold Batch.processBatch
  simp only
  generalize b.readRetired w = c at read ⊢
  obtain ⟨line, unsettled⟩ : c.line = none ∧ c.unsettled = false := by
    obtain ⟨low, reading⟩ := read
    exact ⟨reading.line, reading.settled⟩
  have past : Sound w fragments given { c with ended := true } := by
    have ends : Sound w fragments given { c with ended := true, unsettled := false } :=
      read.ends false ok usable (.inr (same ▸ retired))
    rwa [← unsettled] at ends
  split
  · exact (past.decideTail rfl line).advanceChain
  · rename_i through
    simp only [not_or, ne_eq, not_not] at through
    exact past.close rfl through.1

theorem Sound.answer (read : Field → Raw → Except Failure Replacement) (sound : Sound w fragments given b)
    (said : Answer Raw) : Sound w fragments given (b.answer w read said) := by
  unfold Batch.answer
  cases chained : b.chain with
  | nil => exact sound
  | cons d rest =>
    simp only
    split
    · have alike := resolve_alike (w := w) read d said b.outside.room
      generalize w.resolve read d said b.outside.room = out at alike ⊢
      obtain ⟨e, cuts, room⟩ := out
      simp only at alike ⊢
      have line : b.line = none := by
        cases is : b.line with
        | none => rfl
        | some closing =>
          rw [(sound.closed closing is).2.1] at chained
          cases chained
      have answered : Sound w fragments given
          { b with chain := e :: rest, calling := false, outside := { b.outside with room } } := by
        refine { sound with
          told := sound.told.chained (.of_same rfl rfl rfl) rfl fun _ _ behind x member => ?_
          closed := .of_none line }
        rcases List.mem_cons.mp member with rfl | member
        · exact (behind d (chained ▸ List.mem_cons_self)).alike alike
        · exact behind x (chained ▸ List.mem_cons_of_mem _ member)
      refine Sound.advanceChain ?_
      split
      · exact answered.cutOff line
      · exact answered
    · exact sound

theorem Sound.retire (sound : Sound w fragments given b) (ended : b.ended = false) (final lost : Bool) :
    Sound w fragments given (b.retire w final lost).1 ∧
      ((b.retire w final lost).2 = false → (b.retire w final lost).1.ended = false) := by
  obtain ⟨vouched, onward, retired⟩ := Input.ready_vouched (sound.vouched ended) final lost
  unfold Batch.retire
  generalize b.ready final lost = out at vouched onward retired ⊢
  obtain ⟨i, ready⟩ := out
  have looked := sound.input ended vouched (sound.usable.onward onward) onward.fed onward.cut onward.lost
  simp only at retired ⊢
  split
  · rename_i is
    have final : Sound w fragments given { b with toInput := { i with final } } :=
      { looked with vouched := fun _ => { vouched with } }
    exact ⟨final.processBatch ended (by rw [← onward.retirement] at retired; exact retired is), nofun⟩
  · exact ⟨looked, fun _ => ended⟩

theorem Sound.follow (promised : Promised fragments) (read : Field → Raw → Except Failure Replacement)
    (sound : Sound w fragments given b) (event : Event Raw) (known : ∀ f, event.fragment? = some f → f ∈ fragments) :
    Sound w fragments given (b.next w read event) := by
  cases is : b.ended with
  | true =>
    cases event with
    | answer said => exact sound.answer read said
    | _ =>
      simp only [Batch.next, is, if_true]
      exact sound
  | false =>
    have line := (sound.open is).2
    have lost : ∀ lost : Bool, Sound w fragments given (if lost then b.lose else b) ∧
        (if lost then b.lose else b).ended = false := by
      intro lost
      split
      · refine ⟨sound.lose line, ?_⟩
        unfold Batch.lose
        split <;> exact is
      · exact ⟨sound, is⟩
    cases event with
    | answer said => exact sound.answer read said
    | fragment f =>
      rw [show b.next w read (.fragment f) = { b with toInput := b.acceptFragment f } from if_neg (by simp [is])]
      obtain ⟨vouched, onward⟩ := Input.acceptFragment_vouched (sound.vouched is) (known f rfl)
      exact sound.input is vouched (sound.usable.onward onward) onward.fed onward.cut onward.lost
    | retirement r =>
      rw [show b.next w read (.retirement r) = { b with toInput := b.acceptRetirement r } from if_neg (by simp [is])]
      obtain ⟨vouched, place, cut, lost⟩ := Input.acceptRetirement_vouched (sound.vouched is) r
      exact sound.input is vouched (Input.acceptRetirement_usable b.toInput r) (fun d => by rw [place]) cut lost
    | turn final settled gone =>
      simp only [Batch.next, is, Bool.false_eq_true, if_false]
      obtain ⟨sound, ended⟩ := lost gone
      generalize (if gone = true then b.lose else b) = c at sound ended ⊢
      have looked : ∀ out : Batch Shape × Bool, out = (if settled then c.retire w final gone else (c, false)) →
          Sound w fragments given out.1 ∧ (out.2 = false → out.1.ended = false) := by
        rintro _ rfl
        split
        · exact sound.retire ended final gone
        · exact ⟨sound, fun _ => ended⟩
      have looked := looked _ rfl
      generalize (if settled = true then c.retire w final gone else (c, false)) = out at looked ⊢
      obtain ⟨e, past⟩ := out
      cases past with
      | true => exact looked.1
      | false => exact (looked.1.advance promised (looked.2 rfl)).advanceChain
    | sweep final gone =>
      simp only [Batch.next, is, Bool.false_eq_true, if_false]
      obtain ⟨sound, ended⟩ := lost gone
      exact (sound.retire ended final gone).1
    | bound =>
      simp only [Batch.next, is, Bool.false_eq_true, if_false]
      exact sound.cutOff line
    | unsettle =>
      simp only [Batch.next, is, Bool.false_eq_true, if_false]
      split
      · have ends : Sound w fragments given { b with ended := true, unsettled := true } :=
          (sound.reading is (.refl _)).ends true sound.ok sound.usable (.inl rfl)
        exact (ends.decideTail rfl line).advanceChain
      · exact sound

theorem Sound.run (promised : Promised fragments) (read : Field → Raw → Except Failure Replacement)
    (events : List (Event Raw)) (sound : Sound w fragments given b)
    (known : ∀ f ∈ events.filterMap Event.fragment?, f ∈ fragments) :
    Sound w fragments given (b.run w read events) := by
  induction events generalizing b with
  | nil => exact sound
  | cons event rest ih =>
    refine ih (sound.follow promised read event fun f is => known f ?_) fun f member => known f ?_
    · exact List.mem_filterMap.mpr ⟨event, List.mem_cons_self, is⟩
    · obtain ⟨e, inside, is⟩ := List.mem_filterMap.mp member
      exact List.mem_filterMap.mpr ⟨e, List.mem_cons_of_mem _ inside, is⟩

theorem Sound.fresh (w : Worker Shape) (fragments : List Record) (process : Process) (id : Nat) (outside : Outside) :
    Sound w fragments [] { process, id, outside } := by
  have ok : ∀ d : Direction, (({ process, id, outside } : Batch Shape).place d).Ok :=
    fun d => ⟨Nat.le_refl _, fun stop is => nomatch is⟩
  refine ⟨ok, fun _ => ⟨ok, fun _ _ is => ?_, fun _ _ => rfl, fun is => ?_, fun is => ?_, fun is => ?_⟩,
    fun _ is => ?_, fun is => ?_, fun is => ?_, ⟨fun _ => 0, fun _ is => ?_⟩,
    fun _ _ => ⟨fun _ is => ?_, fun _ is => ?_, fun _ is => ?_⟩, fun _ is => ?_⟩
  all_goals cases is

theorem Sound.reason {source : Reconstruct.Exchange Shape} {role : Reconstruct.Role} {reason : Reason}
    (sound : Sound w fragments given b) (decided : b.Decided source role reason) :
    exclusionReason source role b.truncation = reason := by
  rcases decided with ⟨omitted, is, same, read⟩ | ⟨-, is⟩
  · subst same
    refine exclusionReason_truncation is read sound.ok ?_
    obtain ⟨low, parse⟩ := sound.parse
    cases held : b.parse with
    | none => simp [Batch.omitted, held] at is
    | some p =>
      simp only [Batch.omitted, Batch.released, held, Option.bind_some, Option.map_some, Option.getD_some] at is ⊢
      exact (parse p held).1.below _ _ is
  · exact is

def Records (b : Batch Shape) (source : Reconstruct.Exchange Shape) (role : Reconstruct.Role) (reason : Reason) : Prop :=
  ∀ closing, b.line = some closing →
    b.unsettled = true ∨ ∃ stops, closing = .read stops ∧ exclusionReason source role stops = reason

theorem Sound.records {source : Reconstruct.Exchange Shape} {role : Reconstruct.Role} {reason : Reason}
    (sound : Sound w fragments given b) (cut : b.cut = false) (lost : b.lost = false) (valid : b.invalid = false)
    (halted : b.Halted) (decided : b.Decided source role reason) : b.Records source role reason := by
  intro closing is
  obtain ⟨ended, -, written⟩ := sound.closed closing is
  rcases sound.retired ended with unsettled | retired
  · exact .inl unsettled
  obtain ⟨r, retired⟩ := Option.isSome_iff_exists.mp retired
  obtain ⟨p, parsed, excluded⟩ := halted
  obtain ⟨low, parse⟩ := sound.parse
  have holds := (parse p parsed).1
  have fewer := failed_lt holds.failed (holds.goes excluded)
  cases unsettled : b.unsettled with
  | true => exact .inl rfl
  | false =>
    refine .inr ⟨b.truncation, ?_, sound.reason decided⟩
    rw [written, Batch.closing, retired]
    have reads : 0 < (w.pipelines.filter (·.reconstructs)).length := Nat.lt_of_le_of_lt (Nat.zero_le _) fewer
    simp only [unsettled, valid, (sound.usable r retired valid).2, cut, lost, parsed, Bool.not_true, Bool.or_self,
      Bool.false_eq_true, if_false, Option.all_some, decide_eq_true fewer, and_true, if_pos reads]

end Batch

/-- Over every run of a connection, and every point of it: where an exclusion is
settled at that point, the truncation at any later point gives the exchange the same
reason, unless the connection is cut or lost by then; and where it is not refused
either, that is the reason its connection line records. What the extensions were
told of each excluded exchange is then why it was excluded alone, or what the
connection line records. -/
theorem settled_early_stays (w : Worker Shape) (read : Field → Raw → Except Failure Replacement) (process : Process)
    (id : Nat) (outside : Outside) (before after : List (Event Raw))
    (promised : Promised ((before ++ after).filterMap Event.fragment?))
    (cut : (Batch.run w read { process, id, outside } (before ++ after)).cut = false)
    (lost : (Batch.run w read { process, id, outside } (before ++ after)).lost = false)
    (valid : (Batch.run w read { process, id, outside } (before ++ after)).invalid = false) :
    (∀ source role reason, (Batch.run w read { process, id, outside } before).settled source role = some reason →
      exclusionReason source role (Batch.run w read { process, id, outside } (before ++ after)).truncation = reason ∧
      (Batch.run w read { process, id, outside } (before ++ after)).Records source role reason) ∧
    ∀ d ∈ (Batch.run w read { process, id, outside } (before ++ after)).sent, d.excluded = true →
      ∃ reason, d.reason = some reason ∧ (reason.ofContent = true ∨
        (Batch.run w read { process, id, outside } (before ++ after)).Records d.source d.role reason) := by
  have start := Batch.Sound.fresh w ((before ++ after).filterMap Event.fragment?) process id outside
  constructor
  · intro source role reason settled
    have early := start.run promised read before fun f member => by
      rw [List.filterMap_append]
      exact List.mem_append_left _ member
    have halted : (Batch.run w read { process, id, outside } before).Halted := by
      obtain ⟨low, parse⟩ := early.parse
      unfold Batch.settled at settled
      cases held : (Batch.run w read { process, id, outside } before).parse with
      | none => simp [Batch.omitted, held] at settled
      | some p =>
        refine ⟨p, held, ?_⟩
        by_contra open_
        have none := (parse p held).1.fresh (by simpa using open_) (keptOut source role)
        simp [Batch.omitted, held, none] at settled
    have given : Batch.Sound w ((before ++ after).filterMap Event.fragment?) [⟨source, role, reason⟩]
        (Batch.run w read { process, id, outside } before) := by
      refine { early with told := fun cut lost => ⟨fun g member => ?_, (early.told cut lost).2⟩ }
      cases List.mem_singleton.mp member
      exact ⟨halted, Batch.settled_decided settled⟩
    have whole := given.run promised read after fun f member => by
      rw [List.filterMap_append]
      exact List.mem_append_right _ member
    rw [show (Batch.run w read { process, id, outside } before).run w read after =
      Batch.run w read { process, id, outside } (before ++ after) from List.foldl_append.symm] at whole
    obtain ⟨halted, decided⟩ := (whole.told cut lost).1 _ List.mem_cons_self
    exact ⟨whole.reason decided, whole.records cut lost valid halted decided⟩
  · intro d sent excluded
    have whole := start.run promised read (before ++ after) fun f member => member
    obtain ⟨told, decided⟩ := (whole.told cut lost).2.2 d sent
    obtain ⟨reason, is⟩ := Option.ne_none_iff_exists'.mp (decided excluded)
    refine ⟨reason, is, ?_⟩
    rcases told excluded with ⟨other, same, content⟩ | ⟨halted, reasons⟩
    · rw [is] at same
      cases same
      exact .inl content
    · exact .inr (whole.records cut lost valid halted (reasons reason is))

def brokenWorker : Worker Unit where
  limits := { json := fun _ => .error "" }
  pipelines := [{ name := [], reconstructs := true, slots := [] }]
  entries := [[.line .request]]
  decoder := fun _ _ _ _ => (.decodingFailed, [])

def brokenFragment (direction : Direction) (sequence : Nat) (payload : Bytes) (evidence : Evidence) : Record :=
  { process := { pid := 7 }, connection := 1, direction, sequence, offset := 0, length := UInt32.ofNat payload.length
    produced := 1, empties := 0, payload, time := 5, evidence }

def brokenBefore : List (Event Unit) :=
  [.fragment (brokenFragment .sent 1 [65, 32, 66, 13, 10, 88] {}),
    .fragment (brokenFragment .received 2 [72, 84, 84, 80, 47, 49, 46, 49, 32, 50, 48, 52, 32, 78, 13, 10, 13, 10]
      (lossyEvidence 2 { limit := 6, first := 1, numbered := 1, resolved := 1 }
        { limit := 18, first := 1, numbered := 1, resolved := 1 })),
    .turn false false false]

def brokenAfter : List (Event Unit) :=
  let established := fun direction : Direction =>
    ({ connection := 1, direction, positions := .established, lost := Connection.counted 0 } : Connection.Placement)
  [.retirement { lossyRetirement with
      fragments := Connection.counted 2, placements := [established .sent, established .received] },
    .turn true true false, .answer .unchanged]

def brokenRun (events : List (Event Unit)) : Batch Unit :=
  Batch.run brokenWorker (fun _ _ => .error .malformed) { process := { pid := 7 }, id := 1, outside := { ids := [1] } }
    events

theorem settled_early_stays_broken : (brokenRun brokenBefore).chain ≠ [] ∧
    (∀ d ∈ (brokenRun brokenBefore).chain,
      exclusionReason d.source d.role (brokenRun (brokenBefore ++ brokenAfter)).truncation = .malformedMessage) ∧
    (brokenRun (brokenBefore ++ brokenAfter)).line.isSome = true := by
  refine ⟨by decide +kernel, fun d member => ?_, by decide +kernel⟩
  have settled : ∀ d ∈ (brokenRun brokenBefore).chain,
      (brokenRun brokenBefore).settled d.source d.role = some .malformedMessage := by decide +kernel
  exact ((settled_early_stays brokenWorker (fun _ _ => .error .malformed) { pid := 7 } 1 { ids := [1] } brokenBefore
    brokenAfter (by unfold Promised; decide +kernel) (by decide +kernel) (by decide +kernel) (by decide +kernel)).1
    d.source d.role .malformedMessage (settled d member)).1

/-- Until the retirement is read, what the pairing was given lies, in each direction,
below what the evidence of one fragment establishes, and stops where that cuts it. -/
theorem run_vouched (w : Worker Shape) (read : Field → Raw → Except Failure Replacement) (process : Process) (id : Nat)
    (outside : Outside) (events : List (Event Raw)) (promised : Promised (events.filterMap Event.fragment?)) :
    let b := Batch.run w read { process, id, outside } events
    b.ended = false → (∀ d, (b.place d).fed = 0) ∨ ∃ f ∈ events.filterMap Event.fragment?, ∀ d,
      (b.place d).fed ≤ (f.evidence.inDirection d).established ∧ ((f.evidence.inDirection d).cut = true →
        ∃ stop, (b.place d).stop = some stop ∧ stop.offset ≤ (f.evidence.inDirection d).fromOffset) := by
  intro b ended
  have vouched := ((Batch.Sound.fresh w _ process id outside).run promised read events fun _ member => member).vouched ended
  cases taken : b.evidence.taken with
  | false => exact .inl (vouched.untaken taken)
  | true =>
    obtain ⟨f, known, same⟩ := vouched.source taken
    refine .inr ⟨f, known, fun d => ?_⟩
    rw [same]
    exact ⟨vouched.established taken d, vouched.cut taken d⟩

theorem run_vouched_broken : ∃ f ∈ brokenBefore.filterMap Event.fragment?,
    ((brokenRun brokenBefore).place .sent).fed ≤ (f.evidence.inDirection .sent).established := by
  unfold brokenRun
  obtain ⟨f, known, vouched⟩ := (run_vouched brokenWorker (fun _ _ => .error .malformed) { pid := 7 } 1 { ids := [1] }
    brokenBefore (by unfold Promised; decide +kernel) (by decide +kernel)).resolve_left
    fun none => absurd (none .sent) (by decide +kernel)
  exact ⟨f, known, (vouched .sent).1⟩

end EdgeObserver.Processing
