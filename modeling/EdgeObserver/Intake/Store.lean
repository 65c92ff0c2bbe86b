import EdgeObserver.Library.Runs
import EdgeObserver.Connection.Record

/-!
# The volatile intake

A first-in first-out store of captured records under one allowance, which the
work on those records draws on too. An entry is named by its place among all
the entries ever stored; only `take` gives one out.
-/

set_option autoImplicit false

namespace EdgeObserver.Intake

open Held

inductive Error where
  | limit
  | closed
  | uninitialized

structure Stats where
  limitBytes : Int64 := 0
  bytes : Int64 := 0
  queued : Int64 := 0
  leased : Int64 := 0
  fragments : Int64 := 0
  connections : Int64 := 0
  fragmentsRefused : Int64 := 0
  connectionsRefused : Int64 := 0
  exhausted : Bool := false
  closed : Bool := false
  parsing : Int64 := 0
  policy : Int64 := 0
  parsingRefused : Int64 := 0
  policyRefused : Int64 := 0
  deriving DecidableEq

/-- Who holds a work charge; `other` is any value but the two named. -/
inductive Owner where
  | parsing
  | policy
  | other (value : UInt8)
  deriving DecidableEq

inductive Stored where
  | fragment (record : Fragment.Record)
  | connection (record : Connection.Record)
  deriving DecidableEq

/-- An entry. Its record is dropped when it is released; its slot is the place
of the delivery gate's slot it keeps. -/
structure Entry where
  stored : Option Stored
  bytes : Int64
  released : Bool := false
  slot : Option Nat := none
  deriving DecidableEq

structure Sizes where
  entry : Nat
  fragment : Nat
  connection : Nat
  association : Nat
  placement : Nat
  early : Nat
  descriptor : Nat

/-- What is left of an allowance while one record is counted. It starts from
`Store.left`, which is never below zero. -/
structure Allowance where
  left : Nat

def Allowance.add (a : Allowance) (count size : Nat) : Option Allowance :=
  if count > a.left / size then none else some { left := a.left - count * size }

def Allowance.association (sizes : Sizes) (a : Allowance) (one : Connection.Association) :
    Option Allowance := do
  let a ← a.add one.contended.length sizes.descriptor
  let a ← a.add one.endpoints.near.ip.zone.length 1
  a.add one.endpoints.remote.ip.zone.length 1

def Allowance.connection (sizes : Sizes) (a : Allowance) (r : Connection.Record) :
    Option Allowance := do
  let a ← a.add 1 (sizes.entry + sizes.connection)
  let a ← a.add r.executed.executable.length 1
  let a ← a.add r.fragments.why.length 1
  let a ← a.add r.associations.length sizes.association
  let a ← a.add r.placements.length sizes.placement
  let a ← a.add r.early.length sizes.early
  let a ← r.associations.foldlM (Allowance.association sizes) a
  r.placements.foldlM (fun a one => a.add one.lost.why.length 1) a

def Allowance.fragment (sizes : Sizes) (a : Allowance) (r : Fragment.Record) :
    Option Allowance := do
  let a ← a.add 1 (sizes.entry + sizes.fragment)
  a.add r.payload.length 1

/-- The queue holds the places of its entries, its head first. The exhaustion
signal is nil on a store nothing constructed, and otherwise counts how often it
was closed. -/
structure Store where
  stats : Stats := {}
  entries : List Entry := []
  queue : List Nat := []
  exhausted : Option Nat := none
  deriving DecidableEq

def newStore (limitBytes : Int64) : Except String Store :=
  if limitBytes ≤ 0 then .error "volatile intake requires a positive byte limit"
  else .ok { stats := { limitBytes }, exhausted := some 0 }

namespace Store

def ready (s : Store) : Option Error :=
  if s.exhausted = none then some .uninitialized
  else if s.stats.closed then some .closed
  else none

def left (s : Store) : Int64 := max (s.stats.limitBytes - s.stats.bytes - s.stats.parsing - s.stats.policy) 0

def full (s : Store) : Store :=
  if s.stats.exhausted then s
  else { s with
    stats := { s.stats with exhausted := true }
    exhausted := s.exhausted.map (· + 1) }

def append (s : Store) (entry : Entry) : Store :=
  { s with
    stats := { s.stats with
      bytes := s.stats.bytes + entry.bytes
      queued := s.stats.queued + 1 }
    entries := s.entries ++ [entry]
    queue := s.queue ++ [s.entries.length] }

def charge (s : Store) (budget : Allowance) : Int64 := s.left - Int64.ofNat budget.left

/-- One fragment stored, with the refusal and what became of its connection's
loss token. The entry keeps the record's slot. -/
def write (sizes : Sizes) (s : Store) (record : Fragment.Record) (loss : Option Loss) :
    Option Error × Option Loss × Store :=
  match s.ready with
  | some error =>
    (some error, loss, { s with stats := { s.stats with fragmentsRefused := s.stats.fragmentsRefused + 1 } })
  | none =>
    match Allowance.fragment sizes { left := s.left.toNatClampNeg } record with
    | none =>
      (some .limit, loss.map (·.stop "intake_exhausted"),
        { s with
          stats := { s.stats with fragmentsRefused := s.stats.fragmentsRefused + 1 } }.full)
    | some budget =>
      let after := s.append {
        stored := some (.fragment { record with slot := none })
        bytes := s.charge budget
        slot := record.slot }
      (none, loss, { after with stats := { after.stats with fragments := after.stats.fragments + 1 } })

def connection (sizes : Sizes) (s : Store) (record : Connection.Record) (loss : Option Loss) :
    Option Error × Option Loss × Store :=
  match s.ready with
  | some error =>
    (some error, loss, { s with stats := { s.stats with connectionsRefused := s.stats.connectionsRefused + 1 } })
  | none =>
    match Allowance.connection sizes { left := s.left.toNatClampNeg } record with
    | none =>
      (some .limit, loss.map (·.stop "intake_exhausted"),
        { s with
          stats := { s.stats with
            connectionsRefused := s.stats.connectionsRefused + 1 } }.full)
    | some budget =>
      let after := s.append {
        stored := some (.connection { record with slot := none })
        bytes := s.charge budget
        slot := record.slot }
      (none, loss, { after with stats := { after.stats with connections := after.stats.connections + 1 } })

def take (s : Store) : Option Nat × Store :=
  match s.queue with
  | [] => (none, s)
  | head :: rest =>
    (some head, { s with
      queue := rest
      stats := { s.stats with queued := s.stats.queued - 1, leased := s.stats.leased + 1 } })

def releaseAs (s : Store) (place : Nat) : Option Nat × Store :=
  match s.entries[place]? with
  | none => (none, s)
  | some entry =>
    if entry.released then (none, s)
    else
      (entry.slot, { s with
        entries := s.entries.set place
          { entry with released := true, stored := none, slot := none }
        stats := { s.stats with
          bytes := s.stats.bytes - entry.bytes
          leased := s.stats.leased - 1 } })

def reserve (s : Store) (owner : Owner) (n : Int64) : Bool × Store :=
  match owner with
  | .other _ => (false, s)
  | .parsing =>
    if n < 0 then (false, s)
    else if s.exhausted = none then (false, s)
    else if n > s.left then
      (false, { s with
        stats := { s.stats with parsingRefused := s.stats.parsingRefused + 1 } })
    else (true, { s with stats := { s.stats with parsing := s.stats.parsing + n } })
  | .policy =>
    if n < 0 then (false, s)
    else if s.exhausted = none then (false, s)
    else if n > s.left then
      (false, { s with
        stats := { s.stats with policyRefused := s.stats.policyRefused + 1 } })
    else (true, { s with stats := { s.stats with policy := s.stats.policy + n } })

/-- `Return`: what an owner reserved and no longer holds. -/
def giveBack (s : Store) (owner : Owner) (n : Int64) : Store :=
  if n ≤ 0 then s
  else match owner with
    | .parsing => { s with stats := { s.stats with parsing := s.stats.parsing - n } }
    | .policy => { s with stats := { s.stats with policy := s.stats.policy - n } }
    | .other _ => s

def discard (s : Store) (place : Nat) : Store :=
  match s.entries[place]? with
  | none => s
  | some entry =>
    { s with
      entries := s.entries.set place { entry with released := true, stored := none }
      stats := { s.stats with bytes := s.stats.bytes - entry.bytes } }

def close (s : Store) : Store :=
  let after := s.queue.foldl discard { s with stats := { s.stats with closed := true } }
  { after with queue := [], stats := { after.stats with queued := 0 } }

theorem discard_entries (s : Store) (gone place : Nat) :
    (s.discard gone).entries[place]? = s.entries[place]?.map (fun entry =>
      if place = gone then { entry with released := true, stored := none } else entry) := by
  unfold discard
  cases found : s.entries[gone]? with
  | none =>
    by_cases same : place = gone
    · simp [same, found]
    · simp [same]
  | some entry =>
    obtain ⟨inside, here⟩ := List.getElem?_eq_some_iff.mp found
    by_cases same : place = gone
    · subst same
      simp [inside, here]
    · simp [same, Ne.symm same]

/-- What a release does: nothing to an entry already released, and otherwise it
lets the entry go and gives up its slot. -/
inductive Releasing (s : Store) (place : Nat) : Option Nat → Store → Prop where
  | nothing (already : ∀ entry, s.entries[place]? = some entry → entry.released = true) : Releasing s place none s
  | released {entry : Entry} (found : s.entries[place]? = some entry) (unreleased : entry.released = false) :
      Releasing s place entry.slot { s with
        entries := s.entries.set place { entry with released := true, stored := none, slot := none }
        stats := { s.stats with
          bytes := s.stats.bytes - entry.bytes
          leased := s.stats.leased - 1 } }

theorem releaseAs_releasing (s : Store) (place : Nat) :
    s.Releasing place (s.releaseAs place).1 (s.releaseAs place).2 := by
  unfold releaseAs
  cases found : s.entries[place]? with
  | none => exact .nothing (by simp [found])
  | some entry =>
    dsimp only
    split
    · rename_i released
      exact .nothing (by simpa [found] using released)
    · rename_i unreleased
      exact .released found (by simpa using unreleased)

theorem close_entries (s : Store) (place : Nat) :
    s.close.entries[place]? = s.entries[place]?.map (fun entry =>
      if place ∈ s.queue then { entry with released := true, stored := none } else entry) := by
  have each : ∀ (places : List Nat) (t : Store),
      (places.foldl discard t).entries[place]? = t.entries[place]?.map (fun entry =>
        if place ∈ places then { entry with released := true, stored := none } else entry) := by
    intro places
    induction places with
    | nil => intro t; simp
    | cons head places ih =>
      intro t
      rw [List.foldl_cons, ih, discard_entries, Option.map_map]
      congr 1
      funext entry
      by_cases here : place = head <;> by_cases later : place ∈ places <;> simp [here, later]
  exact each s.queue { s with stats := { s.stats with closed := true } }

/-! ## What an insertion does -/

def refusing (s : Store) (fragments connections parsing policy : Int64) (exhausted : Bool)
    (signal : Option Nat) : Store :=
  { s with
    stats := { s.stats with
      fragmentsRefused := fragments
      connectionsRefused := connections
      parsingRefused := parsing
      policyRefused := policy
      exhausted }
    exhausted := signal }

def counting (s : Store) (fragments connections : Int64) : Store :=
  { s with stats := { s.stats with fragments, connections } }

/-- What an insertion does: it is refused, with its loss token stopped or not,
or stores one entry that keeps the record's slot. -/
inductive Inserting (s : Store) (slot : Option Nat) (loss : Option Loss) :
    Option Error → Option Loss → Store → Prop where
  | refused (error : Error) (token : Option Loss) (fragments connections : Int64)
      (exhausted : Bool) (signal : Option Nat)
      (recorded : token = loss ∨ token = loss.map (·.stop "intake_exhausted")) :
      Inserting s slot loss (some error) token
        (s.refusing fragments connections s.stats.parsingRefused s.stats.policyRefused exhausted signal)
  | stored (budget : Allowance) (counted : budget.left ≤ s.left.toNatClampNeg)
      (ready : s.ready = none) (stored : Stored) (fragments connections : Int64) :
      Inserting s slot loss none loss
        ((s.append { stored := some stored, bytes := s.charge budget, slot }).counting fragments connections)

def charging (s : Store) (parsing policy : Int64) : Store := { s with stats := { s.stats with parsing, policy } }

inductive Reserving (s : Store) (n : Int64) : Owner → Bool → Store → Prop where
  | refused (owner : Owner) (parsing policy : Int64) :
      Reserving s n owner false
        (s.refusing s.stats.fragmentsRefused s.stats.connectionsRefused parsing policy s.stats.exhausted s.exhausted)
  | parsing (positive : ¬ n < 0) (room : ¬ n > s.left) :
      Reserving s n .parsing true (s.charging (s.stats.parsing + n) s.stats.policy)
  | policy (positive : ¬ n < 0) (room : ¬ n > s.left) :
      Reserving s n .policy true (s.charging s.stats.parsing (s.stats.policy + n))

theorem reserve_reserving (s : Store) (owner : Owner) (n : Int64) :
    s.Reserving n owner (s.reserve owner n).1 (s.reserve owner n).2 := by
  cases owner with
  | other value => exact .refused _ s.stats.parsingRefused s.stats.policyRefused
  | parsing =>
    simp only [reserve]
    split
    · exact .refused _ s.stats.parsingRefused s.stats.policyRefused
    split
    · exact .refused _ s.stats.parsingRefused s.stats.policyRefused
    split
    · exact .refused _ (s.stats.parsingRefused + 1) s.stats.policyRefused
    rename_i positive _ room
    exact .parsing positive room
  | policy =>
    simp only [reserve]
    split
    · exact .refused _ s.stats.parsingRefused s.stats.policyRefused
    split
    · exact .refused _ s.stats.parsingRefused s.stats.policyRefused
    split
    · exact .refused _ s.stats.parsingRefused (s.stats.policyRefused + 1)
    rename_i positive _ room
    exact .policy positive room

theorem full_inserting (s : Store) (slot : Option Nat) (loss : Option Loss) (fragments connections : Int64) :
    s.Inserting slot loss (some .limit) (loss.map (·.stop "intake_exhausted"))
      (s.refusing fragments connections s.stats.parsingRefused s.stats.policyRefused
        s.stats.exhausted s.exhausted).full := by
  unfold full
  split
  · exact .refused _ _ _ _ s.stats.exhausted s.exhausted (.inr rfl)
  · exact .refused _ _ _ _ true (s.exhausted.map (· + 1)) (.inr rfl)

end Store

end EdgeObserver.Intake
