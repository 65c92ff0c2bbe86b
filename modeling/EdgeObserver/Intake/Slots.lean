import EdgeObserver.Probe.DeliveryGate
import EdgeObserver.Intake.Accounts

/-!
# Slots between the gate and the intake

A slot is reserved by an admission, travels with the event's record, is kept by
the entry that stores the record, and is returned when the entry is released.
Whoever holds a slot is one of four: the deliverer, an entry, a release that
has let its lock go and has the refund still to make, or nobody, once it is
returned.
-/

set_option autoImplicit false

namespace EdgeObserver.Intake

open Library Held Probe

/-- A gate, the intake it admits to, the slots the deliverer has in hand, the
refunds releases have still to make, and, for the account, which entry kept
which slot. -/
structure Flow where
  gate : DeliveryGate
  intake : Use
  hands : List Nat := []
  owed : List (Nat × Path) := []
  kept : List (Nat × Nat) := []

inductive FlowEvent where
  | event (kind : DeliveryKind) (measured : Bool)
  | write (record : Fragment.Record) (loss : Option Loss)
  | connection (record : Connection.Record) (loss : Option Loss)
  | unretained (slot : Nat)
  | take
  | release (place : Nat) (path : Path)
  | refund (index : Nat)
  | reserve (owner : Owner) (n : Int64)
  | giveBack (owner : Owner) (n : Int64)
  | close

namespace Flow

def store (f : Flow) : Store := f.intake.store

/-- The store after an insertion of a record with a slot: a stored record's
slot is the entry's, and the deliverer keeps a refused one's. -/
def insert (f : Flow) (slot : Option Nat) (error : Option Error) (store : Store) : Flow :=
  match error, slot with
  | none, some slot =>
    { f with
      intake := { f.intake with store }
      gate := f.gate.keep slot
      hands := f.hands.erase slot
      kept := f.kept ++ [(f.store.entries.length, slot)] }
  | _, _ => { f with intake := { f.intake with store } }

/-- One call. A record comes with a slot the deliverer has in hand, or with
none, and the deliverer returns the slot of a record nothing kept. -/
def step (sizes : Sizes) (f : Flow) : FlowEvent → Unit × Flow
  | .event kind measured =>
    let (decision, gate) := f.gate.admitEvent kind measured
    ((), { f with gate, hands := f.hands ++ decision.slot.toList })
  | .write record loss =>
    if record.slot.toList ⊆ f.hands then
      let (error, _, store) := f.store.write sizes record loss
      ((), f.insert record.slot error store)
    else ((), f)
  | .connection record loss =>
    if record.slot.toList ⊆ f.hands then
      let (error, _, store) := f.store.connection sizes record loss
      ((), f.insert record.slot error store)
    else ((), f)
  | .unretained slot =>
    if slot ∈ f.hands then
      ((), { f with
        gate := (f.gate.refund slot .unretained).2
        hands := f.hands.erase slot })
    else ((), f)
  | .take => ((), { f with intake := (f.intake.step sizes .take).2 })
  | .release place path =>
    if place ∈ f.intake.taken then
      let (slot, store) := f.store.releaseAs place
      ((), { f with
        intake := { f.intake with store }
        owed := f.owed ++ slot.toList.map (fun slot => (slot, path)) })
    else ((), f)
  | .refund index =>
    match f.owed[index]? with
    | none => ((), f)
    | some (slot, path) =>
      ((), { f with
        gate := (f.gate.refund slot path).2
        owed := f.owed.eraseIdx index })
  | .reserve owner n => ((), { f with intake := (f.intake.step sizes (.reserve owner n)).2 })
  | .giveBack owner n => ((), { f with intake := (f.intake.step sizes (.giveBack owner n)).2 })
  | .close => ((), { f with intake := (f.intake.step sizes .close).2 })

def holders (f : Flow) (slot : Nat) : Nat :=
  f.hands.count slot + (f.store.entries.map Entry.slot).count (some slot) +
    (f.owed.map Prod.fst).count slot + (f.gate.returned slot).toNat

structure Owned (f : Flow) : Prop where
  accounts : f.gate.Accounts
  once : ∀ slot, f.holders slot = if slot < f.gate.slots.length then 1 else 0
  doubles : f.gate.doubles = 0

variable {f g : Flow}

theorem Owned.held (owned : f.Owned) {slot : Nat}
    (holds : 0 < f.hands.count slot + (f.store.entries.map Entry.slot).count (some slot) +
      (f.owed.map Prod.fst).count slot) :
    slot < f.gate.slots.length ∧ f.gate.returned slot = false := by
  have once := owned.once slot
  unfold holders at once
  split at once
  · rename_i inside
    refine ⟨inside, ?_⟩
    cases gone : f.gate.returned slot with
    | false => rfl
    | true =>
      rw [gone, Bool.toNat_true] at once
      omega
  · omega

theorem Owned.refund {f g : Flow} (owned : f.Owned) (slot : Nat) (path : Path)
    (holds : 0 < f.hands.count slot + (f.store.entries.map Entry.slot).count (some slot) +
      (f.owed.map Prod.fst).count slot)
    (gate : g.gate = (f.gate.refund slot path).2) (store : g.store = f.store)
    (fewer : ∀ other, g.hands.count other + (g.owed.map Prod.fst).count other + (if other = slot then 1 else 0) =
      f.hands.count other + (f.owed.map Prod.fst).count other) : g.Owned := by
  obtain ⟨inside, held⟩ := owned.held holds
  obtain ⟨size, doubles, returned⟩ := DeliveryGate.refund_held inside held path
  constructor
  · rw [gate]
    exact owned.accounts.refund slot path
  · intro other
    have once := owned.once other
    have less := fewer other
    unfold holders at once ⊢
    rw [gate, store, size, returned]
    by_cases same : other = slot
    · subst same
      rw [held] at once
      simp only [if_true, decide_true, Bool.true_or, Bool.toNat_true, Bool.toNat_false] at once less ⊢
      omega
    · simp only [same, if_false, decide_false, Bool.false_or] at less ⊢
      omega
  · rw [gate, doubles]
    exact owned.doubles

theorem Owned.moved (owned : f.Owned) (accounts : g.gate.Accounts)
    (size : g.gate.slots.length = f.gate.slots.length) (doubles : g.gate.doubles = f.gate.doubles)
    (returned : ∀ slot, g.gate.returned slot = f.gate.returned slot)
    (same : ∀ slot, g.hands.count slot + (g.store.entries.map Entry.slot).count (some slot) +
        (g.owed.map Prod.fst).count slot =
      f.hands.count slot + (f.store.entries.map Entry.slot).count (some slot) +
        (f.owed.map Prod.fst).count slot) : g.Owned := by
  refine ⟨accounts, ?_, doubles.trans owned.doubles⟩
  intro slot
  have once := owned.once slot
  have here := same slot
  unfold holders at once ⊢
  rw [size, returned]
  omega

theorem Owned.event (owned : f.Owned) (kind : DeliveryKind) (measured : Bool) :
    ({ f with
      gate := (f.gate.admitEvent kind measured).2
      hands := f.hands ++ (f.gate.admitEvent kind measured).1.slot.toList } : Flow).Owned := by
  obtain ⟨doubles, reserved⟩ := DeliveryGate.admit_slots owned.accounts.made kind measured
  have returned := DeliveryGate.returned_admitEvent owned.accounts.made kind measured
  have accounts := owned.accounts.admitEvent kind measured
  rcases reserved with ⟨empty, size⟩ | ⟨next, size⟩
  · rw [empty]
    exact owned.moved accounts size doubles returned (by simp [store])
  refine ⟨accounts, ?_, doubles.trans owned.doubles⟩
  intro slot
  have once := owned.once slot
  unfold holders at once ⊢
  simp only [next, size, returned, Option.toList_some, List.count_append, store] at once ⊢
  by_cases new : slot = f.gate.slots.length
  · subst new
    simp only [List.count_singleton_self, Nat.lt_irrefl, Nat.lt_succ_self, if_true, if_false] at once ⊢
    omega
  · have other : List.count slot [f.gate.slots.length] = 0 := List.count_eq_zero.mpr (by simpa using new)
    have range : slot < f.gate.slots.length + 1 ↔ slot < f.gate.slots.length := by omega
    rw [other]
    simp only [range]
    omega

theorem Owned.insert {f : Flow} (owned : f.Owned) {slot : Option Nat}
    (hand : slot.toList ⊆ f.hands) {loss token : Option Loss} {error : Option Error}
    {after : Store} (inserts : f.store.Inserting slot loss error token after) :
    (f.insert slot error after).Owned := by
  cases inserts with
  | refused => exact owned.moved owned.accounts rfl rfl (fun _ => rfl) (fun _ => rfl)
  | stored budget counted ready stored fragments connections =>
    cases slot with
    | none =>
      refine owned.moved owned.accounts rfl rfl (fun _ => rfl) ?_
      intro other
      simp [Flow.insert, store, Store.counting, Store.append]
    | some slot =>
      have member : slot ∈ f.hands := hand (by simp)
      have positive := List.count_pos_iff.mpr member
      obtain ⟨size, doubles⟩ := f.gate.keep_slots slot
      refine owned.moved (owned.accounts.keep slot) size doubles (f.gate.returned_keep slot) ?_
      intro other
      simp only [Flow.insert, store, Store.counting, Store.append, List.map_append, List.map_cons,
        List.map_nil, List.count_append, List.count_erase]
      by_cases same : slot = other
      · subst same
        simp
        omega
      · simp [same]

theorem Owned.release {place : Nat} {slot : Option Nat} {after : Store} (owned : f.Owned)
    (releasing : f.store.Releasing place slot after) (path : Path) :
    ({ f with
      intake := { f.intake with store := after }
      owed := f.owed ++ slot.toList.map (fun slot => (slot, path)) } : Flow).Owned := by
  refine owned.moved owned.accounts rfl rfl (fun _ => rfl) ?_
  intro other
  show f.hands.count other + (after.entries.map Entry.slot).count (some other) +
    ((f.owed ++ slot.toList.map (fun slot => (slot, path))).map Prod.fst).count other = _
  cases releasing with
  | nothing => simp
  | @released entry found unreleased =>
    obtain ⟨inside, here⟩ := List.getElem?_eq_some_iff.mp found
    have bound : place < (f.store.entries.map Entry.slot).length := by simpa using inside
    cases kept : entry.slot with
    | none => simp [List.map_set, List.count_set bound, here, kept]
    | some slot =>
      have member : some slot ∈ f.store.entries.map Entry.slot :=
        List.mem_map.mpr ⟨entry, List.mem_of_getElem? found, kept⟩
      have positive := List.count_pos_iff.mpr member
      by_cases same : slot = other
      · subst same
        simp [List.map_set, List.count_set bound, here, kept]
        omega
      · simp [List.map_set, List.count_set bound, here, kept, same]

theorem Owned.close {f : Flow} (owned : f.Owned) :
    ({ f with intake := { f.intake with store := f.store.close } } : Flow).Owned := by
  have slots : f.store.close.entries.map Entry.slot = f.store.entries.map Entry.slot := by
    apply List.ext_getElem?
    intro place
    rw [List.getElem?_map, List.getElem?_map, Store.close_entries, Option.map_map]
    congr 1
    funext entry
    simp only [Function.comp_apply]
    split
    · rfl
    · rfl
  refine owned.moved owned.accounts rfl rfl (fun _ => rfl) ?_
  intro slot
  show f.hands.count slot + (f.store.close.entries.map Entry.slot).count (some slot) + _ = _
  rw [slots]

theorem take_entries (s : Store) : s.take.2.entries = s.entries := by
  unfold Store.take
  split
  · rfl
  · rfl

theorem reserve_entries (s : Store) (owner : Owner) (n : Int64) :
    (s.reserve owner n).2.entries = s.entries := by
  have reserves := s.reserve_reserving owner n
  generalize (s.reserve owner n).1 = granted, (s.reserve owner n).2 = after at reserves
  cases reserves with
  | refused | parsing | policy => rfl

theorem giveBack_entries (s : Store) (owner : Owner) (n : Int64) :
    (s.giveBack owner n).entries = s.entries := by
  unfold Store.giveBack
  split
  · rfl
  · cases owner with
    | parsing | policy | other => rfl

theorem Owned.of_entries (owned : f.Owned) {u : Use}
    (same : u.store.entries = f.store.entries) : ({ f with intake := u } : Flow).Owned := by
  refine owned.moved owned.accounts rfl rfl (fun _ => rfl) ?_
  intro slot
  show f.hands.count slot + (u.store.entries.map Entry.slot).count (some slot) + _ = _
  rw [same]

theorem Owned.step (sizes : Sizes) (f : Flow) (event : FlowEvent) (owned : f.Owned) :
    (f.step sizes event).2.Owned := by
  cases event with
  | event kind measured => exact owned.event kind measured
  | write record loss =>
    simp only [Flow.step]
    split
    · rename_i hand
      exact owned.insert hand (f.store.write_inserting sizes record loss)
    · exact owned
  | connection record loss =>
    simp only [Flow.step]
    split
    · rename_i hand
      exact owned.insert hand (f.store.connection_inserting sizes record loss)
    · exact owned
  | unretained slot =>
    simp only [Flow.step]
    split
    · rename_i member
      have positive := List.count_pos_iff.mpr member
      refine owned.refund slot .unretained (by omega) rfl rfl ?_
      intro other
      simp only [List.count_erase]
      by_cases same : other = slot
      · subst same
        simp
        omega
      · simp [same, Ne.symm same]
    · exact owned
  | take => exact owned.of_entries (take_entries f.store)
  | release place path =>
    simp only [Flow.step]
    split
    · exact owned.release (f.store.releaseAs_releasing place) path
    · exact owned
  | refund index =>
    simp only [Flow.step]
    split
    · exact owned
    rename_i slot path found
    obtain ⟨inside, here⟩ := List.getElem?_eq_some_iff.mp found
    have member : slot ∈ f.owed.map Prod.fst := List.mem_map.mpr ⟨(slot, path), List.mem_of_getElem? found, rfl⟩
    have positive := List.count_pos_iff.mpr member
    refine owned.refund slot path (by omega) rfl rfl ?_
    intro other
    have parted : (f.owed.map Prod.fst).count other =
        ((f.owed.eraseIdx index).map Prod.fst).count other + if other = slot then 1 else 0 := by
      have perm := List.getElem_cons_eraseIdx_perm inside
      rw [← (perm.map Prod.fst).count_eq other, here, List.map_cons, List.count_cons]
      by_cases same : other = slot
      · simp [same]
      · simp [same, Ne.symm same]
    dsimp only
    omega
  | reserve owner n => exact owned.of_entries (reserve_entries f.store owner n)
  | giveBack owner n => exact owned.of_entries (giveBack_entries f.store owner n)
  | close => exact owned.close

/-! ## What became of the slots entries kept -/

structure Tended (f : Flow) : Prop where
  kept : ∀ place slot, (place, slot) ∈ f.kept → ∃ entry, f.store.entries[place]? = some entry ∧
    (entry.slot = some slot ∨ (entry.released = true ∧ (slot ∈ f.owed.map Prod.fst ∨ f.gate.returned slot = true)))
  gone : ∀ entry ∈ f.store.entries, entry.released = true → entry.slot = none

def Clear (f : Flow) : FlowEvent → Prop
  | .close => ∀ place ∈ f.store.queue, ∀ entry, f.store.entries[place]? = some entry →
      entry.slot = none
  | _ => True

theorem Tended.of_entries (tended : f.Tended) (kept : g.kept = f.kept) (entries : g.store.entries = f.store.entries)
    (settles : ∀ slot, slot ∈ f.owed.map Prod.fst ∨ f.gate.returned slot = true →
      slot ∈ g.owed.map Prod.fst ∨ g.gate.returned slot = true) : g.Tended := by
  constructor
  · intro place slot member
    rw [kept] at member
    obtain ⟨entry, found, has⟩ := tended.kept place slot member
    refine ⟨entry, by rw [entries]; exact found, ?_⟩
    rcases has with still | ⟨released, settled⟩
    · exact .inl still
    · exact .inr ⟨released, settles slot settled⟩
  · rw [entries]
    exact tended.gone

theorem Tended.append (tended : f.Tended) {entry : Entry} (unreleased : entry.released = false)
    (entries : g.store.entries = f.store.entries ++ [entry])
    (kept : ∀ place slot, (place, slot) ∈ g.kept →
      (place, slot) ∈ f.kept ∨ (place = f.store.entries.length ∧ entry.slot = some slot))
    (owed : g.owed = f.owed) (returned : ∀ slot, g.gate.returned slot = f.gate.returned slot) :
    g.Tended := by
  constructor
  · intro place slot member
    rw [entries, owed, returned]
    rcases kept place slot member with before | ⟨rfl, has⟩
    · obtain ⟨found, here, has⟩ := tended.kept place slot before
      obtain ⟨inside, -⟩ := List.getElem?_eq_some_iff.mp here
      exact ⟨found, by rw [List.getElem?_append_left inside]; exact here, has⟩
    · exact ⟨entry, by simp, .inl has⟩
  · rw [entries]
    intro other member released
    rcases List.mem_append.mp member with before | new
    · exact tended.gone other before released
    · rw [List.mem_singleton.mp new, unreleased] at released
      cases released

theorem Tended.insert {f : Flow} (tended : f.Tended) {slot : Option Nat} {loss token : Option Loss}
    {error : Option Error} {after : Store}
    (inserts : f.store.Inserting slot loss error token after) :
    (f.insert slot error after).Tended := by
  cases inserts with
  | refused => exact tended.of_entries rfl rfl (fun _ settled => settled)
  | stored budget counted ready stored fragments connections =>
    cases slot with
    | none =>
      exact @append f _ tended ⟨some stored, f.store.charge budget, false, none⟩ rfl rfl
        (fun _ _ member => .inl member) rfl (fun _ => rfl)
    | some slot =>
      refine @append f _ tended ⟨some stored, f.store.charge budget, false, some slot⟩ rfl rfl
        ?_ rfl (f.gate.returned_keep slot)
      intro place other member
      rcases List.mem_append.mp member with before | new
      · exact .inl before
      · cases List.mem_singleton.mp new
        exact .inr ⟨rfl, rfl⟩

theorem Tended.release {place : Nat} {slot : Option Nat} {after : Store} (tended : f.Tended)
    (releasing : f.store.Releasing place slot after) (path : Path) :
    ({ f with
      intake := { f.intake with store := after }
      owed := f.owed ++ slot.toList.map (fun slot => (slot, path)) } : Flow).Tended := by
  cases releasing with
  | nothing =>
    refine tended.of_entries rfl rfl ?_
    intro other settled
    simpa using settled
  | @released entry found unreleased =>
    obtain ⟨inside, here⟩ := List.getElem?_eq_some_iff.mp found
    constructor
    · intro other slot member
      obtain ⟨before, there, has⟩ := tended.kept other slot member
      by_cases same : place = other
      · subst same
        have whole : before = entry := Option.some.inj (there.symm.trans found)
        subst whole
        refine ⟨_, List.getElem?_set_self inside, .inr ⟨rfl, .inl ?_⟩⟩
        rcases has with still | ⟨released, -⟩
        · simp [still]
        · rw [unreleased] at released
          cases released
      · refine ⟨before, ?_, ?_⟩
        · show (f.store.entries.set place _)[other]? = some before
          rw [List.getElem?_set_ne same]
          exact there
        · rcases has with still | ⟨released, owed | returned⟩
          · exact .inl still
          · refine .inr ⟨released, .inl ?_⟩
            rw [List.map_append]
            exact List.mem_append_left _ owed
          · exact .inr ⟨released, .inr returned⟩
    · intro other member released
      rcases List.mem_or_eq_of_mem_set member with before | rfl
      · exact tended.gone other before released
      · rfl

theorem Tended.close {f : Flow} (tended : f.Tended) (clear : f.Clear .close) :
    ({ f with intake := { f.intake with store := f.store.close } } : Flow).Tended := by
  constructor
  · intro place slot member
    obtain ⟨entry, found, has⟩ := tended.kept place slot member
    have after := f.store.close_entries place
    rw [found, Option.map_some] at after
    refine ⟨_, after, ?_⟩
    split
    · rcases has with still | ⟨-, settled⟩
      · exact .inl still
      · exact .inr ⟨rfl, settled⟩
    · exact has
  · intro after member released
    obtain ⟨place, found⟩ := List.mem_iff_getElem?.mp member
    obtain ⟨entry, before, rfl⟩ := Option.map_eq_some_iff.mp ((f.store.close_entries place).symm.trans found)
    split
    · rename_i queued
      exact clear place queued entry before
    · rename_i unqueued
      rw [if_neg unqueued] at released
      exact tended.gone entry (List.mem_of_getElem? before) released

theorem Tended.step (sizes : Sizes) (f : Flow) (event : FlowEvent) (owned : f.Owned)
    (tended : f.Tended) (clear : f.Clear event) : (f.step sizes event).2.Tended := by
  cases event with
  | event kind measured =>
    refine tended.of_entries rfl rfl ?_
    intro slot settled
    have same := DeliveryGate.returned_admitEvent owned.accounts.made kind measured slot
    exact settled.imp_right same.trans
  | write record loss =>
    simp only [Flow.step]
    split
    · exact tended.insert (f.store.write_inserting sizes record loss)
    · exact tended
  | connection record loss =>
    simp only [Flow.step]
    split
    · exact tended.insert (f.store.connection_inserting sizes record loss)
    · exact tended
  | unretained slot =>
    simp only [Flow.step]
    split
    · refine tended.of_entries rfl rfl ?_
      intro other settled
      exact settled.imp_right (DeliveryGate.returned_refund slot .unretained)
    · exact tended
  | take => exact tended.of_entries rfl (take_entries f.store) (fun _ settled => settled)
  | release place path =>
    simp only [Flow.step]
    split
    · exact tended.release (f.store.releaseAs_releasing place) path
    · exact tended
  | refund index =>
    simp only [Flow.step]
    split
    · exact tended
    rename_i slot path found
    refine tended.of_entries rfl rfl ?_
    intro other settled
    rcases settled with owed | returned
    · by_cases same : other = slot
      · subst same
        have member : other ∈ f.owed.map Prod.fst := List.mem_map.mpr ⟨(other, path), List.mem_of_getElem? found, rfl⟩
        have positive := List.count_pos_iff.mpr member
        obtain ⟨inside, held⟩ := @Owned.held f owned other (by omega)
        obtain ⟨-, -, gone⟩ := DeliveryGate.refund_held inside held path
        exact .inr ((gone other).trans (by simp))
      · obtain ⟨⟨which, why⟩, listed, rfl⟩ := List.mem_map.mp owed
        obtain ⟨position, there⟩ := List.mem_iff_getElem?.mp listed
        have apart : position ≠ index := by
          rintro rfl
          rw [there] at found
          cases found
          exact same rfl
        exact .inl (List.mem_map.mpr ⟨(which, why), List.mem_eraseIdx_iff_getElem?.mpr ⟨position, apart, there⟩, rfl⟩)
    · exact .inr (DeliveryGate.returned_refund slot path returned)
  | reserve owner n =>
    exact tended.of_entries rfl (reserve_entries f.store owner n) (fun _ settled => settled)
  | giveBack owner n =>
    exact tended.of_entries rfl (giveBack_entries f.store owner n) (fun _ settled => settled)
  | close => exact tended.close clear

structure Listed (f : Flow) : Prop where
  somewhere : ∀ place entry, f.store.entries[place]? = some entry → entry.released = false →
    place ∈ f.intake.taken ∨ place ∈ f.store.queue
  shut : f.store.stats.closed = true → f.store.queue = []

theorem Listed.insert {f : Flow} (listed : f.Listed) {slot : Option Nat} {loss token : Option Loss}
    {error : Option Error} {after : Store}
    (inserts : f.store.Inserting slot loss error token after) :
    (f.insert slot error after).Listed := by
  have intake : (f.insert slot error after).intake = { f.intake with store := after } := by
    unfold Flow.insert
    split
    · rfl
    · rfl
  constructor
  · unfold store
    rw [intake]
    cases inserts with
    | refused => exact listed.somewhere
    | stored budget counted ready stored fragments connections =>
      intro place entry found unreleased
      have here : (f.store.entries ++ [_])[place]? = some entry := found
      by_cases inside : place < f.store.entries.length
      · rw [List.getElem?_append_left inside] at here
        refine (listed.somewhere place entry here unreleased).imp_right ?_
        exact fun queued => List.mem_append_left _ queued
      · obtain ⟨bound, -⟩ := List.getElem?_eq_some_iff.mp here
        have last : place = f.store.entries.length := by
          simp at bound
          omega
        exact .inr (List.mem_append_right _ (by simp [last]))
  · unfold store
    rw [intake]
    cases inserts with
    | refused => exact listed.shut
    | stored budget counted ready stored fragments connections =>
      intro closed
      have shut : f.store.stats.closed = true := closed
      unfold Store.ready at ready
      rw [if_pos shut] at ready
      split at ready <;> cases ready

theorem Listed.step (sizes : Sizes) (f : Flow) (event : FlowEvent) (listed : f.Listed) :
    (f.step sizes event).2.Listed := by
  cases event with
  | event kind measured => exact { listed with }
  | write record loss =>
    simp only [Flow.step]
    split
    · exact listed.insert (f.store.write_inserting sizes record loss)
    · exact listed
  | connection record loss =>
    simp only [Flow.step]
    split
    · exact listed.insert (f.store.connection_inserting sizes record loss)
    · exact listed
  | unretained slot =>
    simp only [Flow.step]
    split
    · exact { listed with }
    · exact listed
  | take =>
    constructor
    · intro place entry found unreleased
      have before : f.store.entries[place]? = some entry := by
        rw [← take_entries f.store]
        exact found
      show place ∈ f.intake.taken ++ f.store.take.1.toList ∨ place ∈ f.store.take.2.queue
      rcases listed.somewhere place entry before unreleased with given | queued
      · exact .inl (List.mem_append_left _ given)
      unfold Store.take
      split
      · rename_i empty
        rw [empty] at queued
        cases queued
      · rename_i head rest filled
        rw [filled] at queued
        rcases List.mem_cons.mp queued with first | later
        · exact .inl (List.mem_append_right _ (by simp [first]))
        · exact .inr later
    · intro closed
      show f.store.take.2.queue = []
      have closing : f.store.take.2.stats.closed = true := closed
      unfold Store.take at closing ⊢
      split
      · rename_i empty
        exact empty
      rename_i head rest filled
      rw [filled] at closing
      have empty := listed.shut closing
      rw [filled] at empty
      cases empty
  | release place path =>
    simp only [Flow.step]
    split
    · have releasing := f.store.releaseAs_releasing place
      generalize (f.store.releaseAs place).1 = slot at releasing ⊢
      generalize (f.store.releaseAs place).2 = after at releasing ⊢
      cases releasing with
      | nothing => exact { listed with }
      | @released entry found unreleased =>
        refine ⟨?_, listed.shut⟩
        intro other still here unlet
        have there : (f.store.entries.set place _)[other]? = some still := here
        by_cases same : place = other
        · subst same
          obtain ⟨inside, -⟩ := List.getElem?_eq_some_iff.mp found
          rw [List.getElem?_set_self inside] at there
          cases there
          cases unlet
        · rw [List.getElem?_set_ne same] at there
          exact listed.somewhere other still there unlet
    · exact listed
  | refund index =>
    simp only [Flow.step]
    split
    · exact listed
    · exact { listed with }
  | reserve owner n =>
    have reserves := f.store.reserve_reserving owner n
    simp only [Flow.step, Use.step]
    show ({ f with intake := { f.intake with store := (f.store.reserve owner n).2 } } : Flow).Listed
    generalize (f.store.reserve owner n).1 = granted, (f.store.reserve owner n).2 = after at reserves ⊢
    cases reserves with
    | refused | parsing | policy => exact { listed with }
  | giveBack owner n =>
    show ({ f with intake := { f.intake with store := f.store.giveBack owner n } } : Flow).Listed
    unfold Store.giveBack
    split
    · exact listed
    · cases owner with
      | parsing | policy | other => exact { listed with }
  | close =>
    refine ⟨?_, fun _ => rfl⟩
    intro place after found unreleased
    obtain ⟨entry, before, rfl⟩ := Option.map_eq_some_iff.mp ((f.store.close_entries place).symm.trans found)
    split at unreleased
    · cases unreleased
    · rename_i unqueued
      exact .inl ((listed.somewhere place entry before unreleased).resolve_right unqueued)

/-- A gate and the intake it admits to, under any schedule in which a close
finds no queued entry that keeps a slot. No slot is ever returned twice; an
entry's slot is not returned while the entry is in the store, and once the
entry has left it is returned, as soon as its release has made its refund; so
a closed store whose leases were all released holds no slot under the gate. -/
theorem slots_come_back (sizes : Sizes) {maxEvents : UInt64} {limit : Int64} {gate : DeliveryGate}
    {store : Store} (gated : newDeliveryGate maxEvents = .ok gate)
    (made : newStore limit = .ok store) (events : List FlowEvent)
    (clear : Along (Flow.step sizes) Flow.Clear { gate, intake := { store } } events) :
    let now := (run (Flow.step sizes) { gate, intake := { store } } events).2
    now.gate.doubles = 0 ∧
    (∀ place slot, (place, slot) ∈ now.kept → ∃ entry, now.store.entries[place]? = some entry ∧
      (entry.released = false → now.gate.returned slot = false) ∧
      (entry.released = true → slot ∉ now.owed.map Prod.fst → now.gate.returned slot = true)) ∧
    (now.store.stats.closed = true → now.intake.leased = [] → now.owed = [] →
      ∀ place slot, (place, slot) ∈ now.kept → now.gate.returned slot = true) := by
  intro now
  obtain ⟨accounts, -, none_yet⟩ := Delivery.accounts_new gated
  have doubles : gate.doubles = 0 := by
    unfold newDeliveryGate at gated
    split at gated
    · cases gated
    · cases gated
      rfl
  have fresh : store.entries = [] ∧ store.queue = [] := by
    unfold newStore at made
    split at made
    · cases made
    · cases made
      exact ⟨rfl, rfl⟩
  have owned : ({ gate, intake := { store } } : Flow).Owned := by
    refine ⟨accounts, ?_, doubles⟩
    intro slot
    simp [holders, Flow.store, fresh.1, DeliveryGate.returned, none_yet]
  have tended : ({ gate, intake := { store } } : Flow).Tended := ⟨by simp, by simp [Flow.store, fresh.1]⟩
  have listed : ({ gate, intake := { store } } : Flow).Listed := ⟨by simp [Flow.store, fresh.1], fun _ => fresh.2⟩
  have kept : now.Owned ∧ now.Tended ∧ now.Listed :=
    along_keeps (Flow.step sizes) (fun f => f.Owned ∧ f.Tended ∧ f.Listed)
      (fun f event kept clear =>
        ⟨kept.1.step sizes f event, kept.2.1.step sizes f event kept.1 clear, kept.2.2.step sizes f event⟩)
      ⟨owned, tended, listed⟩ clear
  obtain ⟨owned, tended, listed⟩ := kept
  have each : ∀ place slot, (place, slot) ∈ now.kept → ∃ entry,
      now.store.entries[place]? = some entry ∧
      (entry.released = false → now.gate.returned slot = false) ∧
      (entry.released = true → slot ∉ now.owed.map Prod.fst → now.gate.returned slot = true) := by
    intro place slot member
    obtain ⟨entry, found, has⟩ := tended.kept place slot member
    refine ⟨entry, found, ?_, ?_⟩
    · intro unreleased
      have still : entry.slot = some slot := by
        rcases has with still | ⟨released, -⟩
        · exact still
        · rw [unreleased] at released
          cases released
      have among : some slot ∈ now.store.entries.map Entry.slot :=
        List.mem_map.mpr ⟨entry, List.mem_of_getElem? found, still⟩
      have positive := List.count_pos_iff.mpr among
      exact (owned.held (by omega)).2
    · intro released paid
      rcases has with still | ⟨-, owes | returned⟩
      · rw [tended.gone entry (List.mem_of_getElem? found) released] at still
        cases still
      · exact absurd owes paid
      · exact returned
  refine ⟨owned.doubles, each, ?_⟩
  intro closed leased paid place slot member
  obtain ⟨entry, found, -, returned⟩ := each place slot member
  refine returned ?_ (by simp [paid])
  cases unreleased : entry.released with
  | true => rfl
  | false =>
    rcases listed.somewhere place entry found unreleased with given | queued
    · have still : place ∈ now.intake.leased := by
        refine List.mem_filter.mpr ⟨given, ?_⟩
        rw [show now.intake.store.entries[place]? = some entry from found]
        simp [unreleased]
      rw [leased] at still
      cases still
    · rw [listed.shut closed] at queued
      cases queued

def oneFragment : Fragment.Record :=
  { process := { pid := 7 }, connection := 1, direction := .sent, sequence := 1, offset := 0,
    length := 1, produced := 1, empties := 0, payload := [], time := 1, slot := some 0 }

/-- A fragment stored, taken and released before the store closes. -/
theorem slots_come_back_released :
    let sizes : Sizes := ⟨1, 1, 1, 1, 1, 1, 1⟩
    let gate : DeliveryGate := { maxEvents := 1, withdrawal := some 0 }
    let store : Store := { stats := { limitBytes := 8 }, exhausted := some 0 }
    let events := [FlowEvent.event .transfer true, .write oneFragment none, .take,
      .release 0 .processed, .refund 0, .close]
    let now := (run (Flow.step sizes) { gate, intake := { store } } events).2
    newDeliveryGate 1 = .ok gate ∧ newStore 8 = .ok store ∧ (0, 0) ∈ now.kept ∧ now.gate.returned 0 = true := by
  intro sizes gate store events now
  have gated : newDeliveryGate 1 = .ok gate := rfl
  have made : newStore 8 = .ok store := rfl
  have clear : Along (Flow.step sizes) Flow.Clear { gate, intake := { store } } events := by
    refine ⟨trivial, trivial, trivial, trivial, trivial, ?_, trivial⟩
    intro place queued
    have emptied : (run (Flow.step sizes) { gate, intake := { store } } (events.take 5)).2.store.queue = [] := by decide
    have listed : place ∈ (run (Flow.step sizes) { gate, intake := { store } } (events.take 5)).2.store.queue := queued
    rw [emptied] at listed
    cases listed
  obtain ⟨-, -, settled⟩ := slots_come_back sizes gated made events clear
  have kept : (0, 0) ∈ now.kept := by decide
  exact ⟨gated, made, kept, settled (by decide) (by decide) (by decide) 0 0 kept⟩

/-- A fragment stored and still queued when the store closes: the entry is gone,
no lease and no refund is outstanding, and the gate holds the slot. -/
theorem slot_lost_at_close :
    let sizes : Sizes := ⟨1, 1, 1, 1, 1, 1, 1⟩
    let gate : DeliveryGate := { maxEvents := 1, withdrawal := some 0 }
    let store : Store := { stats := { limitBytes := 8 }, exhausted := some 0 }
    let now := (run (Flow.step sizes) { gate, intake := { store } }
      [.event .transfer true, .write oneFragment none, .close]).2
    newDeliveryGate 1 = .ok gate ∧ newStore 8 = .ok store ∧
      now.store.stats.closed = true ∧ now.intake.leased = [] ∧ now.owed = [] ∧ now.hands = [] ∧
      (0, 0) ∈ now.kept ∧ now.store.entries.all Entry.released = true ∧
      now.gate.returned 0 = false ∧ now.gate.held = 1 := by
  decide

end Flow

end EdgeObserver.Intake
