import EdgeObserver.Library.Words
import EdgeObserver.Intake.Store

/-!
# The intake's allowance

The store in use: a worker takes entries and releases them, and work reserves
and gives back, in any order. The three charges stay within the limit, and the
store's own is the sum of what it holds.
-/

set_option autoImplicit false

namespace EdgeObserver.Intake

open Library Held

/-! ## Counting a record down -/

variable {a b : Allowance} {sizes : Sizes}

theorem Allowance.add_le {count size : Nat} (added : a.add count size = some b) :
    b.left ≤ a.left := by
  unfold add at added
  split at added
  · cases added
  · cases added
    exact Nat.sub_le _ _

theorem Allowance.foldlM_le {Thing : Type} {count : Allowance → Thing → Option Allowance}
    (less : ∀ {a b : Allowance} {thing : Thing}, count a thing = some b → b.left ≤ a.left) :
    ∀ {things : List Thing} {a b : Allowance}, things.foldlM count a = some b → b.left ≤ a.left
  | [], a, b, counted => by
    cases counted
    exact Nat.le_refl _
  | thing :: things, a, b, counted => by
    rw [List.foldlM_cons] at counted
    obtain ⟨between, first, rest⟩ := Option.bind_eq_some_iff.mp counted
    exact (foldlM_le less rest).trans (less first)

theorem Allowance.association_le {one : Connection.Association}
    (counted : a.association sizes one = some b) : b.left ≤ a.left := by
  obtain ⟨first, contended, counted⟩ := Option.bind_eq_some_iff.mp counted
  obtain ⟨second, near, remote⟩ := Option.bind_eq_some_iff.mp counted
  exact (add_le remote).trans ((add_le near).trans (add_le contended))

theorem Allowance.fragment_le {record : Fragment.Record}
    (counted : a.fragment sizes record = some b) : b.left ≤ a.left := by
  obtain ⟨first, header, payload⟩ := Option.bind_eq_some_iff.mp counted
  exact (add_le payload).trans (add_le header)

theorem Allowance.connection_le {record : Connection.Record}
    (counted : a.connection sizes record = some b) : b.left ≤ a.left := by
  obtain ⟨a1, header, counted⟩ := Option.bind_eq_some_iff.mp counted
  obtain ⟨a2, executable, counted⟩ := Option.bind_eq_some_iff.mp counted
  obtain ⟨a3, why, counted⟩ := Option.bind_eq_some_iff.mp counted
  obtain ⟨a4, associations, counted⟩ := Option.bind_eq_some_iff.mp counted
  obtain ⟨a5, placements, counted⟩ := Option.bind_eq_some_iff.mp counted
  obtain ⟨a6, early, counted⟩ := Option.bind_eq_some_iff.mp counted
  obtain ⟨a7, each, last⟩ := Option.bind_eq_some_iff.mp counted
  have loss := foldlM_le (fun counted => add_le counted) last
  have held := foldlM_le (fun counted => association_le counted) each
  have spent := add_le header
  have spent2 := add_le executable
  have spent3 := add_le why
  have spent4 := add_le associations
  have spent5 := add_le placements
  have spent6 := add_le early
  omega

theorem Store.write_inserting (sizes : Sizes) (s : Store) (record : Fragment.Record) (loss : Option Loss) :
    s.Inserting record.slot loss (s.write sizes record loss).1 (s.write sizes record loss).2.1
      (s.write sizes record loss).2.2 := by
  unfold write
  cases ready : s.ready with
  | some error => exact .refused error loss _ _ _ _ (.inl rfl)
  | none =>
    dsimp only
    cases counted : Allowance.fragment sizes { left := s.left.toNatClampNeg } record with
    | none => exact s.full_inserting _ _ (s.stats.fragmentsRefused + 1) s.stats.connectionsRefused
    | some budget => exact .stored budget (Allowance.fragment_le counted) ready _ _ _

theorem Store.connection_inserting (sizes : Sizes) (s : Store) (record : Connection.Record) (loss : Option Loss) :
    s.Inserting record.slot loss (s.connection sizes record loss).1
      (s.connection sizes record loss).2.1 (s.connection sizes record loss).2.2 := by
  unfold connection
  cases ready : s.ready with
  | some error => exact .refused error loss _ _ _ _ (.inl rfl)
  | none =>
    dsimp only
    cases counted : Allowance.connection sizes { left := s.left.toNatClampNeg } record with
    | none => exact s.full_inserting _ _ s.stats.fragmentsRefused (s.stats.connectionsRefused + 1)
    | some budget => exact .stored budget (Allowance.connection_le counted) ready _ _ _

/-! ## The store and who uses it -/

def Store.chargeAt (s : Store) (place : Nat) : Int :=
  match s.entries[place]? with
  | none => 0
  | some entry => if entry.released then 0 else entry.bytes.toInt

structure Use where
  store : Store
  taken : List Nat := []

inductive Event where
  | write (record : Fragment.Record) (loss : Option Loss)
  | connection (record : Connection.Record) (loss : Option Loss)
  | take
  | release (place : Nat) (path : Path)
  | reserve (owner : Owner) (n : Int64)
  | giveBack (owner : Owner) (n : Int64)
  | close

inductive Answer where
  | stored (error : Option Error) (loss : Option Loss)
  | taken (place : Option Nat)
  | released (slot : Option Nat)
  | reserved (granted : Bool)
  | done

def Use.step (sizes : Sizes) (u : Use) : Event → Answer × Use
  | .write record loss =>
    let (error, loss, store) := u.store.write sizes record loss
    (.stored error loss, { u with store })
  | .connection record loss =>
    let (error, loss, store) := u.store.connection sizes record loss
    (.stored error loss, { u with store })
  | .take =>
    let (place, store) := u.store.take
    (.taken place, { store, taken := u.taken ++ place.toList })
  | .release place _ =>
    if place ∈ u.taken then
      let (slot, store) := u.store.releaseAs place
      (.released slot, { u with store })
    else (.done, u)
  | .reserve owner n =>
    let (granted, store) := u.store.reserve owner n
    (.reserved granted, { u with store })
  | .giveBack owner n => (.done, { u with store := u.store.giveBack owner n })
  | .close => (.done, { u with store := u.store.close })

def Store.balance (s : Store) : Owner → Int
  | .parsing => s.stats.parsing.toInt
  | .policy => s.stats.policy.toInt
  | .other _ => 0

/-- What `Return` asks of its caller: an owner gives back no more than it
holds. -/
def Fair (u : Use) : Event → Prop
  | .giveBack owner n => n.toInt ≤ u.store.balance owner ∨ n ≤ 0
  | _ => True

/-- The store holds what its entries charge, those given out and those queued,
in the order it stored them, and the three charges are within the limit. -/
structure Bounded (limit : Int64) (taken queue : List Nat) (s : Store) : Prop where
  sized : s.stats.limitBytes = limit
  parsing : 0 ≤ s.stats.parsing.toInt
  policy : 0 ≤ s.stats.policy.toInt
  within : s.stats.bytes.toInt + s.stats.parsing.toInt + s.stats.policy.toInt ≤ limit.toInt
  charged : s.stats.bytes.toInt = ((taken ++ queue).map s.chargeAt).sum
  nonnegative : ∀ place, 0 ≤ s.chargeAt place
  order : (taken ++ queue).Pairwise (· < ·)
  inside : ∀ place ∈ taken ++ queue, place < s.entries.length
  waiting : ∀ place ∈ queue, ∃ entry, s.entries[place]? = some entry ∧ entry.released = false

namespace Bounded

variable {limit : Int64} {taken queue : List Nat} {s : Store}

theorem bytes_nonnegative (bounded : Bounded limit taken queue s) : 0 ≤ s.stats.bytes.toInt := by
  rw [bounded.charged]
  apply List.sum_nonneg
  intro charge member
  obtain ⟨place, -, rfl⟩ := List.mem_map.mp member
  exact bounded.nonnegative place

theorem left_toInt (bounded : Bounded limit taken queue s) :
    s.left.toInt = limit.toInt - s.stats.bytes.toInt - s.stats.parsing.toInt -
      s.stats.policy.toInt := by
  have top := limit.toInt_lt
  have bytes := bounded.bytes_nonnegative
  have parsing := bounded.parsing
  have policy := bounded.policy
  have within := bounded.within
  have first : (s.stats.limitBytes - s.stats.bytes).toInt = limit.toInt - s.stats.bytes.toInt := by
    rw [bounded.sized]
    exact toInt_sub_of_range (by omega) (by omega)
  have second : (s.stats.limitBytes - s.stats.bytes - s.stats.parsing).toInt =
      limit.toInt - s.stats.bytes.toInt - s.stats.parsing.toInt := by
    rw [toInt_sub_of_range (by omega) (by omega), first]
  have third : (s.stats.limitBytes - s.stats.bytes - s.stats.parsing - s.stats.policy).toInt =
      limit.toInt - s.stats.bytes.toInt - s.stats.parsing.toInt - s.stats.policy.toInt := by
    rw [toInt_sub_of_range (by omega) (by omega), second]
  unfold Store.left
  rw [toInt_max, third]
  have zero : (0 : Int64).toInt = 0 := rfl
  omega

end Bounded

theorem Store.chargeAt_append {s : Store} {entry : Entry} (kept : entry.released = false) (place : Nat) :
    (s.append entry).chargeAt place =
      if place = s.entries.length then entry.bytes.toInt else s.chargeAt place := by
  unfold chargeAt append
  by_cases inside : place < s.entries.length
  · rw [if_neg (by omega), List.getElem?_append_left inside]
  rw [List.getElem?_append_right (by omega)]
  by_cases here : place = s.entries.length
  · simp [here, kept]
  · rw [if_neg here, List.getElem?_eq_none (l := s.entries) (by omega), List.getElem?_eq_none (by simp; omega)]

namespace Bounded

variable {limit : Int64} {taken queue : List Nat} {s : Store}

theorem append (bounded : Bounded limit taken queue s) {entry : Entry}
    (kept : entry.released = false) (nonnegative : 0 ≤ entry.bytes.toInt)
    (fits : entry.bytes.toInt ≤ s.left.toInt) :
    Bounded limit taken (queue ++ [s.entries.length]) (s.append entry) := by
  have left := bounded.left_toInt
  have top := limit.toInt_lt
  have bytes := bounded.bytes_nonnegative
  have parsing := bounded.parsing
  have policy := bounded.policy
  have grown : (s.stats.bytes + entry.bytes).toInt = s.stats.bytes.toInt + entry.bytes.toInt :=
    toInt_add_of_range (by omega) (by omega)
  have elsewhere : ∀ place ∈ taken ++ queue,
      (s.append entry).chargeAt place = s.chargeAt place := by
    intro place member
    rw [Store.chargeAt_append kept, if_neg (Nat.ne_of_lt (bounded.inside place member))]
  constructor
  · exact bounded.sized
  · exact parsing
  · exact policy
  · show (s.stats.bytes + entry.bytes).toInt + s.stats.parsing.toInt + s.stats.policy.toInt ≤ limit.toInt
    omega
  · show (s.stats.bytes + entry.bytes).toInt = _
    rw [grown, ← List.append_assoc, List.map_append, List.sum_append, List.map_congr_left elsewhere, ← bounded.charged]
    simp [Store.chargeAt_append kept]
  · intro place
    rw [Store.chargeAt_append kept]
    split
    · exact nonnegative
    · exact bounded.nonnegative place
  · rw [← List.append_assoc, List.pairwise_append]
    refine ⟨bounded.order, by simp, ?_⟩
    intro place member last new
    rw [List.mem_singleton.mp new]
    exact bounded.inside place member
  · show ∀ place ∈ taken ++ (queue ++ [s.entries.length]), place < (s.entries ++ [entry]).length
    intro place member
    rw [← List.append_assoc] at member
    rcases List.mem_append.mp member with before | new
    · have inside := bounded.inside place before
      simp
      omega
    · rw [List.mem_singleton.mp new]
      simp
  · show ∀ place ∈ queue ++ [s.entries.length], ∃ found,
      (s.entries ++ [entry])[place]? = some found ∧ found.released = false
    intro place member
    rcases List.mem_append.mp member with before | new
    · obtain ⟨found, here, unreleased⟩ := bounded.waiting place before
      have inside := bounded.inside place (List.mem_append_right _ before)
      exact ⟨found, by rw [List.getElem?_append_left inside]; exact here, unreleased⟩
    · rw [List.mem_singleton.mp new]
      exact ⟨entry, by simp, kept⟩

theorem charge_toInt (bounded : Bounded limit taken queue s) {budget : Allowance}
    (counted : budget.left ≤ s.left.toNatClampNeg) :
    0 ≤ (s.charge budget).toInt ∧ (s.charge budget).toInt ≤ s.left.toInt := by
  have left := bounded.left_toInt
  have within := bounded.within
  have top := s.left.toInt_lt
  have plain : s.left.toNatClampNeg = s.left.toInt.toNat := rfl
  have small : (Int64.ofNat budget.left).toInt = budget.left := Int64.toInt_ofNat_of_lt (by omega)
  have charge : (s.charge budget).toInt = s.left.toInt - budget.left := by
    unfold Store.charge
    rw [toInt_sub_of_range (by omega) (by omega), small]
  omega

theorem inserting (bounded : Bounded limit taken s.queue s) {slot : Option Nat}
    {loss token : Option Loss} {error : Option Error} {after : Store}
    (inserts : s.Inserting slot loss error token after) :
    Bounded limit taken after.queue after := by
  cases inserts with
  | refused => exact { bounded with }
  | stored budget counted ready stored fragments connections =>
    obtain ⟨nonnegative, fits⟩ := bounded.charge_toInt counted
    have appended := @append limit taken s.queue s bounded
      { stored := some stored, bytes := s.charge budget, slot } rfl nonnegative fits
    exact { appended with }

theorem move {head : Nat} (bounded : Bounded limit taken (head :: queue) s) :
    Bounded limit (taken ++ [head]) queue s := by
  have same : taken ++ [head] ++ queue = taken ++ head :: queue := by simp
  refine { bounded with charged := ?_, order := ?_, inside := ?_, waiting := ?_ }
  · rw [same]
    exact bounded.charged
  · rw [same]
    exact bounded.order
  · rw [same]
    exact bounded.inside
  · intro place member
    exact bounded.waiting place (List.mem_cons_of_mem head member)

theorem take (bounded : Bounded limit taken s.queue s) :
    Bounded limit (taken ++ s.take.1.toList) s.take.2.queue s.take.2 := by
  unfold Store.take
  cases queued : s.queue with
  | nil => simpa [queued] using bounded
  | cons head rest =>
    rw [queued] at bounded
    exact { bounded.move with }

theorem recharged (bounded : Bounded limit taken queue s) {parsing policy : Int64}
    (first : 0 ≤ parsing.toInt) (second : 0 ≤ policy.toInt)
    (within : s.stats.bytes.toInt + parsing.toInt + policy.toInt ≤ limit.toInt) :
    Bounded limit taken queue (s.charging parsing policy) :=
  { bounded with parsing := first, policy := second, within := within }

theorem fits (bounded : Bounded limit taken queue s) {n : Int64} (positive : ¬ n < 0) (room : ¬ n > s.left) :
    0 ≤ n.toInt ∧ s.stats.bytes.toInt + s.stats.parsing.toInt + s.stats.policy.toInt + n.toInt ≤ limit.toInt ∧
      (s.stats.parsing + n).toInt = s.stats.parsing.toInt + n.toInt ∧
      (s.stats.policy + n).toInt = s.stats.policy.toInt + n.toInt := by
  have left := bounded.left_toInt
  have top := limit.toInt_lt
  have bytes := bounded.bytes_nonnegative
  have parsing := bounded.parsing
  have policy := bounded.policy
  have above : ¬ n.toInt < (0 : Int64).toInt := fun below => positive (Int64.lt_iff_toInt_lt.mpr below)
  have below : ¬ s.left.toInt < n.toInt := fun past => room (Int64.lt_iff_toInt_lt.mpr past)
  have zero : (0 : Int64).toInt = 0 := rfl
  exact ⟨by omega, by omega, toInt_add_of_range (by omega) (by omega), toInt_add_of_range (by omega) (by omega)⟩

theorem reserving (bounded : Bounded limit taken queue s) {owner : Owner} {n : Int64}
    {granted : Bool} {after : Store} (reserves : s.Reserving n owner granted after) :
    Bounded limit taken queue after := by
  have parsing := bounded.parsing
  have policy := bounded.policy
  cases reserves with
  | refused => exact { bounded with }
  | parsing positive room =>
    obtain ⟨nonnegative, within, grown, -⟩ := bounded.fits positive room
    exact bounded.recharged (by omega) policy (by omega)
  | policy positive room =>
    obtain ⟨nonnegative, within, -, grown⟩ := bounded.fits positive room
    exact bounded.recharged parsing (by omega) (by omega)

theorem gives (bounded : Bounded limit taken queue s) {owner : Owner} {n : Int64}
    (fair : n.toInt ≤ s.balance owner ∨ n ≤ 0) :
    Bounded limit taken queue (s.giveBack owner n) := by
  have within := bounded.within
  unfold Store.giveBack
  split
  · exact bounded
  rename_i positive
  have held := fair.resolve_right positive
  cases owner with
  | other value => exact bounded
  | parsing =>
    obtain ⟨above, first, shrunk⟩ := toInt_sub_of_le (m := s.stats.parsing) positive held
    exact bounded.recharged first bounded.policy (by omega)
  | policy =>
    obtain ⟨above, second, shrunk⟩ := toInt_sub_of_le (m := s.stats.policy) positive held
    exact bounded.recharged bounded.parsing second (by omega)

end Bounded

/-! ## Letting entries go -/

theorem Store.chargeAt_set {s t : Store} {place : Nat} {entry : Entry}
    (entries : t.entries = s.entries.set place entry) (released : entry.released = true)
    (other : Nat) : t.chargeAt other = if other = place then 0 else s.chargeAt other := by
  unfold chargeAt
  rw [entries]
  by_cases same : other = place
  · subst same
    by_cases inside : other < s.entries.length
    · simp [inside, released]
    · simp [inside]
  · simp [Ne.symm same, same]

theorem sum_map_dropped {f : Nat → Int} {place : Nat} {places : List Nat} (once : places.Nodup)
    (member : place ∈ places) :
    (places.map (fun other => if other = place then 0 else f other)).sum = (places.map f).sum - f place := by
  have rest : ((places.erase place).map (fun other => if other = place then 0 else f other)) =
      (places.erase place).map f := by
    apply List.map_congr_left
    intro other still
    exact if_neg (once.mem_erase_iff.mp still).1
  have dropped := List.sum_map_erase (fun other => if other = place then 0 else f other) member
  have whole := List.sum_map_erase f member
  rw [rest, if_pos rfl] at dropped
  omega

namespace Bounded

variable {limit : Int64} {taken queue : List Nat} {s : Store}

theorem nodup (bounded : Bounded limit taken queue s) : (taken ++ queue).Nodup := bounded.order.imp Nat.ne_of_lt

theorem charge_le (bounded : Bounded limit taken queue s) {place : Nat}
    (member : place ∈ taken ++ queue) : s.chargeAt place ≤ s.stats.bytes.toInt := by
  rw [bounded.charged]
  apply List.single_le_sum
  · intro charge found
    obtain ⟨other, -, rfl⟩ := List.mem_map.mp found
    exact bounded.nonnegative other
  · exact List.mem_map_of_mem member

theorem gone (bounded : Bounded limit taken queue s) {place : Nat} {entry last : Entry} {t : Store}
    (member : place ∈ taken) (found : s.entries[place]? = some entry)
    (unreleased : entry.released = false) (released : last.released = true)
    (entries : t.entries = s.entries.set place last)
    (bytes : t.stats.bytes = s.stats.bytes - entry.bytes)
    (sized : t.stats.limitBytes = s.stats.limitBytes)
    (parsing : t.stats.parsing = s.stats.parsing) (policy : t.stats.policy = s.stats.policy) :
    Bounded limit taken queue t := by
  have listed : place ∈ taken ++ queue := List.mem_append_left _ member
  have charge : s.chargeAt place = entry.bytes.toInt := by
    simp [Store.chargeAt, found, unreleased]
  have less := bounded.charge_le listed
  have nonnegative := bounded.nonnegative place
  have within := bounded.within
  have top := s.stats.bytes.toInt_lt
  have shrunk : t.stats.bytes.toInt = s.stats.bytes.toInt - entry.bytes.toInt := by
    rw [bytes]
    exact toInt_sub_of_range (by omega) (by omega)
  have charges : t.chargeAt = fun other => if other = place then 0 else s.chargeAt other :=
    funext (Store.chargeAt_set entries released)
  constructor
  · exact sized.trans bounded.sized
  · exact parsing ▸ bounded.parsing
  · exact policy ▸ bounded.policy
  · rw [shrunk, parsing, policy]
    omega
  · rw [charges, sum_map_dropped bounded.nodup listed, ← bounded.charged, charge]
    exact shrunk
  · intro other
    rw [charges]
    dsimp only
    split
    · exact Int.le_refl 0
    · exact bounded.nonnegative other
  · exact bounded.order
  · rw [entries, List.length_set]
    exact bounded.inside
  · intro other waits
    have apart : place ≠ other := by
      intro same
      have disjoint := (List.nodup_append.mp bounded.nodup).2.2
      exact disjoint place member other waits same
    rw [entries, List.getElem?_set_ne apart]
    exact bounded.waiting other waits

theorem releaseAs (bounded : Bounded limit taken queue s) {place : Nat} (member : place ∈ taken) :
    Bounded limit taken queue (s.releaseAs place).2 := by
  unfold Store.releaseAs
  split
  · exact bounded
  rename_i entry found
  split
  · exact bounded
  rename_i unreleased
  exact bounded.gone member found (by simpa using unreleased) rfl rfl rfl rfl rfl rfl

theorem unlist {place : Nat} (bounded : Bounded limit (taken ++ [place]) queue s)
    (nothing : s.chargeAt place = 0) : Bounded limit taken queue s := by
  have fewer : (taken ++ queue).Sublist (taken ++ [place] ++ queue) :=
    (List.sublist_append_left taken [place]).append_right queue
  refine { bounded with charged := ?_, order := bounded.order.sublist fewer, inside := ?_ }
  · rw [bounded.charged]
    simp [nothing]
  · intro other member
    exact bounded.inside other (fewer.subset member)

theorem discard {head : Nat} (bounded : Bounded limit taken (head :: queue) s) :
    Bounded limit taken queue (s.discard head) := by
  obtain ⟨entry, found, unreleased⟩ := bounded.waiting head (by simp)
  have entries : (s.discard head).entries =
      s.entries.set head { entry with released := true, stored := none } := by
    simp only [Store.discard, found]
  have gone := bounded.move.gone (by simp) found unreleased rfl entries
    (by simp only [Store.discard, found]) (by simp only [Store.discard, found])
    (by simp only [Store.discard, found]) (by simp only [Store.discard, found])
  refine gone.unlist ?_
  rw [Store.chargeAt_set entries rfl, if_pos rfl]

theorem close (bounded : Bounded limit taken s.queue s) :
    Bounded limit taken s.close.queue s.close := by
  have emptied : ∀ (waiting : List Nat) (t : Store), Bounded limit taken waiting t →
      Bounded limit taken [] (waiting.foldl Store.discard t) := by
    intro waiting
    induction waiting with
    | nil => exact fun t holds => holds
    | cons head rest ih => exact fun t holds => ih _ holds.discard
  have shut : Bounded limit taken s.queue { s with stats := { s.stats with closed := true } } :=
    { bounded with }
  exact { emptied s.queue _ shut with }

end Bounded

/-! ## Runs -/

/-- A store in use is bounded with what it gave out and what it queues. -/
abbrev Use.Bounded (limit : Int64) (u : Use) : Prop := Intake.Bounded limit u.taken u.store.queue u.store

variable {limit : Int64} {owner : Owner} {u : Use}

theorem Use.bounded_step (sizes : Sizes) (u : Use) (event : Event) (bounded : u.Bounded limit) (fair : Fair u event) :
    (u.step sizes event).2.Bounded limit := by
  cases event with
  | write record loss => exact bounded.inserting (u.store.write_inserting sizes record loss)
  | connection record loss =>
    exact bounded.inserting (u.store.connection_inserting sizes record loss)
  | take => exact bounded.take
  | release place path =>
    simp only [step]
    split
    · rename_i member
      have after := bounded.releaseAs member
      have queue : (u.store.releaseAs place).2.queue = u.store.queue := by
        unfold Store.releaseAs
        split
        · rfl
        split
        · rfl
        · rfl
      show Intake.Bounded limit u.taken (u.store.releaseAs place).2.queue _
      rw [queue]
      exact after
    · exact bounded
  | reserve owner n =>
    have reserves := u.store.reserve_reserving owner n
    have after := bounded.reserving reserves
    have queue : (u.store.reserve owner n).2.queue = u.store.queue := by
      generalize (u.store.reserve owner n).1 = granted, (u.store.reserve owner n).2 = t at reserves
      cases reserves <;> rfl
    show Intake.Bounded limit u.taken (u.store.reserve owner n).2.queue _
    rw [queue]
    exact after
  | giveBack owner n =>
    have after := bounded.gives fair
    have queue : (u.store.giveBack owner n).queue = u.store.queue := by
      unfold Store.giveBack
      split
      · rfl
      · cases owner <;> rfl
    show Intake.Bounded limit u.taken (u.store.giveBack owner n).queue _
    rw [queue]
    exact after
  | close => exact bounded.close

def Use.leased (u : Use) : List Nat :=
  u.taken.filter (fun place => u.store.entries[place]?.any (fun entry => !entry.released))

def Store.bytesAt (s : Store) (place : Nat) : Int :=
  match s.entries[place]? with
  | none => 0
  | some entry => entry.bytes.toInt

theorem Use.bytes_eq (bounded : u.Bounded limit) :
    u.store.stats.bytes.toInt = ((u.leased ++ u.store.queue).map u.store.bytesAt).sum := by
  have queued : u.store.queue.map u.store.chargeAt = u.store.queue.map u.store.bytesAt := by
    apply List.map_congr_left
    intro place member
    obtain ⟨entry, found, unreleased⟩ := bounded.waiting place member
    simp [Store.chargeAt, Store.bytesAt, found, unreleased]
  have given : ∀ places : List Nat, (places.map u.store.chargeAt).sum =
      ((places.filter (fun place => u.store.entries[place]?.any (fun entry => !entry.released))).map
        u.store.bytesAt).sum := by
    intro places
    induction places with
    | nil => rfl
    | cons place places ih =>
      rw [List.map_cons, List.sum_cons, ih, List.filter_cons]
      cases found : u.store.entries[place]? with
      | none => simp [Store.chargeAt, found]
      | some entry =>
        cases released : entry.released with
        | true => simp [Store.chargeAt, found, released]
        | false => simp [Store.chargeAt, Store.bytesAt, found, released]
  rw [bounded.charged, List.map_append, List.sum_append, given, queued, ← List.sum_append, ← List.map_append]
  rfl

def drawn (owner : Owner) : Event × Answer → Int
  | (.reserve who n, .reserved true) => if who = owner then n.toInt else 0
  | (.giveBack who n, _) => if who = owner ∧ ¬ n ≤ 0 then -n.toInt else 0
  | _ => 0

def outstanding (owner : Owner) (events : List Event) (answers : List Answer) : Int :=
  ((events.zip answers).map (drawn owner)).sum

theorem Store.discard_work (s : Store) (place : Nat) :
    (s.discard place).stats.parsing = s.stats.parsing ∧ (s.discard place).stats.policy = s.stats.policy := by
  unfold discard
  split
  · exact ⟨rfl, rfl⟩
  · exact ⟨rfl, rfl⟩

theorem Store.close_balance (s : Store) (owner : Owner) : s.close.balance owner = s.balance owner := by
  have kept : ∀ (places : List Nat) (t : Store),
      (places.foldl discard t).stats.parsing = t.stats.parsing ∧
        (places.foldl discard t).stats.policy = t.stats.policy := by
    intro places
    induction places with
    | nil => exact fun t => ⟨rfl, rfl⟩
    | cons place places ih =>
      intro t
      obtain ⟨parsing, policy⟩ := ih (t.discard place)
      obtain ⟨here, there⟩ := t.discard_work place
      exact ⟨parsing.trans here, policy.trans there⟩
  obtain ⟨parsing, policy⟩ := kept s.queue { s with stats := { s.stats with closed := true } }
  cases owner with
  | parsing => exact congrArg Int64.toInt parsing
  | policy => exact congrArg Int64.toInt policy
  | other value => rfl

theorem Store.gives_balance {s : Store} {who : Owner} {n : Int64}
    (fair : n.toInt ≤ s.balance who ∨ n ≤ 0) (named : owner = .parsing ∨ owner = .policy) :
    (s.giveBack who n).balance owner = s.balance owner + if who = owner ∧ ¬ n ≤ 0 then -n.toInt else 0 := by
  by_cases positive : n ≤ 0
  · simp [Store.giveBack, positive]
  have held := fair.resolve_right positive
  unfold Store.giveBack
  rw [if_neg positive]
  cases who with
  | other value =>
    rcases named with rfl | rfl <;> simp
  | parsing =>
    have shrunk := (toInt_sub_of_le (m := s.stats.parsing) positive held).2.2
    rcases named with rfl | rfl
    · simp only [Store.balance, shrunk, positive, not_false_eq_true, and_self, if_true]
      omega
    · simp [Store.balance]
  | policy =>
    have shrunk := (toInt_sub_of_le (m := s.stats.policy) positive held).2.2
    rcases named with rfl | rfl
    · simp [Store.balance]
    · simp only [Store.balance, shrunk, positive, not_false_eq_true, and_self, if_true]
      omega

theorem Use.balance_step (sizes : Sizes) (bounded : u.Bounded limit) {event : Event} (fair : Fair u event)
    (named : owner = .parsing ∨ owner = .policy) :
    (u.step sizes event).2.store.balance owner =
      u.store.balance owner + drawn owner (event, (u.step sizes event).1) := by
  have inserted : ∀ {slot : Option Nat} {loss token : Option Loss} {error : Option Error}
      {after : Store}, u.store.Inserting slot loss error token after →
      after.balance owner = u.store.balance owner := by
    intro slot loss token error after inserts
    cases inserts <;> cases owner <;> rfl
  cases event with
  | write record loss =>
    have same := inserted (u.store.write_inserting sizes record loss)
    simpa [step, drawn] using same
  | connection record loss =>
    have same := inserted (u.store.connection_inserting sizes record loss)
    simpa [step, drawn] using same
  | take =>
    have same : u.store.take.2.balance owner = u.store.balance owner := by
      unfold Store.take
      split <;> cases owner <;> rfl
    simpa [step, drawn] using same
  | release place path =>
    have same : (u.store.releaseAs place).2.balance owner = u.store.balance owner := by
      unfold Store.releaseAs
      split
      · rfl
      split
      · rfl
      · cases owner <;> rfl
    simp only [step]
    split
    · simpa [drawn] using same
    · simp [drawn]
  | reserve who n =>
    have reserves := u.store.reserve_reserving who n
    show (u.store.reserve who n).2.balance owner = u.store.balance owner +
      drawn owner (.reserve who n, .reserved (u.store.reserve who n).1)
    generalize (u.store.reserve who n).1 = granted at reserves ⊢
    generalize (u.store.reserve who n).2 = after at reserves ⊢
    cases reserves with
    | refused => cases owner <;> simp [drawn, Store.balance, Store.refusing]
    | parsing positive room =>
      obtain ⟨-, -, grown, -⟩ := bounded.fits positive room
      rcases named with rfl | rfl
      · simpa [drawn, Store.balance, Store.charging] using grown
      · simp [drawn, Store.balance, Store.charging]
    | policy positive room =>
      obtain ⟨-, -, -, grown⟩ := bounded.fits positive room
      rcases named with rfl | rfl
      · simp [drawn, Store.balance, Store.charging]
      · simpa [drawn, Store.balance, Store.charging] using grown
  | giveBack who n => exact Store.gives_balance fair named
  | close =>
    have same := u.store.close_balance owner
    simpa [step, drawn] using same

theorem Use.balance_run (sizes : Sizes) (named : owner = .parsing ∨ owner = .policy) {events : List Event}
    (bounded : u.Bounded limit) (fair : Along (Use.step sizes) Fair u events) :
    (run (Use.step sizes) u events).2.store.balance owner =
      u.store.balance owner + outstanding owner events (run (Use.step sizes) u events).1 := by
  induction events generalizing u with
  | nil => simp [outstanding]
  | cons event events ih =>
    obtain ⟨now, later⟩ := fair
    have here := balance_step sizes bounded now named
    have rest := ih (bounded_step sizes u event bounded now) later
    simp only [run_cons, outstanding, List.zip_cons_cons, List.map_cons, List.sum_cons] at rest ⊢
    omega

def Answer.refuses : Answer → Bool
  | .stored (some _) _ => true
  | .reserved false => true
  | _ => false

def Event.loss : Event → Option Loss
  | .write _ loss => loss
  | .connection _ loss => loss
  | _ => none

def Answer.loss : Answer → Option Loss
  | .stored _ loss => loss
  | _ => none

/-- A refused insertion or reservation changes the counters of refusals, the
exhaustion signal and its connection's loss token, and nothing else. -/
theorem Use.refused_step (sizes : Sizes) (u : Use) (event : Event) (refused : (u.step sizes event).1.refuses = true) :
    (∃ fragments connections parsing policy exhausted signal,
      (u.step sizes event).2 = { u with
        store := u.store.refusing fragments connections parsing policy exhausted signal }) ∧
    ((u.step sizes event).1.loss = event.loss ∨
      (u.step sizes event).1.loss = event.loss.map (·.stop "intake_exhausted")) := by
  have inserted : ∀ {slot : Option Nat} {loss token : Option Loss} {error : Option Error}
      {after : Store}, u.store.Inserting slot loss error token after →
      (Answer.stored error token).refuses = true →
      (∃ fragments connections parsing policy exhausted signal, { u with store := after } = { u with
        store := u.store.refusing fragments connections parsing policy exhausted signal }) ∧
      (token = loss ∨ token = loss.map (·.stop "intake_exhausted")) := by
    intro slot loss token error after inserts refuses
    cases inserts with
    | refused error token fragments connections exhausted signal recorded =>
      exact ⟨⟨_, _, _, _, _, _, rfl⟩, recorded⟩
    | stored => cases refuses
  cases event with
  | write record loss => exact inserted (u.store.write_inserting sizes record loss) refused
  | connection record loss => exact inserted (u.store.connection_inserting sizes record loss) refused
  | take => cases refused
  | release place path =>
    simp only [step] at refused
    split at refused <;> cases refused
  | reserve owner n =>
    refine ⟨?_, .inl rfl⟩
    have reserves := u.store.reserve_reserving owner n
    have denied : (Answer.reserved (u.store.reserve owner n).1).refuses = true := refused
    show ∃ f c p q exhausted signal, { u with store := (u.store.reserve owner n).2 } = _
    generalize (u.store.reserve owner n).1 = granted at reserves denied
    generalize (u.store.reserve owner n).2 = after at reserves
    cases reserves with
    | refused => exact ⟨_, _, _, _, _, _, rfl⟩
    | parsing | policy => cases denied
  | giveBack owner n | close => cases refused

theorem bounded_new {store : Store} (made : newStore limit = .ok store) :
    ({ store } : Use).Bounded limit ∧ store.stats.parsing = 0 ∧ store.stats.policy = 0 := by
  unfold newStore at made
  split at made
  · cases made
  rename_i positive
  cases made
  have above : ¬ limit.toInt ≤ (0 : Int64).toInt := fun under => positive (Int64.le_iff_toInt_le.mpr under)
  have zero : (0 : Int64).toInt = 0 := rfl
  refine ⟨⟨rfl, by simp, by simp, ?_, rfl, ?_, by simp, ?_, ?_⟩, rfl, rfl⟩
  · show (0 : Int64).toInt + (0 : Int64).toInt + (0 : Int64).toInt ≤ limit.toInt
    omega
  · intro place
    simp [Store.chargeAt]
  · intro place member
    cases member
  · intro place member
    cases member

/-- The intake under any sequence of calls that give back no more than was
reserved. The three charges stay within the limit, and the store's own is the
sum over the entries leased and queued; entries are given out in the order they
were stored; a refusal changes nothing but what counts and records it; and once
nothing is queued or leased and every reservation was given back, all three are
zero. -/
theorem intake_runs (sizes : Sizes) {limit : Int64} {store : Store}
    (made : newStore limit = .ok store) (events : List Event)
    (fair : Along (Use.step sizes) Fair { store } events) :
    let answers := (run (Use.step sizes) { store } events).1
    let now := (run (Use.step sizes) { store } events).2
    now.store.stats.bytes.toInt + now.store.stats.parsing.toInt + now.store.stats.policy.toInt ≤ limit.toInt ∧
    now.store.stats.bytes.toInt = ((now.leased ++ now.store.queue).map now.store.bytesAt).sum ∧
    (now.taken ++ now.store.queue).Pairwise (· < ·) ∧
    (∀ event, (now.step sizes event).1.refuses = true →
      (∃ fragments connections parsing policy exhausted signal,
        (now.step sizes event).2 = { now with
          store := now.store.refusing fragments connections parsing policy exhausted signal }) ∧
      ((now.step sizes event).1.loss = event.loss ∨
        (now.step sizes event).1.loss = event.loss.map (·.stop "intake_exhausted"))) ∧
    (now.store.queue = [] → now.leased = [] → outstanding .parsing events answers = 0 →
      outstanding .policy events answers = 0 →
      now.store.stats.bytes = 0 ∧ now.store.stats.parsing = 0 ∧ now.store.stats.policy = 0) := by
  intro answers now
  obtain ⟨fresh, parsing, policy⟩ := bounded_new made
  have bounded : now.Bounded limit :=
    along_keeps (Use.step sizes) (Use.Bounded limit)
      (fun u event holds now => Use.bounded_step sizes u event holds now) fresh fair
  refine ⟨bounded.within, Use.bytes_eq bounded, bounded.order, Use.refused_step sizes now, ?_⟩
  intro queued leased parsed policed
  have bytes := Use.bytes_eq bounded
  rw [leased, queued] at bytes
  have first : now.store.stats.parsing.toInt = store.stats.parsing.toInt + outstanding .parsing events answers :=
    Use.balance_run sizes (.inl rfl) fresh fair
  have second : now.store.stats.policy.toInt = store.stats.policy.toInt + outstanding .policy events answers :=
    Use.balance_run sizes (.inr rfl) fresh fair
  rw [parsing, parsed] at first
  rw [policy, policed] at second
  exact ⟨Int64.toInt_inj.mp bytes, Int64.toInt_inj.mp first, Int64.toInt_inj.mp second⟩

/-- A reservation made and given back. -/
theorem intake_runs_reserved :
    let sizes : Sizes := ⟨1, 1, 1, 1, 1, 1, 1⟩
    let store : Store := { stats := { limitBytes := 8 }, exhausted := some 0 }
    let events := [Event.reserve .parsing 5, .reserve .policy 4, .giveBack .parsing 5, .close]
    newStore 8 = .ok store ∧ Along (Use.step sizes) Fair { store } events ∧
      (run (Use.step sizes) { store } events).2.store.stats.parsing = 0 := by
  intro sizes store events
  have fair : Along (Use.step sizes) Fair { store } events := ⟨trivial, trivial, .inl (by decide), trivial, trivial⟩
  have made : newStore 8 = .ok store := rfl
  obtain ⟨-, -, -, -, settled⟩ := intake_runs sizes made events fair
  exact ⟨made, fair, (settled rfl rfl (by decide) (by decide)).2.1⟩

/-- Giving back what was never reserved wraps a charge past the limit. -/
theorem intake_given_back_unreserved :
    let sizes : Sizes := ⟨1, 1, 1, 1, 1, 1, 1⟩
    let store : Store := { stats := { limitBytes := 8 }, exhausted := some 0 }
    let now := (run (Use.step sizes) { store } [.giveBack .parsing 9223372036854775807, .giveBack .parsing 2]).2
    newStore 8 = .ok store ∧
      (8 : Int) < now.store.stats.bytes.toInt + now.store.stats.parsing.toInt +
        now.store.stats.policy.toInt := by
  decide

end EdgeObserver.Intake
