import EdgeObserver.Capture.Ways

/-!
# What holds of every followed connection

A rule for whole runs of a session: something said of each stream followed and
of what happened to it, and of each stream that ended, holds in every state a
run reaches if the calls on one stream keep it. A connection's id is never used
again, so what happens elsewhere is apart from it.
-/

set_option autoImplicit false

namespace EdgeObserver.Capture

open Probe

def Happened.connection : Happened → Nat
  | .transferred connection _ _ => connection
  | .refused connection _ => connection
  | .ended _ _ _ => 0

/-- Something that happened to another connection than a stream's, in another
occupancy of its handle, or with no number. -/
def Apart (f : Stream) : Happened → Prop
  | .transferred connection t _ | .refused connection t =>
    connection ≠ f.id ∧
      (connection = 0 → t.sequence.number = 0 ∨ t.handle ≠ f.handle ∨ t.sequence.occupancy ≠ f.occupancy)
  | .ended _ _ _ => True

def Endings (history : List Happened) : Prop := ∀ one ∈ history, ∃ f record final, one = .ended f record final

structure Sane (s : Session) : Prop where
  handles : (s.streams.map Stream.handle).Nodup
  ids : (s.streams.map Stream.id).Nodup
  named : ∀ f ∈ s.streams, 0 < f.id ∧ f.id ≤ s.next
  past : ∀ one ∈ s.history, one.connection ≤ s.next
  gone : ∀ later earlier f record final,
    s.history = later ++ .ended f record final :: earlier →
      (∀ one ∈ later, one.connection ≠ f.id) ∧ (∀ g ∈ s.streams, g.id ≠ f.id) ∧ 0 < f.id ∧ f.id ≤ s.next

/-- What a session holds throughout: `Live` of each stream and what happened so
far, `Done` of each ended stream and what happened before, `Each` of whatever
happened. -/
structure Holds (Live : List Happened → Stream → Prop)
    (Done : List Happened → Stream → Connection.Record → Option Final → Prop)
    (Each : Happened → Prop) (s : Session) : Prop where
  sane : Sane s
  live : ∀ f ∈ s.streams, Live s.history f
  done : ∀ later earlier f record final,
    s.history = later ++ .ended f record final :: earlier → Done earlier f record final
  each : ∀ one ∈ s.history, Each one

section Streams

variable {s : Session} {f g : Stream} {l : Locked} {handle : Handle}

theorem find_some (found : s.find handle = some f) : f ∈ s.streams ∧ f.handle = handle := by
  refine ⟨List.mem_of_find?_eq_some found, ?_⟩
  simpa using List.find?_some found

theorem find_none (none_ : s.find handle = none) : ∀ g ∈ s.streams, g.handle ≠ handle := by
  intro g member
  simpa using List.find?_eq_none.mp none_ g member

theorem Sane.id_ne (sane : Sane s) (member : f ∈ s.streams) (other : g ∈ s.streams)
    (apart : g.handle ≠ f.handle) : g.id ≠ f.id := by
  intro same
  exact apart (congrArg Stream.handle (List.inj_on_of_nodup_map sane.ids other member same))

theorem keep_map {α : Type} (project : Stream → α) (member : f ∈ s.streams)
    (distinct : (s.streams.map Stream.handle).Nodup) (handle : l.stream.handle = f.handle)
    (same : project l.stream = project f) :
    (s.keep l).streams.map project = s.streams.map project := by
  simp only [Session.keep, List.map_map]
  refine List.map_congr_left fun g other => ?_
  simp only [Function.comp]
  split
  · rename_i here
    have : g = f := List.inj_on_of_nodup_map distinct other member (here.trans handle)
    rw [same, this]
  · rfl

theorem mem_keep (kept : g ∈ (s.keep l).streams) :
    g = l.stream ∨ (g ∈ s.streams ∧ g.handle ≠ l.stream.handle) := by
  obtain ⟨old, member, is⟩ := List.mem_map.mp kept
  split at is
  · exact .inl is.symm
  · subst is
    exact .inr ⟨member, ‹_›⟩

end Streams

section Holds

variable {Live : List Happened → Stream → Prop}
variable {Done : List Happened → Stream → Connection.Record → Option Final → Prop}
variable {Each : Happened → Prop}
variable {s : Session} {f : Stream}

variable {one : Happened} {s' : Session}

theorem split_of_cons {history later earlier : List Happened} {f : Stream}
    {record : Connection.Record} {final : Option Final}
    (split : one :: history = later ++ .ended f record final :: earlier) :
    (later = [] ∧ one = .ended f record final ∧ history = earlier) ∨
      ∃ rest, later = one :: rest ∧ history = rest ++ .ended f record final :: earlier := by
  cases later with
  | nil =>
    rw [List.nil_append, List.cons.injEq] at split
    exact .inl ⟨rfl, split.1, split.2⟩
  | cons first rest =>
    rw [List.cons_append, List.cons.injEq] at split
    exact .inr ⟨rest, by rw [split.1], split.2⟩

theorem Holds.aside (holds : Holds Live Done Each s) (streams : s'.streams = s.streams) (next : s'.next = s.next)
    (history : s'.history = s.history) : Holds Live Done Each s' where
  sane :=
    { handles := by rw [streams]; exact holds.sane.handles
      ids := by rw [streams]; exact holds.sane.ids
      named := by rw [streams, next]; exact holds.sane.named
      past := by rw [history, next]; exact holds.sane.past
      gone := by rw [history, streams, next]; exact holds.sane.gone }
  live := by rw [streams, history]; exact holds.live
  done := by rw [history]; exact holds.done
  each := by rw [history]; exact holds.each

theorem apart_of_connection {g : Stream} (named : 0 < f.id)
    (here : one.connection = f.id) (other : g.id ≠ f.id) : Apart g one := by
  cases one with
  | transferred connection t fate | refused connection t =>
    refine ⟨fun same => other (same.symm.trans here), fun none_ => ?_⟩
    have : connection = f.id := here
    omega
  | ended => trivial

/-- A call that is told of, and that leaves no stream under a new number. It is
about a followed stream, or about none. -/
theorem Holds.happens (holds : Holds Live Done Each s) (history : s'.history = one :: s.history)
    (next : s'.next = s.next) (handles : (s'.streams.map Stream.handle).Nodup)
    (ids : (s'.streams.map Stream.id).Nodup) (among : ∀ g ∈ s'.streams, ∃ old ∈ s.streams, old.id = g.id)
    (about : one.connection = 0 ∨ ∃ f ∈ s.streams, one.connection = f.id)
    (ended : ∀ g record final, one = .ended g record final →
      Done s.history g record final ∧ (∀ h ∈ s'.streams, h.id ≠ g.id) ∧ 0 < g.id ∧ g.id ≤ s.next)
    (live : ∀ g ∈ s'.streams, Live (one :: s.history) g) (each : Each one) : Holds Live Done Each s' := by
  refine ⟨⟨handles, ids, ?_, ?_, ?_⟩, history ▸ live, ?_, ?_⟩
  · intro g kept
    obtain ⟨old, listed, same⟩ := among g kept
    rw [next]
    exact same ▸ holds.sane.named old listed
  · intro any happened
    rw [history] at happened
    rw [next]
    rcases List.mem_cons.mp happened with rfl | old
    · rcases about with none_ | ⟨f, member, is⟩
      · rw [none_]
        exact Nat.zero_le _
      · rw [is]
        exact (holds.sane.named f member).2
    · exact holds.sane.past any old
  · intro later earlier g record final split
    rw [history] at split
    rw [next]
    rcases split_of_cons split with ⟨none_, ending, _⟩ | ⟨rest, is, old⟩
    · rw [none_]
      exact ⟨fun any listed => absurd listed List.not_mem_nil, (ended g record final ending).2⟩
    obtain ⟨others, streams, bounds⟩ := holds.sane.gone rest earlier g record final old
    refine ⟨fun any listed => ?_, fun h kept => ?_, bounds⟩
    · rw [is] at listed
      rcases List.mem_cons.mp listed with rfl | old
      · rcases about with none_ | ⟨f, member, is⟩
        · rw [none_]
          exact Nat.ne_of_lt bounds.1
        · rw [is]
          exact streams f member
      · exact others any old
    · obtain ⟨old, listed, same⟩ := among h kept
      exact same ▸ streams old listed
  · intro later earlier g record final split
    rw [history] at split
    rcases split_of_cons split with ⟨_, ending, old⟩ | ⟨rest, _, old⟩
    · exact old ▸ (ended g record final ending).1
    · exact holds.done rest earlier g record final old
  · intro any happened
    rw [history] at happened
    rcases List.mem_cons.mp happened with rfl | old
    · exact each
    · exact holds.each any old

theorem Holds.update (holds : Holds Live Done Each s)
    (frame : ∀ history g one, Live history g → Apart g one → Live (one :: history) g)
    (member : f ∈ s.streams) {l : Locked} (handle : l.stream.handle = f.handle)
    (id : l.stream.id = f.id) (here : one.connection = f.id)
    (live : Live (one :: s.history) l.stream) (each : Each one) :
    Holds Live Done Each ((s.keep l).happened one) := by
  have named := holds.sane.named f member
  have handles := keep_map Stream.handle member holds.sane.handles handle handle
  have ids := keep_map Stream.id member holds.sane.handles handle id
  refine holds.happens rfl rfl (handles ▸ holds.sane.handles) (ids ▸ holds.sane.ids) ?_
    (.inr ⟨f, member, here⟩) ?_ ?_ each
  · intro g kept
    have listed : g.id ∈ (s.keep l).streams.map Stream.id := List.mem_map.mpr ⟨g, kept, rfl⟩
    rw [ids] at listed
    exact List.mem_map.mp listed
  · intro g record final ending
    rw [ending] at here
    exact absurd here.symm (Nat.ne_of_gt named.1)
  · intro g kept
    rcases mem_keep kept with new | ⟨old, apart⟩
    · exact new ▸ live
    · refine frame _ g one (holds.live g old) (apart_of_connection named.1 here ?_)
      exact holds.sane.id_ne member old (handle ▸ apart)

theorem Holds.note (holds : Holds Live Done Each s)
    (frame : ∀ history g one, Live history g → Apart g one → Live (one :: history) g) (nowhere : one.connection = 0)
    (open_ : ∀ g record final, one ≠ .ended g record final)
    (apart : ∀ g ∈ s.streams, Apart g one) (each : Each one) :
    Holds Live Done Each (s.happened one) :=
  holds.happens rfl rfl holds.sane.handles holds.sane.ids (fun g member => ⟨g, member, rfl⟩) (.inl nowhere)
    (fun g record final ending => absurd ending (open_ g record final))
    (fun g member => frame _ g one (holds.live g member) (apart g member)) each

theorem Holds.ending (holds : Holds Live Done Each s)
    (frame : ∀ history g one, Live history g → Apart g one → Live (one :: history) g)
    (member : f ∈ s.streams) {s' : Session} {g : Stream} {record : Connection.Record}
    {final : Option Final} (id : g.id = f.id) (done : Done s.history g record final)
    (each : Each (.ended g record final)) (fewer : s'.streams.Sublist s.streams)
    (gone : ∀ h ∈ s'.streams, h.handle ≠ f.handle) (next : s'.next = s.next)
    (history : s'.history = .ended g record final :: s.history) : Holds Live Done Each s' := by
  refine holds.happens history next (holds.sane.handles.sublist (fewer.map _))
    (holds.sane.ids.sublist (fewer.map _)) (fun h kept => ⟨h, fewer.subset kept, rfl⟩) (.inl rfl) ?_
    (fun h kept => frame _ h _ (holds.live h (fewer.subset kept)) trivial) each
  intro g record final ending
  cases ending
  rw [id]
  refine ⟨done, fun h kept => ?_, holds.sane.named f member⟩
  exact holds.sane.id_ne member (fewer.subset kept) (gone h kept)

theorem Holds.beginning (holds : Holds Live Done Each s)
    (fresh : ∀ g ∈ s.streams, g.handle ≠ f.handle) (id : f.id = s.next + 1)
    (live : Live s.history f) (streams : s'.streams = s.streams ++ [f])
    (next : s'.next = s.next + 1) (history : s'.history = s.history) :
    Holds Live Done Each s' := by
  have unused : ∀ g ∈ s.streams, g.id ≠ f.id := by
    intro g member
    have := holds.sane.named g member
    omega
  have listed : ∀ g ∈ s'.streams, g ∈ s.streams ∨ g = f := by
    intro g kept
    rw [streams] at kept
    simpa using kept
  refine ⟨⟨?_, ?_, ?_, ?_, ?_⟩, ?_, ?_, ?_⟩
  · rw [streams, List.map_append]
    refine holds.sane.handles.append (List.nodup_singleton _) ?_
    intro handle old new
    obtain ⟨g, member, is⟩ := List.mem_map.mp old
    exact fresh g member (is.trans (List.mem_singleton.mp new))
  · rw [streams, List.map_append]
    refine holds.sane.ids.append (List.nodup_singleton _) ?_
    intro handle old new
    obtain ⟨g, member, is⟩ := List.mem_map.mp old
    exact unused g member (is.trans (List.mem_singleton.mp new))
  · intro g kept
    rw [next]
    rcases listed g kept with old | new
    · have := holds.sane.named g old
      omega
    · rw [new]
      omega
  · intro any happened
    rw [history] at happened
    rw [next]
    exact Nat.le_succ_of_le (holds.sane.past any happened)
  · intro later earlier h record final split
    rw [history] at split
    rw [next]
    obtain ⟨others, apart, bounds⟩ := holds.sane.gone later earlier h record final split
    refine ⟨others, ?_, by omega⟩
    intro g kept
    rcases listed g kept with old | new
    · exact apart g old
    · rw [new]
      omega
  · intro g kept
    rw [history]
    rcases listed g kept with old | new
    · exact holds.live g old
    · exact new ▸ live
  · rw [history]
    exact holds.done
  · rw [history]
    exact holds.each

end Holds

end EdgeObserver.Capture
