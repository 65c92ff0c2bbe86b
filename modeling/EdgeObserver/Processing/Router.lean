import EdgeObserver.Extension.IdSet

/-!
# Telling a connection's first entry from a late one

The router keeps the highest id routed and the spans of ids below it that were not.
Past a bound the lowest span is taken as routed. No sum or difference here wraps:
each is next to an id of the same span, or above the top.
-/

set_option autoImplicit false

namespace EdgeObserver.Processing

open Extension Extension.IdSet

structure Router where
  any : Bool := false
  top : Nat := 0
  gaps : List Span := []

def unroutedBound : Nat := 1024

namespace Router

def without (g : Span) (id : Nat) : List Span :=
  if g.first = id ∧ g.last = id then []
  else if g.first = id then [{ g with first := g.first + 1 }]
  else if g.last = id then [{ g with last := g.last - 1 }]
  else [{ g with last := id - 1 }, { first := id + 1, last := g.last }]

def record (r : Router) (id : Nat) : Option Router :=
  if r.any = false then
    some { any := true, top := id, gaps := r.gaps ++ if id > 0 then [{ first := 0, last := id - 1 }] else [] }
  else if id > r.top then
    some { r with
      top := id, gaps := r.gaps ++ if id > r.top + 1 then [{ first := r.top + 1, last := id - 1 }] else [] }
  else match above r.gaps id with
    | [] => none
    | g :: rest => if g.first > id then none else some { r with gaps := below r.gaps id ++ (without g id ++ rest) }

def forget (r : Router) : Router := { r with gaps := r.gaps.drop (r.gaps.length - unroutedBound) }

def first (r : Router) (id : Nat) : Router × Bool :=
  match r.record id with
  | none => (r, false)
  | some next => (next.forget, true)

def route (r : Router) (ids : List Nat) : Router := ids.foldl (fun r id => (r.first id).1) r

def remembers (r : Router) (id : Nat) : Bool := (r.record id).all fun next => decide (next.gaps.length ≤ unroutedBound)

def remembersAll (r : Router) : List Nat → Bool
  | [] => true
  | id :: rest => r.remembers id && remembersAll (r.first id).1 rest

/-! ## What the router remembers -/

structure Records (r : Router) (given : List Nat) : Prop where
  spaced : Spaced r.gaps
  under : ∀ g ∈ r.gaps, g.last < r.top
  within : r.gaps.length ≤ unroutedBound
  empty : r.any = false → r.gaps = []
  routed : ∀ id ∈ given, r.any = true ∧ id ≤ r.top ∧ ¬ Spanned r.gaps id

def Exact (r : Router) (given : List Nat) : Prop := ∀ id, r.any = true → id ≤ r.top → ¬ Spanned r.gaps id → id ∈ given

theorem without_spanned {lower rest : List Span} {g : Span} {id : Nat} (spaced : Spaced (lower ++ g :: rest))
    (low : g.first ≤ id) (high : id ≤ g.last) :
    Spaced (lower ++ (without g id ++ rest)) ∧
      ∀ other, Spanned (lower ++ (without g id ++ rest)) other ↔ Spanned (lower ++ g :: rest) other ∧ other ≠ id := by
  refine ⟨?_, fun other => ?_⟩
  · obtain ⟨ordered, whole⟩ := spaced
    unfold without
    -- One case for each way the id can lie in its span.
    repeat' split
    all_goals
      refine ⟨?_, ?_⟩ <;>
      simp only [List.pairwise_append, List.pairwise_cons, List.mem_append, List.mem_cons, List.nil_append,
        List.cons_append] at * <;> grind
  · have around := spaced.around other
    have left : Spanned (without g id) other ↔ (g.first ≤ other ∧ other ≤ g.last) ∧ other ≠ id := by
      unfold without
      repeat' split
      all_goals simp only [spanned_cons, spanned_nil, or_false]
      all_goals grind
    simp only [spanned_append, spanned_cons, left]
    grind

/-- The ids skipped below a new top. -/
theorem skipped_spanned (gaps : List Span) (from_ upTo : Nat) (spaced : Spaced gaps) (under : ∀ g ∈ gaps, g.last < from_) :
    Spaced (gaps ++ if upTo > from_ then [{ first := from_, last := upTo - 1 }] else []) ∧
      ∀ other, Spanned (gaps ++ if upTo > from_ then [{ first := from_, last := upTo - 1 }] else []) other ↔
        Spanned gaps other ∨ (from_ ≤ other ∧ other < upTo) := by
  split
  · refine ⟨⟨?_, ?_⟩, fun other => ?_⟩
    · exact List.pairwise_append.mpr ⟨spaced.ordered, List.pairwise_singleton _ _, by simpa using under⟩
    · intro g member
      rcases List.mem_append.mp member with old | new
      · exact spaced.whole g old
      · rw [List.mem_singleton.mp new]
        exact Nat.le_sub_one_of_lt (by assumption)
    · simp only [spanned_append, spanned_cons, spanned_nil, or_false]
      grind
  · refine ⟨by simpa using spaced, fun other => ?_⟩
    simp only [List.append_nil]
    grind

section

variable {r next : Router} {given : List Nat} {id : Nat}

/-- An id the router answers for was given, or taken as routed with a span forgotten. -/
theorem record_none (records : r.Records given) (none : r.record id = none) :
    r.any = true ∧ id ≤ r.top ∧ ¬ Spanned r.gaps id := by
  unfold record at none
  split at none
  · cases none
  rename_i any
  split at none
  · cases none
  rename_i below_top
  refine ⟨by simpa using any, by omega, fun held => ?_⟩
  have inside := (found_iff records.spaced).mpr held
  unfold found at inside
  split at none
  · rename_i empty
    simp [empty] at inside
  rename_i g rest starts
  split at none
  · simp only [starts, decide_eq_true_eq] at inside
    omega
  · cases none

/-- Recording an id takes it, and no other, out of what is not routed. -/
theorem record_some (records : r.Records given) (some_ : r.record id = some next) :
    next.any = true ∧ Spaced next.gaps ∧ (∀ g ∈ next.gaps, g.last < next.top) ∧
      (∀ other, r.any = true ∧ other ≤ r.top ∧ ¬ Spanned r.gaps other ∨ other = id ↔
        other ≤ next.top ∧ ¬ Spanned next.gaps other) ∧ id ∉ given := by
  have top : ∀ other, Spanned r.gaps other → other < r.top := fun other ⟨g, member, _, high⟩ =>
    lt_of_le_of_lt high (records.under g member)
  unfold record at some_
  split at some_
  · rename_i any
    rw [records.empty any, List.nil_append] at some_
    cases some_
    obtain ⟨spaced, holds⟩ := skipped_spanned [] 0 id ⟨.nil, nofun⟩ nofun
    rw [List.nil_append] at spaced holds
    refine ⟨rfl, spaced, fun g member => ?_, fun other => ?_, fun was => by simpa [any] using (records.routed id was).1⟩
    · have := (holds g.last).mp ⟨g, member, spaced.whole g member, le_rfl⟩
      simpa using this
    · simp only [holds, spanned_nil, any]
      grind
  · rename_i any
    split at some_
    · cases some_
      obtain ⟨spaced, holds⟩ := skipped_spanned r.gaps (r.top + 1) id records.spaced
        fun g member => Nat.lt_succ_of_lt (records.under g member)
      refine ⟨by simpa using any, spaced, fun g member => ?_, fun other => ?_, fun was => ?_⟩
      · have := (holds g.last).mp ⟨g, member, spaced.whole g member, le_rfl⟩
        grind
      · simp only [holds]
        grind
      · have := (records.routed id was).2.1
        omega
    · split at some_
      · cases some_
      rename_i g rest starts
      split at some_
      · cases some_
      cases some_
      have whole : below r.gaps id ++ g :: rest = r.gaps := starts ▸ below_append_above r.gaps id
      have high : id ≤ g.last := le_last_of_above records.spaced (starts ▸ List.mem_cons_self)
      obtain ⟨spaced, holds⟩ := without_spanned (whole.symm ▸ records.spaced) (by omega) high
      rw [whole] at holds
      refine ⟨by simpa using any, spaced, fun g' member => ?_, fun other => ?_, fun was => ?_⟩
      · exact top _ ((holds g'.last).mp ⟨g', member, spaced.whole g' member, le_rfl⟩).1
      · simp only [holds]
        grind
      · exact (records.routed id was).2.2 ⟨g, by rw [← whole]; simp, by omega, high⟩

theorem forget_keeps (r : Router) : r.forget.gaps.Sublist r.gaps ∧ r.forget.gaps.length ≤ unroutedBound ∧
    r.forget.top = r.top ∧ r.forget.any = r.any := by
  simp only [forget, List.length_drop, and_true]
  generalize unroutedBound = bound
  exact ⟨List.drop_sublist _ _, by omega⟩

theorem first_records (id : Nat) (records : r.Records given) : (r.first id).1.Records (given ++ [id]) := by
  unfold first
  cases taken : r.record id with
  | none =>
    refine { records with routed := fun other member => ?_ }
    rcases List.mem_append.mp member with old | new
    · exact records.routed other old
    · rw [List.mem_singleton.mp new]
      exact record_none records taken
  | some next =>
    obtain ⟨any, spaced, under, holds, -⟩ := record_some records taken
    obtain ⟨kept, within, top, same⟩ := forget_keeps next
    simp only
    generalize next.forget = left at kept within top same ⊢
    refine ⟨⟨spaced.ordered.sublist kept, fun g member => spaced.whole g (kept.subset member)⟩,
      fun g member => top ▸ under g (kept.subset member), within, fun none => ?_, fun other member => ?_⟩
    · rw [same, any] at none
      cases none
    · have was : r.any = true ∧ other ≤ r.top ∧ ¬ Spanned r.gaps other ∨ other = id :=
        (List.mem_append.mp member).imp (records.routed other) List.mem_singleton.mp
      obtain ⟨low, out⟩ := (holds other).mp was
      exact ⟨same.trans any, top ▸ low, fun ⟨g, member, inside⟩ => out ⟨g, kept.subset member, inside⟩⟩

theorem first_exact (records : r.Records given) (exact_ : r.Exact given) (remembers : r.remembers id = true) :
    (r.first id).1.Exact (given ++ [id]) := by
  intro other any low out
  unfold first at any low out
  cases taken : r.record id with
  | none =>
    rw [taken] at any low out
    exact List.mem_append_left _ (exact_ other any low out)
  | some next =>
    obtain ⟨-, -, -, holds, -⟩ := record_some records taken
    have all : next.forget = next := by
      simp only [Router.remembers, taken, Option.all_some, decide_eq_true_eq] at remembers
      simp only [forget, Nat.sub_eq_zero_of_le remembers, List.drop_zero]
    simp only [taken, all] at any low out
    rcases (holds other).mpr ⟨low, out⟩ with ⟨any, low, out⟩ | rfl
    · exact List.mem_append_left _ (exact_ other any low out)
    · simp

theorem route_records (records : r.Records given) (ids : List Nat) :
    (r.route ids).Records (given ++ ids) ∧
      (r.Exact given → r.remembersAll ids = true → (r.route ids).Exact (given ++ ids)) := by
  unfold route
  induction ids generalizing r given with
  | nil => exact ⟨by simpa using records, fun exact_ _ => by simpa using exact_⟩
  | cons id rest ih =>
    obtain ⟨after, all⟩ := ih (first_records id records)
    rw [List.append_assoc, List.singleton_append] at after all
    refine ⟨after, fun exact_ remembers => ?_⟩
    simp only [remembersAll, Bool.and_eq_true] at remembers
    exact all (first_exact records exact_ remembers.1) remembers.2

theorem fresh_records : ({} : Router).Records [] := ⟨⟨.nil, nofun⟩, nofun, Nat.zero_le _, fun _ => rfl, nofun⟩

end

/-- First routing is remembered. Whatever ids were routed, in whatever order, the
router's spans are in order, apart, below its top and within their bound; an id
routed before is never first, and one that was not is, where no span was forgotten. -/
theorem first_remembered (routed : List Nat) (id : Nat) : (route {} routed).gaps.length ≤ unroutedBound ∧
    (route {} routed).gaps.Pairwise (fun left right => left.last < right.first) ∧
    (∀ g ∈ (route {} routed).gaps, g.first ≤ g.last ∧ g.last < (route {} routed).top) ∧
    (id ∈ routed → ((route {} routed).first id).2 = false) ∧
    (remembersAll {} routed = true → id ∉ routed → ((route {} routed).first id).2 = true) := by
  obtain ⟨records, exact_⟩ := route_records fresh_records routed
  rw [List.nil_append] at records exact_
  refine ⟨records.within, records.spaced.ordered,
    fun g member => ⟨records.spaced.whole g member, records.under g member⟩, fun was => ?_, fun remembers new => ?_⟩ <;>
    unfold first
  · cases taken : (route {} routed).record id with
    | none => rfl
    | some next => exact absurd was (record_some records taken).2.2.2.2
  · cases taken : (route {} routed).record id with
    | some next => rfl
    | none =>
      obtain ⟨any, low, out⟩ := record_none records taken
      exact absurd (exact_ (fun _ any => by cases any) remembers id any low out) new

theorem first_remembered_out_of_order :
    remembersAll {} [5, 9, 2] = true ∧ ((route {} [5, 9, 2]).first 7).2 = true ∧
      ((route {} [5, 9, 2]).first 9).2 = false :=
  ⟨by decide, (first_remembered [5, 9, 2] 7).2.2.2.2 (by decide) (by decide),
    (first_remembered [5, 9, 2] 9).2.2.2.1 (by decide)⟩

end Router

end EdgeObserver.Processing
