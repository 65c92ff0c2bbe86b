import Mathlib

/-!
# The ids a generation answered

Spans of consecutive ids, in order, and a floor below which every id counts as
answered. Ids are 64-bit in the program; none of its sums here wraps, since each
is next to an id it was compared with.
-/

set_option autoImplicit false

namespace EdgeObserver.Extension

structure Span where
  first : Nat
  last : Nat

structure IdSet where
  spans : List Span := []
  floor : Nat := 0

def spanBound : Nat := 4096

namespace IdSet

def below (spans : List Span) (id : Nat) : List Span := spans.takeWhile (·.last < id)

def above (spans : List Span) (id : Nat) : List Span := spans.dropWhile (·.last < id)

def found (spans : List Span) (id : Nat) : Bool :=
  match above spans id with
  | span :: _ => span.first ≤ id
  | [] => false

def contains (set : IdSet) (id : Nat) : Bool := id ≤ set.floor || found set.spans id

def insert (lower upper : List Span) (id : Nat) : List Span :=
  let joinsBelow := lower.getLast?.any (·.last + 1 == id)
  let joinsAbove := upper.head?.any (·.first == id + 1)
  let first := if joinsBelow then (lower.getLast?.map Span.first).getD id else id
  let last := if joinsAbove then (upper.head?.map Span.last).getD id else id
  (if joinsBelow then lower.dropLast else lower) ++
    { first := first, last := last } :: (if joinsAbove then upper.tail else upper)

def fold (set : IdSet) : IdSet :=
  let past := set.spans.length - spanBound
  match set.spans[past - 1]? with
  | some span =>
    if past > 0 then { spans := set.spans.drop past, floor := max set.floor span.last } else set
  | none => set

def add (set : IdSet) (id : Nat) : IdSet :=
  if found set.spans id then set
  else fold { set with spans := insert (below set.spans id) (above set.spans id) id }

end IdSet

def Spanned (spans : List Span) (id : Nat) : Prop := ∃ span ∈ spans, span.first ≤ id ∧ id ≤ span.last

structure Spaced (spans : List Span) : Prop where
  ordered : spans.Pairwise (fun left right => left.last < right.first)
  whole : ∀ span ∈ spans, span.first ≤ span.last

@[simp] theorem spanned_nil (id : Nat) : ¬ Spanned [] id := by simp [Spanned]

@[simp] theorem spanned_cons (span : Span) (spans : List Span) (id : Nat) :
    Spanned (span :: spans) id ↔ (span.first ≤ id ∧ id ≤ span.last) ∨ Spanned spans id := by
  simp [Spanned]

@[simp] theorem spanned_append (lower upper : List Span) (id : Nat) :
    Spanned (lower ++ upper) id ↔ Spanned lower id ∨ Spanned upper id := by
  simp [Spanned, or_and_right, exists_or]

/-- What the spans around one of them hold lies on either side of it. -/
theorem Spaced.around {lower upper : List Span} {span : Span} (spaced : Spaced (lower ++ span :: upper)) (id : Nat) :
    (Spanned lower id → id < span.first) ∧ (Spanned upper id → span.last < id) := by
  obtain ⟨-, inner, across⟩ := List.pairwise_append.mp spaced.ordered
  constructor
  · rintro ⟨held, member, -, high⟩
    exact lt_of_le_of_lt high (across held member span List.mem_cons_self)
  · rintro ⟨held, member, low, -⟩
    exact lt_of_lt_of_le (List.rel_of_pairwise_cons inner member) low

namespace IdSet

variable {spans : List Span} {id : Nat}

theorem below_append_above (spans : List Span) (id : Nat) :
    below spans id ++ above spans id = spans := List.takeWhile_append_dropWhile

theorem last_lt_of_below {span : Span} (member : span ∈ below spans id) : span.last < id := by
  simpa using List.mem_takeWhile_imp member

theorem le_last_of_above (spaced : Spaced spans) {span : Span} (member : span ∈ above spans id) :
    id ≤ span.last := by
  have ordered : (above spans id).Pairwise (fun left right => left.last < right.first) :=
    spaced.ordered.sublist (List.dropWhile_sublist _)
  have whole : ∀ span ∈ above spans id, span.first ≤ span.last :=
    fun span held => spaced.whole span (List.dropWhile_subset _ held)
  cases found : above spans id with
  | nil => rw [found] at member; cases member
  | cons head rest =>
    have start : ¬ head.last < id := by
      have := List.head?_dropWhile_not (fun span : Span => decide (span.last < id)) spans
      simp only [above] at found
      simpa [found] using this
    rw [found] at member ordered whole
    rcases List.mem_cons.mp member with rfl | later
    · omega
    · have after := List.rel_of_pairwise_cons ordered later
      have := whole span member
      omega

theorem found_iff (spaced : Spaced spans) : found spans id = true ↔ Spanned spans id := by
  have whole := below_append_above spans id
  have ordered : (above spans id).Pairwise (fun left right => left.last < right.first) :=
    spaced.ordered.sublist (List.dropWhile_sublist _)
  constructor
  · intro yes
    unfold found at yes
    split at yes
    · rename_i span rest first
      have member : span ∈ above spans id := first ▸ List.mem_cons_self
      refine ⟨span, whole ▸ List.mem_append_right _ member, of_decide_eq_true yes, ?_⟩
      exact le_last_of_above spaced member
    · cases yes
  · rintro ⟨span, member, low, high⟩
    rw [← whole] at member
    rcases List.mem_append.mp member with under | past
    · have := last_lt_of_below under
      omega
    unfold found
    split
    · rename_i head rest first
      rw [first] at past ordered
      have near : id ≤ head.last := le_last_of_above spaced (first ▸ List.mem_cons_self)
      rcases List.mem_cons.mp past with rfl | later
      · exact decide_eq_true low
      · have := List.rel_of_pairwise_cons ordered later
        omega
    · rename_i empty
      rw [empty] at past
      cases past

theorem contains_iff {set : IdSet} (spaced : Spaced set.spans) :
    set.contains id = true ↔ id ≤ set.floor ∨ Spanned set.spans id := by
  simp [contains, found_iff spaced]

section Insert

variable {lower upper : List Span}

theorem insert_eq (lower upper : List Span) (id : Nat) :
    ∃ low span high, insert lower upper id = low ++ span :: high ∧
      ((low = lower ∧ span.first = id ∧ ∀ joined rest, lower = rest ++ [joined] → joined.last + 1 ≠ id) ∨
        ∃ joined, lower = low ++ [joined] ∧ joined.last + 1 = id ∧ span.first = joined.first) ∧
      ((high = upper ∧ span.last = id ∧ ∀ joined rest, upper = joined :: rest → joined.first ≠ id + 1) ∨
        ∃ joined, upper = joined :: high ∧ joined.first = id + 1 ∧ span.last = joined.last) := by
  refine ⟨_, _, _, rfl, ?_, ?_⟩
  · rcases lower.eq_nil_or_concat with rfl | ⟨rest, joined, rfl⟩
    · simp
    by_cases joins : joined.last + 1 = id
    · simp [joins]
    left
    simp only [List.concat_eq_append, List.getLast?_append, List.getLast?_singleton, Option.some_or, Option.any_some,
      beq_iff_eq, joins, if_false, true_and]
    intro last others same
    rwa [← (List.append_inj' same rfl).2 |> List.singleton_inj.mp]
  · cases upper with
    | nil => simp
    | cons joined rest =>
      by_cases joins : joined.first = id + 1
      · simp [joins]
      · simp [joins]

theorem insert_spanned (under : ∀ span ∈ lower, span.last < id) (past : ∀ span ∈ upper, id < span.first)
    (spaced : Spaced (lower ++ upper)) :
    Spaced (insert lower upper id) ∧
      ∀ other, Spanned (insert lower upper id) other ↔ Spanned (lower ++ upper) other ∨ other = id := by
  obtain ⟨low, span, high, made, left, right⟩ := insert_eq lower upper id
  obtain ⟨ordered, whole⟩ := spaced
  rw [made]
  rcases left with ⟨rfl, first, -⟩ | ⟨before, rfl, joins, first⟩ <;>
    rcases right with ⟨rfl, last, -⟩ | ⟨after, rfl, touches, last⟩ <;>
    simp only [List.pairwise_append, List.pairwise_cons, List.mem_append, List.mem_cons,
      List.not_mem_nil, or_false] at * <;>
    refine ⟨⟨?_, ?_⟩, fun other => ?_⟩ <;>
    simp only [List.pairwise_append, List.pairwise_cons, List.mem_append, List.mem_cons, spanned_append, spanned_cons,
      spanned_nil, or_false] <;> grind

/-- Spans no two of which touch are joined where an id lies between them. -/
theorem insert_separate (under : ∀ span ∈ lower, span.last < id) (past : ∀ span ∈ upper, id < span.first)
    (whole : ∀ span ∈ lower ++ upper, span.first ≤ span.last)
    (separate : (lower ++ upper).Pairwise (fun left right => left.last + 1 < right.first)) :
    (insert lower upper id).Pairwise (fun left right => left.last + 1 < right.first) := by
  obtain ⟨low, span, high, made, left, right⟩ := insert_eq lower upper id
  -- Where an id joins no span on one side, every span there ends before its neighbour.
  have before : (∀ joined rest, lower = rest ++ [joined] → joined.last + 1 ≠ id) → ∀ span ∈ lower, span.last + 1 < id := by
    intro apart held member
    rcases lower.eq_nil_or_concat with rfl | ⟨rest, joined, rfl⟩
    · cases member
    · have := apart joined rest (by simp)
      simp only [List.concat_eq_append, List.pairwise_append, List.mem_append, List.mem_singleton] at *
      grind
  have after : (∀ joined rest, upper = joined :: rest → joined.first ≠ id + 1) → ∀ span ∈ upper, id + 1 < span.first := by
    intro apart held member
    cases upper with
    | nil => cases member
    | cons joined rest =>
      have := apart joined rest rfl
      simp only [List.pairwise_append, List.pairwise_cons, List.mem_append, List.mem_cons] at *
      grind
  rw [made]
  rcases left with ⟨rfl, first, apart⟩ | ⟨joined, rfl, joins, first⟩ <;>
    rcases right with ⟨rfl, last, other⟩ | ⟨next, rfl, touches, last⟩ <;>
    simp only [List.pairwise_append, List.pairwise_cons, List.mem_append, List.mem_cons, List.not_mem_nil,
      or_false] at * <;> grind

end Insert

theorem lt_first_of_above (spaced : Spaced spans) (absent : found spans id = false) {span : Span}
    (member : span ∈ above spans id) : id < span.first := by
  have high := le_last_of_above spaced member
  by_contra low
  have holds : Spanned spans id := ⟨span, List.dropWhile_subset _ member, by omega, high⟩
  rw [(found_iff spaced).mpr holds] at absent
  cases absent

theorem taken_le_last (spaced : Spaced spans) {past : Nat} {top span : Span}
    (last : spans[past - 1]? = some top) (member : span ∈ spans.take past) :
    span.last ≤ top.last := by
  obtain ⟨place, held, rfl⟩ := List.mem_iff_getElem.mp member
  obtain ⟨bound, rfl⟩ := List.getElem?_eq_some_iff.mp last
  have early : place < past := by
    have := List.length_take_le past spans
    omega
  rw [List.getElem_take]
  rcases Nat.lt_or_ge place (past - 1) with before | same
  · have apart := List.pairwise_iff_getElem.mp spaced.ordered place (past - 1) (by omega) bound before
    have whole := spaced.whole _ (List.getElem_mem bound)
    omega
  · have : place = past - 1 := by omega
    subst this
    exact le_refl _

theorem fold_contains (set : IdSet) (spaced : Spaced set.spans) (id : Nat) :
    Spaced set.fold.spans ∧
      (id ≤ set.floor ∨ Spanned set.spans id → id ≤ set.fold.floor ∨ Spanned set.fold.spans id) := by
  unfold fold
  dsimp only
  generalize set.spans.length - spanBound = past
  split
  · rename_i top at_
    split
    · refine ⟨⟨spaced.ordered.sublist (List.drop_sublist _ _), fun span member =>
        spaced.whole span (List.mem_of_mem_drop member)⟩, ?_⟩
      rintro (low | ⟨span, member, low, high⟩)
      · exact .inl (le_trans low (le_max_left _ _))
      · rw [← List.take_append_drop past set.spans] at member
        rcases List.mem_append.mp member with folded | kept
        · exact .inl (le_trans high (le_trans (taken_le_last spaced at_ folded) (le_max_right _ _)))
        · exact .inr ⟨span, kept, low, high⟩
    · exact ⟨spaced, fun held => held⟩
  · exact ⟨spaced, fun held => held⟩

theorem add_contains {set : IdSet} (spaced : Spaced set.spans) (added id : Nat) :
    Spaced (set.add added).spans ∧ (set.contains id = true ∨ id = added → (set.add added).contains id = true) := by
  unfold add
  split
  · rename_i found
    refine ⟨spaced, ?_⟩
    rintro (held | rfl)
    · exact held
    · simp [contains, found]
  · rename_i absent
    have absent : found set.spans added = false := by simpa using absent
    obtain ⟨next, holds⟩ := insert_spanned (fun span member => last_lt_of_below member)
      (fun span member => lt_first_of_above spaced absent member)
      ((below_append_above set.spans added).symm ▸ spaced)
    obtain ⟨folded, keeps⟩ := fold_contains { set with spans := _ } next id
    refine ⟨folded, fun held => (contains_iff folded).mpr (keeps ?_)⟩
    rcases held with held | same
    · rcases (contains_iff spaced).mp held with low | held
      · exact .inl low
      · exact .inr ((holds id).mpr (.inl ((below_append_above set.spans added).symm ▸ held)))
    · exact .inr ((holds id).mpr (.inr same))

structure Knows (set : IdSet) (added : List Nat) : Prop where
  separate : set.spans.Pairwise (fun left right => left.last + 1 < right.first)
  whole : ∀ span ∈ set.spans, span.first ≤ span.last
  within : set.spans.length ≤ spanBound
  held : ∀ id ∈ added, set.contains id = true
  only : ∀ id, Spanned set.spans id → id ∈ added

theorem Knows.spaced {set : IdSet} {added : List Nat} (knows : set.Knows added) : Spaced set.spans :=
  ⟨knows.separate.imp fun apart => by omega, knows.whole⟩

theorem fold_kept (set : IdSet) : set.fold.spans.Sublist set.spans ∧ set.fold.spans.length ≤ spanBound := by
  unfold fold
  dsimp only
  generalize spanBound = bound
  split
  · split
    · exact ⟨List.drop_sublist _ _, by simp only [List.length_drop]; omega⟩
    · exact ⟨.refl _, by omega⟩
  · rename_i none
    have := List.getElem?_eq_none_iff.mp none
    exact ⟨.refl _, by omega⟩

theorem add_knows {set : IdSet} {added : List Nat} (knows : set.Knows added) (id : Nat) :
    (set.add id).Knows (added ++ [id]) := by
  have held : ∀ other ∈ added ++ [id], (set.add id).contains other = true := fun other member =>
    (add_contains knows.spaced id other).2 ((List.mem_append.mp member).imp (knows.held other) List.mem_singleton.mp)
  revert held
  unfold add
  split
  · intro held
    exact { knows with held, only := fun other inside => List.mem_append_left _ (knows.only other inside) }
  rename_i absent
  intro held
  have parts := below_append_above set.spans id
  have under : ∀ span ∈ below set.spans id, span.last < id := fun span => last_lt_of_below
  have past : ∀ span ∈ above set.spans id, id < span.first := fun span =>
    lt_first_of_above knows.spaced (by simpa using absent)
  obtain ⟨next, holds⟩ := insert_spanned under past (parts.symm ▸ knows.spaced)
  obtain ⟨kept, within⟩ := fold_kept { set with spans := insert (below set.spans id) (above set.spans id) id }
  refine ⟨(insert_separate under past (parts.symm ▸ knows.whole) (parts.symm ▸ knows.separate)).sublist kept,
    fun span member => next.whole span (kept.subset member), within, held, ?_⟩
  rintro other ⟨span, member, inside⟩
  rcases (holds other).mp ⟨span, kept.subset member, inside⟩ with old | rfl
  · exact List.mem_append_left _ (knows.only other (parts ▸ old))
  · simp

/-- Answered ids are recognised. Whatever ids were added, in whatever order, each of
them is contained, none above the floor is that was not, and the spans are in order,
apart, not adjacent and within their bound. -/
theorem answered_recognised (added : List Nat) (id : Nat) :
    let set := added.foldl add {}
    (id ∈ added → set.contains id = true) ∧ (set.floor < id → id ∉ added → set.contains id = false) ∧
    set.spans.Pairwise (fun left right => left.last + 1 < right.first) ∧
    (∀ span ∈ set.spans, span.first ≤ span.last) ∧ set.spans.length ≤ spanBound := by
  have all : ∀ (rest : List Nat) (set : IdSet) (added : List Nat), set.Knows added →
      (rest.foldl add set).Knows (added ++ rest) := by
    intro rest
    induction rest with
    | nil => exact fun set added knows => by simpa using knows
    | cons next rest ih => exact fun set added knows => by simpa using ih _ _ (add_knows knows next)
  have knows := all added {} [] ⟨.nil, nofun, Nat.zero_le _, nofun, fun id => by simp⟩
  rw [List.nil_append] at knows
  refine ⟨knows.held id, fun above absent => ?_, knows.separate, knows.whole, knows.within⟩
  rw [← Bool.not_eq_true, contains_iff knows.spaced]
  rintro (low | inside)
  · omega
  · exact absent (knows.only id inside)

theorem answered_recognised_merged :
    ([3, 1, 2].foldl add {}).contains 2 = true ∧ ([3, 1, 2].foldl add {}).contains 5 = false :=
  ⟨(answered_recognised [3, 1, 2] 2).1 (by decide), (answered_recognised [3, 1, 2] 5).2.1 (by decide) (by decide)⟩

end IdSet

end EdgeObserver.Extension
