import EdgeObserver.Reconstruct.Pairing

/-!
# What a direction begins with

A direction's beginning read offset by offset. Once it is certain nothing that
arrives later changes it, so what a direction opens with is its own, whatever parts
it came in.
-/

set_option autoImplicit false

namespace EdgeObserver.Reconstruct

open EdgeObserver.Stream Text

namespace Beginning

@[simp] theorem close_certain (b : Beginning) : b.close.certain = true := by
  unfold close
  split
  · assumption
  · split
    · rfl
    · split <;> rfl

@[simp] theorem close_n (b : Beginning) : b.close.n = b.n := by
  unfold close
  split
  · rfl
  · split
    · rfl
    · split <;> rfl

theorem close_of_certain {b : Beginning} (certain : b.certain = true) : b.close = b := if_pos certain

theorem take_append (b : Beginning) (first second : Bytes) : b.take (first ++ second) = (b.take first).take second := by
  induction first generalizing b with
  | nil => rfl
  | cons c first ih =>
    rw [List.cons_append, take, take]
    split
    · rename_i certain
      cases second with
      | nil => rfl
      | cons c second => exact (if_pos certain).symm
    · exact ih _

end Beginning

/-!
## The whole string, and its pieces
-/

def wholeOf (bytes : Bytes) : WholeStream :=
  { parts := if bytes = [] then [] else [{ offset := 0, length := bytes.length, bytes }], endsAt := bytes.length }

def Determined (seen : Bytes) : Prop := ∃ what, ∀ later, seen ++ later ≠ [] → opening (wholeOf (seen ++ later)) = what

def opens (head : Bytes) : Opener :=
  if head.take 5 = ascii "HTTP/" then .opensResponse
  else
    let method := head.takeWhile (· ≠ space)
    if method ≠ head ∧ method ≠ [] ∧ method.all isTokenByte then .opensRequest else .opensSomethingElse

theorem opening_whole {bytes : Bytes} (some_ : bytes ≠ []) :
    opening (wholeOf bytes) = opens (bytes.take openingWindow) := by
  have length := List.length_pos_iff.mpr some_
  have peeked : (newCursor (wholeOf bytes)).peek openingWindow = bytes.take openingWindow := by
    unfold Cursor.peek newCursor wholeOf openingWindow
    by_cases long : 32 ≤ bytes.length
    · simp [Cursor.peekLoop, Cursor.part, some_, length, long]
    · have all : min 32 bytes.length = bytes.length := by omega
      simp [Cursor.peekLoop, Cursor.part, some_, length, all, Nat.not_le.mp long]
      omega
  rw [opening, if_neg (by simp only [wholeOf]; omega), peeked]
  rfl

namespace Beginning

def version (seen : Bytes) : Bool := (seen.take 5).isPrefixOf (ascii "HTTP/")

structure Noted (b : Beginning) (seen : Bytes) : Prop where
  uncertain : b.certain = false
  n : b.n = seen.length
  isVersion : b.isVersion = version seen
  space : b.space = if Text.space ∈ seen then some (seen.takeWhile (· ≠ Text.space)).length else none
  token : b.token = (seen.takeWhile (· ≠ Text.space)).all isTokenByte

def Decided (b : Beginning) : Prop :=
  (b.n ≥ 5 ∧ b.isVersion = true) ∨ b.space ≠ none ∨ (b.token = false ∧ (b.n ≥ 5 ∨ b.isVersion = false)) ∨
    b.n = openingWindow

variable {b : Beginning} {seen : Bytes}

theorem apart_of_unspaced (without : Text.space ∉ seen) : ∀ c ∈ seen, (c ≠ Text.space : Bool) = true :=
  fun _ member => decide_eq_true (ne_of_mem_of_not_mem member without)

theorem takeWhile_ne (spaced : Text.space ∈ seen) : seen.takeWhile (· ≠ Text.space) ≠ seen := fun same => by
  simpa using List.takeWhile_eq_self_iff.mp same _ spaced

theorem version_see (seen : Bytes) (c : UInt8) : version (seen ++ [c]) =
    if seen.length < 5 then version seen && (ascii "HTTP/")[seen.length]? == some c else version seen := by
  unfold version
  split
  · rename_i short
    rw [List.take_of_length_le (by simpa using short), List.take_of_length_le (Nat.le_of_lt short)]
    match seen, short with
    | [], _ | [_], _ | [_, _], _ | [_, _, _], _ | [_, _, _, _], _ =>
      simp [ascii, List.isPrefixOf, Bool.and_assoc, Bool.beq_comm]
  · rw [List.take_append_of_le_length (by omega)]

theorem Noted.see (noted : b.Noted seen) (open_ : ¬ b.Decided) (c : UInt8) :
    ∃ next : Beginning, next.Noted (seen ++ [c]) ∧
      (next.Decided ∧ b.see c = next.close ∨ ¬ next.Decided ∧ b.see c = next) := by
  obtain ⟨uncertain, n, isVersion, space, token⟩ := noted
  have unspaced : b.space = none := by
    by_contra found
    exact open_ (.inr (.inl found))
  have without : Text.space ∉ seen := by
    simpa [unspaced] using space
  have apart := apart_of_unspaced without
  refine ⟨{ b with
    n := b.n + 1
    isVersion := if b.n < 5 then b.isVersion && (ascii "HTTP/")[b.n]? == some c else b.isVersion
    space := if c = Text.space then some b.n else none
    token := if c = Text.space then b.token else b.token && isTokenByte c }, ⟨uncertain, by simp [n], ?_, ?_, ?_⟩, ?_⟩
  · rw [n, isVersion, version_see]
  · rw [List.takeWhile_append_of_pos apart]
    by_cases spaced : c = Text.space <;> simp [spaced, n, without, Ne.symm]
  · rw [List.takeWhile_append_of_pos apart, List.all_append]
    rw [List.takeWhile_eq_self_iff.mpr apart] at token
    by_cases spaced : c = Text.space <;> simp [spaced, token]
  · clear n isVersion space token open_ uncertain
    obtain ⟨n, isVersion, space, token, what, certain⟩ := b
    subst unspaced
    unfold Beginning.see Decided
    by_cases early : n < 5 <;> by_cases spaced : c = Text.space <;> cases valid : isTokenByte c <;>
      simp only [early, spaced, if_true, if_false, Bool.and_false, Bool.and_true, Bool.false_eq_true] <;>
      split <;> simp_all

theorem not_version (foreign : version seen = false) (rest : Bytes) : (seen ++ rest).take 5 ≠ ascii "HTTP/" := by
  intro is
  have within : seen.take 5 <+: (seen ++ rest).take 5 := by
    rw [List.take_append]
    exact List.prefix_append _ _
  rw [is, ← List.isPrefixOf_iff_prefix] at within
  cases foreign.symm.trans within

theorem version_iff (long : seen.length ≥ 5) : version seen = true ↔ seen.take 5 = ascii "HTTP/" := by
  refine ⟨fun is => (List.isPrefixOf_iff_prefix.mp is).eq_of_length ?_, fun is => by rw [version, is]; decide⟩
  simp [ascii]
  omega

/-- The version's bytes before its last are token bytes. -/
theorem version_tokens (short : seen.length < 5) (is : version seen = true) : seen.all isTokenByte = true := by
  rw [version, List.take_of_length_le (Nat.le_of_lt short)] at is
  have within : seen <+: (ascii "HTTP/").take 4 :=
    List.prefix_of_prefix_length_le (List.isPrefixOf_iff_prefix.mp is) (List.take_prefix _ _) (by simp [ascii]; omega)
  refine List.all_eq_true.mpr fun c member => ?_
  have one := within.subset member
  revert one
  simp [ascii]
  rintro (rfl | rfl | rfl) <;> decide

theorem Noted.close_what (noted : b.Noted seen) : b.close.what = opens seen := by
  unfold close opens
  simp only [noted.uncertain, Bool.false_eq_true, if_false]
  by_cases version : b.n ≥ 5 ∧ b.isVersion = true
  · have is := (version_iff (noted.n ▸ version.1)).mp (noted.isVersion ▸ version.2)
    rw [if_pos version, if_pos is]
  · have other : seen.take 5 ≠ ascii "HTTP/" := by
      intro is
      have long : seen.length ≥ 5 := by
        have length := congrArg List.length is
        simp [ascii] at length
        omega
      exact version ⟨noted.n ▸ long, noted.isVersion ▸ (version_iff long).mpr is⟩
    rw [if_neg version, if_neg other, noted.space, noted.token]
    by_cases spaced : Text.space ∈ seen
    · have cut := takeWhile_ne spaced
      simp only [spaced, cut, if_true, Option.any_some, List.length_pos_iff, decide_eq_true_eq, ne_eq, not_false_eq_true,
        true_and, gt_iff_lt]
      split <;> rfl
    · have whole := List.takeWhile_eq_self_iff.mpr (apart_of_unspaced spaced)
      simp only [spaced, whole, if_false, Option.any_none, Bool.false_eq_true, false_and, ne_eq, not_true_eq_false]

/-- A version begun is not decided. -/
theorem Noted.foreign (noted : b.Noted seen) (decided : b.Decided) (other : seen.take 5 ≠ ascii "HTTP/")
    (within : seen.length < openingWindow) : version seen = false := by
  by_contra begun
  rw [Bool.not_eq_false] at begun
  have short : seen.length < 5 := Nat.lt_of_not_le fun long => other ((version_iff long).mp begun)
  have tokens := List.all_eq_true.mp (version_tokens short begun)
  have unspaced : Text.space ∉ seen := fun inside => absurd (tokens _ inside) (by decide)
  have token := noted.token
  rw [List.takeWhile_eq_self_iff.mpr (apart_of_unspaced unspaced), List.all_eq_true.mpr tokens] at token
  have n := noted.n
  rcases decided with ⟨long, -⟩ | space | ⟨untoken, -⟩ | full
  · omega
  · exact space (by rw [noted.space, if_neg unspaced])
  · cases token.symm.trans untoken
  · omega

theorem Noted.settled (noted : b.Noted seen) (decided : b.Decided) (short : seen.length ≤ openingWindow) (later : Bytes) :
    opens ((seen ++ later).take openingWindow) = opens seen := by
  rw [List.take_append, List.take_of_length_le short]
  rcases Nat.lt_or_eq_of_le short with within | full
  · generalize later.take (openingWindow - seen.length) = rest
    by_cases whole : seen.take 5 = ascii "HTTP/"
    · have long : 5 ≤ seen.length := by
        have length := congrArg List.length whole
        simp [ascii] at length
        omega
      rw [opens, opens, List.take_append_of_le_length long, if_pos whole, if_pos whole]
    have foreign := noted.foreign decided whole within
    have n := noted.n
    rw [opens, opens, if_neg (not_version foreign rest), if_neg whole]
    rcases decided with ⟨-, version⟩ | space | ⟨untoken, -⟩ | full
    · cases foreign.symm.trans (noted.isVersion ▸ version)
    · have spaced : Text.space ∈ seen := by
        by_contra unspaced
        exact space (by rw [noted.space, if_neg unspaced])
      have method : (seen ++ rest).takeWhile (· ≠ Text.space) = seen.takeWhile (· ≠ Text.space) := by
        rw [List.takeWhile_append, if_neg]
        exact fun same => takeWhile_ne spaced ((List.takeWhile_prefix _).eq_of_length same)
      have longer := takeWhile_ne (List.mem_append_left rest spaced)
      rw [method] at longer ⊢
      simp only [longer, takeWhile_ne spaced, ne_eq, not_false_eq_true, true_and]
    · rw [noted.token] at untoken
      have longer : ((seen ++ rest).takeWhile (· ≠ Text.space)).all isTokenByte = false := by
        rw [List.takeWhile_append]
        split
        · rename_i same
          rw [(List.takeWhile_prefix _).eq_of_length same] at untoken
          rw [List.all_append, untoken, Bool.false_and]
        · exact untoken
      simp only [longer, untoken, Bool.false_eq_true, and_false, if_false]
    · omega
  · simp [full]

theorem take_pieces (b : Beginning) (pieces : List Bytes) : pieces.foldl take b = b.take pieces.flatten := by
  induction pieces generalizing b with
  | nil => rfl
  | cons piece pieces ih => rw [List.foldl_cons, ih, List.flatten_cons, take_append]

structure Open (b : Beginning) (seen : Bytes) : Prop extends b.Noted seen where
  undecided : ¬ b.Decided
  within : seen.length < openingWindow

theorem take_fresh (seen : Bytes) :
    (fresh.take seen).Open seen ∨ (fresh.take seen).certain = true ∧ (fresh.take seen).n ≤ min openingWindow seen.length ∧
      ∀ later, (fresh.take seen).what = opens ((seen ++ later).take openingWindow) := by
  induction seen using List.reverseRecOn with
  | nil => exact .inl ⟨⟨rfl, rfl, rfl, rfl, rfl⟩, by simp [Decided, take, fresh, openingWindow], by decide⟩
  | append_singleton seen c ih =>
    rw [take_append]
    rcases ih with open_ | ⟨certain, within, decided⟩
    · have one : (fresh.take seen).take [c] = (fresh.take seen).see c := if_neg (by simp [open_.uncertain])
      have short := open_.within
      obtain ⟨next, noted, ⟨decided, is⟩ | ⟨undecided, is⟩⟩ := open_.toNoted.see open_.undecided c
      · rw [one, is]
        refine .inr ⟨close_certain next, ?_, fun later => ?_⟩
        · rw [close_n, noted.n]
          simp
          omega
        · rw [noted.close_what, noted.settled decided (by simp; omega)]
      · rw [one, is]
        have n := noted.n
        refine .inl ⟨noted, undecided, Nat.lt_of_le_of_ne (by simp; omega) fun full => ?_⟩
        exact undecided (.inr (.inr (.inr (n.trans full))))
    · have one : (fresh.take seen).take [c] = fresh.take seen := if_pos certain
      rw [one]
      refine .inr ⟨certain, by simp; omega, fun later => ?_⟩
      rw [List.append_assoc]
      exact decided ([c] ++ later)

theorem Open.tokens (open_ : b.Open seen) : Text.space ∉ seen ∧ seen.all isTokenByte = true := by
  have unspaced : Text.space ∉ seen := by
    intro inside
    exact open_.undecided (.inr (.inl (by simp [open_.space, inside])))
  have token := open_.token
  rw [List.takeWhile_eq_self_iff.mpr (apart_of_unspaced unspaced)] at token
  refine ⟨unspaced, ?_⟩
  by_contra other
  rw [Bool.not_eq_true] at other
  obtain ⟨short, begun⟩ : ¬ b.n ≥ 5 ∧ b.isVersion = true := by
    simpa using fun early => open_.undecided (.inr (.inr (.inl ⟨token.trans other, early⟩)))
  rw [version_tokens (by rw [← open_.n]; omega) (open_.isVersion ▸ begun)] at other
  cases other

/-- While it is open, a space and a byte no token holds make two things of it. -/
theorem Open.undetermined (open_ : b.Open seen) : ¬ Determined seen := by
  rintro ⟨what, always⟩
  have short := open_.within
  obtain ⟨unspaced, tokens⟩ := open_.tokens
  have apart := apart_of_unspaced unspaced
  have next : ∀ c, c ∉ ascii "HTTP/" → what = if (seen ++ [c]).takeWhile (· ≠ Text.space) ≠ seen ++ [c] ∧
      (seen ++ [c]).takeWhile (· ≠ Text.space) ≠ [] ∧ ((seen ++ [c]).takeWhile (· ≠ Text.space)).all isTokenByte then
        .opensRequest else .opensSomethingElse := by
    intro c foreign
    have other : version (seen ++ [c]) = false := by
      rw [version_see]
      split
      · simpa using fun _ at_ => foreign (List.mem_of_getElem? at_)
      · rename_i long
        have n := open_.n
        simpa using fun begun => open_.undecided (.inl ⟨by omega, open_.isVersion.trans begun⟩)
    have different := not_version other []
    rw [List.append_nil] at different
    rw [← always [c] (by simp), opening_whole (by simp), List.take_of_length_le (by simp; omega), opens, if_neg different]
  have other := next 40 (by decide)
  rw [List.takeWhile_append_of_pos apart, List.takeWhile_cons_of_pos (by decide), List.takeWhile_nil,
    if_neg (by simp)] at other
  by_cases empty : seen = []
  · have request := always [65, 32] (by simp)
    rw [empty, other] at request
    revert request
    decide
  · have request := next Text.space (by decide)
    rw [List.takeWhile_append_of_pos apart, List.takeWhile_cons_of_neg (by decide), List.append_nil, if_pos, other] at request
    · cases request
    · exact ⟨by simp, empty, tokens⟩

end Beginning

/-- The pieces of a string read as they come, and the string read whole. What it
opens with is certain at the first piece that leaves it no choice, from the window
alone. -/
theorem opening_incremental (pieces : List Bytes) (some_ : pieces.flatten ≠ []) :
    (pieces.foldl Beginning.take .fresh).close.what = opening (wholeOf pieces.flatten) ∧
      ∀ k, let seen := (pieces.take k).foldl Beginning.take .fresh
        (seen.certain = true ↔ Determined (pieces.take k).flatten) ∧
          seen.n ≤ min openingWindow (pieces.take k).flatten.length := by
  constructor
  · rw [opening_whole some_, Beginning.take_pieces]
    rcases Beginning.take_fresh pieces.flatten with open_ | ⟨certain, -, decided⟩
    · rw [open_.close_what, List.take_of_length_le (Nat.le_of_lt open_.within)]
    · rw [Beginning.close_of_certain certain, decided [], List.append_nil]
  · intro k
    dsimp only
    rw [Beginning.take_pieces]
    rcases Beginning.take_fresh (pieces.take k).flatten with open_ | ⟨certain, within, decided⟩
    · refine ⟨iff_of_false (by simp [open_.uncertain]) open_.undetermined, ?_⟩
      rw [open_.n]
      exact Nat.le_min.mpr ⟨Nat.le_of_lt open_.within, le_rfl⟩
    · exact ⟨iff_of_true certain ⟨_, fun later others => (opening_whole others).trans (decided later).symm⟩, within⟩

theorem opening_incremental_request :
    [ascii "GE", ascii "T /"].flatten ≠ [] ∧
      ([ascii "GE", ascii "T /"].foldl Beginning.take .fresh).close.what = opening (wholeOf (ascii "GET /")) :=
  ⟨by decide, (opening_incremental [ascii "GE", ascii "T /"] (by decide)).1⟩

/-- Nothing at all opens nothing; pieces that hold nothing close as something else. -/
theorem opening_of_nothing :
    (([] : List Bytes).foldl Beginning.take .fresh).close.what = .opensSomethingElse ∧
      opening (wholeOf []) = .opensNothing := by
  decide

end EdgeObserver.Reconstruct
