import EdgeObserver.ContentCoding.Bounds
import EdgeObserver.Http1.Message

/-!
# Content codings a message names

A message's Content-Encoding fields are read as one list, in the order they were
captured, before anything is decided.
-/

set_option autoImplicit false

namespace EdgeObserver.ContentCoding

open Text

inductive Verdict where
  | supported
  | unsupported
  | malformed
  deriving DecidableEq

inductive Named where
  | identity
  | undone (coding : Coding)
  | other
  deriving DecidableEq

def named (token : Bytes) : Named :=
  if equalFold token (ascii "identity") then .identity
  else if equalFold token (ascii "gzip") || equalFold token (ascii "x-gzip") then .undone .gzip
  else if equalFold token (ascii "deflate") then .undone .deflate
  else if equalFold token (ascii "br") then .undone .brotli
  else if equalFold token (ascii "zstd") then .undone .zstd
  else .other

def elements (value : Bytes) : List Bytes := (Http1.splitList value).filter (· ≠ [])

def parseList (values : List Bytes) : Option Coding × Verdict :=
  let tokens := values.flatMap elements
  if tokens.any (fun token => !Http1.isToken token) then (none, .malformed)
  else match (tokens.map named).filter (· ≠ .identity) with
    | [] => (none, .supported)
    | [.undone coding] => (some coding, .supported)
    | _ => (none, .unsupported)

/-!
## The list, element by element
-/

def maxCodings : Nat := 1

structure Reader where
  codings : Option Coding := none
  count : Nat := 0
  unknown : Bool := false

def Reader.note (r : Reader) : Named → Reader
  | .identity => r
  | .other => { r with unknown := true, count := r.count + 1 }
  | .undone c => { r with codings := if r.count < maxCodings then some c else r.codings, count := r.count + 1 }

def Reader.take (r : Reader) (token : Bytes) : Option Reader :=
  if token = [] then some r else if Http1.isToken token then some (r.note (named token)) else none

theorem split_cons (separator b : UInt8) (rest : Bytes) : split separator (b :: rest) =
    if b == separator then [] :: split separator rest
    else match split separator rest with
      | [] => [[b]]
      | piece :: pieces => (b :: piece) :: pieces := rfl

theorem split_cut (separator : UInt8) (text : Bytes) : split separator text =
    (cut separator text).1 :: if (cut separator text).2.2 then split separator (cut separator text).2.1 else [] := by
  induction text with
  | nil => rfl
  | cons b rest ih =>
    rw [split_cons]
    by_cases is : b = separator
    · simp [cut, is]
    · rw [ih]
      unfold cut
      rw [List.dropWhile_cons_of_pos (by simpa using is), List.takeWhile_cons_of_pos (by simpa using is)]
      simp only [beq_iff_eq, is, if_false]
      split <;> rfl

theorem cut_last {separator : UInt8} {text : Bytes} (last : (cut separator text).2.2 ≠ true) :
    (cut separator text).2.1 = [] := by
  unfold cut at last ⊢
  split at last
  · rfl
  · exact absurd rfl last

theorem cut_shorter {separator : UInt8} {text : Bytes} (some_ : text ≠ []) :
    (cut separator text).2.1.length < text.length := by
  unfold cut
  split
  · exact List.length_pos_iff.mpr some_
  · rename_i after dropped
    have within := (List.dropWhile_suffix (l := text) (· != separator)).length_le
    rw [dropped, List.length_cons] at within
    exact within

/-- The loop of `ParseList` over one value; nothing is an element that is no token. -/
def Reader.value (r : Reader) (value : Bytes) : Option Reader :=
  if _some : value = [] then some r
  else (r.take (trimBlanks (cut 44 value).1)).bind fun r => r.value (cut 44 value).2.1
termination_by value.length
decreasing_by exact cut_shorter _some

def readList (values : List Bytes) : Option Coding × Verdict :=
  match values.foldlM Reader.value {} with
  | none => (none, .malformed)
  | some r => if r.unknown ∨ r.count > maxCodings then (none, .unsupported) else (r.codings, .supported)

theorem Reader.value_eq (r : Reader) (value : Bytes) :
    r.value value = (Http1.splitList value).foldlM Reader.take r := by
  fun_induction Reader.value r value with
  | case1 r => rfl
  | case2 r value some_ ih =>
    unfold Http1.splitList at ih ⊢
    rw [split_cut, List.map_cons, List.foldlM_cons]
    congr 1
    funext next
    rw [ih]
    split
    · rfl
    · rename_i last
      rw [cut_last last]
      rfl

theorem split_separator (separator : UInt8) (before after : Bytes) :
    split separator (before ++ separator :: after) = split separator before ++ split separator after := by
  induction before with
  | nil => simp [split]
  | cons b rest ih =>
    rw [List.cons_append, split_cons, split_cons, ih]
    split
    · rfl
    · rw [split_cut separator rest]
      rfl

theorem Reader.value_join (r : Reader) (values : List Bytes) :
    values.foldlM Reader.value r = r.value ([44].intercalate values) := by
  induction values generalizing r with
  | nil => simp [List.intercalate, Reader.value]
  | cons value values ih =>
    rw [List.foldlM_cons]
    cases values with
    | nil => simp [List.intercalate]
    | cons next others =>
      have joined : [44].intercalate (value :: next :: others) = value ++ 44 :: [44].intercalate (next :: others) := by
        simp [List.intercalate]
      rw [joined, r.value_eq, r.value_eq]
      unfold Http1.splitList
      rw [split_separator, List.map_append, List.foldlM_append]
      congr 1
      funext reader
      rw [ih, Reader.value_eq]
      rfl

theorem Reader.take_all (tokens : List Bytes) (r : Reader) :
    tokens.foldlM Reader.take r =
      if (tokens.filter (· ≠ [])).any (fun token => !Http1.isToken token) then none
      else some (((tokens.filter (· ≠ [])).map named).foldl Reader.note r) := by
  induction tokens generalizing r with
  | nil => rfl
  | cons token tokens ih =>
    rw [List.foldlM_cons, Reader.take]
    by_cases empty : token = []
    · simpa [empty] using ih r
    · cases valid : Http1.isToken token with
      | false => simp [empty, valid]
      | true => simpa [empty, valid] using ih (r.note (named token))

theorem Reader.note_all (names : List Named) (r : Reader) :
    names.foldl Reader.note r = (names.filter (· ≠ .identity)).foldl Reader.note r ∧
      (names.foldl Reader.note r).count = r.count + (names.filter (· ≠ .identity)).length := by
  induction names generalizing r with
  | nil => exact ⟨rfl, rfl⟩
  | cons name names ih =>
    obtain ⟨same, count⟩ := ih (r.note name)
    cases name with
    | identity => exact ⟨same, count⟩
    | other | undone c => exact ⟨same, by simpa [Reader.note, Nat.add_assoc, Nat.add_comm] using count⟩

theorem readList_eq (values : List Bytes) : readList values = parseList values := by
  have tokens : values.foldlM Reader.value {} = (values.flatMap Http1.splitList).foldlM Reader.take {} := by
    generalize ({} : Reader) = r
    induction values generalizing r with
    | nil => rfl
    | cons value values ih => simp [Reader.value_eq, ih, List.foldlM_append]
  have kept : (values.flatMap Http1.splitList).filter (· ≠ []) = values.flatMap elements := List.filter_flatMap ..
  unfold readList parseList
  rw [tokens, Reader.take_all, kept]
  dsimp only
  by_cases malformed : (values.flatMap elements).any (fun token => !Http1.isToken token) = true
  · rw [if_pos malformed, if_pos malformed]
  · rw [if_neg malformed, if_neg malformed]
    obtain ⟨same, count⟩ := Reader.note_all ((values.flatMap elements).map named) {}
    dsimp only
    have proper : ∀ one ∈ ((values.flatMap elements).map named).filter (· ≠ .identity), one ≠ .identity := by
      intro one member
      simpa using (List.mem_filter.mp member).2
    rw [same] at count ⊢
    generalize ((values.flatMap elements).map named).filter (· ≠ .identity) = names at count proper ⊢
    match names with
    | [] => rfl
    | [.undone c] => rfl
    | [.other] => rfl
    | [.identity] => exact absurd rfl (proper _ List.mem_cons_self)
    | one :: two :: others =>
      have many : ((one :: two :: others).foldl Reader.note {}).count > maxCodings := by
        rw [count, maxCodings, List.length_cons, List.length_cons]
        omega
      rw [if_pos (.inr many)]
      cases one <;> rfl

/-- The fields of a message read as one, joined by commas; an element that is no
token decides, wherever it stands. -/
theorem readList_join (values : List Bytes) :
    readList values = readList [[44].intercalate values] ∧
      ((readList values).2 = .malformed ↔ ∃ value ∈ values, ∃ token ∈ elements value, Http1.isToken token = false) := by
  constructor
  · unfold readList
    rw [Reader.value_join, List.foldlM_cons]
    cases Reader.value {} ([44].intercalate values) <;> rfl
  · rw [readList_eq]
    unfold parseList
    dsimp only
    by_cases malformed : (values.flatMap elements).any (fun token => !Http1.isToken token) = true
    · rw [if_pos malformed]
      simpa [List.any_eq_true, and_assoc] using malformed
    · rw [if_neg malformed]
      have proper : ¬ ∃ value ∈ values, ∃ token ∈ elements value, Http1.isToken token = false := by
        simpa [List.any_eq_true] using malformed
      refine iff_of_false ?_ proper
      split <;> simp

end EdgeObserver.ContentCoding
