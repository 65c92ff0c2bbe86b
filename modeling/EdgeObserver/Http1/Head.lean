import EdgeObserver.Http1.Conserve

/-!
# Heads

What a message's head says: its start line written back, and how the fields
frame its body.
-/

set_option autoImplicit false

namespace EdgeObserver.Http1

open EdgeObserver.Stream Text

def Message.startLine (m : Message) : Bytes :=
  match m.kind with
  | .request => m.method ++ [space] ++ m.target ++ [space] ++ m.protocol
  | .response =>
    let line := m.protocol ++ [space] ++ ascii (toString m.status)
    if m.reason ≠ [] then line ++ ([space] ++ m.reason) else line
  | .unknown => []

/-!
## Start lines
-/

section StartLine

variable {m read : Message} {line : Bytes}

theorem split_ne_nil (separator : UInt8) (text : Bytes) : split separator text ≠ [] := by
  induction text with
  | nil => simp [split]
  | cons b rest ih =>
    unfold split
    split
    · simp
    · cases pieces : split separator rest with
      | nil => simp
      | cons piece others => simp

theorem intercalate_split (separator : UInt8) (text : Bytes) :
    [separator].intercalate (split separator text) = text := by
  induction text with
  | nil => rfl
  | cons b rest ih =>
    unfold split
    split
    · rename_i found
      cases pieces : split separator rest with
      | nil => exact absurd pieces (split_ne_nil separator rest)
      | cons piece others =>
        rw [pieces] at ih
        rw [List.intercalate_cons_cons, ih, eq_of_beq found]
        rfl
    · cases pieces : split separator rest with
      | nil => exact absurd pieces (split_ne_nil separator rest)
      | cons piece others =>
        rw [pieces] at ih
        cases others with
        | nil => simpa using ih
        | cons other others =>
          rw [List.intercalate_cons_cons] at ih ⊢
          rw [← ih]
          rfl

theorem readRequestLine_startLine (kind : m.kind = .request)
    (accepted : m.readRequestLine line = some read) : read.startLine = line := by
  have joined := intercalate_split space line
  unfold Message.readRequestLine at accepted
  split at accepted
  · rename_i method target protocol pieces
    split at accepted
    · cases accepted
      rw [pieces] at joined
      simpa [Message.startLine, kind] using joined
    · cases accepted
  · cases accepted

def digitByte (x : Fin 10) : UInt8 := 48 + UInt8.ofNat x.val

def statusText (x y z : Fin 10) : Bytes := [digitByte x, digitByte y, digitByte z]

def statusValue (x y z : Fin 10) : Nat := 100 * x.val + 10 * y.val + z.val

theorem status_written (x y z : Fin 10) :
    ascii (toString (statusValue x y z)) = statusText x y z ↔ x ≠ 0 := by
  revert x y z
  decide +kernel

theorem status_short (x y z : Fin 10) : (ascii (toString (statusValue x y z))).length ≤ 3 := by
  revert x y z
  decide +kernel

theorem digitByte_ne_zero (x : Fin 10) : some (digitByte x) ≠ some 48 ↔ x ≠ 0 := by
  revert x
  decide

theorem digit_eq {b : UInt8} (digit : isDigit b = true) : ∃ x : Fin 10, b = digitByte x := by
  have every : ∀ n : Fin 256, isDigit (UInt8.ofNat n.val) = true →
      ∃ x : Fin 10, UInt8.ofNat n.val = digitByte x := by
    decide +kernel
  have own := every ⟨b.toNat, b.toNat_lt⟩
  simp only [UInt8.ofNat_toNat] at own
  exact own digit

theorem digit_value (x : Fin 10) : digitValue (digitByte x) = some x.val := by
  revert x
  decide

theorem status_value (x y z : Fin 10) : parseUint 10 63 (statusText x y z) = some (statusValue x y z) := by
  have value : numeral 10 0 (statusText x y z) = some (statusValue x y z) := by
    simp only [statusText, statusValue, numeral, digit_value, x.isLt, y.isLt, z.isLt, if_true, Option.some.injEq]
    omega
  simp only [parseUint, value]
  rw [if_neg (by simp [statusText]), if_pos (by unfold statusValue; omega)]

theorem drop_eq_four {text : Bytes} {n : Nat} (long : n + 4 ≤ text.length) :
    ∃ a b c d, text.drop n = [a, b, c, d] ++ text.drop (n + 4) := by
  refine ⟨text[n], text[n + 1], text[n + 2], text[n + 3], ?_⟩
  rw [List.drop_eq_getElem_cons (by omega), List.drop_eq_getElem_cons (by omega),
    List.drop_eq_getElem_cons (by omega), List.drop_eq_getElem_cons (by omega)]
  rfl

theorem readStatusLine_eq (accepted : m.readStatusLine line = some read) :
    ∃ protocol x y z tail reason,
      line = protocol ++ [space] ++ statusText x y z ++ tail ∧ protocol.length = 8 ∧
        ((tail = [] ∧ reason = []) ∨ tail = [space] ++ reason) ∧
        read = { m with protocol, status := statusValue x y z, reason } := by
  unfold Message.readStatusLine at accepted
  split at accepted
  · cases accepted
  rename_i checked
  simp only [Bool.or_eq_true, not_or, decide_eq_true_eq, Bool.not_eq_true', Bool.not_eq_false,
    bne_iff_ne, ne_eq, not_not] at checked
  obtain ⟨⟨⟨long, version⟩, blank⟩, digits⟩ := checked
  obtain ⟨b, c, d, e, dropped⟩ := drop_eq_four (n := 8) (by omega : 8 + 4 ≤ line.length)
  have whole : line = line.take 8 ++ ([b, c, d, e] ++ line.drop 12) := by
    rw [← dropped, List.take_append_drop]
  have eight : (line.take 8).length = 8 := by
    rw [List.length_take]
    omega
  have three : (line.drop 9).take 3 = [c, d, e] := by
    rw [show (9 : Nat) = 8 + 1 from rfl, ← List.drop_drop, dropped]
    rfl
  have first : b = space := by
    rw [whole, List.getElem?_append_right (by omega), eight] at blank
    simpa using blank
  have after : (line)[12]? = (line.drop 12).head? := by
    rw [List.head?_drop]
  rw [three] at digits accepted
  simp only [isDigits, List.all_cons, List.all_nil, Bool.and_true, Bool.and_eq_true] at digits
  obtain ⟨_, isC, isD, isE⟩ := digits
  obtain ⟨x, rfl⟩ := digit_eq isC
  obtain ⟨y, rfl⟩ := digit_eq isD
  obtain ⟨z, rfl⟩ := digit_eq isE
  rw [after, show [digitByte x, digitByte y, digitByte z] = statusText x y z from rfl, status_value] at accepted
  refine ⟨line.take 8, x, y, z, line.drop 12, ?_⟩
  have parted : line = line.take 8 ++ [space] ++ statusText x y z ++ line.drop 12 := by
    conv_lhs => rw [whole, first]
    simp [statusText]
  cases tail : line.drop 12 with
  | nil =>
    simp only [tail, List.head?_nil] at accepted
    rw [tail] at parted
    cases accepted
    exact ⟨[], parted, eight, .inl ⟨rfl, rfl⟩, rfl⟩
  | cons next others =>
    have thirteenth : line.drop 13 = others := by
      rw [show (13 : Nat) = 12 + 1 from rfl, ← List.drop_drop, tail]
      rfl
    simp only [tail, List.head?_cons, thirteenth] at accepted
    by_cases spaced : next = space
    · subst spaced
      simp only [beq_self_eq_true, if_true] at accepted
      split at accepted
      · rw [tail] at parted
        cases accepted
        exact ⟨others, parted, eight, .inr rfl, rfl⟩
      · cases accepted
    · simp [spaced] at accepted

theorem readStatusLine_startLine (kind : m.kind = .response) (accepted : m.readStatusLine line = some read) :
    read.startLine = line ↔ (line)[9]? ≠ some 48 ∧ line.length ≠ 13 := by
  obtain ⟨protocol, x, y, z, tail, reason, whole, eight, rest, rfl⟩ := readStatusLine_eq accepted
  have ninth : (line)[9]? = some (digitByte x) := by
    rw [whole, List.append_assoc, List.append_assoc, List.getElem?_append_right (by omega), eight]
    rfl
  have length : line.length = 12 + tail.length := by
    rw [whole]
    simp [eight, statusText]
    omega
  rw [ninth, length, digitByte_ne_zero, ← status_written x y z]
  have short := status_short x y z
  simp only [Message.startLine, kind]
  generalize ascii (toString (statusValue x y z)) = digits at short
  rcases rest with ⟨rfl, rfl⟩ | rfl
  · rw [whole]
    simp
  by_cases bare : reason = []
  · subst bare
    -- The space after the digits is not written back.
    have longer : digits ≠ statusText x y z ++ [space] := by
      intro same
      rw [same] at short
      exact absurd short (by simp [statusText])
    rw [whole]
    simp [longer]
  · have some_ : 0 < reason.length := List.length_pos_iff.mpr bare
    have longer : 12 + ([space] ++ reason).length ≠ 13 := by
      rw [List.length_append, List.length_singleton]
      omega
    rw [whole, if_pos bare, List.append_left_inj, List.append_right_inj, and_iff_left longer]

/-- A start line written back is the line it was read from: a request line
always, a status line where the status does not begin with a zero and the line
does not end with the space before its reason. -/
theorem startLine_read (m read : Message) (line : Bytes) :
    (m.kind = .request → m.readRequestLine line = some read → read.startLine = line) ∧
      (m.kind = .response → m.readStatusLine line = some read →
        (read.startLine = line ↔ (line)[9]? ≠ some 48 ∧ line.length ≠ 13)) :=
  ⟨readRequestLine_startLine, readStatusLine_startLine⟩

/-- A status line without a reason, as the grammar has it, and one whose status
begins with a zero. -/
theorem startLine_read_not :
    let response : Message := { kind := .response }
    ((response.readStatusLine (ascii "HTTP/1.1 200 ")).map Message.startLine = some (ascii "HTTP/1.1 200")) ∧
      (response.readStatusLine (ascii "HTTP/1.1 099 Odd")).map Message.startLine = some (ascii "HTTP/1.1 99 Odd") := by
  decide +kernel

theorem startLine_read_lines :
    let get : Message := { kind := .request }
    let found : Message := { kind := .response }
    (∃ read, get.readRequestLine (ascii "GET /a HTTP/1.1") = some read ∧ read.startLine = ascii "GET /a HTTP/1.1") ∧
      ∃ read, found.readStatusLine (ascii "HTTP/1.1 404 Not Found") = some read ∧
        read.startLine = ascii "HTTP/1.1 404 Not Found" := by
  intro get found
  constructor
  · obtain ⟨read, accepted⟩ : ∃ read, get.readRequestLine (ascii "GET /a HTTP/1.1") = some read := ⟨_, rfl⟩
    exact ⟨read, accepted, (startLine_read get read _).1 rfl accepted⟩
  · obtain ⟨read, accepted⟩ : ∃ read, found.readStatusLine (ascii "HTTP/1.1 404 Not Found") = some read := ⟨_, rfl⟩
    exact ⟨read, accepted, ((startLine_read found read _).2 rfl accepted).mpr (by decide +kernel)⟩

end StartLine

/-!
## Names and codings in any case
-/

section Cases

theorem tokenByte_ascii (b : UInt8) : isTokenByte b = true → b < 128 := by
  refine byte_all (P := fun b => isTokenByte b = true → b < 128) ?_ b
  decide +kernel

def Header.Is (header : Header) (name : String) : Prop := header.name.map lowerByte = ascii name

instance (header : Header) (name : String) : Decidable (header.Is name) := inferInstanceAs (Decidable (_ = _))

theorem Header.named_iff {header : Header} (name : String) (token : isToken header.name = true)
    (folded : foldCase (ascii name) = ascii name) : header.named name = true ↔ header.Is name := by
  unfold isToken at token
  rw [Bool.and_eq_true] at token
  have plain : ∀ b ∈ header.name, b < 128 := fun b member => tokenByte_ascii b (List.all_eq_true.mp token.2 b member)
  rw [Header.named, equalFold, folded, foldCase_ascii plain, beq_iff_eq, Header.Is]

theorem within_intercalate {separator piece : Bytes} {pieces : List Bytes} (member : piece ∈ pieces) :
    piece <:+: separator.intercalate pieces := by
  induction pieces with
  | nil => cases member
  | cons first rest ih =>
    cases rest with
    | nil =>
      rw [List.mem_singleton.mp member]
      exact ⟨[], [], by simp⟩
    | cons second others =>
      rw [List.intercalate_cons_cons]
      rcases List.mem_cons.mp member with rfl | later
      · exact ⟨[], separator ++ separator.intercalate (second :: others), by simp⟩
      · exact (ih later).trans ⟨first ++ separator, [], by simp⟩

theorem trimBlanks_within (text : Bytes) : trimBlanks text <:+: text := by
  unfold trimBlanks
  dsimp only
  generalize hasBlank : (fun b => b == space || b == tab) = blank
  have front : text.dropWhile blank <:+ text := List.dropWhile_suffix _
  have back : ((text.dropWhile blank).reverse.dropWhile blank).reverse <+: text.dropWhile blank := by
    rw [← List.reverse_suffix, List.reverse_reverse]
    exact List.dropWhile_suffix _
  exact back.isInfix.trans front.isInfix

theorem splitList_within {value element : Bytes} (member : element ∈ splitList value) :
    element <:+: value := by
  obtain ⟨piece, inside, rfl⟩ := List.mem_map.mp member
  have whole := intercalate_split 44 value
  exact (trimBlanks_within piece).trans (whole ▸ within_intercalate inside)

theorem splitList_ne_nil (value : Bytes) : splitList value ≠ [] := by
  simpa [splitList] using split_ne_nil 44 value

end Cases

/-!
## Framing
-/

namespace Message

def Declares (m : Message) (name : String) : Prop := ∃ h ∈ m.headers, h.Is name

def elements (m : Message) (name : String) : List Bytes :=
  (m.headers.filter (·.Is name)).flatMap fun h => splitList h.value

def Tokens (m : Message) : Prop := ∀ h ∈ m.headers, isToken h.name = true

def Bodiless (m : Message) (kind : Kind) (noBody : Bool) : Prop :=
  kind = .response ∧ (noBody || statusForbidsBody m.status) = true

variable {m : Message}

theorem declares_iff (m : Message) (name : String) : m.Declares name ↔ m.elements name ≠ [] := by
  unfold Declares elements
  constructor
  · rintro ⟨h, member, is⟩
    obtain ⟨element, inside⟩ := List.exists_mem_of_ne_nil _ (splitList_ne_nil h.value)
    exact List.ne_nil_of_mem (List.mem_flatMap.mpr ⟨h, by simpa using ⟨member, is⟩, inside⟩)
  · intro some_
    obtain ⟨element, inside⟩ := List.exists_mem_of_ne_nil _ some_
    obtain ⟨h, among, _⟩ := List.mem_flatMap.mp inside
    exact ⟨h, by simpa using among⟩

theorem lengths_eq (tokens : m.Tokens) : m.lengths = m.elements "content-length" := by
  unfold lengths elements
  congr 1
  refine List.filter_congr fun h member => ?_
  have same := h.named_iff "content-length" (tokens h member) (by decide)
  rw [Bool.eq_iff_iff, same, decide_eq_true_iff]

theorem encodings_eq (tokens : m.Tokens) :
    m.encodings = m.headers.filter (·.Is "transfer-encoding") := by
  refine List.filter_congr fun h member => ?_
  have length := h.named_iff "content-length" (tokens h member) (by decide)
  have encoding := h.named_iff "transfer-encoding" (tokens h member) (by decide)
  have other : h.Is "transfer-encoding" → ¬ h.Is "content-length" := by
    intro one another
    exact absurd (one.symm.trans another) (by decide)
  rw [Bool.eq_iff_iff, Bool.and_eq_true, Bool.not_eq_true', ← Bool.not_eq_true, length, encoding, decide_eq_true_iff]
  exact ⟨fun both => both.2, fun is => ⟨other is, is⟩⟩

theorem encodings_ne_nil (tokens : m.Tokens) : m.encodings ≠ [] ↔ m.Declares "transfer-encoding" := by
  rw [encodings_eq tokens]
  constructor
  · intro some_
    obtain ⟨h, member⟩ := List.exists_mem_of_ne_nil _ some_
    exact ⟨h, by simpa using member⟩
  · rintro ⟨h, member, is⟩
    exact List.ne_nil_of_mem (by simpa using ⟨member, is⟩)

theorem codings_eq (tokens : m.Tokens) : m.codings = (m.elements "transfer-encoding").map toLower := by
  rw [codings, encodings_eq tokens, elements, List.map_flatMap]

/-- What the fields come to, in the order they are judged. -/
inductive Frames (m : Message) (kind : Kind) (noBody : Bool) : Framing → Nat → String → Prop where
  | both (encoded : m.Declares "transfer-encoding") (measured : m.Declares "content-length")
      (detail : String) : Frames m kind noBody .ambiguous 0 detail
  | bodiless (none_ : m.Bodiless kind noBody) (one : ¬ (m.Declares "transfer-encoding" ∧ m.Declares "content-length")) :
      Frames m kind noBody .none 0 ""
  | chunked (some_ : ¬ m.Bodiless kind noBody) (alone : ¬ m.Declares "content-length")
      (before : List Bytes) (last : Bytes)
      (codings : m.elements "transfer-encoding" = before ++ [last])
      (is : toLower last = ascii "chunked") (once : ascii "chunked" ∉ before.map toLower) :
      Frames m kind noBody .chunked 0 ""
  | uncoded (some_ : ¬ m.Bodiless kind noBody) (encoded : m.Declares "transfer-encoding")
      (alone : ¬ m.Declares "content-length") (detail : String) (wrong : detail ≠ "") :
      Frames m kind noBody .none 0 detail
  | coded (some_ : ¬ m.Bodiless kind noBody) (alone : ¬ m.Declares "content-length")
      (encoded : m.Declares "transfer-encoding") (response : kind ≠ .request)
      (without : ascii "chunked" ∉ (m.elements "transfer-encoding").map toLower) :
      Frames m kind noBody .untilClose 0 ""
  | measured (some_ : ¬ m.Bodiless kind noBody) (alone : ¬ m.Declares "transfer-encoding")
      (digits : Bytes) (declared : m.elements "content-length" ≠ [])
      (same : ∀ element ∈ m.elements "content-length", element = digits)
      (decimal : isDigits digits = true) (length : Nat) (value : parseUint 10 63 digits = some length) :
      Frames m kind noBody .contentLength length ""
  | unmeasured (some_ : ¬ m.Bodiless kind noBody) (alone : ¬ m.Declares "transfer-encoding")
      (declared : m.Declares "content-length") (detail : String) (wrong : detail ≠ "") :
      Frames m kind noBody .none 0 detail
  | closed (some_ : ¬ m.Bodiless kind noBody) (uncoded : ¬ m.Declares "transfer-encoding")
      (unmeasured : ¬ m.Declares "content-length") (response : kind = .response) :
      Frames m kind noBody .untilClose 0 ""
  | bare (some_ : ¬ m.Bodiless kind noBody) (uncoded : ¬ m.Declares "transfer-encoding")
      (unmeasured : ¬ m.Declares "content-length") (request : kind ≠ .response) :
      Frames m kind noBody .none 0 ""

theorem frame_frames (tokens : m.Tokens) (kind : Kind) (noBody : Bool) :
    Frames m kind noBody (m.frame kind noBody).1 (m.frame kind noBody).2.1 (m.frame kind noBody).2.2 := by
  have encoded := encodings_ne_nil tokens
  have measured := m.declares_iff "content-length"
  have lengths := lengths_eq tokens
  have codings := codings_eq tokens
  rw [← lengths] at measured
  unfold frame
  dsimp only
  split
  · rename_i both
    exact .both (encoded.mp both.1) (measured.mpr both.2) _
  rename_i one
  rw [encoded, ← measured] at one
  split
  · rename_i none_
    exact .bodiless none_ one
  rename_i some_
  split
  · rename_i encoding
    have declared := encoded.mp encoding
    have alone : ¬ m.Declares "content-length" := fun also => one ⟨declared, also⟩
    rw [codings]
    cases listed : ((m.elements "transfer-encoding").map toLower).getLast? with
    | none => exact .uncoded some_ declared alone "an empty transfer encoding" (by decide)
    | some final =>
      dsimp only
      split
      · rename_i is
        split
        · exact .uncoded some_ declared alone _ (by decide)
        rename_i once
        rw [List.getLast?_map, Option.map_eq_some_iff] at listed
        obtain ⟨last, found, same⟩ := listed
        refine .chunked some_ alone (m.elements "transfer-encoding").dropLast last
          (List.dropLast_append_getLast? _ found).symm (same.trans is) ?_
        rw [List.map_dropLast]
        simpa using once
      · split
        · exact .uncoded some_ declared alone _ (by decide)
        rename_i without
        split
        · exact .uncoded some_ declared alone _ (by decide)
        · rename_i response
          exact .coded some_ alone declared response (by simpa using without)
  · rename_i uncoded
    rw [encoded] at uncoded
    rw [lengths]
    cases listed : m.elements "content-length" with
    | nil =>
      have unmeasured : ¬ m.Declares "content-length" := by
        rw [measured, lengths, listed]
        simp
      dsimp only
      split
      · rename_i response
        exact .closed some_ uncoded unmeasured response
      · rename_i request
        exact .bare some_ uncoded unmeasured request
    | cons first others =>
      have declared : m.Declares "content-length" := by
        rw [measured, lengths, listed]
        simp
      dsimp only
      split
      · exact .unmeasured some_ uncoded declared _ (by decide)
      rename_i agree
      split
      · rename_i length value
        split
        · rename_i decimal
          refine .measured some_ uncoded first (by simp [listed]) ?_ decimal length value
          intro element member
          rw [listed] at member
          rcases List.mem_cons.mp member with same | later
          · exact same
          · by_contra other
            exact agree (List.any_eq_true.mpr ⟨element, later, by simpa using other⟩)
        · exact .unmeasured some_ uncoded declared _ (by decide)
      · exact .unmeasured some_ uncoded declared _ (by decide)

end Message

structure Reading.Refuses (r : Reading) : Prop where
  event : ∃ message charge, r.event = some { result := .malformed, message := some message, charge } ∧
    (message.defect = .ambiguousFraming ∨ message.defect = .malformed)
  stop : r.parser.stop = .malformed
  between : r.parser.phase = .betweenMessages

namespace Parser

theorem refuses_refuse (p : Parser) {defect : Defect}
    (framing : defect = .ambiguousFraming ∨ defect = .malformed) (detail : String) :
    (p.refuse defect detail).Refuses := by
  rcases framing with rfl | rfl
  · exact ⟨⟨_, _, rfl, .inl rfl⟩, rfl, rfl⟩
  · exact ⟨⟨_, _, rfl, .inr rfl⟩, rfl, rfl⟩

theorem frame_refuses {p : Parser} {noBody : Bool} {framing : Framing} {length : Nat} {detail : String}
    (framed : p.message.frame p.kind noBody = (framing, length, detail))
    (wrong : framing = .ambiguous ∨ (framing = .none ∧ detail ≠ "")) : (p.frame noBody).Refuses := by
  unfold frame
  rw [framed]
  rcases wrong with rfl | ⟨rfl, wrong⟩
  · exact refuses_refuse _ (.inl rfl) _
  · dsimp only
    rw [if_pos wrong]
    exact refuses_refuse _ (.inr rfl) _

theorem frame_refused {p : Parser} {noBody : Bool} (tokens : p.message.Tokens)
    (refused : ∀ framing length detail,
      Message.Frames p.message p.kind noBody framing length detail →
        framing = .ambiguous ∨ (framing = .none ∧ detail ≠ "")) : (p.frame noBody).Refuses :=
  frame_refuses rfl (refused _ _ _ (p.message.frame_frames tokens p.kind noBody))

theorem finish_between {p : Parser} (between : p.phase = .betweenMessages) :
    p.finish = { parser := { p with ended := true }, event := some { result := .ended } } := by
  have unasked : p.answer [] = .error .answer := by simp [answer, between]
  unfold finish
  rw [unasked]
  by_cases ended : p.ended = true
  · rw [if_pos ended]
    have same : ({ p with ended := true } : Parser) = p := by rw [← ended]
    rw [same]
  · rw [if_neg ended]
    dsimp only [endMessage]
    rw [if_pos between]

end Parser

namespace Session

def returned (s : Session) : Call → Option Progress
  | .feed part =>
    match s.parser.feed s.ledger part with
    | .error _ => none
    | .ok fed => some fed.progress
  | .answer method =>
    match s.parser.answer method with
    | .error _ => none
    | .ok answered => answered.event
  | .finish => s.parser.finish.event

inductive Taken (s : Session) : Call → Session → Option Progress → Prop where
  | refused (call : Call) : Taken s call s none
  | fed {part : Part} {fed : Parser.Fed} (called : s.parser.feed s.ledger part = .ok fed) :
      Taken s (.feed part) ⟨fed.parser, fed.ledger, s.handed ++ fed.progress.handsOver⟩ (some fed.progress)
  | answered {method : Bytes} {answered : Reading} (called : s.parser.answer method = .ok answered) :
      Taken s (.answer method) (s.settle answered) answered.event
  | finished : Taken s .finish (s.settle s.parser.finish) s.parser.finish.event

variable {s : Session}

theorem taken (s : Session) (call : Call) : Taken s call (s.call call) (s.returned call) := by
  cases call with
  | feed part =>
    cases called : s.parser.feed s.ledger part with
    | error refusal => simpa only [Session.call, returned, called] using Taken.refused (.feed part)
    | ok fed => simpa only [Session.call, returned, called] using Taken.fed called
  | answer method =>
    cases called : s.parser.answer method with
    | error refusal => simpa only [Session.call, returned, called] using Taken.refused (.answer method)
    | ok answered => simpa only [Session.call, returned, called] using Taken.answered called
  | finish => exact .finished

structure Over (s : Session) : Prop where
  stop : s.parser.stop ≠ .needInput
  between : s.parser.phase = .betweenMessages

theorem Over.finish (past : s.Over) :
    (s.settle s.parser.finish).Over ∧ ∀ progress ∈ s.parser.finish.event, progress.message = none := by
  rw [Parser.finish_between past.between]
  exact ⟨{ past with }, by simp⟩

theorem Over.call (past : s.Over) (call : Call) :
    (s.call call).Over ∧ ∀ progress ∈ s.returned call, progress.message = none := by
  have taken := s.taken call
  generalize s.call call = after at taken ⊢
  generalize s.returned call = result at taken ⊢
  cases taken with
  | refused call => exact ⟨past, by simp⟩
  | @fed part fed called =>
    have came := Parser.feed_eq called
    dsimp only at came
    rw [if_pos (by simpa using past.stop)] at came
    rw [came]
    exact ⟨⟨by simpa using past.stop, by simpa using past.between⟩, by simp⟩
  | answered called => simp [Parser.answer, past.between] at called
  | finished => exact past.finish

theorem Over.calls (past : s.Over) (calls : List Call) (call : Call) :
    ∀ progress ∈ (calls.foldl Session.call s).returned call, progress.message = none := by
  induction calls generalizing s with
  | nil => exact (past.call call).2
  | cons first rest ih => exact ih (past.call first).1

end Session

def decimal (digits : Bytes) : Nat := digits.foldl (fun value b => value * 10 + (b.toNat - 48)) 0

/-- The coding `chunked`, in whatever case. -/
def IsChunked (coding : Bytes) : Prop := coding.map lowerByte = ascii "chunked"

def NamesNothing (value : Bytes) : Prop := ∀ b ∈ value, b = 44 ∨ b = space ∨ b = tab

instance (coding : Bytes) : Decidable (IsChunked coding) := inferInstanceAs (Decidable (_ = _))

instance (value : Bytes) : Decidable (NamesNothing value) := List.decidableBAll _ _

section Framing

variable {m : Message} {p : Parser} {noBody : Bool}

theorem digitValue_of_digit {b : UInt8} (digit : isDigit b = true) : digitValue b = some (b.toNat - 48) := by
  simp [digitValue, digit]

variable {coding digits : Bytes}

theorem numeral_decimal (every : digits.all isDigit = true) (value : Nat) :
    numeral 10 value digits = some (digits.foldl (fun value b => value * 10 + (b.toNat - 48)) value) := by
  induction digits generalizing value with
  | nil => rfl
  | cons b rest ih =>
    rw [List.all_cons, Bool.and_eq_true] at every
    obtain ⟨x, is⟩ := digit_eq every.1
    have small : b.toNat - 48 < 10 := by
      have found := digit_value x
      rw [← is, digitValue_of_digit every.1] at found
      have := x.isLt
      have := Option.some.inj found
      omega
    rw [numeral, digitValue_of_digit every.1]
    dsimp only
    rw [if_pos small, ih every.2, List.foldl_cons]

theorem parseUint_decimal (every : isDigits digits = true) {length : Nat} :
    parseUint 10 63 digits = some length ↔ decimal digits = length ∧ length < 2 ^ 63 := by
  unfold isDigits at every
  rw [Bool.and_eq_true, decide_eq_true_iff] at every
  unfold parseUint
  rw [if_neg every.1, numeral_decimal every.2]
  dsimp only
  rw [show digits.foldl (fun value b => value * 10 + (b.toNat - 48)) 0 = decimal digits from rfl]
  by_cases small : decimal digits < 2 ^ 63
  · rw [if_pos small, Option.some.injEq]
    exact ⟨fun same => ⟨same, same ▸ small⟩, fun both => both.1⟩
  · rw [if_neg small]
    exact ⟨fun none_ => (by cases none_), fun both => absurd (both.1 ▸ both.2) small⟩

theorem chunked_lowers (is : IsChunked coding) : toLower coding = ascii "chunked" := by
  rw [toLower_ascii, is]
  intro b member
  refine lowerByte_ascii b ?_
  have lowered : lowerByte b ∈ ascii "chunked" := is ▸ List.mem_map_of_mem member
  exact of_decide_eq_true (List.all_eq_true.mp (by decide : (ascii "chunked").all (· < 128) = true) _ lowered)

theorem chunked_of_lowers (plain : ¬ kelvin <:+: coding)
    (lowered : toLower coding = ascii "chunked") : IsChunked coding := by
  rw [IsChunked, ← toLower_plain plain, lowered]
  rw [lowered]
  decide

theorem nothing_lowers {value : Bytes} (nothing : NamesNothing value) (inside : coding <:+: value) :
    toLower coding ≠ ascii "chunked" := by
  have plain : ∀ b ∈ coding, b = 44 ∨ b = space ∨ b = tab := fun b member => nothing b (inside.subset member)
  rw [toLower_ascii]
  · intro lowered
    have first : 99 ∈ coding.map lowerByte := by
      rw [lowered]
      decide
    obtain ⟨b, member, is⟩ := List.mem_map.mp first
    rcases plain b member with rfl | rfl | rfl <;> revert is <;> decide
  · intro b member
    rcases plain b member with rfl | rfl | rfl <;> decide

theorem mem_elements {name : String} {element : Bytes} (member : element ∈ m.elements name) :
    ∃ h ∈ m.headers, h.Is name ∧ element <:+: h.value := by
  obtain ⟨h, among, inside⟩ := List.mem_flatMap.mp member
  rw [List.mem_filter, decide_eq_true_iff] at among
  exact ⟨h, among.1, among.2, splitList_within inside⟩

theorem refuses_both (tokens : p.message.Tokens) (encoded : p.message.Declares "transfer-encoding")
    (measured : p.message.Declares "content-length") : (p.frame noBody).Refuses := by
  refine Parser.frame_refused tokens fun framing length detail frames => ?_
  cases frames with
  | both => exact .inl rfl
  | bodiless _ one => exact absurd ⟨encoded, measured⟩ one
  | chunked _ alone | uncoded _ _ alone | coded _ alone => exact absurd measured alone
  | measured _ alone | unmeasured _ alone | closed _ alone | bare _ alone => exact absurd encoded alone

theorem refuses_unmeasured (tokens : p.message.Tokens) (some_ : ¬ p.message.Bodiless p.kind noBody)
    (declared : p.message.Declares "content-length")
    (wrong : ¬ ∃ digits, (∀ element ∈ p.message.elements "content-length", element = digits) ∧
      isDigits digits = true ∧ decimal digits < 2 ^ 63) : (p.frame noBody).Refuses := by
  refine Parser.frame_refused tokens fun framing length detail frames => ?_
  cases frames with
  | both => exact .inl rfl
  | bodiless none_ => exact absurd none_ some_
  | chunked _ alone | uncoded _ _ alone | coded _ alone => exact absurd declared alone
  | measured _ _ digits _ same digital _ value =>
    obtain ⟨is, small⟩ := (parseUint_decimal digital).mp value
    exact absurd ⟨digits, same, digital, is ▸ small⟩ wrong
  | unmeasured _ _ _ _ detailed => exact .inr ⟨rfl, detailed⟩
  | closed _ _ alone | bare _ _ alone => exact absurd declared alone

theorem refuses_chunked (tokens : p.message.Tokens) (some_ : ¬ p.message.Bodiless p.kind noBody) (early : coding ∈ (p.message.elements "transfer-encoding").dropLast)
    (is : IsChunked coding) : (p.frame noBody).Refuses := by
  have listed := List.dropLast_subset _ early
  have encoded := (p.message.declares_iff "transfer-encoding").mpr (List.ne_nil_of_mem listed)
  refine Parser.frame_refused tokens fun framing length detail frames => ?_
  cases frames with
  | both => exact .inl rfl
  | bodiless none_ => exact absurd none_ some_
  | chunked _ _ before last codings _ once =>
    rw [codings, List.dropLast_concat] at early
    exact absurd (List.mem_map.mpr ⟨coding, early, chunked_lowers is⟩) once
  | uncoded _ _ _ _ wrong => exact .inr ⟨rfl, wrong⟩
  | coded _ _ _ _ without => exact absurd (List.mem_map.mpr ⟨coding, listed, chunked_lowers is⟩) without
  | measured _ alone | unmeasured _ alone | closed _ alone | bare _ alone => exact absurd encoded alone

end Framing

end EdgeObserver.Http1
