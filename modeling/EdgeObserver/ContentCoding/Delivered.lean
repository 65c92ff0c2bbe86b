import EdgeObserver.ContentCoding.Charged

/-!
# What a decode delivers

A decoder that hands over a content in pieces, whatever their sizes, fills the
buffer with exactly that content where it is within the bound.
-/

set_option autoImplicit false

namespace EdgeObserver.ContentCoding

open Library (Throughout balance reserve)

/-- A decoder that delivers a content: `R idle s content` says that in state `s`,
after `idle` empty reads in a row, `content` is still to come. Each read gives
some of what is to come, the end only with the last of it, and never makes a
hundred empty reads in a row. -/
structure Delivery {σ : Type} (read : σ → Nat → Answer × σ) (R : Nat → σ → Bytes → Prop) : Prop where
  step : ∀ {idle : Nat} {s : σ} {content : Bytes}, R idle s content → ∀ space, 0 < space →
    ∃ data rest error s', read s space = (.read data error, s') ∧ data.length ≤ space ∧ content = data ++ rest ∧
      ((error = some .eof ∧ rest = []) ∨ (error = none ∧ data ≠ [] ∧ R 0 s' rest) ∨
        (error = none ∧ data = [] ∧ idle + 1 < 100 ∧ R (idle + 1) s' rest))

structure Delivered {σ : Type} (limit : Nat) (content : Bytes) (o : Output) (f : Filled σ) : Prop where
  whole : o.buf.length + content.length < limit → f.outcome = .decoded ∧ f.output.buf = o.buf ++ content
  past : limit ≤ o.buf.length + content.length → f.outcome = .decodedTooLarge

section Deliver

variable {σ : Type} {limit most : Nat} {grants : Grants} {read : σ → Nat → Answer × σ}
variable {R : Nat → σ → Bytes → Prop}

theorem Output.room_granted {o : Output} {log log' : Log} (granted : ∀ log kind amount, grants log kind amount = true) :
    o.room limit grants log ≠ .refused log' := by
  intro is
  unfold Output.room at is
  split at is
  · split at is
    · cases is
    · unfold Output.grow reserve at is
      simp only [granted, if_true] at is
      cases is
  · cases is

theorem Output.room_full {o : Output} {log : Log} (is : o.room limit grants log = .full) :
    limit ≤ o.buf.length := by
  unfold Output.room at is
  split at is
  · rename_i same
    split at is
    · rw [same]
      assumption
    · split at is <;> cases is
  · cases is

theorem Delivered.later {o o' o'' : Output} {data rest : Bytes} {f : Filled σ}
    (delivered : Delivered limit rest o'' f) (same : o'.buf = o.buf)
    (takes : o''.buf = o'.buf ++ data) : Delivered limit (data ++ rest) o f := by
  have length : o''.buf.length + rest.length = o.buf.length + (data ++ rest).length := by
    rw [takes, same, List.length_append, List.length_append]
    omega
  refine ⟨fun within => ?_, fun past => delivered.past (length ▸ past)⟩
  obtain ⟨outcome, buf⟩ := delivered.whole (length ▸ within)
  exact ⟨outcome, by rw [buf, takes, same, List.append_assoc]⟩

theorem Delivery.reads (delivery : Delivery read R) {idle : Nat} {s s' : σ} {content data : Bytes}
    {error : Option Failure} {space : Nat} (coming : R idle s content) (some_ : 0 < space)
    (is : read s space = (.read data error, s')) :
    ∃ rest, content = data ++ rest ∧
      ((error = some .eof ∧ rest = []) ∨ (error = none ∧ data ≠ [] ∧ R 0 s' rest) ∨
        (error = none ∧ data = [] ∧ idle + 1 < 100 ∧ R (idle + 1) s' rest)) := by
  obtain ⟨data', rest, error', s'', same, _, parts, goes⟩ := delivery.step coming space some_
  rw [is] at same
  cases same
  exact ⟨rest, parts, goes⟩

theorem fill_delivers (delivery : Delivery read R)
    (granted : ∀ log kind amount, grants log kind amount = true) (idle : Fin 100) (o : Output)
    (s : σ) (log : Log) (held : o.Held limit most log) (content : Bytes)
    (coming : R idle.val s content) :
    Delivered limit content o (o.fill limit grants read idle s log) := by
  fun_induction Output.fill limit grants read idle o s log generalizing content with
  | case1 idle o s log full =>
    have past := Output.room_full full
    exact ⟨fun within => absurd within (by omega), fun _ => rfl⟩
  | case2 idle o s log later refused => exact absurd refused (Output.room_granted granted)
  | case3 idle o s log o' later found s' is =>
    obtain ⟨_, space, _⟩ := held.room found
    obtain ⟨data, rest, error, s'', same, _⟩ := delivery.step coming _ (Nat.sub_pos_of_lt space)
    rw [is] at same
    cases same
  | case4 idle o s log o' later found data error s' is past =>
    obtain ⟨_, space, _⟩ := held.room found
    obtain ⟨data', rest, error', s'', same, short, _⟩ := delivery.step coming _ (Nat.sub_pos_of_lt space)
    rw [is] at same
    cases same
    exact absurd past (Nat.not_lt.mpr short)
  | case5 idle o s log o' later found data error s' is fits o'' full =>
    obtain ⟨_, space, same⟩ := held.room found
    obtain ⟨rest, rfl, _⟩ := delivery.reads coming (Nat.sub_pos_of_lt space) is
    rw [same, List.length_append] at full
    refine ⟨fun within => absurd within ?_, fun _ => rfl⟩
    rw [List.length_append]
    omega
  | case6 idle o s log o' later found data s' fits o'' room is =>
    obtain ⟨_, space, same⟩ := held.room found
    obtain ⟨rest, rfl, ⟨_, rfl⟩ | ⟨other, _⟩ | ⟨other, _⟩⟩ := delivery.reads coming (Nat.sub_pos_of_lt space) is
    · rw [same, List.length_append] at room
      rw [List.append_nil]
      exact ⟨fun _ => ⟨rfl, by simp [o'', same]⟩, fun past => absurd past room⟩
    · cases other
    · cases other
  | case7 idle o s log o' later found data s' fits o'' room why other is =>
    obtain ⟨_, space, _⟩ := held.room found
    obtain ⟨rest, rfl, ⟨ends, _⟩ | ⟨ends, _⟩ | ⟨ends, _⟩⟩ := delivery.reads coming (Nat.sub_pos_of_lt space) is
    · cases ends
      exact absurd rfl other
    · cases ends
    · cases ends
  | case8 idle o s log o' later found s' last fits o'' room is =>
    obtain ⟨_, space, _⟩ := held.room found
    obtain ⟨rest, rfl, ⟨ends, _⟩ | ⟨_, some_, _⟩ | ⟨_, _, more, _⟩⟩ :=
      delivery.reads coming (Nat.sub_pos_of_lt space) is
    · cases ends
    · exact absurd rfl some_
    · omega
  | case9 idle o s log o' later found s' more fits o'' room is ih =>
    obtain ⟨held', space, same⟩ := held.room found
    obtain ⟨rest, rfl, ⟨ends, _⟩ | ⟨_, some_, _⟩ | ⟨_, _, _, next⟩⟩ :=
      delivery.reads coming (Nat.sub_pos_of_lt space) is
    · cases ends
    · exact absurd rfl some_
    · exact (ih (held'.take [] (Nat.not_lt.mp fits)) _ next).later same rfl
  | case10 idle o s log o' later found data s' fits o'' room some_ is ih =>
    obtain ⟨held', space, same⟩ := held.room found
    obtain ⟨rest, rfl, ⟨ends, _⟩ | ⟨_, _, next⟩ | ⟨_, none_, _⟩⟩ := delivery.reads coming (Nat.sub_pos_of_lt space) is
    · cases ends
    · exact (ih (held'.take data (Nat.not_lt.mp fits)) rest next).later same rfl
    · exact absurd none_ some_

end Deliver

/-- A decode charges exactly what it keeps, gives back no more than it holds and
never holds more than its largest buffer and half of it; and what a decoder
delivers is what the buffer then holds, where it is within the bound. -/
theorem decode_charges {σ : Type} (lib : Decoders σ) (grants : Grants) (coding : Option Coding)
    (encoded : Bytes) (bound : Int) :
    let r := decode lib grants coding encoded bound
    let n := clampBound bound + 1
    (balance .workspace r.log + balance .output r.log = r.charge ∧ (r.outcome ≠ .decoded → r.charge = 0)) ∧
    (∀ (before : Log) (kind : ChargeKind) (amount : Nat),
      before ++ [.released kind amount] <+: r.log → (amount : Int) ≤ balance kind before) ∧
    (∀ before, before <+: r.log → balance .output before ≤ n + (n + 1) / 2) ∧
    ∀ {τ : Type} (read : τ → Nat → Answer × τ) (R : Nat → τ → Bytes → Prop) (s : τ)
      (content : Bytes), Delivery read R → R 0 s content →
      let filled := Output.fill n (fun _ _ _ => true) read 0 {} s []
      (filled.outcome = .decoded ↔ content.length ≤ clampBound bound) ∧
        (filled.outcome = .decoded → filled.output.buf = content) := by
  intro r n
  have settled : ∃ most, r.Settled n most := by
    cases coding with
    | none => exact ⟨0, by simp [r, decode], by simp [r, decode], by simp [r, decode],
        .nil (lawful_nil n 0)⟩
    | some coding => exact ⟨_, decode_settled coding encoded bound⟩
  obtain ⟨most, settled⟩ := settled
  have owned : Throughout (fun log => ∀ kind, 0 ≤ balance kind log) r.log := by
    refine settled.lawful.imp fun log lawful kind => ?_
    cases kind with
    | workspace => exact lawful.workspaceOwned
    | output => exact lawful.outputOwned
  refine ⟨⟨?_, fun other => (settled.nothing other).1⟩, ?_, ?_, ?_⟩
  · rw [settled.workspace, settled.output, zero_add]
  · exact fun before kind amount front => owned.covered front
  · exact fun before front => (settled.lawful before front).output
  · intro τ read R s content delivery coming filled
    have fresh : Output.Held n 0 {} ([] : Log) := ⟨Nat.le_refl _, .inl rfl, rfl, rfl, rfl, .nil (lawful_nil n 0)⟩
    have delivered := fill_delivers delivery (fun _ _ _ => rfl) 0 {} s [] fresh content coming
    have whole : content.length ≤ clampBound bound →
        filled.outcome = .decoded ∧ filled.output.buf = content := by
      intro within
      exact delivered.whole (by simp only [List.length_nil]; omega)
    have past : ¬ content.length ≤ clampBound bound → filled.outcome = .decodedTooLarge := by
      intro past
      exact delivered.past (by simp only [List.length_nil]; omega)
    by_cases within : content.length ≤ clampBound bound
    · exact ⟨⟨fun _ => within, fun _ => (whole within).1⟩, fun _ => (whole within).2⟩
    refine ⟨⟨fun is => ?_, fun is => absurd is within⟩, fun is => ?_⟩
    · rw [past within] at is
      cases is
    · rw [past within] at is
      cases is

def faulting : Decoders Unit where
  make _ _ := (.fault, 0)
  reset _ _ := (.fault, 0)
  read _ _ _ := (.fault, 0)
  closeFaults _ _ := true
  crc32 _ := 0
  adler32 _ := 0

def byteByByte (s : Bytes) (_ : Nat) : Answer × Bytes :=
  (.read (s.take 1) (if s.length ≤ 1 then some .eof else none), s.drop 1)

theorem byteByByte_delivers : Delivery byteByByte (fun _ s content => content = s) where
  step := by
    rintro idle s content rfl space some_
    refine ⟨_, _, _, _, rfl, ?_, (List.take_append_drop 1 content).symm, ?_⟩
    · exact Nat.le_trans (List.length_take_le 1 content) some_
    · cases content with
      | nil => exact .inl ⟨rfl, rfl⟩
      | cons first rest =>
        cases rest with
        | nil => exact .inl ⟨rfl, rfl⟩
        | cons second rest => exact .inr (.inl ⟨rfl, by simp, rfl⟩)

theorem decode_charges_pieces :
    (Output.fill 4 (fun _ _ _ => true) byteByByte 0 {} [1, 2, 3] []).outcome = .decoded ∧
      (Output.fill 4 (fun _ _ _ => true) byteByByte 0 {} [1, 2, 3] []).output.buf = [1, 2, 3] := by
  obtain ⟨_, _, _, delivered⟩ := decode_charges faulting (fun _ _ _ => true) none [] 3
  obtain ⟨decoded, whole⟩ := delivered byteByByte (fun _ s content => content = s) [1, 2, 3] [1, 2, 3]
    byteByByte_delivers rfl
  have ends := decoded.mpr (by decide)
  exact ⟨ends, whole ends⟩

theorem workspaceCeiling_pos (coding : Coding) (bound : Int) :
    0 < workspaceCeiling coding bound := by
  cases coding <;> simp only [workspaceCeiling, stageOverhead] <;> omega

def risingFrames : Bytes :=
  [0x28, 0xb5, 0x2f, 0xfd, 0x00, 0x20, 0x01, 0x00, 0x00, 0x28, 0xb5, 0x2f, 0xfd, 0x00, 0x21, 0x01, 0x00, 0x00]

end EdgeObserver.ContentCoding
