import EdgeObserver.Stream.Part

/-!
# A direction already whole, and a cursor over it
-/

set_option autoImplicit false

namespace EdgeObserver.Stream

open Text

structure WholeStream where
  parts : List Part := []
  start : Nat := 0
  endsAt : Nat := 0

structure Cursor where
  stream : WholeStream
  pos : Nat

def newCursor (stream : WholeStream) : Cursor := { stream, pos := stream.start }

namespace Cursor

def remaining (c : Cursor) : Nat := c.stream.endsAt - c.pos

def part (c : Cursor) : Option Part :=
  match c.stream.parts.find? fun p => c.pos < p.offset + p.length with
  | some p => if c.pos < p.offset then none else some p
  | none => none

/-- The bytes present at so many offsets, at most so many of them kept, and how
many of the offsets were holes. -/
def takeLoop (keep : Int) : Nat → Nat → Cursor → Bytes → Nat → Option (Bytes × Nat) × Cursor
  | 0, _, c, _, _ => (none, c)
  | fuel + 1, n, c, data, holed =>
    if n = 0 then (some (data, holed), c)
    else match c.part with
      | none => (none, c)
      | some p =>
        let within := c.pos - p.offset
        let take := min n (p.length - within)
        let c := { c with pos := c.pos + take }
        if p.gap ≠ .none then takeLoop keep fuel (n - take) c data (holed + take)
        else
          let room := keep - data.length
          let data := if room > 0 then data ++ (p.bytes.drop within).take (min take room.toNat) else data
          takeLoop keep fuel (n - take) c data holed

def take (c : Cursor) (n : Nat) (keep : Int) : Option (Bytes × Nat) × Cursor :=
  if n > c.remaining then (none, c) else takeLoop keep (n + 1) n c [] 0

def peekLoop : Nat → Nat → Cursor → Bytes → Bytes
  | 0, _, _, out => out
  | fuel + 1, n, c, out =>
    if out.length < n then
      match c.part with
      | none => out
      | some p =>
        if p.gap ≠ .none then out
        else
          let within := c.pos - p.offset
          let take := min (n - out.length) (p.length - within)
          peekLoop fuel n { c with pos := c.pos + take } (out ++ (p.bytes.drop within).take take)
    else out

def peek (c : Cursor) (n : Nat) : Bytes := peekLoop (n + 1) n c []

def ofBytes (bytes : Bytes) : Cursor := newCursor { parts := [.ofBytes 0 bytes], endsAt := bytes.length }

/-! ## Lines -/

inductive LineError where
  | short
  | gap (reason : GapReason) (offset : Nat)
  | tooLong

/-- Reads the bytes left of a part: a line that ended or outgrew its bound, or the
line so far and whether a carriage return waits at its end. -/
def linePart (max : Int) : Bytes → Cursor → Bytes → Bool → Cursor × (Except LineError Bytes ⊕ Bytes × Bool)
  | [], c, line, sawCR => (c, .inr (line, sawCR))
  | b :: rest, c, line, sawCR =>
    let c := { c with pos := c.pos + 1 }
    if sawCR && b == lf then (c, .inl (.ok line))
    else
      let line := if sawCR then line ++ [cr] else line
      if sawCR && (line.length : Int) > max then (c, .inl (.error .tooLong))
      else if b == cr then linePart max rest c line true
      else if ((line ++ [b]).length : Int) > max then (c, .inl (.error .tooLong))
      else linePart max rest c (line ++ [b]) false

def readLineLoop (max : Int) : Nat → Cursor → Bytes → Bool → Except LineError Bytes × Cursor
  | 0, c, _, _ => (.error .short, c)
  | fuel + 1, c, line, sawCR =>
    if c.remaining = 0 then (.error .short, c)
    else match c.part with
      | none => (.error .short, c)
      | some p =>
        if p.gap ≠ .none then (.error (.gap p.gap c.pos), c)
        else match linePart max (p.bytes.drop (c.pos - p.offset)) c line sawCR with
          | (c, .inl ended) => (ended, c)
          | (c, .inr (line, sawCR)) => readLineLoop max fuel c line sawCR

-- A pass that does not return takes what is left of a part.
def readLine (c : Cursor) (max : Int) : Except LineError Bytes × Cursor :=
  readLineLoop max c.stream.parts.length c [] false

end Cursor

end EdgeObserver.Stream
