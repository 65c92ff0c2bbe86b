import EdgeObserver.Fragment.Record
import EdgeObserver.Stream.Cursor

/-!
# Reassembly

Fragment records put back into the streams they are of. Records are placed in
order of their offsets, what is placed stays, and offsets nothing covers or
nothing kept come out as holes. An offset and what is added to it stand as
natural numbers: they agree with the program's where no record ends past the
last offset there is.
-/

set_option autoImplicit false

namespace EdgeObserver.Stream

open Fragment

structure Key where
  process : Process
  connection : Nat
  direction : Direction
  deriving DecidableEq

def streamOf (record : Record) : Key :=
  { process := record.process, connection := record.connection, direction := record.direction }

def directionCode : Direction → Nat
  | .unknown => 0
  | .sent => 1
  | .received => 2

def less (a b : Key) : Bool :=
  if a.process.pid ≠ b.process.pid then decide (a.process.pid < b.process.pid)
  else if a.process.startTime ≠ b.process.startTime then
    decide (a.process.startTime < b.process.startTime)
  else if a.connection ≠ b.connection then decide (a.connection < b.connection)
  else decide (directionCode a.direction < directionCode b.direction)

structure Conflict where
  offset : Nat
  length : Nat
  deriving DecidableEq

structure Assembled extends WholeStream where
  key : Key
  conflicts : List Conflict := []

structure Discard where
  index : Nat
  err : Fragment.Invalid

structure Duplicate where
  index : Nat
  offset : Nat
  length : Nat
  agrees : Bool
  deriving DecidableEq

structure Result where
  streams : List Assembled := []
  discards : List Discard := []
  duplicates : List Duplicate := []

def append (parts : List Part) (p : Part) : List Part :=
  if p.length = 0 then parts
  else
    match parts.getLast? with
    | none => parts ++ [p]
    | some last =>
      if p.gap ≠ .none ∧ last.gap = p.gap ∧ last.offset + last.length = p.offset then
        parts.dropLast ++ [{ last with length := last.length + p.length }]
      else parts ++ [p]

def agreesAt : List Part → Nat → Bytes → Bool
  | [], _, _ => true
  | p :: rest, offset, want =>
    if want = [] then true
    else if offset ≥ p.offset + p.length ∨ offset < p.offset then agreesAt rest offset want
    else
      let within := offset - p.offset
      let n := min want.length (p.length - within)
      if p.gap = .none ∧ (p.bytes.drop within).take n ≠ want.take n then false
      else agreesAt rest (offset + n) (want.drop n)

/-- A stream as far as its records are placed; `next` is the first offset not
placed. -/
structure Building where
  parts : List Part := []
  conflicts : List Conflict := []
  next : Nat

namespace Building

def add (b : Building) (p : Part) : Building := { b with parts := append b.parts p, next := b.next + p.length }

def hole (b : Building) (upTo : Nat) (gap : GapReason) : Building :=
  if upTo > b.next then b.add { offset := b.next, length := upTo - b.next, gap } else b

def carry (b : Building) (record : Record) : Building :=
  if record.offset + record.payload.length > b.next then
    b.add
      { offset := b.next
        length := record.payload.length - (b.next - record.offset)
        bytes := record.payload.drop (b.next - record.offset) }
  else b

def overlap (b : Building) (record : Record) : Nat := min b.next (record.offset + record.payload.length) - record.offset

def agrees (b : Building) (record : Record) : Bool :=
  !(decide (record.offset < b.next) && decide (record.payload.length > 0) && decide (b.overlap record > 0) &&
    !agreesAt b.parts record.offset (record.payload.take (b.overlap record)))

def compare (b : Building) (record : Record) : Building :=
  if b.agrees record then b
  else { b with
    conflicts := b.conflicts ++ [{ offset := record.offset, length := b.overlap record }] }

def place (b : Building) (record : Record) : Building × Option Bool :=
  if record.finish ≤ b.next then (b.compare record, some (b.agrees record))
  else ((((b.compare record).hole record.offset .missing).carry record).hole record.finish .truncated, none)

def placeAll (b : Building) : List (Record × Nat) → Building × List Duplicate
  | [] => (b, [])
  | (record, index) :: rest =>
    let (b, placed) := b.place record
    let (b, duplicates) := b.placeAll rest
    match placed with
    | none => (b, duplicates)
    | some agrees =>
      (b, { index, offset := record.offset, length := record.length.toNat, agrees } :: duplicates)

end Building

def oneWithDuplicates (key : Key) : List (Record × Nat) → Assembled × List Duplicate
  | [] => ({ key }, [])
  | (record, index) :: rest =>
    let (b, duplicates) := Building.placeAll { next := record.offset } ((record, index) :: rest)
    ({ key, parts := b.parts, start := record.offset, endsAt := b.next,
       conflicts := b.conflicts }, duplicates)

def Precedes (a b : Record × Nat) : Prop :=
  if a.1.offset ≠ b.1.offset then a.1.offset < b.1.offset
  else if a.1.sequence ≠ b.1.sequence then a.1.sequence < b.1.sequence
  else a.2 < b.2

instance (a b : Record × Nat) : Decidable (Precedes a b) :=
  inferInstanceAs (Decidable (if a.1.offset ≠ b.1.offset then _
    else if a.1.sequence ≠ b.1.sequence then _ else _))

def usable (records : List Record) : List (Record × Nat) := records.zipIdx.filter (fun p => p.1.validate.isOk)

def keys (records : List Record) : List Key :=
  ((usable records).map (fun p => streamOf p.1)).dedup.insertionSort (fun a b => less b a = false)

def held (records : List Record) (key : Key) : List (Record × Nat) :=
  ((usable records).filter (fun p => streamOf p.1 = key)).insertionSort (fun a b => ¬ Precedes b a)

def assemble (records : List Record) : Result :=
  let assembled := (keys records).map (fun key => oneWithDuplicates key (held records key))
  { streams := assembled.map Prod.fst
    discards := records.zipIdx.filterMap (fun p =>
      match p.1.validate with
      | .ok () => none
      | .error err => some { index := p.2, err })
    duplicates := assembled.flatMap Prod.snd }

end EdgeObserver.Stream
