import EdgeObserver.Text

/-!
# The memory of a decode

What a decoder is taken to hold, rounded up as the allocator rounds, from what
the stream's headers declare; and the ceilings that depend on the bound alone.
-/

set_option autoImplicit false

namespace EdgeObserver.ContentCoding

inductive Coding where
  | gzip
  | deflate
  | brotli
  | zstd
  deriving DecidableEq

def sizeClassLimit : Nat := 32 * 1024
def pageSize : Nat := 8 * 1024

def allocated (n : Nat) : Nat :=
  if n = 0 then 0
  else if n ≤ sizeClassLimit then n + n / 4 + 16
  else (n + pageSize - 1) / pageSize * pageSize

def stageOverhead : Nat := 1024

def flateFixed : Nat :=
  allocated 416 + allocated (316 * 8) + allocated (19 * 8) + allocated (32 * 1024) + 2 * allocated 1024

def flateLinks : Nat :=
  2 * (allocated (143 * 24) + 143 * allocated 128) + 2 * (allocated (15 * 24) + 15 * allocated 128)

def brotliFixed : Nat := allocated 5608 + allocated (32 * 1024) + allocated (3 * (632 + 396) * 4)

def treeGroup (codes trees : Nat) : Nat := allocated (trees * codes * 4) + allocated (trees * 24)

def brotliTrees : Nat := treeGroup 630 256 + treeGroup 1080 256 + treeGroup 920 256

def brotliMaps : Nat := allocated (256 * 64) + allocated (256 * 4) + allocated 256

def brotliRingSlack : Nat := 42

def brotliRing (bits : Nat) : Nat := 2 ^ bits

def brotliSmallestWindow : Nat := 2 ^ 10 - 16

def maxBound : Nat := 2 ^ 40

def clampBound (bound : Int) : Nat := min bound.toNat maxBound

/-- The ring of the widest window admitted among some, from `bits` on. -/
def brotliRingFrom (most : Nat) : Nat → Nat → Nat → Nat
  | 0, _, ring => ring
  | count + 1, bits, ring =>
    if 2 ^ bits - 16 > most then ring else brotliRingFrom most count (bits + 1) (2 ^ bits)

def brotliLargestRing (bound : Nat) : Nat := brotliRingFrom (max bound brotliSmallestWindow) 14 11 (2 ^ 10)

def brotliRingHeld (ring : Nat) : Nat := allocated (ring + brotliRingSlack) + allocated (ring / 2 + brotliRingSlack)

def brotliWindowBits (first : UInt8) : Option Nat :=
  let first := first.toNat
  if first % 2 = 0 then some 16
  else if first / 2 % 8 ≠ 0 then some (17 + first / 2 % 8)
  else
    match first / 16 % 8 with
    | 0 => some 17
    | 1 => none
    | n => some (8 + n)

def zstdFixed : Nat := 32 * 1024
def zstdBlock : Nat := 128 * 1024
def zstdSequences : Nat := 0x7f00 + 0xffff
def zstdLargeWindow : Nat := 2 ^ 21 - 1
def zstdSmallestWindow : Nat := 2 ^ 10

def zstdHistory (window : Nat) : Nat :=
  if window < zstdLargeWindow then 2 * window else window + zstdLargeWindow / 2

def zstdHistoryEnvelope (limit : Nat) : Nat := max (zstdHistory limit) (zstdHistory (min limit (zstdLargeWindow - 1)))

def zstdBlockBuffers : Nat := 3 * allocated (zstdBlock + 17) + allocated (zstdSequences * 24)

def zstdWindow (bound : Nat) : Nat := max bound zstdSmallestWindow

def littleEndian (bytes : Bytes) : Nat := bytes.foldr (fun b rest => b.toNat + 256 * rest) 0

def zstdMagic : Nat := 0xfd2fb528

def isSkippable (magic : Nat) : Bool := magic / 16 == 0x184d2a5

def dictionaryBytes (descriptor : Nat) : Nat :=
  match descriptor % 4 with
  | 0 => 0
  | 1 => 1
  | 2 => 2
  | _ => 4

def isSingleSegment (descriptor : Nat) : Bool := descriptor / 32 % 2 == 1

def hasChecksum (descriptor : Nat) : Bool := descriptor / 4 % 2 == 1

/-- How long a frame's header is: a window descriptor, or a single segment's
content size of one byte, is one more. -/
def zstdHeaderLength (descriptor : Nat) : Nat :=
  let content :=
    match descriptor / 64 with
    | 0 => 0
    | 1 => 2
    | 2 => 4
    | _ => 8
  5 + dictionaryBytes descriptor + content + (if isSingleSegment descriptor = false ∨ descriptor / 64 = 0 then 1 else 0)

def zstdDeclaredWindow (b : Bytes) : Option Nat :=
  if b.length < 5 ∨ littleEndian (b.take 4) ≠ zstdMagic then none
  else
    let descriptor := (b.getD 4 0).toNat
    if isSingleSegment descriptor = false then
      if b.length < 6 then none
      else
        let byte := (b.getD 5 0).toNat
        let base := 2 ^ (10 + byte / 8)
        some (base + base / 8 * (byte % 8))
    else
      let pos := 5 + dictionaryBytes descriptor
      let size := 2 ^ (descriptor / 64)
      if b.length - pos < size then none
      else
        let content := littleEndian ((b.drop pos).take size)
        some (max (if size = 2 then content + 256 else content) zstdSmallestWindow)

/-- Walks a frame's blocks: what follows the last of them, or nothing where they
are not all there or one's type is reserved; and the bytes of their headers. -/
def zstdBlocks : Nat → Bytes → Nat → Option Bytes × Nat
  | 0, _, read => (none, read)
  | fuel + 1, b, read =>
    if b.length < 3 then (none, read + b.length)
    else
      let header := littleEndian (b.take 3)
      let rest := b.drop 3
      let read := read + 3
      if header / 2 % 4 = 3 then (none, read)
      else
        let size := if header / 2 % 4 = 1 then 1 else header / 8
        if rest.length < size then (none, read)
        else if header % 2 = 1 then (some (rest.drop size), read)
        else zstdBlocks fuel (rest.drop size) read

def zstdFrameEnd (b : Bytes) (checksum : Bool) : Option Bytes × Nat :=
  let (rest, read) := zstdBlocks (b.length + 1) b 0
  match rest with
  | none => (none, read)
  | some rest =>
    if checksum then
      if rest.length < 4 then (none, read) else (some (rest.drop 4), read)
    else (some rest, read)

/-- The most history held, the bytes read, and where the input is cut: before the
frame that would make the history a fourth time. -/
structure ZstdPlan where
  held : Nat
  read : Nat
  cut : Option Nat

def zstdHistoryAllocations : Nat := 3

structure Walk where
  held : Nat := 0
  read : Nat := 0
  retained : Nat := 0
  allocations : Nat := 0

def Walk.stop (w : Walk) (read : Nat) : ZstdPlan := { held := w.held, read := w.read + read, cut := none }

def Walk.history (w : Walk) (need : Nat) : Option Walk :=
  if need > w.retained then
    if w.allocations = zstdHistoryAllocations then none
    else
      some
        { w with
          held := max w.held (allocated w.retained + allocated need)
          retained := need
          allocations := w.allocations + 1 }
  else some w

def zstdWalk (total limit : Nat) : Nat → Bytes → Walk → ZstdPlan
  | 0, _, w => w.stop 0
  | fuel + 1, b, w =>
    if b.length < 4 then w.stop b.length
    else
      let magic := littleEndian (b.take 4)
      if isSkippable magic then
        if b.length < 8 then w.stop b.length
        else
          let size := littleEndian ((b.drop 4).take 4)
          if size > b.length - 8 then w.stop 8
          else zstdWalk total limit fuel (b.drop (8 + size)) { w with read := w.read + 8 }
      else if magic ≠ zstdMagic ∨ b.length < 5 then w.stop 4
      else
        let descriptor := (b.getD 4 0).toNat
        let header := zstdHeaderLength descriptor
        if b.length < header then w.stop b.length
        else
          let window := (zstdDeclaredWindow b).getD 0
          if window > limit then w.stop header
          else
            match w.history (zstdHistory window) with
            | none =>
              { held := w.held, read := w.read + header, cut := some (total - b.length) }
            | some w =>
              match zstdFrameEnd (b.drop header) (hasChecksum descriptor) with
              | (none, blocks) => w.stop (header + blocks)
              | (some rest, blocks) =>
                zstdWalk total limit fuel rest { w with read := w.read + header + blocks }

def zstdPlanned (b : Bytes) (limit : Nat) : ZstdPlan := zstdWalk b.length limit (b.length + 1) b {}

def plan (coding : Coding) (input : Bytes) (bound : Int) : Nat × Nat :=
  let bound := clampBound bound
  match coding with
  | .gzip | .deflate => (flateFixed + flateLinks + stageOverhead, 0)
  | .brotli =>
    match input with
    | [] => (0, 0)
    | first :: _ =>
      match brotliWindowBits first with
      | none => (0, 1)
      | some bits =>
        if 2 ^ bits - 16 > max bound brotliSmallestWindow then (0, 1)
        else
          (brotliFixed + 2 * brotliTrees + brotliMaps + brotliRingHeld (brotliRing bits) + stageOverhead, 1)
  | .zstd =>
    let history := zstdPlanned input (zstdWindow bound)
    (zstdFixed + history.held + 2 * zstdBlockBuffers + stageOverhead, history.read)

def workspace (coding : Coding) (input : Bytes) (bound : Int) : Nat := (plan coding input bound).1

def workspaceCeiling (coding : Coding) (bound : Int) : Nat :=
  let bound := clampBound bound
  match coding with
  | .gzip | .deflate => flateFixed + flateLinks + stageOverhead
  | .brotli =>
    brotliFixed + 2 * brotliTrees + brotliMaps + brotliRingHeld (brotliLargestRing bound) + stageOverhead
  | .zstd =>
    zstdFixed + 2 * allocated (zstdHistoryEnvelope (zstdWindow bound)) + 2 * zstdBlockBuffers + stageOverhead

def charges (coding : Coding) (bound : Int) : Nat :=
  let workspace := workspaceCeiling coding bound
  if workspace = 0 then 0
  else
    let n := clampBound bound + 1
    n + (n + 1) / 2 + workspace

end EdgeObserver.ContentCoding
