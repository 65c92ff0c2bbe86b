import EdgeObserver.Json.Lexical
import EdgeObserver.Library.Splices

/-!
# The JSON field editor

One pass over a body that finds the members and elements the pointers match and
records how to cut or replace them; the edits are applied after the whole text
was read. The text from the reading position on stands for the position.
-/

set_option autoImplicit false

namespace EdgeObserver.Json

open Library (Edit splice)

def maxJSONFieldDepth : Nat := 32
def maxJSONFieldNodes : Nat := 65536

/-- One pointer part-way through its tokens: those left to match, the first of
them against the children of the value it is attached to. -/
structure Cursor where
  pointer : Nat
  tokens : List Bytes

structure Child where
  start : Nat
  valueStart : Nat
  stop : Nat
  act : Bool

structure Job where
  fold : Bytes → Bytes
  length : Nat
  replacement : Option Bytes

structure Editor where
  rest : Bytes
  nodes : Nat
  matched : List Bool
  edits : List (Edit UInt8)

/-- What one cursor adds to what `descend` found so far: whether a cursor ends
on the child, the cursors that go on beneath it, and the pointers matched. -/
def descendOne (matched : Bytes → Bool) (found : Bool × List Cursor × List Bool) (c : Cursor) :
    Bool × List Cursor × List Bool :=
  match c.tokens with
  | [] => found
  | token :: left =>
    if matched token = false then found
    else if left = [] then (true, found.2.1, found.2.2.set c.pointer true)
    else (found.1, found.2.1 ++ [{ c with tokens := left }], found.2.2)

def descend (matched : Bytes → Bool) (active : List Cursor) (flags : List Bool) : Bool × List Cursor × List Bool :=
  let found := active.foldl (descendOne matched) (false, [], flags)
  -- The outer match is acted on; nothing inside it is edited as well.
  if found.1 then (true, [], found.2.2) else found

/-- The removals of a container's children. `before` is where the child before
the open run ends, `run` where the first child of the run starts, `last` where
its last one ends. -/
def removals (before : Option Nat) : Option (Nat × Nat) → List Child → List (Edit UInt8)
  | none, [] => []
  | some (start, last), [] => [⟨before.getD start, last, []⟩]
  | run, c :: rest =>
    if c.act then
      removals before (some ((run.map Prod.fst).getD c.start, c.stop)) rest
    else
      (run.map (fun r => ⟨r.1, c.start, []⟩)).toList ++ removals (some c.stop) none rest

/-- What happens to a container's acted-on children. A replaced value is its own
span. A removed run of children goes with the separators after it where a kept
child follows, and otherwise with the separator before it. -/
def edit (replacement : Option Bytes) (children : List Child) : List (Edit UInt8) :=
  match replacement with
  | some new =>
    children.filterMap (fun c => if c.act then some ⟨c.valueStart, c.stop, new⟩ else none)
  | none => removals none none children

namespace Editor

def pos (job : Job) (j : Editor) : Nat := job.length - j.rest.length

/-- Reads a member's name and colon and decides about its value, as `object`
does; an element's index decides, as in `array`. -/
def label (job : Job) (object : Bool) (index : Nat) (active : List Cursor) (j : Editor) :
    Option (Bool × List Cursor × Editor) :=
  if object then
    match text j.rest with
    | none => none
    | some (name, rest) =>
      match skipSpace rest with
      | [] => none
      | c :: after =>
        if c = colon then
          let found := descend ((Step.member name).named job.fold) active j.matched
          some (found.1, found.2.1, { j with rest := skipSpace after, matched := found.2.2 })
        else none
  else
    let found := descend ((Step.element index).named job.fold) active j.matched
    some (found.1, found.2.1, { j with matched := found.2.2 })

def loop (job : Job) (value : List Cursor → Editor → Option (Nat × Editor)) (object : Bool)
    (close : UInt8) (active : List Cursor) :
    Nat → Nat → List Child → Editor → Option Editor
  | 0, _, _, _ => none
  | fuel + 1, index, children, j =>
    let start := j.pos job
    match j.label job object index active with
    | none => none
    | some (act, next, j) =>
      match value next j with
      | none => none
      | some (valueStart, j) =>
        let children := children ++ [⟨start, valueStart, j.pos job, act⟩]
        match skipSpace j.rest with
        | [] => none
        | c :: after =>
          if c = close then
            some { j with rest := after, edits := j.edits ++ edit job.replacement children }
          else if c ≠ comma then none
          else
            loop job value object close active fuel (index + 1) children { j with rest := skipSpace after }

/-- A container from after its opening bracket. Every child takes a byte at
least, so the text bounds how often the loop goes round. -/
def container (job : Job) (value : List Cursor → Editor → Option (Nat × Editor)) (object : Bool)
    (close : UInt8) (active : List Cursor) (j : Editor) : Option Editor :=
  match skipSpace j.rest with
  | [] => none
  | c :: after =>
    if c = close then some { j with rest := after }
    else
      loop job value object close active (j.rest.length + 1) 0 [] { j with rest := c :: after }

def object (job : Job) (value : List Cursor → Editor → Option (Nat × Editor))
    (active : List Cursor) (j : Editor) : Option Editor :=
  container job value true 125 active j

def array (job : Job) (value : List Cursor → Editor → Option (Nat × Editor))
    (active : List Cursor) (j : Editor) : Option Editor :=
  container job value false 93 active j

def value (job : Job) : Nat → List Cursor → Editor → Option (Nat × Editor)
  | 0, _, _ => none
  | left + 1, active, j =>
    let j := { j with nodes := j.nodes + 1 }
    if j.nodes > maxJSONFieldNodes then none
    else
      match j.rest with
      | [] => none
      | c :: rest =>
        if c = 123 then
          (object job (value job left) active { j with rest := rest }).map (Prod.mk (j.pos job))
        else if c = 91 then
          (array job (value job left) active { j with rest := rest }).map (Prod.mk (j.pos job))
        else
          (scalar j.rest).map (fun after => (j.pos job, { j with rest := after }))

end Editor

def bom : Bytes := [0xef, 0xbb, 0xbf]

/-- Removes, or with a replacement replaces the value of, every member or element
the pointers match, and returns the body with every other byte kept, and which
pointers matched at least once. -/
def editJSON (fold : Bytes → Bytes) (body : Bytes) (pointers : List Bytes)
    (replacement : Option Bytes) : Option (Bytes × List Bool) :=
  if bom <+: body ∨ Config.validUtf8 body = false then none
  else
    let job : Job := { fold, length := body.length, replacement }
    let active := (pointers.map Config.pointerTokens).zipIdx.map (fun p => ⟨p.2, p.1⟩)
    let start : Editor := { rest := skipSpace body, nodes := 0, matched := pointers.map (fun _ => false), edits := [] }
    match start.value job maxJSONFieldDepth active with
    | none => none
    | some (_, j) =>
      if skipSpace j.rest = [] then
        some (splice 0 (j.edits.insertionSort (fun a b => a.start ≤ b.start)) body, j.matched)
      else none

def jsonString (value : Bytes) : Bytes :=
  quote :: (value.flatMap (fun b =>
    if b = quote ∨ b = backslash then [backslash, b] else [b]) ++ [quote])

end EdgeObserver.Json
