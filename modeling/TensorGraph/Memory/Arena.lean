import TensorGraph.Figure

/-!
# Growable arena

An arena hands out byte ranges by first fit: the lowest free range that is large enough, or new
space at the tail if there is none. Live blocks and free ranges are kept in address order. Released
ranges are merged with the free ranges they touch. The tail is the end of the highest range ever
handed out, so it is the peak footprint of the requests so far.

The free ranges are edited by place: `slot` finds the place of an offset by halving, and `takeFit`
and `giveBack` take ranges out of the list and put them in there. An arena is changed by steps
(`Step`), and a step that fails leaves behind what it has changed until then. `perform` shows that
arena to a caller that goes on; `alloc` and `release` are for a caller that gives up.
-/

namespace TensorGraph

/-- A number of bytes that offsets and sizes are rounded up to: a power of two. Reports show it as
it was given. -/
structure Alignment where
  bytes : Nat
  isPowerOfTwo : 0 < bytes ∧ bytes &&& (bytes - 1) = 0
  given : Datum := .int bytes
deriving DecidableEq, Repr

namespace Alignment

/-- The alignment that packs bytes densely. -/
def one : Alignment := ⟨1, by decide, .int 1⟩

/-- Accept a positive power of two as an alignment. -/
def ofInt (n : Int) (given : Datum) : Except Error Alignment :=
  if h : 0 < n.toNat ∧ n.toNat &&& (n.toNat - 1) = 0 then .ok ⟨n.toNat, h, given⟩
  else .error (.badAlignment given)

/-- The alignment that a piece of data stands for. A floating-point number is refused for its value
if it is zero or less, and for its kind otherwise. -/
def ofDatum (d : Datum) : Except Error Alignment := do
  match d with
  | .float x => if x.isAtMost 0 then throw (.badAlignment d) else throw .notANumber
  | _ =>
    let n ← d.whole
    ofInt n d

/-- The least multiple of the alignment that is at least `n`: the bits below those of the alignment
are cleared, after they have carried. -/
def roundUp (a : Alignment) (n : Nat) : Nat :=
  let carried := n + a.bytes - 1
  carried ^^^ (carried &&& (a.bytes - 1))

end Alignment

/-- A free range of bytes below the tail. -/
structure FreeRange where
  offset : Nat
  size : Nat
deriving DecidableEq, Repr

/-- The first byte after a free range. -/
def FreeRange.stop (r : FreeRange) : Nat := r.offset + r.size

/-- A live range of bytes, with the tag it was requested under. -/
structure Block where
  offset : Nat
  size : Nat
  tag : Label
deriving DecidableEq, Repr

/-- An allocator with its live blocks and free ranges, both in address order. -/
structure Arena where
  alignment : Alignment
  live : List Block := []
  free : List FreeRange := []
  tail : Nat := 0
  liveBytes : Nat := 0
deriving DecidableEq, Repr

namespace Arena

/-- The arena before the first request. -/
def empty (alignment : Alignment) : Arena := ⟨alignment, [], [], 0, 0⟩

/-- The number of bytes in free ranges. -/
def freeBytes (free : List FreeRange) : Nat := free.foldl (fun bytes r => bytes + r.size) 0

/-- Where an offset belongs among the free ranges from place `lo` up to place `hi`, by halving. -/
@[semireducible] def slotBetween (free : List FreeRange) (offset lo hi : Nat) : Nat :=
  if lo < hi then
    let mid := (lo + hi) / 2
    if (free[mid]?).any fun r => r.offset < offset then slotBetween free offset (mid + 1) hi
    else slotBetween free offset lo mid
  else lo
termination_by hi - lo

/-- Where an offset belongs among free ranges in address order. -/
def slot (free : List FreeRange) (offset : Nat) : Nat := slotBetween free offset 0 free.length

/-- Put a range in its place, without merging it. -/
def insertRange (r : FreeRange) (free : List FreeRange) : List FreeRange :=
  free.insertIdx (slot free r.offset) r

/-- Take bytes off the front of the first free range that has enough of them. The result is the
offset of the bytes taken and the free ranges that are left. -/
def takeFit (need : Nat) (free : List FreeRange) : Option (Nat × List FreeRange) := do
  let i ← free.findIdx? fun r => need ≤ r.size
  let r ← free[i]?
  let others := free.eraseIdx i
  return (r.offset,
    if need < r.size then insertRange ⟨r.offset + need, r.size - need⟩ others else others)

/-- A range that is given back, on its way into the free ranges: the place where it belongs and the
free ranges that it has not been merged with. -/
structure Return where
  range : FreeRange
  place : Nat
  others : List FreeRange
deriving DecidableEq, Repr

/-- Merge with the free range before the place, if they touch. -/
def Return.joinPrev (r : Return) : Return :=
  match r.place with
  | 0 => r
  | place + 1 =>
    match r.others[place]? with
    | some prev =>
      if prev.stop = r.range.offset then
        ⟨⟨prev.offset, prev.size + r.range.size⟩, place, r.others.eraseIdx place⟩
      else r
    | none => r

/-- Merge with the free range at the place, if they touch. -/
def Return.joinNext (r : Return) : Return :=
  match r.others[r.place]? with
  | some next =>
    if r.range.stop = next.offset then
      ⟨⟨r.range.offset, r.range.size + next.size⟩, r.place, r.others.eraseIdx r.place⟩
    else r
  | none => r

/-- The free ranges with the range in its place among them. -/
def Return.finish (r : Return) : List FreeRange := r.others.insertIdx r.place r.range

/-- Give a range back to the free ranges, merged with the neighbours it touches. -/
def giveBack (r : FreeRange) (free : List FreeRange) : List FreeRange :=
  (Return.mk r (slot free r.offset) free).joinPrev.joinNext.finish

/-- Put a block into a list of blocks in address order. -/
def insertBlock (b : Block) : List Block → List Block
  | [] => [b]
  | c :: rest => if c.offset < b.offset then c :: insertBlock b rest else b :: c :: rest

/-- Enter a block into the books. -/
def record (a : Arena) (b : Block) : Arena :=
  { a with live := insertBlock b a.live, liveBytes := a.liveBytes + b.size }

/-- A step that changes an arena and may fail. What it has changed before it fails stays changed. -/
abbrev Step := EStateM Error Arena

/-- Ask for bytes. A request for none gets the tail and leaves no trace. -/
def allocStep (size : Int) (tag : Label) : Step Nat := do
  if size < 0 then throw (.negativeSize (.int size))
  else if size = 0 then return (← get).tail
  else
    let a ← get
    let need := a.alignment.roundUp size.toNat
    match takeFit need a.free with
    | some (offset, free) =>
      modify fun a => { a with free := free }
      modify fun a => a.record ⟨offset, need, tag⟩
      return offset
    | none =>
      let offset := a.alignment.roundUp a.tail
      if a.tail < offset then
        modify fun a => { a with free := giveBack ⟨a.tail, offset - a.tail⟩ a.free }
      modify fun a => { a with tail := offset + need }
      modify fun a => a.record ⟨offset, need, tag⟩
      return offset

/-- Ask for as many bytes as a number says. A floating-point number is refused for its value if it
is negative, and for its kind if it is positive. -/
def requestStep (size : Datum) (tag : Label) : Step Nat := do
  match size with
  | .float x =>
    if x.isLess 0 then throw (.negativeSize size)
    else if x.isAtMost 0 then allocStep 0 tag
    else throw .notANumber
  | _ =>
    let n ← MonadExcept.ofExcept size.whole
    allocStep n tag

/-- Give back the live block at an offset, which was `given` in some form. -/
def releaseStep (given : Datum) (offset : Int) : Step Unit := do
  match (← get).live.find? fun b => (b.offset : Int) = offset with
  | none => throw (.notAllocated given)
  | some b =>
    modify fun a => { a with live := a.live.filter (·.offset != b.offset) }
    modify fun a => { a with liveBytes := a.liveBytes - b.size }
    modify fun a => { a with free := giveBack ⟨b.offset, b.size⟩ a.free }

/-- Give back the live block at the offset that a piece of data stands for. -/
def releaseAtStep (given : Datum) : Step Unit := do
  MonadExcept.ofExcept given.checkKey
  match given.integral? with
  | some offset => releaseStep given offset
  | none => throw (.notAllocated given)

/-- What a step comes to for a caller that gives up if it fails. -/
def attempt {α : Type} (step : Step α) (a : Arena) : Except Error (α × Arena) :=
  match step.run a with
  | .ok result next => .ok (result, next)
  | .error cause _ => .error cause

/-- Ask for bytes, and give up if they are refused. -/
def alloc (a : Arena) (size : Int) (tag : Label) : Except Error (Nat × Arena) :=
  attempt (allocStep size tag) a

/-- Give back the live block at an offset, and give up if there is none. -/
def release (a : Arena) (offset : Int) : Except Error Arena :=
  (attempt (releaseStep (.int offset) offset) a).map Prod.snd

/-- Round later requests to another alignment. -/
def realign (a : Arena) (alignment : Alignment) : Arena := { a with alignment := alignment }

/-- Something that is asked of an arena. -/
inductive Call where
  | request (size : Datum) (tag : Label)
  | release (offset : Datum)
  | realign (alignment : Alignment)
deriving DecidableEq, Repr

/-- The step that a call asks for, with the offset that a request is given. -/
def Call.step : Call → Step (Option Nat)
  | .request size tag => do
    let offset ← requestStep size tag
    return some offset
  | .release offset => do
    releaseAtStep offset
    return none
  | .realign alignment => do
    modify fun a => a.realign alignment
    return none

/-- Carry out a call. The result is the offset that a request is given, and the arena as the step
leaves it behind. -/
def perform (a : Arena) (call : Call) : Except Error (Option Nat) × Arena :=
  match call.step.run a with
  | .ok result next => (.ok result, next)
  | .error cause next => (.error cause, next)

/-- How many of `count` items are shown under a limit; a negative limit leaves off that many at the
end. -/
def shownCount (limit : Int) (count : Nat) : Nat :=
  if limit < 0 then (limit + count).toNat else limit.toNat

/-- The line of a live block. -/
def blockLine (b : Block) : Except Error String := do
  let size ← Numeral.grouped b.size
  let tag ← Figure.plain b.tag
  return "    @0x" ++ Text.address b.offset ++ ": " ++ size ++ " bytes [" ++ tag ++ "]"

/-- The lines about the live blocks, of which at most `limit` are listed. -/
def blockLines (blocks : List Block) (limit : Datum) : Except Error (List String) := do
  if blocks.isEmpty then return []
  let limit ← limit.whole
  let count : Int := blocks.length
  let total ← Numeral.plain count
  let shown ← (blocks.take (shownCount limit blocks.length)).mapM blockLine
  let heading := "  Allocations (" ++ total ++ " total):"
  if limit < count then
    let more ← Numeral.plain (count - limit)
    return heading :: shown ++ ["    ... (" ++ more ++ " more)"]
  return heading :: shown

/-- The state of an arena as text, with at most `limit` blocks listed. The limit must be an integer
if there is a block. -/
def write (a : Arena) (limit : Datum) : Except Error String := do
  let tail ← Numeral.grouped a.tail
  let live ← Numeral.grouped a.liveBytes
  let free ← Numeral.grouped (freeBytes a.free)
  let ranges ← Numeral.plain a.free.length
  let alignment ← Figure.plain a.alignment.given
  let blocks ← blockLines a.live limit
  return Text.unlines
    (["GrowableArena:",
      "  Tail:      " ++ tail ++ " bytes",
      "  Live:      " ++ live ++ " bytes",
      "  Free:      " ++ free ++ " bytes in " ++ ranges ++ " range(s)",
      "  Alignment: " ++ alignment ++ " bytes"] ++ blocks)

end Arena

end TensorGraph
