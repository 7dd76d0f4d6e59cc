import WaddleOS.Heap.Header
import WaddleOS.Lib.String

/-!
# `kernel/mem/wdmalloc.c`

The allocator over byte memory. Pointers are `uintptr_t` values, sizes are
`uint16_t` values and null is 0. The four loops over the freelist take fuel,
one unit an iteration, and `Fault.outOfFuel` says that a loop has not ended.
-/

namespace WaddleOS

structure Heap where
  mem : Mem
  freelistHead : Nat
  heapStart : Nat
  heapSize : Nat

/-- `WDM_IN_HEAP(PTR)`. -/
def wdmInHeap (h : Heap) (p : Nat) : Bool :=
  decide (p < (h.heapStart + h.heapSize) % 2 ^ 64) && decide (h.heapStart ≤ p)

/-- The update the source makes wherever a block ends: the header at `p`, if
still inside the heap, learns the size of the block before it. -/
def setPrevSzIn (h : Heap) (m : Mem) (p v : Nat) : Mem :=
  if wdmInHeap h p then setPrevSz m p v else m

def wdmallocInit (m : Mem) (startAddr : Nat) (size : Nat) : Except Fault Heap := do
  assert (size > 12)
  -- the initial header covers the whole heap
  let m := setPrevSz m startAddr 0
  let m := setSz m startAddr (size - 12)
  let m := setLom m startAddr 0
  return ⟨m, startAddr, startAddr, size⟩

/-- The guard every entry point opens with. -/
def notReady (h : Heap) : Bool :=
  h.freelistHead == 0 || h.heapStart == 0 || h.heapSize == 0

/-- The best-fit scan of `wdmalloc`; returns `min`, `min_prev` and `min_sz`. -/
def bestFit (m : Mem) (size : Nat) :
    Nat → (curr prev min minPrev minSz : Nat) → Except Fault (Nat × Nat × Nat)
  | 0, _, _, _, _, _ => .error .outOfFuel
  | fuel + 1, curr, prev, min, minPrev, minSz =>
    if curr = 0 then .ok (min, minPrev, minSz)
    else if wdmIsFree m curr && decide (size ≤ sz m curr) && decide (sz m curr < minSz) then
      bestFit m size fuel (lom m curr) curr curr prev (sz m curr)
    else bestFit m size fuel (lom m curr) curr min minPrev minSz

/-- Allocate the high end of `min`, leaving its low end free. -/
def carve (h : Heap) (min size : Nat) : Nat × Heap :=
  let m := setSz h.mem min (sz h.mem min - size - 12)
  let newAlloc := (min + 12 + sz m min) % 2 ^ 64
  let m := setPrevSz m newAlloc (sz m min)
  let m := setSz m newAlloc (size ||| wdmAllocBit)
  let m := setLom m newAlloc wdmMagic
  let newAllocAdj := (newAlloc + 12 + size) % 2 ^ 64
  let m := setPrevSzIn h m newAllocAdj size
  ((newAlloc + 12) % 2 ^ 64, { h with mem := m })

/-- Unlink `min` and allocate all of it. -/
def takeWhole (h : Heap) (min minPrev : Nat) : Nat × Heap :=
  let h := if minPrev = 0 then { h with freelistHead := lom h.mem h.freelistHead }
    else { h with mem := setLom h.mem minPrev (lom h.mem min) }
  let m := setLom h.mem min wdmMagic
  let m := setSz m min (sz m min ||| wdmAllocBit)
  ((min + 12) % 2 ^ 64, { h with mem := m })

def wdmalloc (fuel : Nat) (h : Heap) (size : Nat) : Except Fault (Nat × Heap) :=
  if notReady h then .ok (0, h)
  else do
    let (min, minPrev, minSz) ← bestFit h.mem size fuel h.freelistHead 0 0 0 (2 ^ 16 - 1)
    if min = 0 ∨ minSz = 2 ^ 16 - 1 then .ok (0, h)
    else if size < sz h.mem min ∧ 12 ≤ sz h.mem min - size then .ok (carve h min size)
    else .ok (takeWhole h min minPrev)

/-- The product is taken in `size_t` and truncated again at the call. -/
def wdcalloc (fuel : Nat) (h : Heap) (num size : Nat) : Except Fault (Nat × Heap) :=
  if notReady h then .ok (0, h)
  else if 2 ^ 16 - 1 < num * size % 2 ^ 64 then .ok (0, h)
  else wdmalloc fuel h (num * size % 2 ^ 64 % 2 ^ 16)

/-- The header before `hdr`, found through `prev_sz`, or null if outside the heap. -/
def prevNghbrOf (h : Heap) (hdr : Nat) : Nat :=
  let p := (hdr + 2 ^ 64 - prevSz h.mem hdr - 12) % 2 ^ 64
  if wdmInHeap h p then p else 0

/-- The header after `hdr`, or null if outside the heap. -/
def nextNghbrOf (h : Heap) (hdr : Nat) : Nat :=
  let p := (hdr + 12 + wdmActualSize h.mem hdr) % 2 ^ 64
  if wdmInHeap h p then p else 0

/-- The search of `coalesce`; returns `curr` and `prev`. -/
def findLink (m : Mem) (target : Nat) : Nat → (curr prev : Nat) → Except Fault (Nat × Nat)
  | 0, _, _ => .error .outOfFuel
  | fuel + 1, curr, prev =>
    if curr ≠ target ∧ curr ≠ 0 then findLink m target fuel (lom m curr) curr
    else .ok (curr, prev)

/-- Make whatever leads past `prev` lead to `v`: `prev`'s link, or the head. -/
def relink (h : Heap) (prev v : Nat) : Heap :=
  if prev ≠ 0 then { h with mem := setLom h.mem prev v } else { h with freelistHead := v }

def setPrevSzIf (h : Heap) (p v : Nat) : Heap :=
  if p ≠ 0 then { h with mem := setPrevSz h.mem p v } else h

def coalesce (fuel : Nat) (h : Heap) (hdr : Nat) : Except Fault Heap :=
  let prevNghbr := prevNghbrOf h hdr
  let nextNghbr := nextNghbrOf h hdr
  let nextNextNghbr := if nextNghbr ≠ 0 then nextNghbrOf h nextNghbr else 0
  if prevNghbr ≠ 0 ∧ wdmIsFree h.mem prevNghbr ∧ nextNghbr ≠ 0 ∧ wdmIsFree h.mem nextNghbr then do
    -- merge both: next leaves the freelist, prev stays where it is
    let h := { h with
      mem := setSz h.mem prevNghbr (sz h.mem prevNghbr + 12 + sz h.mem hdr + 12 + sz h.mem nextNghbr) }
    let (curr, prev) ← findLink h.mem nextNghbr fuel h.freelistHead 0
    assert (curr = nextNghbr)
    let h := relink h prev (lom h.mem nextNghbr)
    return setPrevSzIf h nextNextNghbr (sz h.mem prevNghbr)
  else if prevNghbr ≠ 0 ∧ wdmIsFree h.mem prevNghbr then
    let h := { h with mem := setSz h.mem prevNghbr (sz h.mem prevNghbr + 12 + sz h.mem hdr) }
    .ok (setPrevSzIf h nextNghbr (sz h.mem prevNghbr))
  else if nextNghbr ≠ 0 ∧ wdmIsFree h.mem nextNghbr then do
    -- merge next: hdr takes its place in the freelist
    let m := setSz h.mem hdr (sz h.mem hdr + 12 + sz h.mem nextNghbr)
    let h := { h with mem := setLom m hdr (if lom m nextNghbr ≠ 0 then lom m nextNghbr else 0) }
    let (curr, prev) ← findLink h.mem nextNghbr fuel h.freelistHead 0
    assert (curr = nextNghbr)
    let h := relink h prev hdr
    return setPrevSzIf h nextNextNghbr (sz h.mem hdr)
  else
    .ok { h with mem := setLom h.mem hdr h.freelistHead, freelistHead := hdr }

def wdfree (fuel : Nat) (h : Heap) (ptr : Nat) : Except Fault Heap :=
  if notReady h then .ok h
  else if wdmInHeap h ptr = false then .ok h
  else
    let hdr := (ptr + 2 ^ 64 - 12) % 2 ^ 64
    if wdmInHeap h hdr = false then .ok h
    else
      let m := setSz h.mem hdr (wdmActualSize h.mem hdr)
      let m := setLom m hdr 0
      coalesce fuel { h with mem := m } hdr

/-- How `wdrealloc` grows in place: the bytes it gains, the header the block
will start at and the one or two free blocks it absorbs. -/
structure Reposition where
  bytesAvail : Nat
  start : Nat
  remove0 : Nat
  remove1 : Nat
  deriving DecidableEq, Repr

/-- Scenarios 1 to 3 of `wdrealloc`, in order; `none` is scenario 4. -/
def reposition (h : Heap) (hdr size : Nat) : Option Reposition :=
  let prevNghbr := prevNghbrOf h hdr
  let nextNghbr := nextNghbrOf h hdr
  let own := wdmActualSize h.mem hdr
  if nextNghbr ≠ 0 ∧ wdmIsFree h.mem nextNghbr ∧ size ≤ sz h.mem nextNghbr + 12 + own then
    some ⟨(sz h.mem nextNghbr + 12 + own) % 2 ^ 16, hdr, nextNghbr, 0⟩
  else if prevNghbr ≠ 0 ∧ wdmIsFree h.mem prevNghbr ∧ size ≤ sz h.mem prevNghbr + 12 + own then
    some ⟨(sz h.mem prevNghbr + 12 + own) % 2 ^ 16, prevNghbr, prevNghbr, 0⟩
  else if nextNghbr ≠ 0 ∧ prevNghbr ≠ 0 ∧ wdmIsFree h.mem nextNghbr ∧ wdmIsFree h.mem prevNghbr ∧
      size ≤ sz h.mem prevNghbr + 12 + own + 12 + sz h.mem nextNghbr then
    some ⟨(sz h.mem prevNghbr + 12 + own + 12 + sz h.mem nextNghbr) % 2 ^ 16, prevNghbr, prevNghbr, nextNghbr⟩
  else none

/-- The removal loop of `wdrealloc`. -/
def unlink (r : Reposition) : Nat → Heap → (curr prev : Nat) → Except Fault Heap
  | 0, _, _, _ => .error .outOfFuel
  | fuel + 1, h, curr, prev =>
    if curr = 0 then .ok h
    else if curr = r.remove0 ∨ curr = r.remove1 then
      let h := if prev ≠ 0 then { h with mem := setLom h.mem prev (lom h.mem curr) } else h
      let h := if curr = h.freelistHead then { h with freelistHead := lom h.mem curr } else h
      unlink r fuel h (lom h.mem curr) prev
    else unlink r fuel h (lom h.mem curr) curr

/-- The rest of the in-place growth: the header at `start`, the copy, and
either a free block behind the new one or the new size in the next header. -/
def settle (h : Heap) (r : Reposition) (hdr ptr size : Nat) : Nat × Heap :=
  let payload := (r.start + 12) % 2 ^ 64
  -- `bytes_avail - size` is an int compared with a size_t
  if 12 + 4 ≤ (r.bytesAvail + 2 ^ 64 - size) % 2 ^ 64 then
    let m := setSz h.mem r.start (size ||| wdmAllocBit)
    let m := setLom m r.start wdmMagic
    let m := memmove m payload ptr (wdmActualSize m hdr)
    let splitLoc := (r.start + 12 + size) % 2 ^ 64
    let m := setSz m splitLoc ((r.bytesAvail + 2 ^ 64 - size - 12) % 2 ^ 64)
    let m := setPrevSz m splitLoc size
    let m := setLom m splitLoc h.freelistHead
    let afterSplit := (splitLoc + 12 + sz m splitLoc) % 2 ^ 64
    let m := setPrevSzIn h m afterSplit (sz m splitLoc)
    (payload, { h with mem := m, freelistHead := splitLoc })
  else
    let m := setSz h.mem r.start (r.bytesAvail ||| wdmAllocBit)
    let m := setLom m r.start wdmMagic
    let after := (r.start + 12 + wdmActualSize m r.start) % 2 ^ 64
    let m := setPrevSzIn h m after r.bytesAvail
    let m := memmove m payload ptr (wdmActualSize m hdr)
    (payload, { h with mem := m })

/-- Keep the first `size` bytes of the block at `hdr` and give the rest back
when it can hold a header and 4 bytes. -/
def shrink (fuel : Nat) (h : Heap) (hdr size : Nat) : Except Fault Heap :=
  let bytesAvail := wdmActualSize h.mem hdr
  if 12 + 4 ≤ (bytesAvail + 2 ^ 64 - size) % 2 ^ 64 then do
    let m := setSz h.mem hdr (size ||| wdmAllocBit)
    let splitLoc := (hdr + 12 + size) % 2 ^ 64
    let m := setPrevSz m splitLoc size
    let m := setSz m splitLoc ((bytesAvail + 2 ^ 64 - 12 - size) % 2 ^ 64)
    let m := setLom m splitLoc 0
    let h ← coalesce fuel { h with mem := m } splitLoc
    let afterSplit := (splitLoc + 12 + sz h.mem splitLoc) % 2 ^ 64
    return { h with mem := setPrevSzIn h h.mem afterSplit (sz h.mem splitLoc) }
  else .ok h

/-- Scenario 4 of `wdrealloc`: allocate elsewhere, copy, free the original. -/
def relocate (fuel : Nat) (h : Heap) (hdr ptr size : Nat) : Except Fault (Nat × Heap) := do
  let (newLoc, h) ← wdmalloc fuel h size
  if newLoc = 0 then return (0, h)
  let h := { h with mem := memmove h.mem newLoc ptr (wdmActualSize h.mem hdr) }
  let h ← wdfree fuel h ptr
  return (newLoc, h)

def wdrealloc (fuel : Nat) (h : Heap) (ptr size : Nat) : Except Fault (Nat × Heap) :=
  if notReady h then .ok (0, h)
  else if ptr = 0 then wdmalloc fuel h size
  else
    let hdr := (ptr + 2 ^ 64 - 12) % 2 ^ 64
    if size = wdmActualSize h.mem hdr then .ok (ptr, h)
    else if wdmActualSize h.mem hdr < size then
      match reposition h hdr size with
      | some r => do
        let h ← unlink r fuel h h.freelistHead 0
        return settle h r hdr ptr size
      | none => relocate fuel h hdr ptr size
    else if size = 0 then do
      let h ← wdfree fuel h ptr
      return (0, h)
    else do
      let h ← shrink fuel h hdr size
      return (ptr, h)

end WaddleOS
