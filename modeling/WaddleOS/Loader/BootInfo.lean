import WaddleOS.Lib.Multiboot

/-!
# `loader/boot1/main.c`: the boot information

The loop over the requested tags, with `get_basic_meminfo` and
`get_single_mmap` of boot1.S. The loader's pointers are 32 bits wide and its
cursor stays 8-aligned, so that no field it writes crosses the top of memory.
-/

namespace WaddleOS

/-- What the BIOS answers: `ax` and `bx` of E801 and the entries of E820. -/
structure Bios where
  ax : Nat
  bx : Nat
  entries : List MultibootMmapEntry
  reported : entries ≠ []

/-- A write through a 32-bit pointer. -/
def store32 (m : Mem) (a n v : Nat) : Mem := store m (a % 2 ^ 32) n v

/-- `get_basic_meminfo`, into the words at `lower` and `upper`. -/
def getBasicMeminfo (bios : Bios) (m : Mem) (lower upper : Nat) : Mem :=
  store32 (store32 m lower 4 (bios.ax % 2 ^ 16)) upper 4 (bios.bx * 64 % 2 ^ 16)

def storeEntry (m : Mem) (a : Nat) (e : MultibootMmapEntry) : Mem :=
  let m := store32 m a 8 e.addr.toNat
  let m := store32 m (a + 8) 8 e.len.toNat
  let m := store32 m (a + 16) 4 e.type.toNat
  store32 m (a + 20) 4 e.zero.toNat

/-- `get_single_mmap`, called for the `call`-th time from 0 on: the entry goes
to `dst`, and the result is 1 with the last one, after which the BIOS starts over. -/
def getSingleMmap (bios : Bios) (m : Mem) (call dst : Nat) : Nat × Mem :=
  let i := call % bios.entries.length
  let e := bios.entries.get ⟨i, Nat.mod_lt _ (List.length_pos_iff.mpr bios.reported)⟩
  (if i + 1 = bios.entries.length then 1 else 0, storeEntry m dst e)

/-- `while (get_single_mmap(curr_entry) != 1) curr_entry++`; returns `curr_entry`. -/
def mmapLoop (bios : Bios) : Nat → Mem → (call currEntry : Nat) → Except Fault (Nat × Mem)
  | 0, _, _, _ => .error .outOfFuel
  | fuel + 1, m, call, currEntry =>
    let (done, m) := getSingleMmap bios m call currEntry
    if done ≠ 1 then mmapLoop bios fuel m (call + 1) ((currEntry + 24) % 2 ^ 32)
    else .ok (currEntry, m)

/-- The case `MULTIBOOT_TAG_TYPE_BASIC_MEMINFO`. -/
def basicMeminfoCase (bios : Bios) (m : Mem) (t : Nat) : Mem :=
  store32 (getBasicMeminfo bios m (t + 8) (t + 12)) (t + 4) 4 16

/-- The case `MULTIBOOT_TAG_TYPE_MMAP`. -/
def mmapCase (fuel : Nat) (bios : Bios) (m : Mem) (t : Nat) : Except Fault Mem := do
  let (currEntry, m) ← mmapLoop bios fuel m 0 ((t + 16) % 2 ^ 32)
  let m := store32 m (t + 8) 4 24
  let m := store32 m (t + 4) 4 ((currEntry + 2 ^ 32 - t) % 2 ^ 32)
  return store32 m (t + 12) 4 0

/-- What `main` does for a requested type: the `switch`, then the type. -/
def writeTag (fuel : Nat) (bios : Bios) (m : Mem) (type t : Nat) : Except Fault Mem := do
  let m ←
    if type = multibootTagTypeBasicMeminfo then .ok (basicMeminfoCase bios m t)
    else if type = multibootTagTypeMmap then mmapCase fuel bios m t
    else .ok m
  return store32 m t 4 type

/-- The variables of the loop. `tags` is a ghost: the types written so far and
where, latest first. -/
structure TagLoop where
  mem : Mem
  requested : Nat
  type : Nat
  curr : Nat
  tags : List (Nat × Nat)

/-- `multiboot_return_curr->size` -/
def currSize (m : Mem) (curr : Nat) : Nat := load m ((curr + 4) % 2 ^ 32) 4

/-- Past the tag at the cursor, whose size need not have been written. -/
def advance (m : Mem) (curr : Nat) : Nat := (curr + currSize m curr + 7) % 2 ^ 32 / 8 * 8

/-- `multiboot_return[0] += multiboot_return_curr->size` -/
def addTotal (m : Mem) (curr : Nat) : Mem :=
  store m multibootReturnInfoAddr 4 (load m multibootReturnInfoAddr 4 + currSize m curr)

def tagRound (fuel : Nat) (bios : Bios) (s : TagLoop) : Except Fault TagLoop := do
  let (m, tags) ←
    if s.requested % 2 = 1 then do
      let m ← writeTag fuel bios s.mem s.type s.curr
      pure (m, (s.type, s.curr) :: s.tags)
    else pure (s.mem, s.tags)
  let m := addTotal m s.curr
  return ⟨m, s.requested / 2, (s.type + 1) % 2 ^ 8, advance m s.curr, tags⟩

def tagLoop (fuel : Nat) (bios : Bios) : Nat → TagLoop → Except Fault TagLoop
  | 0, _ => .error .outOfFuel
  | rounds + 1, s =>
    if s.requested ≠ 0 then do
      let s ← tagRound fuel bios s
      tagLoop fuel bios rounds s
    else .ok s

/-- The header, and the cursor behind it. -/
def bootInfoStart (m : Mem) (requested : Nat) : TagLoop :=
  ⟨store (store m multibootReturnInfoAddr 4 2) (multibootReturnInfoAddr + 4) 4 0, requested, 0,
    multibootReturnInfoAddr + 8, []⟩

/-- The loop of `main`: a 32-bit map of requests takes at most 32 rounds. -/
def buildBootInfo (fuel : Nat) (bios : Bios) (m : Mem) (requested : Nat) : Except Fault TagLoop :=
  tagLoop fuel bios 33 (bootInfoStart m requested)

end WaddleOS
