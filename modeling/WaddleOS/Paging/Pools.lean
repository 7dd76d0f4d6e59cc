import WaddleOS.Drivers.Bitmap

/-!
# `kernel/mem/paging.c`: the two page pools

`memory_map_init` past the copy of the tag, `memory_pool_init`, the part of
`paging_init` that lays the pools out, and `paging_get_pages`. Addresses are
`uintptr_t` values; sums that the source takes in 64 bits are reduced here.

The code is generic in what holds the bitmaps. The kernel keeps them in
memory, between other data; an ideal store can be put in its place.
-/

namespace WaddleOS

/-- What the pools use of `bitmap.c` and `string.c`. -/
class BitmapStore (σ : Type) where
  initBuf : σ → (buf numIdx : Nat) → Except Fault (Bitmap × σ)
  set : σ → Bitmap → (bitIndex : Nat) → (value : Bool) → Except Fault σ
  testAndFlip : σ → Bitmap → (value : Bool) → (startIdx endIdx numBits : Nat) →
    Except Fault (Option Nat × σ)
  zero : σ → (addr len : Nat) → σ
  initBuf_fields : ∀ {st st' : σ} {buf numIdx : Nat} {bmp : Bitmap},
    initBuf st buf numIdx = .ok (bmp, st') → bmp = ⟨buf, numIdx⟩

theorem bitmapInitBuf_ok {m m' : Mem} {buf numIdx : Nat} {bmp : Bitmap}
    (h : bitmapInitBuf m buf numIdx = .ok (bmp, m')) :
    bmp = ⟨buf, numIdx⟩ ∧ m' = memset m buf 0 (numIdx / 8) := by
  obtain ⟨-, hr⟩ := assert_bind_eq_ok.mp h
  obtain ⟨rfl, rfl⟩ := Prod.mk.inj (Except.ok.inj hr)
  exact ⟨rfl, rfl⟩

instance : BitmapStore Mem where
  initBuf := bitmapInitBuf
  initBuf_fields h := (bitmapInitBuf_ok h).1
  set := bitmapSet
  testAndFlip := bitmapTestAndFlip
  zero m addr len := memset m addr 0 len

def pageSize : Nat := 4096

def physBase : Nat := 0xFFFFFFFF80000000

/-- `ROUND_UP_TO(x, r)`, for a power of two `r`. -/
def roundUpTo (x r : Nat) : Nat := (x + (r - 1)) % 2 ^ 64 / r * r

def kPtov (physAddr : Nat) : Nat := (physAddr + physBase) % 2 ^ 64

def kVtop (virtAddr : Nat) : Nat := (virtAddr + (2 ^ 64 - physBase)) % 2 ^ 64

structure MmapEntry where
  addr : UInt64
  len : UInt64
  type : UInt32
  deriving DecidableEq, Repr

def multibootMemoryAvailable : UInt32 := 1

/-- One round of the insertion sort. The sorted entries stand last one first:
the new one moves down past those with a greater address. -/
def insertEntry (e : MmapEntry) : List MmapEntry → List MmapEntry
  | [] => [e]
  | p :: ps => if e.addr < p.addr then p :: insertEntry e ps else e :: p :: ps

def sortMemoryMap (entries : List MmapEntry) : List MmapEntry :=
  (entries.foldl (fun sorted e => insertEntry e sorted) []).reverse

/-- `phys_mem_end_paddr`: the end of the last entry, whatever its type. -/
def physMemEnd (memoryMap : List MmapEntry) : Option Nat :=
  memoryMap.getLast?.map (fun e => (e.addr.toNat + e.len.toNat) % 2 ^ 64)

structure Pool where
  allocatedBmp : Bitmap
  pinnedBmp : Bitmap
  mdBase : Nat
  pageBase : Nat
  deriving DecidableEq, Repr

inductive PoolId where
  | kernel
  | user
  deriving DecidableEq, Repr

/-- A result of `paging_get_pages`; `base` is 0 for `NULL`. -/
structure Grant where
  pool : PoolId
  base : Nat
  numPages : Nat
  deriving DecidableEq, Repr

/-- The file's static data and the store. `handed` is a ghost: the results of
`paging_get_pages` so far, latest first. -/
structure Paging (σ : Type) where
  store : σ
  poolPagesTotal : Nat
  kernelPool : Pool
  userPool : Pool
  initPml4 : Nat
  handed : List Grant

def Paging.pool {σ : Type} (s : Paging σ) : PoolId → Pool
  | .kernel => s.kernelPool
  | .user => s.userPool

/-- Bytes for one bitmap of a pool. -/
def bmpBytes (poolPages : Nat) : Nat := roundUpTo poolPages 8 / 8

/-- Pages for the two bitmaps of a pool. -/
def mdPages (poolPages : Nat) : Nat :=
  roundUpTo (2 * bmpBytes poolPages % 2 ^ 64) pageSize / pageSize

/-- `start_page` and `end_page` of the intersection of a pool's pages, counted
from `poolStart`, with a region; equal when there is none. -/
def overlapPages (poolStart poolPages : Nat) (e : MmapEntry) : Nat × Nat :=
  let poolEnd := (poolStart + poolPages * pageSize) % 2 ^ 64
  let regionStart := kPtov e.addr.toNat
  let regionEnd := kPtov ((e.addr.toNat + e.len.toNat) % 2 ^ 64)
  let overlapStart := if regionStart > poolStart then regionStart else poolStart
  let overlapEnd := if regionEnd < poolEnd then regionEnd else poolEnd
  if overlapStart < overlapEnd then
    ((overlapStart - poolStart) / pageSize, (overlapEnd - poolStart) / pageSize)
  else (0, 0)

section Generic

variable {σ : Type} [BitmapStore σ]

/-- Mark a page as allocated and pinned. -/
def markPage (st : σ) (pool : Pool) (i : Nat) : Except Fault σ := do
  let st ← BitmapStore.set st pool.allocatedBmp i true
  BitmapStore.set st pool.pinnedBmp i true

/-- The marking loops after `n` rounds from page `lo` on. -/
def markPages (st : σ) (pool : Pool) (lo : Nat) : Nat → Except Fault σ
  | 0 => .ok st
  | n + 1 => do markPage (← markPages st pool lo n) pool (lo + n)

def markReserved (st : σ) (pool : Pool) (poolPages : Nat) : List MmapEntry → Except Fault σ
  | [] => .ok st
  | e :: es =>
    if e.type ≠ multibootMemoryAvailable then do
      let pages := overlapPages pool.mdBase poolPages e
      markReserved (← markPages st pool pages.1 (pages.2 - pages.1)) pool poolPages es
    else markReserved st pool poolPages es

def memoryPoolInit (st : σ) (memoryMap : List MmapEntry) (poolBase pageBase poolPages : Nat) :
    Except Fault (Pool × σ) := do
  let (allocatedBmp, st) ← BitmapStore.initBuf st poolBase poolPages
  let (pinnedBmp, st) ←
    BitmapStore.initBuf st ((poolBase + bmpBytes poolPages) % 2 ^ 64) poolPages
  let pool := ⟨allocatedBmp, pinnedBmp, poolBase, pageBase⟩
  let st ← markPages st pool 0 (mdPages poolPages)
  let st ← markReserved st pool poolPages memoryMap
  return (pool, st)

def freeStart (kernelEnd : Nat) : Nat := roundUpTo kernelEnd pageSize

def poolPages (kernelEnd physMemEnd : Nat) : Nat :=
  (kPtov physMemEnd + (2 ^ 64 - freeStart kernelEnd)) % 2 ^ 64 / pageSize

/-- `paging_init` up to the second `memory_pool_init`. -/
def poolsInit (st : σ) (memoryMap : List MmapEntry) (kernelEnd physMemEnd : Nat) :
    Except Fault (Paging σ) := do
  let free := freeStart kernelEnd
  let total := poolPages kernelEnd physMemEnd
  let kPoolPages := total / 2
  let uPoolPages := total - total / 2
  let uBmpStart := (free + bmpBytes kPoolPages * 2) % 2 ^ 64
  let uTrackingStart := (free + kPoolPages * pageSize) % 2 ^ 64
  let (kernelPool, st) ← memoryPoolInit st memoryMap free free kPoolPages
  let (userPool, st) ← memoryPoolInit st memoryMap uBmpStart uTrackingStart uPoolPages
  return ⟨st, total, kernelPool, userPool, 0, []⟩

def pallocUser : Nat := 1

def pallocZero : Nat := 2

def poolOf (flags : Nat) : PoolId := if flags &&& pallocUser ≠ 0 then .user else .kernel

def pagingGetPages (s : Paging σ) (numPages flags : Nat) : Except Fault (Nat × Paging σ) := do
  let pool := s.pool (poolOf flags)
  let bmp := pool.allocatedBmp
  let (pgInd, st) ←
    BitmapStore.testAndFlip s.store bmp false 0 ((bmp.size + (2 ^ 64 - 1)) % 2 ^ 64) numPages
  match pgInd with
  | none => return (0, { s with store := st, handed := ⟨poolOf flags, 0, numPages⟩ :: s.handed })
  | some i =>
    let pgPtr := (pool.pageBase + i * pageSize) % 2 ^ 64
    let st := if flags &&& pallocZero ≠ 0 then
        BitmapStore.zero st pgPtr (numPages * pageSize % 2 ^ 64) else st
    return (pgPtr,
      { s with store := st, handed := ⟨poolOf flags, pgPtr, numPages⟩ :: s.handed })

def pagingGetPage (s : Paging σ) (flags : Nat) : Except Fault (Nat × Paging σ) :=
  pagingGetPages s 1 flags

/-- The arguments of a call of `paging_get_pages`. -/
structure PagesCall where
  numPages : UInt64
  flags : UInt8
  deriving DecidableEq, Repr

/-- A call as a step; its result is in the log. -/
def getPagesStep (s : Paging σ) (c : PagesCall) : Except Fault (Paging σ) := do
  let (_, t) ← pagingGetPages s c.numPages.toNat c.flags.toNat
  return t

end Generic

/-! ## Clients -/

/-- A client calls `paging_get_pages` and writes to memory. -/
inductive PagingAct where
  | getPages (call : PagesCall)
  | write (addr : Nat) (v : UInt8)

/-- The byte at `a` is in the pages of a grant; `NULL` grants nothing. -/
def Grant.Holds (g : Grant) (a : Nat) : Prop :=
  g.base ≠ 0 ∧ ∃ x, x < g.numPages * pageSize ∧ a % 2 ^ 64 = (g.base + x) % 2 ^ 64

/-- Clients write to the pages they were given. -/
def OwnWrite {σ : Type} (s : Paging σ) : PagingAct → Prop
  | .getPages _ => True
  | .write addr _ => ∃ g ∈ s.handed, g.Holds addr

theorem Grant.holds_iff {g : Grant} {a : Nat} : g.Holds a ↔
    g.base ≠ 0 ∧ (a + (2 ^ 64 - g.base % 2 ^ 64)) % 2 ^ 64 < g.numPages * pageSize := by
  refine and_congr_right fun _ => ⟨?_, fun inside => ⟨_, inside, by omega⟩⟩
  rintro ⟨x, hx, place⟩
  omega

instance (g : Grant) (a : Nat) : Decidable (g.Holds a) := decidable_of_iff _ Grant.holds_iff.symm

instance {σ : Type} (s : Paging σ) : (a : PagingAct) → Decidable (OwnWrite s a)
  | .getPages _ => inferInstanceAs (Decidable True)
  | .write addr _ => inferInstanceAs (Decidable (∃ g ∈ s.handed, g.Holds addr))

/-! ## Layout

`k` pages for the kernel and `u` for the user follow each other from the end of
the kernel image; the four bitmaps follow each other from there too. -/

def kPoolPages (total : Nat) : Nat := total / 2

def uPoolPages (total : Nat) : Nat := total - total / 2

/-- Offsets of the user pool's bitmaps and of their end. -/
def uBmpOffset (total : Nat) : Nat := bmpBytes (kPoolPages total) * 2

def mdEnd (total : Nat) : Nat := uBmpOffset total + bmpBytes (uPoolPages total) * 2

def kernelPoolAt (free total : Nat) : Pool :=
  ⟨⟨free, kPoolPages total⟩, ⟨(free + bmpBytes (kPoolPages total)) % 2 ^ 64, kPoolPages total⟩,
    free, free⟩

def userPoolAt (free total : Nat) : Pool :=
  let base := (free + uBmpOffset total) % 2 ^ 64
  ⟨⟨base, uPoolPages total⟩, ⟨(base + bmpBytes (uPoolPages total)) % 2 ^ 64, uPoolPages total⟩,
    base, (free + kPoolPages total * pageSize) % 2 ^ 64⟩

def poolAt (free total : Nat) : PoolId → Pool
  | .kernel => kernelPoolAt free total
  | .user => userPoolAt free total

def PoolId.pages (total : Nat) : PoolId → Nat
  | .kernel => kPoolPages total
  | .user => uPoolPages total

/-- The address of page `i` of a pool. -/
def pageAddr (free total : Nat) (id : PoolId) (i : Nat) : Nat :=
  ((poolAt free total id).pageBase + i * pageSize) % 2 ^ 64

theorem poolAt_size (free total : Nat) (id : PoolId) :
    (poolAt free total id).allocatedBmp.size = id.pages total := by
  cases id <;> rfl

theorem pages_le (total : Nat) (id : PoolId) : id.pages total ≤ total := by
  cases id <;> simp only [PoolId.pages, kPoolPages, uPoolPages] <;> omega

/-- The pools stand where `paging_init` puts them. -/
structure PoolsAt {σ : Type} (free total : Nat) (s : Paging σ) : Prop where
  total_lt : total < 2 ^ 52
  kernel : s.kernelPool = kernelPoolAt free total
  user : s.userPool = userPoolAt free total

theorem PoolsAt.pool {σ : Type} {free total : Nat} {s : Paging σ} (h : PoolsAt free total s)
    (id : PoolId) : s.pool id = poolAt free total id := by
  cases id with
  | kernel => exact h.kernel
  | user => exact h.user

section Generic

variable {σ : Type} [BitmapStore σ]

theorem memoryPoolInit_pool {st st' : σ} {memoryMap : List MmapEntry}
    {poolBase pageBase poolPages : Nat} {pool : Pool}
    (h : memoryPoolInit st memoryMap poolBase pageBase poolPages = .ok (pool, st')) :
    pool = ⟨⟨poolBase, poolPages⟩, ⟨(poolBase + bmpBytes poolPages) % 2 ^ 64, poolPages⟩,
      poolBase, pageBase⟩ := by
  obtain ⟨⟨a, st₁⟩, ha, h⟩ := bind_eq_ok.mp h
  obtain ⟨⟨b, st₂⟩, hb, h⟩ := bind_eq_ok.mp h
  obtain ⟨st₃, -, h⟩ := bind_eq_ok.mp h
  obtain ⟨st₄, -, h⟩ := bind_eq_ok.mp h
  obtain ⟨rfl, rfl⟩ := Prod.mk.inj (Except.ok.inj h)
  rw [BitmapStore.initBuf_fields ha, BitmapStore.initBuf_fields hb]

theorem poolPages_lt (kernelEnd physMemEnd : Nat) : poolPages kernelEnd physMemEnd < 2 ^ 52 := by
  unfold poolPages pageSize
  omega

theorem poolsInit_poolsAt {st : σ} {memoryMap : List MmapEntry} {kernelEnd physMemEnd : Nat}
    {s : Paging σ} (h : poolsInit st memoryMap kernelEnd physMemEnd = .ok s) :
    PoolsAt (freeStart kernelEnd) (poolPages kernelEnd physMemEnd) s ∧
      s.poolPagesTotal = poolPages kernelEnd physMemEnd ∧ s.handed = [] := by
  obtain ⟨⟨k, st₁⟩, hk, h⟩ := bind_eq_ok.mp h
  obtain ⟨⟨u, st₂⟩, hu, h⟩ := bind_eq_ok.mp h
  cases Except.ok.inj h
  exact ⟨⟨poolPages_lt _ _, memoryPoolInit_pool hk, memoryPoolInit_pool hu⟩, rfl, rfl⟩

/-- The two calls of `memory_pool_init`. -/
theorem poolsInit_inits {st : σ} {memoryMap : List MmapEntry} {kernelEnd physMemEnd : Nat}
    {s : Paging σ} (h : poolsInit st memoryMap kernelEnd physMemEnd = .ok s) :
    ∃ st₁, memoryPoolInit st memoryMap (freeStart kernelEnd) (freeStart kernelEnd)
        (kPoolPages (poolPages kernelEnd physMemEnd)) =
          .ok (kernelPoolAt (freeStart kernelEnd) (poolPages kernelEnd physMemEnd), st₁) ∧
      memoryPoolInit st₁ memoryMap
        (userPoolAt (freeStart kernelEnd) (poolPages kernelEnd physMemEnd)).mdBase
        (userPoolAt (freeStart kernelEnd) (poolPages kernelEnd physMemEnd)).pageBase
        (uPoolPages (poolPages kernelEnd physMemEnd)) =
          .ok (userPoolAt (freeStart kernelEnd) (poolPages kernelEnd physMemEnd), s.store) := by
  obtain ⟨hat, -, -⟩ := poolsInit_poolsAt h
  obtain ⟨⟨k, st₁⟩, hk, h⟩ := bind_eq_ok.mp h
  obtain ⟨⟨u, st₂⟩, hu, h⟩ := bind_eq_ok.mp h
  cases Except.ok.inj h
  obtain rfl : k = kernelPoolAt _ _ := hat.kernel
  obtain rfl : u = userPoolAt _ _ := hat.user
  exact ⟨st₁, hk, hu⟩

/-- A call whose search has found a run of pages. -/
theorem getPagesStep_found {s : Paging σ} {c : PagesCall} {i : Nat} {st : σ}
    (run : BitmapStore.testAndFlip s.store (s.pool (poolOf c.flags.toNat)).allocatedBmp false 0
      (((s.pool (poolOf c.flags.toNat)).allocatedBmp.size + (2 ^ 64 - 1)) % 2 ^ 64)
      c.numPages.toNat = .ok (some i, st)) :
    getPagesStep s c = .ok { s with
      store := (if c.flags.toNat &&& pallocZero ≠ 0 then
        BitmapStore.zero st (((s.pool (poolOf c.flags.toNat)).pageBase + i * pageSize) % 2 ^ 64)
          (c.numPages.toNat * pageSize % 2 ^ 64) else st)
      handed := (⟨poolOf c.flags.toNat, ((s.pool (poolOf c.flags.toNat)).pageBase + i * pageSize) %
        2 ^ 64, c.numPages.toNat⟩ :: s.handed) } := by
  simp only [getPagesStep, pagingGetPages, run]
  rfl

/-- A call changes the store and logs its result. -/
theorem pagingGetPages_frame {s t : Paging σ} {numPages flags p : Nat}
    (h : pagingGetPages s numPages flags = .ok (p, t)) :
    ∃ st, t = { s with store := st, handed := ⟨poolOf flags, p, numPages⟩ :: s.handed } := by
  obtain ⟨⟨r, st⟩, -, h⟩ := bind_eq_ok.mp h
  cases r with
  | none =>
    obtain ⟨rfl, rfl⟩ := Prod.mk.inj (Except.ok.inj h)
    exact ⟨_, rfl⟩
  | some i =>
    obtain ⟨rfl, rfl⟩ := Prod.mk.inj (Except.ok.inj h)
    exact ⟨_, rfl⟩

theorem pagingGetPages_handed {s t : Paging σ} {numPages flags p : Nat}
    (h : pagingGetPages s numPages flags = .ok (p, t)) :
    t.handed = ⟨poolOf flags, p, numPages⟩ :: s.handed := by
  obtain ⟨st, rfl⟩ := pagingGetPages_frame h
  rfl

theorem PoolsAt.getPages {free total : Nat} {s t : Paging σ} {numPages flags p : Nat}
    (hs : PoolsAt free total s) (h : pagingGetPages s numPages flags = .ok (p, t)) :
    PoolsAt free total t := by
  obtain ⟨st, rfl⟩ := pagingGetPages_frame h
  exact ⟨hs.total_lt, hs.kernel, hs.user⟩

theorem getPagesStep_ok {s t : Paging σ} {c : PagesCall} (h : getPagesStep s c = .ok t) :
    ∃ p, pagingGetPages s c.numPages.toNat c.flags.toNat = .ok (p, t) := by
  obtain ⟨⟨p, t'⟩, hp, h⟩ := bind_eq_ok.mp h
  cases Except.ok.inj h
  exact ⟨p, hp⟩

end Generic

/-! ## Layout arithmetic -/

theorem roundUpTo_eq {x r : Nat} (hr : 0 < r) (h : x + r ≤ 2 ^ 64) :
    roundUpTo x r = (x + (r - 1)) / r * r := by
  rw [roundUpTo, Nat.mod_eq_of_lt (by omega)]

theorem bmpBytes_eq {n : Nat} (h : n ≤ 2 ^ 52) : bmpBytes n = (n + 7) / 8 := by
  rw [bmpBytes, roundUpTo_eq (by omega) (by omega)]
  omega

theorem mdPages_eq {n : Nat} (h : n ≤ 2 ^ 52) : mdPages n = (2 * ((n + 7) / 8) + 4095) / 4096 := by
  have hmod : 2 * ((n + 7) / 8) % 2 ^ 64 = 2 * ((n + 7) / 8) := Nat.mod_eq_of_lt (by omega)
  rw [mdPages, bmpBytes_eq h, hmod, pageSize, roundUpTo_eq (by omega) (by omega)]
  omega

theorem freeStart_lt (kernelEnd : Nat) : freeStart kernelEnd < 2 ^ 64 := by
  have h := Nat.div_mul_le_self ((kernelEnd + (pageSize - 1)) % 2 ^ 64) pageSize
  have hm := Nat.mod_lt (kernelEnd + (pageSize - 1)) (Nat.two_pow_pos 64)
  exact lt_of_le_of_lt h hm

theorem freeStart_aligned (kernelEnd : Nat) : freeStart kernelEnd % 4096 = 0 := by
  simp [freeStart, roundUpTo, pageSize]

end WaddleOS
