import WaddleOS.Paging.Grants
import WaddleOS.Paging.Usable

/-!
# Which pages `memory_pool_init` reserves

The page in which a reserved region ends is not marked, for its number is
rounded down; and the user pool counts the pages of a region from where its
bitmaps start, not from where its pages do.
-/

namespace WaddleOS

/-- The page at `a` shares a byte with a region that is not available. -/
def TouchesReserved (memoryMap : List MmapEntry) (a : Nat) : Prop :=
  ∃ e ∈ memoryMap, e.type ≠ multibootMemoryAvailable ∧ ∃ x k, e.addr.toNat ≤ x ∧
    x < e.addr.toNat + e.len.toNat ∧ k < pageSize ∧ kPtov x = (a + k) % 2 ^ 64

/-- The whole page at `a` is in a region that is not available. -/
def LiesReserved (memoryMap : List MmapEntry) (a : Nat) : Prop :=
  ∃ e ∈ memoryMap, e.type ≠ multibootMemoryAvailable ∧ e.addr.toNat ≤ kVtop a ∧
    kVtop a + pageSize ≤ e.addr.toNat + e.len.toNat

/-- `n` pages from `base` on end below the top of the address space, and the
last byte of page `i` is in a reserved region that ends below 2 GiB. -/
def LastByteReserved (memoryMap : List MmapEntry) (base n i : Nat) : Prop :=
  base + n * pageSize < 2 ^ 64 ∧ ∃ e ∈ memoryMap, e.type ≠ multibootMemoryAvailable ∧
    e.addr.toNat + e.len.toNat < 2 ^ 31 ∧ e.addr.toNat + physBase < base + (i + 1) * pageSize ∧
    base + (i + 1) * pageSize ≤ e.addr.toNat + e.len.toNat + physBase

/-- No region reaches beyond 2 GiB. -/
def LowMap (memoryMap : List MmapEntry) : Prop :=
  ∀ e ∈ memoryMap, e.addr.toNat + e.len.toNat ≤ 2 ^ 31

section Overlap

variable {base n i : Nat} {e : MmapEntry}

/-- The pages of an overlap are those whose last byte lies in it. -/
theorem mem_overlapPages (base n i : Nat) (e : MmapEntry) :
    ((overlapPages base n e).1 ≤ i ∧ i < (overlapPages base n e).2) ↔
      kPtov e.addr.toNat < base + (i + 1) * pageSize ∧
        base + (i + 1) * pageSize ≤ kPtov ((e.addr.toNat + e.len.toNat) % 2 ^ 64) ∧
        base + (i + 1) * pageSize ≤ (base + n * pageSize) % 2 ^ 64 := by
  simp only [overlapPages]
  generalize kPtov e.addr.toNat = regionStart
  generalize kPtov ((e.addr.toNat + e.len.toNat) % 2 ^ 64) = regionEnd
  generalize (base + n * pageSize) % 2 ^ 64 = poolEnd
  unfold pageSize
  by_cases hs : regionStart > base <;> by_cases he : regionEnd < poolEnd
  · rw [if_pos hs, if_pos he]
    split <;> dsimp only <;> omega
  · rw [if_pos hs, if_neg he]
    split <;> dsimp only <;> omega
  · rw [if_neg hs, if_pos he]
    split <;> dsimp only <;> omega
  · rw [if_neg hs, if_neg he]
    split <;> dsimp only <;> omega

/-- For regions below 2 GiB, and pages that fit into the address space. -/
theorem mem_overlapPages_iff (hbase : base < 2 ^ 64) (hn : n ≤ 2 ^ 52)
    (hlow : e.addr.toNat + e.len.toNat ≤ 2 ^ 31) :
    ((overlapPages base n e).1 ≤ i ∧ i < (overlapPages base n e).2) ↔
      i < n ∧ base + n * pageSize < 2 ^ 64 ∧ e.addr.toNat + e.len.toNat < 2 ^ 31 ∧
        e.addr.toNat + physBase < base + (i + 1) * pageSize ∧
        base + (i + 1) * pageSize ≤ e.addr.toNat + e.len.toNat + physBase := by
  rw [mem_overlapPages]
  unfold kPtov pageSize physBase
  omega

theorem inRegion_iff {memoryMap : List MmapEntry} (hbase : base < 2 ^ 64) (hn : n ≤ 2 ^ 52)
    (hlow : LowMap memoryMap) (hi : i < n) :
    InRegion memoryMap base n i ↔ LastByteReserved memoryMap base n i := by
  constructor
  · rintro ⟨e, he, htype, hin⟩
    obtain ⟨-, hend, hrest⟩ := (mem_overlapPages_iff hbase hn (hlow e he)).mp hin
    exact ⟨hend, e, he, htype, hrest⟩
  · rintro ⟨hend, e, he, htype, hrest⟩
    exact ⟨e, he, htype, (mem_overlapPages_iff hbase hn (hlow e he)).mpr ⟨hi, hend, hrest⟩⟩

theorem LastByteReserved.touches {memoryMap : List MmapEntry}
    (h : LastByteReserved memoryMap base n i) :
    TouchesReserved memoryMap (base + i * pageSize) := by
  obtain ⟨hend, e, he, htype, hlow, hlo, hhi⟩ := h
  refine ⟨e, he, htype, base + (i + 1) * pageSize - 1 - physBase, pageSize - 1, ?_⟩
  unfold kPtov pageSize physBase at *
  omega

end Overlap

section Total

open LawfulBitmapStore TotalBitmapStore

variable {σ : Type} [TotalBitmapStore σ]

/-! ## `memory_pool_init` returns -/

theorem markPage_returns (st : σ) {pool : Pool} {i : Nat} (ha : i < pool.allocatedBmp.size)
    (hp : i < pool.pinnedBmp.size) : ∃ st', markPage st pool i = .ok st' := by
  obtain ⟨st₁, h₁⟩ := set_returns st pool.allocatedBmp i true ha
  obtain ⟨st₂, h₂⟩ := set_returns st₁ pool.pinnedBmp i true hp
  exact ⟨st₂, bind_eq_ok.mpr ⟨st₁, h₁, h₂⟩⟩

theorem markPages_returns (st : σ) (pool : Pool) (lo n : Nat)
    (ha : ∀ i, lo ≤ i → i < lo + n → i < pool.allocatedBmp.size)
    (hp : ∀ i, lo ≤ i → i < lo + n → i < pool.pinnedBmp.size) :
    ∃ st', markPages st pool lo n = .ok st' := by
  induction n with
  | zero => exact ⟨st, rfl⟩
  | succ n ih =>
    obtain ⟨st₁, h₁⟩ := ih (fun i hlo hi => ha i hlo (by omega)) (fun i hlo hi => hp i hlo (by omega))
    obtain ⟨st₂, h₂⟩ := markPage_returns st₁ (ha (lo + n) (by omega) (by omega))
      (hp (lo + n) (by omega) (by omega))
    exact ⟨st₂, bind_eq_ok.mpr ⟨st₁, h₁, h₂⟩⟩

theorem lt_of_mem_overlapPages {base n i : Nat} {e : MmapEntry} (hlo : (overlapPages base n e).1 ≤ i)
    (hi : i < (overlapPages base n e).2) : i < n := by
  obtain ⟨-, -, hend⟩ := (mem_overlapPages base n i e).mp ⟨hlo, hi⟩
  unfold pageSize at hend
  omega

theorem markReserved_returns (st : σ) (pool : Pool) {n : Nat} (es : List MmapEntry)
    (ha : n ≤ pool.allocatedBmp.size) (hp : n ≤ pool.pinnedBmp.size) :
    ∃ st', markReserved st pool n es = .ok st' := by
  induction es generalizing st with
  | nil => exact ⟨st, rfl⟩
  | cons e es ih =>
    rw [markReserved]
    split
    · have hlt : ∀ i, (overlapPages pool.mdBase n e).1 ≤ i →
          i < (overlapPages pool.mdBase n e).1 +
            ((overlapPages pool.mdBase n e).2 - (overlapPages pool.mdBase n e).1) → i < n :=
        fun i hlo hi => lt_of_mem_overlapPages hlo (by omega)
      obtain ⟨st₁, h₁⟩ := markPages_returns st pool _ _
        (fun i hlo hi => lt_of_lt_of_le (hlt i hlo hi) ha)
        (fun i hlo hi => lt_of_lt_of_le (hlt i hlo hi) hp)
      obtain ⟨st₂, h₂⟩ := ih st₁
      exact ⟨st₂, bind_eq_ok.mpr ⟨st₁, h₁, h₂⟩⟩
    · exact ih st

theorem memoryPoolInit_returns (st : σ) (memoryMap : List MmapEntry) {poolBase n : Nat}
    (pageBase : Nat) (hn : n ≤ 2 ^ 52) (hbase : poolBase ≠ 0)
    (hpinned : (poolBase + bmpBytes n) % 2 ^ 64 ≠ 0) :
    ∃ pool st', memoryPoolInit st memoryMap poolBase pageBase n = .ok (pool, st') := by
  have hmd : mdPages n ≤ n := by
    rw [mdPages_eq hn]
    omega
  obtain ⟨st₁, h₁⟩ := initBuf_returns st n hbase
  obtain ⟨st₂, h₂⟩ := initBuf_returns st₁ n hpinned
  obtain ⟨st₃, h₃⟩ := markPages_returns st₂
    ⟨⟨poolBase, n⟩, ⟨(poolBase + bmpBytes n) % 2 ^ 64, n⟩, poolBase, pageBase⟩ 0 (mdPages n)
    (fun i _ hi => by dsimp only; omega) (fun i _ hi => by dsimp only; omega)
  obtain ⟨st₄, h₄⟩ := markReserved_returns st₃
    ⟨⟨poolBase, n⟩, ⟨(poolBase + bmpBytes n) % 2 ^ 64, n⟩, poolBase, pageBase⟩ memoryMap
    (Nat.le_refl n) (Nat.le_refl n)
  exact ⟨_, st₄, bind_eq_ok.mpr ⟨_, h₁, bind_eq_ok.mpr ⟨_, h₂, bind_eq_ok.mpr ⟨_, h₃,
    bind_eq_ok.mpr ⟨_, h₄, rfl⟩⟩⟩⟩⟩

theorem poolsInit_returns (st : σ) (memoryMap : List MmapEntry) (kernelEnd physEnd : Nat)
    (hbufs : ∀ id,
      (poolAt (freeStart kernelEnd) (poolPages kernelEnd physEnd) id).allocatedBmp.buf ≠ 0 ∧
      (poolAt (freeStart kernelEnd) (poolPages kernelEnd physEnd) id).pinnedBmp.buf ≠ 0) :
    ∃ s, poolsInit st memoryMap kernelEnd physEnd = .ok s := by
  have hlt := poolPages_lt kernelEnd physEnd
  obtain ⟨k, st₁, hk⟩ := memoryPoolInit_returns st memoryMap (freeStart kernelEnd)
    (show poolPages kernelEnd physEnd / 2 ≤ 2 ^ 52 by omega) (hbufs .kernel).1 (hbufs .kernel).2
  obtain ⟨u, st₂, hu⟩ := memoryPoolInit_returns st₁ memoryMap
    ((freeStart kernelEnd + poolPages kernelEnd physEnd / 2 * pageSize) % 2 ^ 64)
    (show poolPages kernelEnd physEnd - poolPages kernelEnd physEnd / 2 ≤ 2 ^ 52 by omega)
    (hbufs .user).1 (hbufs .user).2
  exact ⟨_, bind_eq_ok.mpr ⟨_, hk, bind_eq_ok.mpr ⟨_, hu, rfl⟩⟩⟩

/-! ## The kernel pool -/

/-- In both bitmaps the bit of a page is set exactly if the page is one of the
first, which hold the bitmaps, or shares a byte with a reserved region. -/
def MarkedExactly (st : σ) (pool : Pool) (memoryMap : List MmapEntry) (n : Nat) : Prop :=
  ∀ c, pool.Has c → ∀ i, i < n →
    (bit st c i = true ↔ i < mdPages n ∨ TouchesReserved memoryMap (pool.pageBase + i * pageSize))

/-- With bitmaps that are cleared first, the bits set are those of the marked
pages. -/
theorem memoryPoolInit_exact {st st' : σ} {memoryMap : List MmapEntry} {poolBase pageBase n : Nat}
    {pool : Pool} (hclears : ∀ j, j < n → clears (σ := σ) n j = true) (hn : n ≤ 2 ^ 52)
    (h : memoryPoolInit st memoryMap poolBase pageBase n = .ok (pool, st')) {c : Bitmap}
    (hc : pool.Has c) {i : Nat} (hi : i < n) :
    bit st' c i = true ↔ Marked memoryMap poolBase n i := by
  have hpool := memoryPoolInit_pool h
  have hap := pool_apart poolBase hn
  have hsep : pool.Separates c := by
    rw [hpool] at hc ⊢
    rcases hc with rfl | rfl
    · exact ⟨.inl rfl, .inr hap⟩
    · exact ⟨.inr hap.symm, .inl rfl⟩
  have hsize : i < c.size := by
    rw [hpool] at hc
    rcases hc with rfl | rfl <;> exact hi
  obtain ⟨st₁, st₂, h₁, h₂, hbit⟩ := memoryPoolInit_bit (by omega) h hsep hsize
  have hclear : bit st₂ c i = false := by
    rcases hc with rfl | rfl
    · rw [hpool] at h₁ ⊢
      rw [initBuf_apart h₂ _ hap i hi, initBuf_bit (by omega) h₁ i hi, hclears i hi]
      simp
    · rw [initBuf_bit (by omega) h₂ i hi, hclears i hi]
      simp
  rw [hbit, hclear, and_iff_right hc]
  simp

/-- `memory_pool_init` returns, and the bits are right exactly if every page
past the bitmaps' that a reserved region touches has its last byte in one. -/
theorem reserved_marked_iff (st : σ) {memoryMap : List MmapEntry} {base n : Nat}
    (hclears : ∀ j, j < n → clears (σ := σ) n j = true) (hlow : LowMap memoryMap)
    (hn : n ≤ 2 ^ 52) (hbase : 0 < base) (hlt : base < 2 ^ 64)
    (hpinned : (base + bmpBytes n) % 2 ^ 64 ≠ 0) :
    (∃ pool st', memoryPoolInit st memoryMap base base n = .ok (pool, st') ∧
        MarkedExactly st' pool memoryMap n) ↔
      ∀ i, mdPages n ≤ i → i < n → TouchesReserved memoryMap (base + i * pageSize) →
        LastByteReserved memoryMap base n i := by
  obtain ⟨pool, st', h⟩ := memoryPoolInit_returns st memoryMap base hn hbase.ne' hpinned
  have hpool := memoryPoolInit_pool h
  have hpage : pool.pageBase = base := by rw [hpool]
  have hmarked : ∀ i, i < n → (Marked memoryMap base n i ↔
      i < mdPages n ∨ LastByteReserved memoryMap base n i) :=
    fun i hi => or_congr_right (inRegion_iff hlt hn hlow hi)
  constructor
  · rintro ⟨pool', st'', h', hexact⟩ i hmd hi htouch
    obtain ⟨rfl, rfl⟩ := Prod.mk.inj (Except.ok.inj (h.symm.trans h'))
    have hset := (hexact pool.allocatedBmp (.inl rfl) i hi).mpr (.inr (hpage ▸ htouch))
    rw [memoryPoolInit_exact hclears hn h (.inl rfl) hi, hmarked i hi] at hset
    exact hset.resolve_left (by omega)
  · intro hlast
    refine ⟨pool, st', h, fun c hc i hi => ?_⟩
    rw [memoryPoolInit_exact hclears hn h hc hi, hmarked i hi, hpage]
    constructor
    · exact Or.imp_right LastByteReserved.touches
    · rintro (hmd | htouch)
      · exact .inl hmd
      · by_cases hmd : i < mdPages n
        · exact .inl hmd
        · exact .inr (hlast i (by omega) hi htouch)

end Total

/-- Eight pages past 1 MiB; the region fills the sixth. -/
theorem reserved_marked_page :
    ∃ pool st', memoryPoolInit (σ := BitTable) ⟨fun _ _ => false⟩ [⟨0x105000, 0x1000, 2⟩]
        0xFFFFFFFF80100000 0xFFFFFFFF80100000 8 = .ok (pool, st') ∧
      MarkedExactly st' pool [⟨0x105000, 0x1000, 2⟩] 8 := by
  refine (reserved_marked_iff _ (fun _ _ => rfl) (by simp [LowMap]) (by decide) (by decide)
    (by decide) (by decide)).mpr ?_
  rintro i - hi ⟨e, he, -, x, k, hlo, hhi, hk, heq⟩
  obtain rfl := List.mem_singleton.mp he
  have hlo' : 0x105000 ≤ x := hlo
  have hhi' : x < 0x106000 := hhi
  obtain rfl : i = 5 := by
    unfold kPtov pageSize physBase at *
    omega
  exact ⟨by decide, _, List.mem_cons_self, by decide, by decide, by decide, by decide⟩

/-- A region that ends inside a page leaves the page allocatable. -/
theorem partly_reserved_page_free :
    ¬ ∀ (st : BitTable) (memoryMap : List MmapEntry) (base n : Nat), LowMap memoryMap →
      base % pageSize = 0 → n ≤ 2 ^ 52 → 0 < base → base < 2 ^ 64 →
      (base + bmpBytes n) % 2 ^ 64 ≠ 0 →
      ∃ pool st', memoryPoolInit st memoryMap base base n = .ok (pool, st') ∧
        MarkedExactly st' pool memoryMap n := by
  intro exactly
  obtain ⟨pool, st', h, hexact⟩ := exactly ⟨fun _ _ => false⟩ [⟨0x105000, 0x800, 2⟩]
    0xFFFFFFFF80100000 8 (by simp [LowMap]) (by decide) (by decide) (by decide) (by decide)
    (by decide)
  have hpage : pool.pageBase = 0xFFFFFFFF80100000 := by rw [memoryPoolInit_pool h]
  have htouch : TouchesReserved [⟨0x105000, 0x800, 2⟩] (pool.pageBase + 5 * pageSize) :=
    ⟨_, List.mem_cons_self, by decide, 0x105000, 0, by decide, by decide, by decide,
      by rw [hpage]; decide⟩
  have hset := (hexact pool.allocatedBmp (.inl rfl) 5 (by decide)).mpr (.inr htouch)
  rw [memoryPoolInit_exact (fun _ _ => rfl) (by decide) h (.inl rfl) (by decide)] at hset
  rcases hset with hmd | ⟨e, he, -, hlo, hhi⟩
  · exact absurd hmd (by decide)
  · obtain rfl := List.mem_singleton.mp he
    exact absurd hhi (by decide +kernel)

/-! ## The user pool -/

/-- The user pool as `paging_init` sets it up. -/
def bootUserPool (kernelEnd physEnd : Nat) : Pool :=
  userPoolAt (freeStart kernelEnd) (poolPages kernelEnd physEnd)

/-- The bit of page `i` of a pool is set when `paging_init` has set up both: it
is one of the pages counted for the bitmaps, or the page of the same number from
the bitmaps on has its last byte in a reserved region, or the bit happened to be
set and was not cleared. -/
def StartsSet {σ : Type} [TotalBitmapStore σ] (st : σ) (memoryMap : List MmapEntry)
    (free total : Nat) (id : PoolId) (i : Nat) : Prop :=
  i < mdPages (id.pages total) ∨
  LastByteReserved memoryMap (poolAt free total id).mdBase (id.pages total) i ∨
  (TotalBitmapStore.clears σ (id.pages total) i = false ∧
    LawfulBitmapStore.bit st (poolAt free total id).allocatedBmp i = true)

/-- The page of the kernel pool in which the bit of user page `i` lies. -/
def holderPage (total i : Nat) : Nat := (uBmpOffset total + i / 8) / pageSize

section Client

open LawfulBitmapStore MemoryBitmapStore

variable {σ : Type} [MemoryBitmapStore σ]

/-- No steps of a client from `s` on return the user page at `a`. -/
def NeverReturned (s : Paging σ) (a : Nat) : Prop :=
  ∀ t, Reach (fun x => x = s) OwnWrite clientStep t →
    ∀ g ∈ t.handed, g.pool = .user → g.base ≠ 0 →
      ∀ k, k < g.numPages → (g.base + k * pageSize) % 2 ^ 64 ≠ a

/-- The reserved pages of the user pool have their bits set and are never
returned. -/
def KeepsReserved (memoryMap : List MmapEntry) (s : Paging σ) : Prop :=
  ∀ i, i < s.userPool.allocatedBmp.size →
    LiesReserved memoryMap ((s.userPool.pageBase + i * pageSize) % 2 ^ 64) →
    bit s.store s.userPool.allocatedBmp i = true ∧
      NeverReturned s ((s.userPool.pageBase + i * pageSize) % 2 ^ 64)

theorem pageAddr_inj {free total r i : Nat} {id : PoolId} (hr : r < 2 ^ 52) (hi : i < 2 ^ 52)
    (h : pageAddr free total id r = pageAddr free total id i) : r = i := by
  unfold pageAddr pageSize at h
  omega

variable {free total i : Nat} {s : Paging σ}

/-- The page's bit is set, and so is the bit of the page that holds it. -/
def SetAndHeld (free total : Nat) (s : Paging σ) : PoolId → Nat → Prop :=
  BitHeld (fun id j => bit s.store (poolAt free total id).allocatedBmp j = true) free total

/-- Such a page is never returned. -/
theorem neverReturned_of_held (hat : PoolsAt free total s) (hlog : s.handed = [])
    (first : ∀ id r, r < id.pages total → r < mdPages (id.pages total) →
      bit s.store (poolAt free total id).allocatedBmp r = true)
    (hi : i < uPoolPages total) (held : SetAndHeld free total s .user i) :
    NeverReturned s (pageAddr free total .user i) := by
  intro t ht g hg huser hbase k hk heq
  have hkeeps : KeepsPages (SetAndHeld free total s) free total t := by
    refine ht.invariant ?_ fun _ _ _ hs own step => hs.step (BitHeld.closed hat.total_lt first) own step
    rintro x rfl
    exact ⟨hat, fun id j _ hkept => hkept.1, by simp [hlog]⟩
  obtain ⟨r, hr, hpages⟩ := hkeeps.grants g hg hbase
  obtain ⟨hlt, hno⟩ := hpages k hk
  rw [huser] at hr hlt hno
  rw [hr, pageAddr_add] at heq
  have hbound := hat.total_lt
  have hle := pages_le total .user
  have hi' : i < PoolId.pages total .user := hi
  obtain rfl := pageAddr_inj (by omega) (by omega) heq
  exact hno held

end Client

/-! ### Taking one page after the other -/

section Sweep

open LawfulBitmapStore MemoryBitmapStore TotalMemoryStore

variable {σ : Type} [TotalMemoryStore σ] {free total a q : Nat} {id : PoolId} {s : Paging σ}

/-- The flags of a call for a page of a pool. -/
def PoolId.flags : PoolId → UInt8
  | .kernel => 0
  | .user => 1

/-- A search for one page finds the first clear bit. -/
theorem first_clear_found (id : PoolId) (hs : PoolsAt free total s) (ha : a < id.pages total)
    (below : ∀ j, j < a → bit s.store (poolAt free total id).allocatedBmp j = true)
    (clear : bit s.store (poolAt free total id).allocatedBmp a = false) :
    ∃ st, BitmapStore.testAndFlip s.store (poolAt free total id).allocatedBmp false 0
        (((poolAt free total id).allocatedBmp.size + (2 ^ 64 - 1)) % 2 ^ 64) 1 = .ok (some a, st) ∧
      ∀ id' j, j < id'.pages total → bit st (poolAt free total id').allocatedBmp j =
        (bit s.store (poolAt free total id').allocatedBmp j || decide (id' = id ∧ j = a)) := by
  have htotal := hs.total_lt
  have most := pages_le total id
  have size := poolAt_size free total id
  have last : ((poolAt free total id).allocatedBmp.size + (2 ^ 64 - 1)) % 2 ^ 64 =
      id.pages total - 1 := by omega
  have small : (poolAt free total id).allocatedBmp.size ≤ 2 ^ 64 := by omega
  rw [last]
  obtain ⟨r, st, run⟩ : ∃ r st, BitmapStore.testAndFlip s.store (poolAt free total id).allocatedBmp
      false 0 (id.pages total - 1) 1 = .ok (r, st) :=
    testAndFlip_returns _ _ _ small (by decide) (by omega) (by omega)
  cases r with
  | none =>
    obtain ⟨j, hj, hj', set⟩ := (testAndFlip_none small run).2 a (by omega) (by omega)
    obtain rfl : j = a := by omega
    exact absurd clear set
  | some r =>
    obtain ⟨-, fit, bits⟩ := testAndFlip_some small run
    obtain rfl : r = a := by
      have here : bit s.store (poolAt free total id).allocatedBmp r = false :=
        fit.all r (by omega) (by omega)
      rcases Nat.lt_trichotomy r a with low | same | high
      · rw [below r low] at here
        cases here
      · exact same
      · obtain ⟨j, hj, hj', set⟩ := fit.least a (by omega) high
        obtain rfl : j = a := by omega
        exact absurd clear set
    refine ⟨st, run, fun id' j hj => ?_⟩
    by_cases pool : id' = id
    · subst pool
      rw [bits j (by omega)]
      by_cases at_ : j = r
      · subst at_
        simp [clear]
      · have out : ¬ (r ≤ j ∧ j < r + 1) := by omega
        rw [decide_eq_false out]
        simp [at_]
    · have apart : (poolAt free total id).allocatedBmp.Apart (poolAt free total id').allocatedBmp := by
        cases id <;> cases id'
        · exact absurd rfl pool
        · exact pools_apart free htotal (.inl rfl) (.inl rfl)
        · exact (pools_apart free htotal (.inl rfl) (.inl rfl)).symm
        · exact absurd rfl pool
      rw [testAndFlip_apart small run _ apart j (by rwa [poolAt_size])]
      simp [pool]

/-- A call for one page takes the first that is clear. -/
theorem first_clear_taken (id : PoolId) (hs : PoolsAt free total s) (ha : a < id.pages total)
    (below : ∀ j, j < a → bit s.store (poolAt free total id).allocatedBmp j = true)
    (clear : bit s.store (poolAt free total id).allocatedBmp a = false) :
    ∃ t, clientStep s (.getPages ⟨1, id.flags⟩) = .ok t ∧ PoolsAt free total t ∧
      t.handed = ⟨id, pageAddr free total id a, 1⟩ :: s.handed ∧
      ∀ id' j, j < id'.pages total → bit t.store (poolAt free total id').allocatedBmp j =
        (bit s.store (poolAt free total id').allocatedBmp j || decide (id' = id ∧ j = a)) := by
  obtain ⟨st, run, bits⟩ := first_clear_found id hs ha below clear
  have flags : poolOf (PagesCall.mk 1 id.flags).flags.toNat = id := by cases id <;> rfl
  have plain : ¬ ((PagesCall.mk 1 id.flags).flags.toNat &&& pallocZero ≠ 0) := by
    cases id <;> decide
  have step := getPagesStep_found (s := s) (c := ⟨1, id.flags⟩) (i := a) (by
    rw [flags, hs.pool]
    exact run)
  rw [flags, hs.pool, if_neg plain] at step
  exact ⟨_, step, ⟨hs.total_lt, hs.kernel, hs.user⟩, rfl, bits⟩

/-- Calls for one page after the other come to any page that is clear. -/
theorem sweep {start : Paging σ → Prop} (id : PoolId) (reached : Reach start OwnWrite clientStep s)
    (hs : PoolsAt free total s) (hq : q < id.pages total)
    (clear : bit s.store (poolAt free total id).allocatedBmp q = false) :
    ∃ t, Reach start OwnWrite clientStep t ∧ PoolsAt free total t ∧
      (∀ j, j < q → bit t.store (poolAt free total id).allocatedBmp j = true) ∧
      bit t.store (poolAt free total id).allocatedBmp q = false := by
  suffices upTo : ∀ a, a ≤ q → ∃ t, Reach start OwnWrite clientStep t ∧ PoolsAt free total t ∧
      (∀ j, j < a → bit t.store (poolAt free total id).allocatedBmp j = true) ∧
      bit t.store (poolAt free total id).allocatedBmp q = false from upTo q (Nat.le_refl q)
  intro a
  induction a with
  | zero => exact fun _ => ⟨s, reached, hs, fun j hj => absurd hj (Nat.not_lt_zero j), clear⟩
  | succ a ih =>
    intro ha
    obtain ⟨t, run, at_, below, still⟩ := ih (by omega)
    cases own : bit t.store (poolAt free total id).allocatedBmp a with
    | true =>
      refine ⟨t, run, at_, fun j hj => ?_, still⟩
      rcases Nat.lt_succ_iff_lt_or_eq.mp hj with low | rfl
      · exact below j low
      · exact own
    | false =>
      obtain ⟨u, step, at', -, bits⟩ := first_clear_taken id at_ (by omega) below own
      refine ⟨u, run.step (a := .getPages _) trivial step, at', fun j hj => ?_, ?_⟩
      · rw [bits id j (by omega)]
        rcases Nat.lt_succ_iff_lt_or_eq.mp hj with low | rfl
        · simp [below j low]
        · simp
      · have other : q ≠ a := by omega
        rw [bits id q hq, still]
        simp [other]

/-- With `PALLOC_ZERO` the call clears the bits that lie in the page. -/
theorem holder_zeroed (hs : PoolsAt free total s) (hq : q < kPoolPages total)
    (below : ∀ j, j < q → bit s.store (poolAt free total .kernel).allocatedBmp j = true)
    (clear : bit s.store (poolAt free total .kernel).allocatedBmp q = false) {i : Nat}
    (hi : i < uPoolPages total) (holder : BitIn free total .user i .kernel q) :
    ∃ t, clientStep s (.getPages ⟨1, 2⟩) = .ok t ∧ PoolsAt free total t ∧
      bit t.store (poolAt free total .user).allocatedBmp i = false := by
  obtain ⟨st, run, -⟩ := first_clear_found .kernel hs hq below clear
  have step := getPagesStep_found (s := s) (c := ⟨1, 2⟩) (i := q) (by
    rw [show poolOf (PagesCall.mk 1 2).flags.toNat = .kernel from rfl, hs.pool]
    exact run)
  rw [show poolOf (PagesCall.mk 1 2).flags.toNat = .kernel from rfl, hs.pool,
    if_pos (show (PagesCall.mk 1 2).flags.toNat &&& pallocZero ≠ 0 by decide)] at step
  refine ⟨_, step, ⟨hs.total_lt, hs.kernel, hs.user⟩, ?_⟩
  rw [← Bool.not_eq_true]
  intro set
  obtain ⟨y, hy, place⟩ := holder
  have size := poolAt_size free total .user
  exact ((MemoryBitmapStore.zero_bit _ _ _ _ _ (by rw [size]; exact hi)).mp set).2 y hy place

/-- If the page that holds a bit is clear, a client zeroes it and is given the
page of the bit. -/
theorem holder_of_neverReturned {i : Nat} (hs : PoolsAt free total s) (hi : i < uPoolPages total)
    (nonnull : pageAddr free total .user i ≠ 0) (hq : q < kPoolPages total)
    (holder : BitIn free total .user i .kernel q)
    (never : NeverReturned s (pageAddr free total .user i)) :
    bit s.store (poolAt free total .kernel).allocatedBmp q = true := by
  by_contra clear
  have fresh : Reach (fun x => x = s) OwnWrite clientStep s := .start rfl
  obtain ⟨t, run, at_, below, still⟩ := sweep .kernel fresh hs hq (Bool.eq_false_iff.mpr clear)
  obtain ⟨u, zeroed, at', open_⟩ := holder_zeroed at_ hq below still hi holder
  obtain ⟨v, run', at'', below', still'⟩ :=
    sweep .user (run.step (a := .getPages _) trivial zeroed) at' hi open_
  obtain ⟨w, taken, -, log, -⟩ := first_clear_taken .user at'' hi below' still'
  refine never w (run'.step (a := .getPages _) trivial taken)
    ⟨.user, pageAddr free total .user i, 1⟩ ?_ rfl nonnull 0 Nat.one_pos ?_
  · rw [log]
    exact List.mem_cons_self
  · change (pageAddr free total .user i + 0 * pageSize) % 2 ^ 64 = _
    rw [pageAddr_add, Nat.add_zero]

end Sweep

section Boot

open LawfulBitmapStore TotalBitmapStore

variable {σ : Type} {memoryMap : List MmapEntry} {kernelEnd physEnd : Nat}

/-- A bit after `memory_pool_init`: marked, or set before and not cleared. -/
theorem memoryPoolInit_allocated [TotalBitmapStore σ] {st st' : σ} {pool : Pool}
    {poolBase pageBase n i : Nat} (hn : n ≤ 2 ^ 64)
    (h : memoryPoolInit st memoryMap poolBase pageBase n = .ok (pool, st'))
    (hap : pool.pinnedBmp.Apart pool.allocatedBmp) (hi : i < n) :
    bit st' pool.allocatedBmp i = true ↔ Marked memoryMap poolBase n i ∨
      (clears σ n i = false ∧ bit st pool.allocatedBmp i = true) := by
  have hsize : i < pool.allocatedBmp.size := by
    rw [memoryPoolInit_pool h]
    exact hi
  obtain ⟨st₁, st₂, h₁, h₂, hbit⟩ := memoryPoolInit_bit hn h ⟨.inl rfl, .inr hap⟩ hsize
  have hpinned := hap
  rw [memoryPoolInit_pool h] at hpinned
  rw [hbit, and_iff_right (show pool.Has pool.allocatedBmp from .inl rfl),
    show bit st₂ pool.allocatedBmp i = bit st₁ pool.allocatedBmp i by
      rw [memoryPoolInit_pool h]
      exact initBuf_apart h₂ _ hpinned i hi,
    initBuf_bit hn h₁ i hi, Bool.and_eq_true, Bool.not_eq_true', and_comm (a := bit st _ i = true)]

theorem poolsInit_bit [TotalBitmapStore σ] {st : σ} {s : Paging σ} (hlow : LowMap memoryMap)
    (h : poolsInit st memoryMap kernelEnd physEnd = .ok s) (id : PoolId) {i : Nat}
    (hi : i < id.pages (poolPages kernelEnd physEnd)) :
    bit s.store (poolAt (freeStart kernelEnd) (poolPages kernelEnd physEnd) id).allocatedBmp i =
        true ↔
      StartsSet st memoryMap (freeStart kernelEnd) (poolPages kernelEnd physEnd) id i := by
  have htotal := poolPages_lt kernelEnd physEnd
  have hfree := freeStart_lt kernelEnd
  obtain ⟨st₁, hk, hu⟩ := poolsInit_inits h
  generalize poolPages kernelEnd physEnd = total at *
  generalize freeStart kernelEnd = free at *
  have kn : kPoolPages total ≤ 2 ^ 64 := by unfold kPoolPages; omega
  have un : uPoolPages total ≤ 2 ^ 64 := by unfold uPoolPages; omega
  have hn := pages_le total id
  have hbase : (poolAt free total id).mdBase < 2 ^ 64 := by
    cases id with
    | kernel => exact hfree
    | user => exact Nat.mod_lt _ (by decide)
  have region := inRegion_iff hbase (by omega) hlow hi
  rw [StartsSet, ← region, ← or_assoc]
  cases id with
  | kernel =>
    have later : ∀ b, (userPoolAt free total).Has b → b.Apart (kernelPoolAt free total).allocatedBmp :=
      fun b hb => (pools_apart free htotal (.inl rfl) hb).symm
    have kept : bit s.store (kernelPoolAt free total).allocatedBmp i =
        bit st₁ (kernelPoolAt free total).allocatedBmp i := memoryPoolInit_apart un hu later hi
    have own := memoryPoolInit_allocated kn hk (poolAt_apart free htotal .kernel) hi
    rw [← kept] at own
    exact own
  | user =>
    have before : bit st₁ (userPoolAt free total).allocatedBmp i =
        bit st (userPoolAt free total).allocatedBmp i :=
      memoryPoolInit_apart kn hk (fun b hb => pools_apart free htotal hb (.inl rfl)) hi
    have own := memoryPoolInit_allocated un hu (poolAt_apart free htotal .user) hi
    rw [before] at own
    exact own

/-- No region below 2 GiB contains the page at address 0. -/
theorem LiesReserved.ne_zero (hlow : LowMap memoryMap) {a : Nat} (h : LiesReserved memoryMap a) :
    a ≠ 0 := by
  rintro rfl
  obtain ⟨e, he, -, -, hi⟩ := h
  have top := hlow e he
  unfold kVtop pageSize physBase at hi
  omega

/-- The user pool keeps its reserved pages exactly if the bit of each of them is
set by `paging_init`, and so is the bit of the page of the kernel pool that
holds it: that one could be granted and zeroed otherwise. -/
theorem user_pool_reserves_iff [TotalMemoryStore σ] {st : σ} {s : Paging σ} (hlow : LowMap memoryMap)
    (h : poolsInit st memoryMap kernelEnd physEnd = .ok s) :
    KeepsReserved memoryMap s ↔
      ∀ i, i < (bootUserPool kernelEnd physEnd).allocatedBmp.size →
        LiesReserved memoryMap (((bootUserPool kernelEnd physEnd).pageBase + i * pageSize) % 2 ^ 64) →
        StartsSet st memoryMap (freeStart kernelEnd) (poolPages kernelEnd physEnd) .user i ∧
        (holderPage (poolPages kernelEnd physEnd) i < kPoolPages (poolPages kernelEnd physEnd) →
          StartsSet st memoryMap (freeStart kernelEnd) (poolPages kernelEnd physEnd) .kernel
            (holderPage (poolPages kernelEnd physEnd) i)) := by
  obtain ⟨hat, -, hlog⟩ := poolsInit_poolsAt h
  have hpool : s.userPool = bootUserPool kernelEnd physEnd := hat.user
  have bits : ∀ (id : PoolId) {j}, j < id.pages (poolPages kernelEnd physEnd) → _ :=
    fun id {j} hj => poolsInit_bit hlow h id hj
  have htotal := hat.total_lt
  rw [KeepsReserved, hpool]
  refine forall₃_congr fun i hi lies => ?_
  have nonnull := lies.ne_zero hlow
  have own := bits .user hi
  have holder : ∀ {q}, q < kPoolPages (poolPages kernelEnd physEnd) →
      (BitIn (freeStart kernelEnd) (poolPages kernelEnd physEnd) .user i .kernel q ↔
        q = holderPage (poolPages kernelEnd physEnd) i) := by
    intro q hq
    rw [bitIn_iff .user .kernel htotal hi hq, holderPage]
    simp only [PoolId.pageOffset, PoolId.bmpOffset, pageSize]
    omega
  constructor
  · rintro ⟨set, never⟩
    refine ⟨own.mp set, fun hq => (bits .kernel hq).mp ?_⟩
    exact holder_of_neverReturned hat hi nonnull hq ((holder hq).mpr rfl) never
  · rintro ⟨set, held⟩
    refine ⟨own.mpr set, neverReturned_of_held hat hlog (fun id r hr first => ?_) hi
      ⟨own.mpr set, fun id' r hr inside => ?_⟩⟩
    · exact poolsInit_marks h hr (.inl first)
    · cases id' with
      | kernel =>
        obtain rfl := (holder hr).mp inside
        exact (bits .kernel hr).mpr (held hr)
      | user =>
        -- both pools together have one page
        have empty := bitIn_user htotal hi hr inside
        have one : uPoolPages (poolPages kernelEnd physEnd) ≤ 1 := by
          unfold uPoolPages kPoolPages at *
          omega
        have hi' : i < uPoolPages (poolPages kernelEnd physEnd) := hi
        have hr' : r < uPoolPages (poolPages kernelEnd physEnd) := hr
        obtain rfl : r = i := by omega
        exact own.mpr set

end Boot

instance (memoryMap : List MmapEntry) (a : Nat) : Decidable (LiesReserved memoryMap a) :=
  inferInstanceAs (Decidable (∃ e ∈ memoryMap, _))

instance (memoryMap : List MmapEntry) (base n i : Nat) :
    Decidable (LastByteReserved memoryMap base n i) :=
  inferInstanceAs (Decidable (_ ∧ ∃ e ∈ memoryMap, _))

/-- Sixteen pages past 1 MiB: eight of them are reserved, the last two of these
in the user pool. -/
def straddlingMap : List MmapEntry :=
  [⟨0, 0x102000, 1⟩, ⟨0x102000, 0x8000, 2⟩, ⟨0x10A000, 0x6000, 1⟩]

theorem user_pool_reserves_straddling :
    ∃ s : Paging SpecMem, poolsInit (σ := SpecMem) (Mem.mk fun _ => 0) straddlingMap
        0xFFFFFFFF80100000 0x110000 = .ok s ∧ KeepsReserved straddlingMap s := by
  obtain ⟨s, hs⟩ := poolsInit_returns (σ := SpecMem) (Mem.mk fun _ => 0) straddlingMap
    0xFFFFFFFF80100000 0x110000 (fun id => by cases id <;> decide)
  have hpages : ∀ i, i < (bootUserPool 0xFFFFFFFF80100000 0x110000).allocatedBmp.size →
      LiesReserved straddlingMap
        (((bootUserPool 0xFFFFFFFF80100000 0x110000).pageBase + i * pageSize) % 2 ^ 64) →
      (i < mdPages (bootUserPool 0xFFFFFFFF80100000 0x110000).allocatedBmp.size ∨
        LastByteReserved straddlingMap (bootUserPool 0xFFFFFFFF80100000 0x110000).mdBase
          (bootUserPool 0xFFFFFFFF80100000 0x110000).allocatedBmp.size i) ∧
      holderPage (poolPages 0xFFFFFFFF80100000 0x110000) i < 1 := by
    decide +kernel
  have hlow : LowMap straddlingMap := by
    unfold LowMap
    decide
  refine ⟨s, hs, (user_pool_reserves_iff hlow hs).mpr fun i hi hlies => ?_⟩
  obtain ⟨own, holder⟩ := hpages i hi hlies
  exact ⟨own.imp_right .inl, fun _ => .inl (Nat.lt_of_lt_of_le holder (by decide +kernel))⟩

/-- A reserved page of the user pool has a clear bit: the pool marked the page
of the same number that follows the bitmaps. -/
theorem user_page_not_marked :
    ¬ ∀ (st : SpecMem) (memoryMap : List MmapEntry) (kernelEnd physEnd : Nat) (s : Paging SpecMem),
      LowMap memoryMap →
      (∀ e ∈ memoryMap, e.addr.toNat % pageSize = 0 ∧ e.len.toNat % pageSize = 0) →
      poolsInit st memoryMap kernelEnd physEnd = .ok s → KeepsReserved memoryMap s := by
  intro reserves
  obtain ⟨s, hs⟩ := poolsInit_returns (σ := SpecMem) (Mem.mk fun _ => 0) userReservedMap
    0xFFFFFFFF80100000 0x110000 (fun id => by cases id <;> decide)
  have hlow : LowMap userReservedMap := by
    unfold LowMap
    decide
  have hkeeps := reserves _ _ _ _ s hlow (by decide) hs
  have hpool : s.userPool = bootUserPool 0xFFFFFFFF80100000 0x110000 := (poolsInit_poolsAt hs).1.user
  rw [KeepsReserved, hpool] at hkeeps
  have hset := (hkeeps 3 (by decide) (by decide +kernel)).1
  rcases (poolsInit_bit hlow hs .user (by decide +kernel)).mp hset with
    first | last | ⟨uncleared, -⟩
  · exact absurd first (by decide +kernel)
  · exact absurd last (by decide +kernel)
  · exact absurd uncleared (by decide +kernel)

end WaddleOS
