import WaddleOS.Paging.Pools

/-!
# What `paging_get_pages` grants

The call on pools whose bitmaps live in memory. Seen from one base address, a
grant flips the clear bits of its pages in its pool's bitmap and, with
`PALLOC_ZERO`, clears the pages' own bytes; nothing else changes.
-/

namespace WaddleOS

variable {s t : Paging Mem} {numPages flags p : Nat}

/-- The store after a grant of `n` pages from page `r` on. -/
def grantStore (m : Mem) (flags base n : Nat) : Mem :=
  if flags &&& pallocZero ≠ 0 then memset m base 0 (n * pageSize % 2 ^ 64) else m

/-- A call that returns either finds no room and changes nothing, or takes the
first run of clear pages. -/
theorem pagingGetPages_cases {pool : Pool} (hpool : s.pool (poolOf flags) = pool)
    (hsize : pool.allocatedBmp.size ≤ 2 ^ 64) (hnum : numPages < 2 ^ 64)
    (h : pagingGetPages s numPages flags = .ok (p, t)) :
    (0 < numPages ∧ numPages ≤ pool.allocatedBmp.size) ∧
    ((p = 0 ∧ t = { s with handed := ⟨poolOf flags, 0, numPages⟩ :: s.handed } ∧
      NoFit (HasBit s.store pool.allocatedBmp false) 0 pool.allocatedBmp.size numPages) ∨
    ∃ r m', FirstFit (HasBit s.store pool.allocatedBmp false) 0 pool.allocatedBmp.size numPages r ∧
      bitmapFlip s.store pool.allocatedBmp r (r + numPages - 1) = .ok m' ∧
      p = (pool.pageBase + r * pageSize) % 2 ^ 64 ∧
      t = { s with
        store := (grantStore m' flags p numPages)
        handed := (⟨poolOf flags, p, numPages⟩ :: s.handed) }) := by
  simp only [pagingGetPages, hpool] at h
  generalize hbmp : pool.allocatedBmp = bmp at *
  obtain ⟨⟨r, st⟩, hflip, hrest⟩ := bind_eq_ok.mp h
  have hok := bitmapTestAndFlip_ok hflip
  obtain ⟨hpos, hend, -, hfit, hn⟩ := assertSearch_ok hok
  have hlast : (bmp.size + (2 ^ 64 - 1)) % 2 ^ 64 = bmp.size - 1 := by omega
  have hstop : bmp.size - 1 + 1 = bmp.size := by omega
  rw [hlast] at hflip hok hfit
  refine ⟨⟨hn, by omega⟩, ?_⟩
  rcases bitmapTestAndFlip_spec s.store false (by omega) hok with ⟨hrun, hno⟩ | ⟨i, m', hrun, hff, hfl⟩
  · have heq : (none, s.store) = (r, st) := Except.ok.inj (hrun.symm.trans hflip)
    obtain ⟨rfl, rfl⟩ := Prod.mk.inj heq
    simp only [pure, Except.pure, Except.ok.injEq, Prod.mk.injEq] at hrest
    obtain ⟨rfl, rfl⟩ := hrest
    exact .inl ⟨rfl, rfl, hstop ▸ hno⟩
  · have heq : (some i, m') = (r, st) := Except.ok.inj (hrun.symm.trans hflip)
    obtain ⟨rfl, rfl⟩ := Prod.mk.inj heq
    simp only [pure, Except.pure, Except.ok.injEq, Prod.mk.injEq] at hrest
    obtain ⟨rfl, rfl⟩ := hrest
    exact .inr ⟨i, m', hstop ▸ hff, hfl, rfl, rfl⟩

theorem pagingGetPages_returns {pool : Pool} (hpool : s.pool (poolOf flags) = pool)
    (hsize : pool.allocatedBmp.size ≤ 2 ^ 64) (hn : 0 < numPages)
    (hle : numPages ≤ pool.allocatedBmp.size) :
    ∃ p t, pagingGetPages s numPages flags = .ok (p, t) := by
  simp only [pagingGetPages, hpool]
  generalize pool.allocatedBmp = bmp at *
  have hlast : (bmp.size + (2 ^ 64 - 1)) % 2 ^ 64 = bmp.size - 1 := by omega
  have hok : assertSearch bmp 0 (bmp.size - 1) numPages = .ok () :=
    assertSearch_returns hn (by omega) (by omega) (by omega)
  rw [hlast]
  rcases bitmapTestAndFlip_spec s.store false (by omega) hok with ⟨hrun, -⟩ | ⟨i, m', hrun, -, -⟩
  · exact ⟨_, _, bind_eq_ok.mpr ⟨_, hrun, rfl⟩⟩
  · exact ⟨_, _, bind_eq_ok.mpr ⟨_, hrun, rfl⟩⟩

theorem bitAt_grantStore (m : Mem) {b q n base : Nat} (hbase : base % 2 ^ 64 = (b + q) % 2 ^ 64)
    (hq : q + 4096 * n ≤ 2 ^ 64) (hn : 4096 * n < 2 ^ 64) (g : Nat) (hg : g < 2 ^ 67) :
    bitAt (grantStore m flags base n) b g =
      (bitAt m b g && !decide (flags &&& pallocZero ≠ 0 ∧ 8 * q ≤ g ∧ g < 8 * (q + 4096 * n))) := by
  unfold grantStore
  split
  · rename_i hz
    rw [pageSize, Nat.mul_comm n, Nat.mod_eq_of_lt hn, memset_of_mod_eq _ _ _ hbase, bitAt_memset_zero _ hq hg]
    simp [hz]
  · rename_i hz
    simp [hz]

/-- The bits after a grant of the pages from `r` on, for a pool whose bitmap
starts at offset `o` from `b` and whose pages start at offset `q`. -/
theorem bitAt_grant {m m' : Mem} {bmp : Bitmap} {b o q r n base : Nat}
    (hflip : bitmapFlip m bmp r (r + n - 1) = .ok m') (hn : 0 < n)
    (hbuf : bmp.buf % 2 ^ 64 = (b + o) % 2 ^ 64) (ho : o + (r + n) + 8 ≤ 2 ^ 64)
    (hbase : base % 2 ^ 64 = (b + (q + 4096 * r)) % 2 ^ 64) (hq : q + 4096 * (r + n) ≤ 2 ^ 64)
    (hlt : 4096 * n < 2 ^ 64) (g : Nat) (hg : g < 2 ^ 67) :
    bitAt (grantStore m' flags base n) b g =
      ((bitAt m b g ^^ decide (8 * o + r ≤ g ∧ g < 8 * o + (r + n))) &&
        !decide (flags &&& pallocZero ≠ 0 ∧ 8 * (q + 4096 * r) ≤ g ∧ g < 8 * (q + 4096 * (r + n)))) := by
  have hlast : (8 * o + r ≤ g ∧ g ≤ 8 * o + (r + n - 1)) ↔ (8 * o + r ≤ g ∧ g < 8 * o + (r + n)) := by
    omega
  have hpage : q + 4096 * r + 4096 * n = q + 4096 * (r + n) := by omega
  rw [bitAt_grantStore m' hbase (by omega) hlt g hg, bitAt_bitmapFlip hflip hbuf (by omega) g hg,
    decide_eq_decide.mpr hlast, hpage]

/-! ## Seen from the start of the free memory -/

/-- Where a pool's allocation bitmap and its pages start, as offsets. -/
def PoolId.bmpOffset (total : Nat) : PoolId → Nat
  | .kernel => 0
  | .user => uBmpOffset total

def PoolId.pageOffset (total : Nat) : PoolId → Nat
  | .kernel => 0
  | .user => 4096 * kPoolPages total

/-- Bit `j` of a pool's allocation bitmap. -/
def allocBit (free total : Nat) (m : Mem) (id : PoolId) (j : Nat) : Bool :=
  bitAt m free (8 * id.bmpOffset total + j)

section Offsets

variable (free total : Nat) (id : PoolId)

theorem poolAt_buf :
    (poolAt free total id).allocatedBmp.buf % 2 ^ 64 = (free + id.bmpOffset total) % 2 ^ 64 := by
  cases id <;> simp [poolAt, kernelPoolAt, userPoolAt, PoolId.bmpOffset]

theorem poolAt_pageBase :
    (poolAt free total id).pageBase % 2 ^ 64 = (free + id.pageOffset total) % 2 ^ 64 := by
  cases id <;> simp [poolAt, kernelPoolAt, userPoolAt, PoolId.pageOffset, pageSize, Nat.mul_comm]

theorem pageOffset_bound : id.pageOffset total + 4096 * id.pages total ≤ 4096 * total := by
  cases id <;> simp only [PoolId.pageOffset, PoolId.pages, kPoolPages, uPoolPages] <;> omega

theorem bmpOffset_bound (h : total < 2 ^ 52) : id.bmpOffset total ≤ total + 2 := by
  cases id with
  | kernel => simp [PoolId.bmpOffset]
  | user =>
    simp only [PoolId.bmpOffset, uBmpOffset, kPoolPages]
    rw [bmpBytes_eq (by omega)]
    omega

theorem pageAddr_eq (r : Nat) :
    pageAddr free total id r = (free + (id.pageOffset total + 4096 * r)) % 2 ^ 64 := by
  have h := poolAt_pageBase free total id
  unfold pageAddr pageSize
  omega

theorem hasBit_iff (m : Mem) (v : Bool) (j : Nat) :
    HasBit m (poolAt free total id).allocatedBmp v j ↔ allocBit free total m id j = v := by
  rw [HasBit, allocBit, ← bitAt_add, bitAt_of_mod_eq m j (poolAt_buf free total id)]

end Offsets

/-- `t` is `s` after a grant of `n` pages from page `r` of a pool on. -/
structure Granted (free total : Nat) (id : PoolId) (flags n r : Nat) (s t : Paging Mem) : Prop where
  room : r + n ≤ id.pages total
  clear : ∀ j, r ≤ j → j < r + n → allocBit free total s.store id j = false
  first : ∀ q, q < r → ∃ j, q ≤ j ∧ j < q + n ∧ allocBit free total s.store id j = true
  bits : ∀ g, g < 2 ^ 67 → bitAt t.store free g =
    ((bitAt s.store free g ^^
      decide (8 * id.bmpOffset total + r ≤ g ∧ g < 8 * id.bmpOffset total + (r + n))) &&
    !decide (flags &&& pallocZero ≠ 0 ∧ 8 * (id.pageOffset total + 4096 * r) ≤ g ∧
      g < 8 * (id.pageOffset total + 4096 * (r + n))))

/-- Bits that are neither those of the granted pages in the bitmap nor inside
the pages are as they were. -/
theorem Granted.same {free total n r : Nat} {id : PoolId}
    (h : Granted free total id flags n r s t) {g : Nat} (hg : g < 2 ^ 67)
    (hbits : ¬ (8 * id.bmpOffset total + r ≤ g ∧ g < 8 * id.bmpOffset total + (r + n)))
    (hpages : ¬ (8 * (id.pageOffset total + 4096 * r) ≤ g ∧
      g < 8 * (id.pageOffset total + 4096 * (r + n)))) :
    bitAt t.store free g = bitAt s.store free g := by
  rw [h.bits g hg, decide_eq_false hbits, decide_eq_false (fun hz => hpages hz.2)]
  simp

/-- `t` is `s` after a call that found no run of `n` clear pages. -/
structure Refused (free total : Nat) (id : PoolId) (n : Nat) (s t : Paging Mem) : Prop where
  store : t.store = s.store
  full : ∀ q, q + n ≤ id.pages total → ∃ j, q ≤ j ∧ j < q + n ∧
    allocBit free total s.store id j = true

/-- One call, seen from the start of the free memory. -/
theorem PoolsAt.call {free total : Nat} (hs : PoolsAt free total s) (hnum : numPages < 2 ^ 64)
    (h : pagingGetPages s numPages flags = .ok (p, t)) :
    (0 < numPages ∧ numPages ≤ (poolOf flags).pages total) ∧
    (p = 0 ∧ Refused free total (poolOf flags) numPages s t ∨
    ∃ r, p = pageAddr free total (poolOf flags) r ∧
      Granted free total (poolOf flags) flags numPages r s t) := by
  have htotal := hs.total_lt
  have hpages := pages_le total (poolOf flags)
  have hoff := pageOffset_bound total (poolOf flags)
  have hbmp := bmpOffset_bound total (poolOf flags) htotal
  have hbuf := poolAt_buf free total (poolOf flags)
  have hsz := poolAt_size free total (poolOf flags)
  obtain ⟨hn, hcases⟩ := pagingGetPages_cases (hs.pool (poolOf flags)) (by omega) hnum h
  rw [hsz] at hn hcases
  refine ⟨hn, ?_⟩
  rcases hcases with ⟨rfl, rfl, hno⟩ | ⟨r, m', hfit, hflip, rfl, rfl⟩
  · refine .inl ⟨rfl, rfl, fun q hq => ?_⟩
    obtain ⟨j, hqj, hj, hb⟩ := hno q (by omega) hq
    rw [hasBit_iff, Bool.not_eq_false] at hb
    exact ⟨j, hqj, hj, hb⟩
  · have hroom := hfit.le_stop
    have hq : (poolOf flags).pageOffset total + 4096 * (r + numPages) ≤ 2 ^ 64 := by omega
    have hlt : 4096 * numPages < 2 ^ 64 := by omega
    have ho : (poolOf flags).bmpOffset total + (r + numPages) + 8 ≤ 2 ^ 64 := by omega
    refine .inr ⟨r, rfl, hroom, ?_, ?_, ?_⟩
    · intro j hrj hj
      exact (hasBit_iff ..).mp (hfit.all j hrj hj)
    · intro q hq
      obtain ⟨j, hqj, hj, hb⟩ := hfit.least q (by omega) hq
      rw [hasBit_iff, Bool.not_eq_false] at hb
      exact ⟨j, hqj, hj, hb⟩
    · have hbase : pageAddr free total (poolOf flags) r % 2 ^ 64 =
          (free + ((poolOf flags).pageOffset total + 4096 * r)) % 2 ^ 64 := by
        rw [pageAddr_eq, Nat.mod_mod]
      exact bitAt_grant hflip hn.1 hbuf ho hbase hq hlt

end WaddleOS
