import Mathlib.Order.Interval.Finset.Nat
import WaddleOS.Paging.Metadata
import WaddleOS.Paging.Translate

/-!
# No page is handed out twice

A page is granted only while its bit is clear, and its bit is set from then
on: calls flip clear bits only, and neither they nor the clients write to the
bitmaps as long as the pages that can be handed out hold no part of them.
-/

namespace WaddleOS

theorem pdeInit_poolsAt {free total entry v : Nat} {s t : Paging Mem} {u : Bool}
    (hs : PoolsAt free total s) (h : pdeInit s entry u = .ok (v, t)) : PoolsAt free total t := by
  unfold pdeInit at h
  split at h
  · obtain ⟨⟨p, s₁⟩, hget, h⟩ := bind_eq_ok.mp h
    obtain ⟨rfl, rfl⟩ := Prod.mk.inj (Except.ok.inj h)
    have hat := hs.getPages hget
    exact ⟨hat.total_lt, hat.kernel, hat.user⟩
  · obtain ⟨rfl, rfl⟩ := Prod.mk.inj (Except.ok.inj h)
    exact hs

theorem pagingMapPage_poolsAt {free total vaddr paddr : Nat} {s t : Paging Mem}
    (hs : PoolsAt free total s) (h : pagingMapPage s vaddr paddr = .ok t) :
    PoolsAt free total t := by
  obtain ⟨⟨pml3, s₁⟩, h₁, h⟩ := bind_eq_ok.mp h
  obtain ⟨⟨pml2, s₂⟩, h₂, h⟩ := bind_eq_ok.mp h
  obtain ⟨⟨pml1, s₃⟩, h₃, h⟩ := bind_eq_ok.mp h
  cases Except.ok.inj h
  have hat := pdeInit_poolsAt (pdeInit_poolsAt (pdeInit_poolsAt hs h₁) h₂) h₃
  exact ⟨hat.total_lt, hat.kernel, hat.user⟩

theorem mapPages_poolsAt {free total n : Nat} {s t : Paging Mem} (hs : PoolsAt free total s)
    (h : mapPages s n = .ok t) : PoolsAt free total t := by
  induction n generalizing t with
  | zero =>
    cases Except.ok.inj h
    exact hs
  | succ n ih =>
    obtain ⟨s₁, h₁, h₂⟩ := bind_eq_ok.mp h
    exact pagingMapPage_poolsAt (ih h₁) h₂

/-- `paging_init` leaves the pools where it laid them out. -/
theorem pagingInit_poolsAt {m : Mem} {memoryMap : List MmapEntry} {kernelEnd physEnd : Nat}
    {s : Paging Mem} (h : pagingInit m memoryMap kernelEnd physEnd = .ok s) :
    PoolsAt (freeStart kernelEnd) (poolPages kernelEnd physEnd) s := by
  obtain ⟨s₁, h₁, h⟩ := bind_eq_ok.mp h
  obtain ⟨⟨pml4, s₂⟩, h₂, h⟩ := bind_eq_ok.mp h
  have hat := (poolsInit_poolsAt h₁).1.getPages h₂
  have hat' : PoolsAt (freeStart kernelEnd) (poolPages kernelEnd physEnd)
      { s₂ with initPml4 := pml4 } := ⟨hat.total_lt, hat.kernel, hat.user⟩
  exact mapPages_poolsAt hat' h

/-- The pages that can be handed out hold no part of an allocation bitmap. -/
def StorageApart (s : Paging Mem) : Prop :=
  ∀ id r, bitmapGet s.store (s.pool id).allocatedBmp r = .ok false →
    ∀ x, x < pageSize → ∀ id',
      ¬ (s.pool id').allocatedBmp.Stores ((s.pool id).pageBase + r * pageSize + x)

section Positions

variable {total : Nat}

/-- Page `r` of a pool holds no bit of the allocation bitmaps. -/
def PageApart (total : Nat) (id : PoolId) (r : Nat) : Prop :=
  ∀ (id' : PoolId) (j : Nat), j < id'.pages total →
    ¬ (8 * (id.pageOffset total + 4096 * r) ≤ 8 * id'.bmpOffset total + j ∧
      8 * id'.bmpOffset total + j < 8 * (id.pageOffset total + 4096 * (r + 1)))

/-- Two pools keep their bits in different places. -/
theorem bit_position_inj (htotal : total < 2 ^ 52) {id id' : PoolId} {i j : Nat}
    (hi : i < id.pages total) (hj : j < id'.pages total)
    (h : 8 * id.bmpOffset total + i = 8 * id'.bmpOffset total + j) : id = id' ∧ i = j := by
  have hoff : kPoolPages total ≤ 8 * uBmpOffset total := by
    rw [uBmpOffset, bmpBytes_eq (by unfold kPoolPages; omega)]
    omega
  cases id <;> cases id' <;> simp only [PoolId.bmpOffset, PoolId.pages] at hi hj h
  · exact ⟨rfl, by omega⟩
  · omega
  · omega
  · exact ⟨rfl, by omega⟩

/-- Pages of two pools, or two pages of one, are different memory. -/
theorem page_offset_inj {id id' : PoolId} {r q x y : Nat} (hr : r < id.pages total)
    (hq : q < id'.pages total) (hx : x < 4096) (hy : y < 4096)
    (h : id.pageOffset total + 4096 * r + x = id'.pageOffset total + 4096 * q + y) :
    id = id' ∧ r = q := by
  cases id <;> cases id' <;> simp only [PoolId.pageOffset, PoolId.pages] at hr hq h
  · exact ⟨rfl, by omega⟩
  · omega
  · omega
  · exact ⟨rfl, by omega⟩

end Positions

theorem PoolsAt.pageApart {free total : Nat} {s : Paging Mem} (hs : PoolsAt free total s)
    (hsep : StorageApart s) {id : PoolId} {r : Nat} (hr : r < id.pages total)
    (hclear : allocBit free total s.store id r = false) : PageApart total id r := by
  have htotal := hs.total_lt
  intro id' j hj hin
  have hpages := pages_le total id'
  have hspan := pageOffset_bound total id
  have hget : bitmapGet s.store (s.pool id).allocatedBmp r = .ok false := by
    rw [hs.pool id, bitmapGet_eq _ (by rw [poolAt_size]; exact hr)]
    exact congrArg Except.ok ((hasBit_iff free total id s.store false r).mpr hclear)
  have hbase := poolAt_pageBase free total id
  have hbuf := poolAt_buf free total id'
  have hoff := bmpOffset_bound total id' htotal
  have hno := hsep id r hget
    ((8 * id'.bmpOffset total + j) / 8 - (id.pageOffset total + 4096 * r))
    (by unfold pageSize; omega) id'
  rw [hs.pool id, hs.pool id'] at hno
  apply hno
  refine ⟨j / 8, by rw [poolAt_size]; omega, ?_⟩
  unfold pageSize
  omega

/-! ## Runs -/

/-- Every grant lies in its pool with its bits set, no two share a byte, and
pages that are or were clear hold no bit of the bitmaps. -/
structure Exclusive (free total : Nat) (s : Paging Mem) : Prop where
  pools : PoolsAt free total s
  apart : ∀ (id : PoolId) (r : Nat), r < id.pages total → allocBit free total s.store id r = false →
    PageApart total id r
  grants : ∀ g ∈ s.handed, g.base ≠ 0 → ∃ r, g.base = pageAddr free total g.pool r ∧
    r + g.numPages ≤ g.pool.pages total ∧
    ∀ j, r ≤ j → j < r + g.numPages →
      allocBit free total s.store g.pool j = true ∧ PageApart total g.pool j
  disjoint : s.handed.Pairwise (fun g h => ∀ a, ¬ (g.Holds a ∧ h.Holds a))

section Step

variable {free total : Nat} {s t : Paging Mem} {id : PoolId} {flags n r : Nat}

/-- What a grant does to the allocation bits. -/
theorem Granted.allocBit_iff (hs : Exclusive free total s)
    (h : Granted free total id flags n r s t) {id' : PoolId} {j : Nat} (hj : j < id'.pages total) :
    allocBit free total t.store id' j = true ↔
      allocBit free total s.store id' j = true ∨ id' = id ∧ r ≤ j ∧ j < r + n := by
  have htotal := hs.pools.total_lt
  have hoff := bmpOffset_bound total id' htotal
  have hpages := pages_le total id'
  have hroom := h.room
  -- no page of the grant holds the bit
  have hpage : ¬ (8 * (id.pageOffset total + 4096 * r) ≤ 8 * id'.bmpOffset total + j ∧
      8 * id'.bmpOffset total + j < 8 * (id.pageOffset total + 4096 * (r + n))) := by
    rintro ⟨hlo, hhi⟩
    obtain ⟨q, hq⟩ : ∃ q, q = ((8 * id'.bmpOffset total + j) / 8 - id.pageOffset total) / 4096 :=
      ⟨_, rfl⟩
    have hqr : r ≤ q := by omega
    have hqn : q < r + n := by omega
    exact hs.apart id q (by omega) (h.clear q hqr hqn) id' j hj ⟨by omega, by omega⟩
  by_cases hin : id' = id ∧ r ≤ j ∧ j < r + n
  · obtain ⟨rfl, hrj, hjn⟩ := hin
    have hclear := h.clear j hrj hjn
    have hwin : 8 * id'.bmpOffset total + r ≤ 8 * id'.bmpOffset total + j ∧
        8 * id'.bmpOffset total + j < 8 * id'.bmpOffset total + (r + n) := by omega
    rw [allocBit] at hclear
    rw [allocBit, h.bits _ (by omega), hclear, decide_eq_true hwin,
      decide_eq_false (fun hz => hpage hz.2)]
    simp [hrj, hjn]
  · have hwin : ¬ (8 * id.bmpOffset total + r ≤ 8 * id'.bmpOffset total + j ∧
        8 * id'.bmpOffset total + j < 8 * id.bmpOffset total + (r + n)) := by
      rintro ⟨hlo, hhi⟩
      have hi : 8 * id'.bmpOffset total + j - 8 * id.bmpOffset total < id.pages total := by omega
      have hpos := bit_position_inj htotal hi hj (by omega)
      exact hin ⟨hpos.1.symm, by omega, by omega⟩
    have hsame := h.same (g := 8 * id'.bmpOffset total + j) (by omega) hwin hpage
    rw [allocBit, hsame, ← allocBit]
    simp [hin]

/-- A byte of a grant is in one of its pages. -/
theorem Grant.holds_page {g : Grant} {q a : Nat} (hbase : g.base = pageAddr free total g.pool q)
    (ha : g.Holds a) : ∃ j x, q ≤ j ∧ j < q + g.numPages ∧ x < 4096 ∧
      a % 2 ^ 64 = (free + (g.pool.pageOffset total + 4096 * j + x)) % 2 ^ 64 := by
  obtain ⟨-, y, hy, hay⟩ := ha
  rw [pageSize, Nat.mul_comm] at hy
  rw [hbase, pageAddr_eq] at hay
  exact ⟨q + y / 4096, y % 4096, by omega, by omega, by omega, by omega⟩

theorem grants_disjoint {g h : Grant} {q q' : Nat} (htotal : total < 2 ^ 52)
    (hg : g.base = pageAddr free total g.pool q) (hh : h.base = pageAddr free total h.pool q')
    (hgroom : q + g.numPages ≤ g.pool.pages total) (hhroom : q' + h.numPages ≤ h.pool.pages total)
    (hno : ∀ j, q ≤ j → j < q + g.numPages → q' ≤ j → j < q' + h.numPages → g.pool ≠ h.pool)
    (a : Nat) : ¬ (g.Holds a ∧ h.Holds a) := by
  rintro ⟨hga, hha⟩
  obtain ⟨j, x, hqj, hj, hx, hax⟩ := Grant.holds_page hg hga
  obtain ⟨j', x', hqj', hj', hx', hax'⟩ := Grant.holds_page hh hha
  have hspan := pageOffset_bound total g.pool
  have hspan' := pageOffset_bound total h.pool
  have hin : j < g.pool.pages total := by omega
  have hin' : j' < h.pool.pages total := by omega
  obtain ⟨hpool, rfl⟩ := page_offset_inj hin hin' hx hx' (by omega)
  exact hno j hqj hj hqj' hj' hpool

theorem Exclusive.getPages {c : PagesCall} (hs : Exclusive free total s)
    (h : getPagesStep s c = .ok t) : Exclusive free total t := by
  obtain ⟨p, hget⟩ := getPagesStep_ok h
  obtain ⟨st, hframe⟩ := pagingGetPages_frame hget
  have hlog : t.handed = ⟨poolOf c.flags.toNat, p, c.numPages.toNat⟩ :: s.handed := by rw [hframe]
  have hat := hs.pools.getPages hget
  have htotal := hat.total_lt
  have hnum : c.numPages.toNat < 2 ^ 64 := c.numPages.toNat_lt
  generalize c.numPages.toNat = n at *
  generalize c.flags.toNat = flags at *
  obtain ⟨-, ⟨rfl, hno⟩ | ⟨r, rfl, hgr⟩⟩ := hs.pools.call hnum hget
  · refine ⟨hat, ?_, ?_, ?_⟩
    · rw [hno.store]
      exact hs.apart
    · intro g hg hbase
      rw [hlog] at hg
      rw [hno.store]
      rcases List.mem_cons.mp hg with rfl | hg
      · exact absurd rfl hbase
      · exact hs.grants g hg hbase
    · rw [hlog]
      refine List.Pairwise.cons (fun g _ a hga => ?_) hs.disjoint
      exact hga.1.1 rfl
  · have hroom := hgr.room
    have hset : ∀ (id : PoolId) (j : Nat), j < id.pages total →
        allocBit free total s.store id j = true → allocBit free total t.store id j = true :=
      fun id j hj hb => (hgr.allocBit_iff hs hj).mpr (.inl hb)
    refine ⟨hat, ?_, ?_, ?_⟩
    · intro id j hj hclear
      apply hs.apart id j hj
      by_contra hb
      rw [hset id j hj (by simpa using hb)] at hclear
      cases hclear
    · intro g hg hbase
      rw [hlog] at hg
      rcases List.mem_cons.mp hg with rfl | hg
      · refine ⟨r, rfl, hroom, fun j hrj hj => ?_⟩
        have hjn : j < r + n := hj
        have hin : j < (poolOf flags).pages total := by omega
        exact ⟨(hgr.allocBit_iff hs hin).mpr (.inr ⟨rfl, hrj, hjn⟩),
          hs.apart _ j hin (hgr.clear j hrj hjn)⟩
      · obtain ⟨q, hq, hqroom, hbits⟩ := hs.grants g hg hbase
        refine ⟨q, hq, hqroom, fun j hqj hj => ?_⟩
        exact ⟨hset _ j (by omega) (hbits j hqj hj).1, (hbits j hqj hj).2⟩
    · rw [hlog]
      refine List.Pairwise.cons (fun g hg => ?_) hs.disjoint
      by_cases hbase : g.base = 0
      · exact fun a ha => ha.2.1 hbase
      · obtain ⟨q, hq, hqroom, hbits⟩ := hs.grants g hg hbase
        apply grants_disjoint htotal rfl hq hroom hqroom
        intro j hrj hj hqj hjq hpool
        have hclear := hgr.clear j hrj hj
        have hb := (hbits j hqj hjq).1
        rw [← hpool] at hb
        rw [hb] at hclear
        cases hclear

theorem Exclusive.write {addr : Nat} {v : UInt8} (hs : Exclusive free total s)
    (hown : ∃ g ∈ s.handed, g.Holds addr) :
    Exclusive free total { s with store := s.store.set addr v } := by
  obtain ⟨g, hg, ha⟩ := hown
  obtain ⟨r, hr, hroom, hbits⟩ := hs.grants g hg ha.1
  obtain ⟨k, x, hrk, hk, hx, hax⟩ := Grant.holds_page hr ha
  have htotal := hs.pools.total_lt
  have hspan := pageOffset_bound total g.pool
  have hsame : ∀ (id : PoolId) (j : Nat), j < id.pages total →
      allocBit free total (s.store.set addr v) id j = allocBit free total s.store id j := by
    intro id j hj
    have hoff := bmpOffset_bound total id htotal
    have hpages := pages_le total id
    have hapart := (hbits k hrk hk).2 id j hj
    rw [allocBit, allocBit, set_of_mod_eq _ _ hax, bitAt_set _ _ (by omega) (by omega),
      if_neg (by omega)]
  refine ⟨⟨hs.pools.total_lt, hs.pools.kernel, hs.pools.user⟩, ?_, ?_, hs.disjoint⟩
  · intro id j hj hclear
    exact hs.apart id j hj ((hsame id j hj).symm.trans hclear)
  · intro g' hg' hbase
    obtain ⟨q, hq, hqroom, hqbits⟩ := hs.grants g' hg' hbase
    refine ⟨q, hq, hqroom, fun j hqj hj => ?_⟩
    exact ⟨(hsame g'.pool j (by omega)).trans (hqbits j hqj hj).1, (hqbits j hqj hj).2⟩

end Step

/-! ## The pages that are left -/

/-- The pages of a pool whose bits are clear. -/
def freePages (free total : Nat) (m : Mem) (id : PoolId) : Finset Nat :=
  (Finset.range (id.pages total)).filter fun j => allocBit free total m id j = false

section Free

variable {free total : Nat} {s t : Paging Mem} {id : PoolId} {n r flags : Nat}

theorem mem_freePages {m : Mem} {j : Nat} :
    j ∈ freePages free total m id ↔ j < id.pages total ∧ allocBit free total m id j = false := by
  rw [freePages, Finset.mem_filter, Finset.mem_range]

/-- A grant takes its pages out of the free ones of its pool. -/
theorem Granted.freePages_eq (hs : Exclusive free total s)
    (h : Granted free total id flags n r s t) :
    freePages free total t.store id = freePages free total s.store id \ Finset.Ico r (r + n) ∧
      ∀ id', id' ≠ id → freePages free total t.store id' = freePages free total s.store id' := by
  constructor
  · ext j
    simp only [mem_freePages, Finset.mem_sdiff, Finset.mem_Ico, and_assoc]
    refine and_congr_right fun hj => ?_
    have bits := h.allocBit_iff hs hj
    simp only [true_and] at bits
    rw [← Bool.not_eq_true, ← Bool.not_eq_true, bits, not_or]
  · intro id' other
    ext j
    simp only [mem_freePages]
    refine and_congr_right fun hj => ?_
    have bits := h.allocBit_iff hs hj
    simp only [other, false_and, or_false] at bits
    rw [← Bool.not_eq_true, ← Bool.not_eq_true, bits]

theorem Granted.card (hs : Exclusive free total s) (h : Granted free total id flags n r s t) :
    (freePages free total t.store id).card + n = (freePages free total s.store id).card := by
  have inside : Finset.Ico r (r + n) ⊆ freePages free total s.store id := by
    intro j hj
    have room := h.room
    rw [Finset.mem_Ico] at hj
    exact mem_freePages.mpr ⟨by omega, h.clear j hj.1 hj.2⟩
  have size := Finset.card_sdiff_add_card_eq_card inside
  rwa [← (h.freePages_eq hs).1, Nat.card_Ico, Nat.add_sub_cancel_left] at size

/-- A request for one page finds the first clear one, if there is one. -/
theorem Exclusive.one_page (hs : Exclusive free total s)
    (pages : 0 < (poolOf flags).pages total) :
    ∃ p u, pagingGetPages s 1 flags = .ok (p, u) ∧
      (p = 0 ∧ freePages free total s.store (poolOf flags) = ∅ ∨
        ∃ r ∈ freePages free total s.store (poolOf flags), p = pageAddr free total (poolOf flags) r ∧
          Granted free total (poolOf flags) flags 1 r s u ∧
          ∀ q ∈ freePages free total s.store (poolOf flags), r ≤ q) := by
  have size := poolAt_size free total (poolOf flags)
  have htotal := hs.pools.total_lt
  have most := pages_le total (poolOf flags)
  obtain ⟨p, u, get⟩ := pagingGetPages_returns (hs.pools.pool (poolOf flags)) (by omega)
    (show 0 < 1 by decide) (by omega)
  refine ⟨p, u, get, ?_⟩
  obtain ⟨-, ⟨zero, refused⟩ | ⟨r, address, granted⟩⟩ := hs.pools.call (by decide) get
  · refine .inl ⟨zero, Finset.eq_empty_of_forall_notMem fun j hj => ?_⟩
    obtain ⟨hroom, clear⟩ := mem_freePages.mp hj
    obtain ⟨i, hi, hi', set⟩ := refused.full j (by omega)
    obtain rfl : i = j := by omega
    rw [clear] at set
    cases set
  · have room := granted.room
    refine .inr ⟨r, mem_freePages.mpr ⟨by omega, granted.clear r (Nat.le_refl r) (by omega)⟩,
      address, granted, fun q hq => ?_⟩
    by_contra less
    obtain ⟨j, hj, hj', set⟩ := granted.first q (by omega)
    obtain rfl : j = q := by omega
    rw [(mem_freePages.mp hq).2] at set
    cases set

/-- While a page of the kernel pool is clear, a client that asks for one gets one. -/
theorem Exclusive.next_page (hs : Exclusive free total s)
    (left : 0 < (freePages free total s.store .kernel).card) :
    ∃ r t, pagingStep s (.getPages ⟨1, 0⟩) = .ok t ∧ r < kPoolPages total ∧
      t.handed = ⟨.kernel, pageAddr free total .kernel r, 1⟩ :: s.handed ∧
      Exclusive free total t ∧
      (freePages free total t.store .kernel).card + 1 =
        (freePages free total s.store .kernel).card := by
  obtain ⟨q, hq⟩ := Finset.card_pos.mp left
  have room : q < kPoolPages total := (mem_freePages.mp hq).1
  have pool : poolOf 0 = .kernel := rfl
  obtain ⟨p, t, get, answer⟩ := hs.one_page (show 0 < (poolOf 0).pages total from Nat.zero_lt_of_lt room)
  rcases answer with ⟨-, empty⟩ | ⟨r, mem, rfl, granted, -⟩
  · rw [pool] at empty
    rw [empty] at hq
    cases hq
  · have step : pagingStep s (.getPages ⟨1, 0⟩) = .ok t := bind_eq_ok.mpr ⟨_, get, rfl⟩
    exact ⟨r, t, step, (mem_freePages.mp mem).1, pagingGetPages_handed get, hs.getPages step,
      granted.card hs⟩

end Free

/-- The states that calls and writes reach after `paging_init`; the log starts
empty there. -/
def PagingRun (memoryMap : List MmapEntry) (kernelEnd physEnd : Nat) : Paging Mem → Prop :=
  Reach (fun s => ∃ m s₀, pagingInit m memoryMap kernelEnd physEnd = .ok s₀ ∧ StorageApart s₀ ∧
    s = { s₀ with handed := [] }) OwnWrite pagingStep

theorem PagingRun.step {memoryMap : List MmapEntry} {kernelEnd physEnd : Nat} {s t : Paging Mem}
    {a : PagingAct} (h : PagingRun memoryMap kernelEnd physEnd s) (own : OwnWrite s a)
    (step : pagingStep s a = .ok t) : PagingRun memoryMap kernelEnd physEnd t :=
  Reach.step h own step

theorem PagingRun.exclusive {memoryMap : List MmapEntry} {kernelEnd physEnd : Nat}
    {s : Paging Mem} (h : PagingRun memoryMap kernelEnd physEnd s) :
    Exclusive (freeStart kernelEnd) (poolPages kernelEnd physEnd) s := by
  apply Reach.invariant _ _ h
  · rintro s ⟨m, s₀, hinit, hsep, rfl⟩
    have hat := pagingInit_poolsAt hinit
    refine ⟨⟨hat.total_lt, hat.kernel, hat.user⟩, ?_, by simp, by simp⟩
    intro id r hr hclear
    exact hat.pageApart hsep hr hclear
  · intro s a t hs hown hn
    cases a with
    | getPages c => exact hs.getPages hn
    | write addr v =>
      cases Except.ok.inj hn
      exact hs.write hown

/-- Offsets of the first page of a pool and of the page after its last. -/
def PoolId.span (total : Nat) : PoolId → Nat × Nat
  | .kernel => (0, kPoolPages total * pageSize)
  | .user => (kPoolPages total * pageSize, total * pageSize)

/-- In every run the grants are pairwise disjoint and each lies in its pool's
pages; a further call grants only pages whose bits are clear. -/
theorem grants_exclusive {memoryMap : List MmapEntry} {kernelEnd physEnd : Nat} {s : Paging Mem}
    (hs : PagingRun memoryMap kernelEnd physEnd s) :
    s.handed.Pairwise (fun g h => ∀ a, ¬ (g.Holds a ∧ h.Holds a)) ∧
    (∀ g ∈ s.handed, g.base ≠ 0 → ∃ off, g.base = (freeStart kernelEnd + off) % 2 ^ 64 ∧
      (g.pool.span (poolPages kernelEnd physEnd)).1 ≤ off ∧
      off + g.numPages * pageSize ≤ (g.pool.span (poolPages kernelEnd physEnd)).2) ∧
    ∀ (c : PagesCall) (p : Nat) (t : Paging Mem),
      pagingGetPages s c.numPages.toNat c.flags.toNat = .ok (p, t) → p ≠ 0 →
      ∃ r, p = ((s.pool (poolOf c.flags.toNat)).pageBase + r * pageSize) % 2 ^ 64 ∧
        ∀ i, i < c.numPages.toNat →
          bitmapGet s.store (s.pool (poolOf c.flags.toNat)).allocatedBmp (r + i) = .ok false := by
  have hex := hs.exclusive
  refine ⟨hex.disjoint, ?_, ?_⟩
  · intro g hg hbase
    obtain ⟨r, hr, hroom, -⟩ := hex.grants g hg hbase
    refine ⟨g.pool.pageOffset (poolPages kernelEnd physEnd) + 4096 * r, ?_, ?_⟩
    · rw [hr, pageAddr_eq]
    · cases hpool : g.pool <;> rw [hpool] at hroom <;>
        simp only [PoolId.pageOffset, PoolId.span, PoolId.pages, uPoolPages, kPoolPages, pageSize]
          at hroom ⊢ <;> omega
  · intro c p t hget hp
    have hpool := hex.pools.pool (poolOf c.flags.toNat)
    obtain ⟨-, ⟨rfl, -⟩ | ⟨r, rfl, hgr⟩⟩ := hex.pools.call c.numPages.toNat_lt hget
    · exact absurd rfl hp
    · have hroom := hgr.room
      refine ⟨r, by rw [hpool]; rfl, fun i hi => ?_⟩
      rw [hpool, bitmapGet_eq _ (by rw [poolAt_size]; omega)]
      exact congrArg Except.ok ((hasBit_iff ..).mpr (hgr.clear (r + i) (by omega) (by omega)))

/-! ## A run -/

/-- While the bitmaps fit in the first page and that page is taken, the pages
that can be handed out are apart from them. -/
theorem PoolsAt.storageApart {free total : Nat} {s : Paging Mem} (hs : PoolsAt free total s)
    (hsmall : total ≤ 16384) (htaken : bitAt s.store free 0 = true) : StorageApart s := by
  intro id r hget x hx id' hst
  have hmd := mdEnd_le_page hsmall
  have hr : r < id.pages total := by
    have hi := (assert_bind_eq_ok.mp hget).1
    rwa [hs.pool id, poolAt_size] at hi
  rw [hs.pool id, bitmapGet_eq _ (by rwa [poolAt_size]), Except.ok.injEq] at hget
  have hclear := (hasBit_iff free total id s.store false r).mp hget
  have hpast : 4096 ≤ id.pageOffset total + 4096 * r := by
    by_contra hlt
    rw [allocBit, first_bit_of_page total id hr (by omega), htaken] at hclear
    cases hclear
  obtain ⟨y, hy, hay⟩ := hs.stores_offset id' (.inl hst)
  have hspan := pageOffset_bound total id
  have hbase := poolAt_pageBase free total id
  rw [hs.pool id] at hay
  unfold pageSize at hx hay
  omega

theorem Grant.holds_base {g : Grant} (base : g.base ≠ 0) (some : 0 < g.numPages) :
    g.Holds g.base :=
  ⟨base, 0, Nat.mul_pos some (by decide), by rw [Nat.add_zero]⟩

/-- Sixteen pages past a kernel that ends at 1 MiB: `paging_init` builds its
tables, and of the kernel pool three pages are left. -/
theorem sixteen_pages_left :
    ∃ s₀ s, poolsInit (σ := Mem) ⟨fun _ => 0⟩ [⟨0, 0x110000, 1⟩] 0xFFFFFFFF80100000 0x110000 =
        .ok s₀ ∧ EnoughPages (freeStart 0xFFFFFFFF80100000) s₀ ∧
      pagingInit ⟨fun _ => 0⟩ [⟨0, 0x110000, 1⟩] 0xFFFFFFFF80100000 0x110000 = .ok s ∧
      StorageApart s ∧
      (freePages (freeStart 0xFFFFFFFF80100000) (poolPages 0xFFFFFFFF80100000 0x110000) s.store
        .kernel).card = 3 ∧
      walk s.store (kVtop s.initPml4) 0xFFFFFFFF80000000 = some 0 := by
  obtain ⟨s, hs, enough, left⟩ := eightPagesLeft_spec [⟨0, 0x110000, 1⟩] 0xFFFFFFFF80100000
    0x110000 (by decide +kernel)
  obtain ⟨pools, total, log⟩ := poolsInit_poolsAt hs
  obtain ⟨t, tab, reserve, ht, tables⟩ := enough.tables (freeStart_aligned _) pools total log
  rw [total] at left
  have taken : bitAt t.store (freeStart 0xFFFFFFFF80100000) 0 = true := by
    have first := (poolsInit_firstPageKept hs).taken (by decide +kernel)
    by_contra clear
    have before := ((tables.tree.bits 0 (by decide)).mp (by simpa using clear)).1
    rw [first] at before
    cases before
  have init : pagingInit ⟨fun _ => 0⟩ [⟨0, 0x110000, 1⟩] 0xFFFFFFFF80100000 0x110000 = .ok t :=
    bind_eq_ok.mpr ⟨s, hs, ht⟩
  have eight : PoolId.pages (poolPages 0xFFFFFFFF80100000 0x110000) .kernel = 8 := by decide +kernel
  have same : freePages (freeStart 0xFFFFFFFF80100000) (poolPages 0xFFFFFFFF80100000 0x110000) t.store
      .kernel = clearPages (freeStart 0xFFFFFFFF80100000) 8 t.store := by
    rw [freePages, eight, clearPages]
    simp only [allocBit, PoolId.bmpOffset, Nat.mul_zero, Nat.zero_add]
  have count := tables.tree.card_clear
  have first : walk t.store (kVtop t.initPml4) 0xFFFFFFFF80000000 = some 0 :=
    (tables.walk_self_iff reserve (by decide) (by decide)).mpr (by decide +kernel)
  exact ⟨s, t, hs, ⟨8, enough⟩, init, tables.pools.storageApart (by decide +kernel) taken,
    by rw [same]; omega, first⟩

/-- Two of the three pages are granted, and the second client writes to its own. -/
theorem grants_exclusive_after_init :
    ∃ s p q, PagingRun [⟨0, 0x110000, 1⟩] 0xFFFFFFFF80100000 0x110000 s ∧ p ≠ 0 ∧ q ≠ 0 ∧
      s.handed = [⟨.kernel, q, 1⟩, ⟨.kernel, p, 1⟩] ∧ s.store.get q = 7 ∧
      ∀ a, ¬ ((Grant.mk .kernel q 1).Holds a ∧ (Grant.mk .kernel p 1).Holds a) := by
  obtain ⟨-, s, -, -, init, apart, left, -⟩ := sixteen_pages_left
  have start : PagingRun [⟨0, 0x110000, 1⟩] 0xFFFFFFFF80100000 0x110000 { s with handed := [] } :=
    .start ⟨_, s, init, apart, rfl⟩
  have nonnull : ∀ r, r < kPoolPages (poolPages 0xFFFFFFFF80100000 0x110000) →
      pageAddr (freeStart 0xFFFFFFFF80100000) (poolPages 0xFFFFFFFF80100000 0x110000) .kernel r ≠
        0 := by decide +kernel
  obtain ⟨r, t, step, room, log, exclusive, more⟩ := start.exclusive.next_page (by
    change 0 < (freePages _ _ s.store _).card
    omega)
  have run := start.step (a := .getPages ⟨1, 0⟩) trivial step
  obtain ⟨r', u, step', room', log', -, -⟩ := exclusive.next_page (by
    change _ + 1 = (freePages _ _ s.store _).card at more
    omega)
  have run' := run.step (a := .getPages ⟨1, 0⟩) trivial step'
  rw [log] at log'
  have own : ∃ g ∈ u.handed, g.Holds (pageAddr (freeStart 0xFFFFFFFF80100000)
      (poolPages 0xFFFFFFFF80100000 0x110000) .kernel r') :=
    ⟨_, by rw [log']; exact List.mem_cons_self, Grant.holds_base (nonnull r' room') Nat.one_pos⟩
  have written := run'.step (a := .write _ 7) own rfl
  have disjoint := (grants_exclusive written).1
  change u.handed.Pairwise _ at disjoint
  rw [log'] at disjoint
  refine ⟨_, _, _, written, nonnull r room, nonnull r' room', log', ?_,
    (List.pairwise_cons.mp disjoint).1 _ List.mem_cons_self⟩
  have low : pageAddr (freeStart 0xFFFFFFFF80100000) (poolPages 0xFFFFFFFF80100000 0x110000) .kernel
      r' < 2 ^ 64 := pageAddr_lt ..
  change (u.store.set _ 7).get _ = 7
  rw [get_set_at _ _ low low, if_pos rfl]

end WaddleOS
