import WaddleOS.Base.Run
import WaddleOS.Paging.Grants

/-!
# The pools' own memory

The four bitmaps stand at the start of the free memory, inside the kernel
pool's first pages. `memory_pool_init` sets the first bit of every pool and no
call clears it, so the first page is never handed out: the bitmaps are safe as
long as they fit in it.
-/

namespace WaddleOS

/-! ## Clients -/

def pagingStep (s : Paging Mem) : PagingAct → Except Fault (Paging Mem)
  | .getPages c => getPagesStep s c
  | .write addr v => .ok { s with store := s.store.set addr v }

/-- The byte at `a` is in the buffer of a bitmap. -/
def Bitmap.Stores (bmp : Bitmap) (a : Nat) : Prop :=
  ∃ x, x < (bmp.size + 7) / 8 ∧ a % 2 ^ 64 = (bmp.buf + x) % 2 ^ 64

/-- No grant reaches into a bitmap. -/
def MetadataKept (s : Paging Mem) : Prop :=
  ∀ g ∈ s.handed, ∀ a, g.Holds a → ∀ id,
    ¬ (s.pool id).allocatedBmp.Stores a ∧ ¬ (s.pool id).pinnedBmp.Stores a

theorem bitAt_set (m : Mem) (v : UInt8) {b o g : Nat} (ho : o < 2 ^ 64) (hg : g < 2 ^ 67) :
    bitAt (m.set (b + o) v) b g = if g / 8 = o then v.toNat.testBit (g % 8) else bitAt m b g := by
  rw [bitAt, get_set m v ho (by omega)]
  split <;> rfl

theorem set_of_mod_eq (m : Mem) (v : UInt8) {a b : Nat} (h : a % 2 ^ 64 = b % 2 ^ 64) :
    m.set a v = m.set b v := by
  rw [Mem.set, Mem.set, h]

theorem get_set_mod (m : Mem) (addr : Nat) (v : UInt8) {a : Nat} (ha : a < 2 ^ 64) :
    (m.set addr v).get a = if a = addr % 2 ^ 64 then v else m.get a := by
  rw [set_of_mod_eq m v (Nat.mod_mod addr _).symm]
  exact get_set_at m v (Nat.mod_lt _ (by decide)) ha

/-! ## The first bit of a pool -/

section Marks

variable {b o : Nat} {m m' : Mem}

/-- Bits below the buffer at offset `o` are as they were and the first of the
buffer, once set, stays set. -/
structure KeepsFirst (b o : Nat) (m m' : Mem) : Prop where
  below : ∀ g, g < 8 * o → bitAt m' b g = bitAt m b g
  first : bitAt m b (8 * o) = true → bitAt m' b (8 * o) = true

theorem KeepsFirst.refl (b o : Nat) (m : Mem) : KeepsFirst b o m m := ⟨fun _ _ => rfl, fun h => h⟩

theorem KeepsFirst.trans {m'' : Mem} (h : KeepsFirst b o m m') (h' : KeepsFirst b o m' m'') :
    KeepsFirst b o m m'' :=
  ⟨fun g hg => (h'.below g hg).trans (h.below g hg), fun hb => h'.first (h.first hb)⟩

/-- A change that starts past the first byte of the buffer. -/
theorem KeepsFirst.of_below {q : Nat} (hoq : o < q)
    (h : ∀ g, g < 8 * q → bitAt m' b g = bitAt m b g) : KeepsFirst b o m m' :=
  ⟨fun g hg => h g (by omega), fun hb => (h (8 * o) (by omega)).trans hb⟩

theorem bitmapSet_below {bmp : Bitmap} {i : Nat} {v : Bool} (h : bitmapSet m bmp i v = .ok m')
    (hbuf : bmp.buf % 2 ^ 64 = (b + o) % 2 ^ 64) (ho : o + bmp.size + 8 ≤ 2 ^ 64) (g : Nat)
    (hg : g < 8 * o) : bitAt m' b g = bitAt m b g := by
  have hi := bitmapSet_ok h
  rw [bitAt_bitmapSet h hbuf (by omega) g (by omega), if_neg (by omega)]

theorem bitmapSet_first {bmp : Bitmap} {i : Nat} (h : bitmapSet m bmp i true = .ok m')
    (hbuf : bmp.buf % 2 ^ 64 = (b + o) % 2 ^ 64) (ho : o + bmp.size + 8 ≤ 2 ^ 64)
    (hset : bitAt m b (8 * o) = true ∨ i = 0) : bitAt m' b (8 * o) = true := by
  have hi := bitmapSet_ok h
  rw [bitAt_bitmapSet h hbuf (by omega) _ (by omega)]
  split
  · have hzero : 8 * o - (8 * o + 64 * (i / 64)) = 0 := by omega
    rw [hzero, setEffect]
    rcases hset with hset | rfl
    · by_cases hi0 : i % 64 = 0
      · simp [hi0]
      · have hne : 0 ≠ i % 64 := fun e => hi0 e.symm
        simp [hset, hne]
    · simp
  · rename_i hout
    rcases hset with hset | rfl
    · exact hset
    · omega

/-- A pool of `n` pages whose bitmaps start at `b + o`, the second behind the
first. -/
structure PoolHere (b o n : Nat) (pool : Pool) : Prop where
  size_a : pool.allocatedBmp.size = n
  size_p : pool.pinnedBmp.size = n
  buf_a : pool.allocatedBmp.buf % 2 ^ 64 = (b + o) % 2 ^ 64
  buf_p : pool.pinnedBmp.buf % 2 ^ 64 = (b + (o + (n + 7) / 8)) % 2 ^ 64
  small : n ≤ 2 ^ 52
  bound : o + 2 * n + 16 ≤ 2 ^ 64

variable {pool : Pool} {n : Nat}

theorem markPage_keepsFirst (hp : PoolHere b o n pool) {i : Nat}
    (h : markPage m pool i = .ok m') :
    KeepsFirst b o m m' ∧ (i = 0 → bitAt m' b (8 * o) = true) := by
  obtain ⟨m₁, h₁, h₂⟩ := bind_eq_ok.mp h
  have hbound := hp.bound
  have hsa := hp.size_a
  have hsp := hp.size_p
  have hi : i < n := hsa ▸ bitmapSet_ok h₁
  have hpinned : KeepsFirst b o m₁ m' :=
    KeepsFirst.of_below (q := o + (n + 7) / 8) (by omega)
      (fun g hg => bitmapSet_below h₂ hp.buf_p (by omega) g hg)
  refine ⟨KeepsFirst.trans ⟨?_, ?_⟩ hpinned, ?_⟩
  · exact fun g hg => bitmapSet_below h₁ hp.buf_a (by omega) g hg
  · exact fun hb => bitmapSet_first h₁ hp.buf_a (by omega) (.inl hb)
  · exact fun hi => hpinned.first (bitmapSet_first h₁ hp.buf_a (by omega) (.inr hi))

theorem markPages_keepsFirst (hp : PoolHere b o n pool) {lo cnt : Nat}
    (h : markPages m pool lo cnt = .ok m') :
    KeepsFirst b o m m' ∧ (lo = 0 → 0 < cnt → bitAt m' b (8 * o) = true) := by
  induction cnt generalizing m' with
  | zero =>
    cases Except.ok.inj h
    exact ⟨.refl b o m, by omega⟩
  | succ cnt ih =>
    obtain ⟨m₁, h₁, h₂⟩ := bind_eq_ok.mp h
    obtain ⟨hkeep, hset⟩ := ih h₁
    obtain ⟨hkeep', hset'⟩ := markPage_keepsFirst hp h₂
    refine ⟨hkeep.trans hkeep', fun hlo _ => ?_⟩
    by_cases hcnt : cnt = 0
    · exact hset' (by omega)
    · exact hkeep'.first (hset hlo (by omega))

theorem markReserved_keepsFirst (hp : PoolHere b o n pool) {es : List MmapEntry}
    (h : markReserved m pool n es = .ok m') : KeepsFirst b o m m' := by
  induction es generalizing m with
  | nil =>
    cases Except.ok.inj h
    exact .refl b o _
  | cons e es ih =>
    rw [markReserved] at h
    split at h
    · obtain ⟨m₁, h₁, h₂⟩ := bind_eq_ok.mp h
      exact (markPages_keepsFirst hp h₁).1.trans (ih h₂)
    · exact ih h

theorem memset_below {a : Nat} (cnt : Nat) (ha : a % 2 ^ 64 = (b + o) % 2 ^ 64)
    (ho : o + cnt ≤ 2 ^ 64) (g : Nat) (hg : g < 8 * o) :
    bitAt (memset m a 0 cnt) b g = bitAt m b g := by
  rw [memset_of_mod_eq m 0 cnt ha, bitAt_memset_zero m ho (by omega)]
  have hout : ¬ (8 * o ≤ g ∧ g < 8 * (o + cnt)) := by omega
  simp [hout]

/-- `memory_pool_init` leaves the memory below the pool's bitmaps alone and
sets the pool's first bit, if it has one. -/
theorem memoryPoolInit_first {memoryMap : List MmapEntry} {poolBase pageBase : Nat}
    (h : memoryPoolInit m memoryMap poolBase pageBase n = .ok (pool, m'))
    (hp : PoolHere b o n pool) :
    (∀ g, g < 8 * o → bitAt m' b g = bitAt m b g) ∧ (0 < n → bitAt m' b (8 * o) = true) := by
  have hbound := hp.bound
  obtain ⟨⟨a, m₁⟩, h₁, h⟩ := bind_eq_ok.mp h
  obtain ⟨⟨c, m₂⟩, h₂, h⟩ := bind_eq_ok.mp h
  obtain ⟨m₃, h₃, h⟩ := bind_eq_ok.mp h
  obtain ⟨m₄, h₄, h⟩ := bind_eq_ok.mp h
  obtain ⟨rfl, rfl⟩ := Prod.mk.inj (Except.ok.inj h)
  obtain ⟨rfl, rfl⟩ := bitmapInitBuf_ok h₁
  obtain ⟨rfl, rfl⟩ := bitmapInitBuf_ok h₂
  obtain ⟨hmark, hset⟩ := markPages_keepsFirst hp h₃
  have hres := markReserved_keepsFirst hp h₄
  constructor
  · intro g hg
    rw [hres.below g hg, hmark.below g hg,
      memset_below (o := o + (n + 7) / 8) _ hp.buf_p (by omega) g (by omega),
      memset_below _ hp.buf_a (by omega) g hg]
  · intro hn
    have hmd : 0 < mdPages n := by
      rw [mdPages_eq hp.small]
      omega
    exact hres.first (hset rfl hmd)

end Marks

/-! ## The first page in every run -/

theorem kernelPoolHere (free : Nat) {total : Nat} (h : total < 2 ^ 52) :
    PoolHere free 0 (kPoolPages total) (kernelPoolAt free total) := by
  have hk : kPoolPages total ≤ 2 ^ 52 := by unfold kPoolPages; omega
  refine ⟨rfl, rfl, by simp [kernelPoolAt], ?_, hk, by omega⟩
  simp only [kernelPoolAt, bmpBytes_eq hk]
  omega

theorem userPoolHere (free : Nat) {total : Nat} (h : total < 2 ^ 52) :
    PoolHere free (uBmpOffset total) (uPoolPages total) (userPoolAt free total) := by
  have hu : uPoolPages total ≤ 2 ^ 52 := by unfold uPoolPages; omega
  have ho := bmpOffset_bound total .user h
  simp only [PoolId.bmpOffset] at ho
  refine ⟨rfl, rfl, by simp [userPoolAt], ?_, hu, by omega⟩
  simp only [userPoolAt, bmpBytes_eq hu]
  omega

/-- The first page of the free memory is taken and no grant reaches it. -/
structure FirstPageKept (free total : Nat) (s : Paging Mem) : Prop where
  pools : PoolsAt free total s
  taken : 0 < total → bitAt s.store free 0 = true
  grants : ∀ g ∈ s.handed, g.base ≠ 0 → ∃ off, g.base = (free + off) % 2 ^ 64 ∧ 4096 ≤ off ∧
    off + 4096 * g.numPages ≤ 4096 * total

theorem uBmpOffset_pos {total : Nat} (h : total < 2 ^ 52) (hk : 0 < kPoolPages total) :
    0 < uBmpOffset total := by
  rw [uBmpOffset, bmpBytes_eq (by unfold kPoolPages; omega)]
  omega

theorem poolsInit_firstPageKept {m : Mem} {memoryMap : List MmapEntry} {kernelEnd physEnd : Nat}
    {s : Paging Mem} (h : poolsInit m memoryMap kernelEnd physEnd = .ok s) :
    FirstPageKept (freeStart kernelEnd) (poolPages kernelEnd physEnd) s := by
  obtain ⟨hat, -, hlog⟩ := poolsInit_poolsAt h
  refine ⟨hat, fun hpos => ?_, by simp [hlog]⟩
  have htotal := hat.total_lt
  generalize htot : poolPages kernelEnd physEnd = total at *
  generalize hfree : freeStart kernelEnd = free at *
  obtain ⟨⟨k, m₁⟩, hk, h⟩ := bind_eq_ok.mp h
  obtain ⟨⟨u, m₂⟩, hu, h⟩ := bind_eq_ok.mp h
  cases Except.ok.inj h
  simp only [hfree, htot] at hk hu
  obtain rfl : k = kernelPoolAt free total := hat.kernel
  obtain rfl : u = userPoolAt free total := hat.user
  obtain ⟨-, hkset⟩ := memoryPoolInit_first hk (kernelPoolHere free htotal)
  obtain ⟨hubelow, huset⟩ := memoryPoolInit_first hu (userPoolHere free htotal)
  by_cases hkp : 0 < kPoolPages total
  · have hoff := uBmpOffset_pos htotal hkp
    change bitAt m₂ free 0 = true
    rw [hubelow 0 (by omega)]
    exact hkset hkp
  · have hzero : uBmpOffset total = 0 := by
      have hk0 : kPoolPages total = 0 := by omega
      rw [uBmpOffset, hk0]
      rfl
    have hup : 0 < uPoolPages total := by
      unfold uPoolPages
      unfold kPoolPages at hkp
      omega
    have hbit := huset hup
    rwa [hzero] at hbit

/-- The bit of page `r` of a pool is the first page's bit only for the page
that stands first. -/
theorem first_bit_of_page (total : Nat) {r : Nat} (id : PoolId) (hr : r < id.pages total)
    (hoff : id.pageOffset total + 4096 * r < 4096) :
    8 * id.bmpOffset total + r = 0 := by
  cases id with
  | kernel =>
    simp only [PoolId.pageOffset, PoolId.bmpOffset] at hoff ⊢
    omega
  | user =>
    simp only [PoolId.pageOffset, PoolId.bmpOffset] at hoff ⊢
    have hk : kPoolPages total = 0 := by omega
    have hb : uBmpOffset total = 0 := by
      rw [uBmpOffset, hk]
      rfl
    omega

theorem FirstPageKept.getPages {free total : Nat} {s t : Paging Mem} {c : PagesCall}
    (hs : FirstPageKept free total s) (h : getPagesStep s c = .ok t) :
    FirstPageKept free total t := by
  obtain ⟨p, hget⟩ := getPagesStep_ok h
  obtain ⟨st, hframe⟩ := pagingGetPages_frame hget
  have hlog : t.handed = ⟨poolOf c.flags.toNat, p, c.numPages.toNat⟩ :: s.handed := by rw [hframe]
  have hat := hs.pools.getPages hget
  have htotal := hat.total_lt
  have hnum : c.numPages.toNat < 2 ^ 64 := c.numPages.toNat_lt
  generalize c.numPages.toNat = n at *
  generalize c.flags.toNat = flags at *
  obtain ⟨⟨hn, -⟩, ⟨rfl, hno⟩ | ⟨r, rfl, hgr⟩⟩ := hs.pools.call hnum hget
  · refine ⟨hat, fun hpos => by rw [hno.store]; exact hs.taken hpos, ?_⟩
    intro g hg hbase
    rw [hlog] at hg
    rcases List.mem_cons.mp hg with rfl | hg
    · exact absurd rfl hbase
    · exact hs.grants g hg hbase
  · have hroom := hgr.room
    have hspan := pageOffset_bound total (poolOf flags)
    have hpages := pages_le total (poolOf flags)
    have htaken := hs.taken (by omega)
    -- page `r` is not the first one: its bit was clear
    have hpast : 4096 ≤ (poolOf flags).pageOffset total + 4096 * r := by
      by_contra hlt
      have hzero := first_bit_of_page total (poolOf flags) (r := r) (by omega) (by omega)
      have hclear := hgr.clear r (by omega) (by omega)
      rw [allocBit, hzero, htaken] at hclear
      cases hclear
    have hnz : ¬ (8 * (poolOf flags).bmpOffset total + r ≤ 0 ∧
        0 < 8 * (poolOf flags).bmpOffset total + (r + n)) := by
      rintro ⟨hle, -⟩
      have hclear := hgr.clear r (by omega) (by omega)
      rw [allocBit, Nat.le_zero.mp hle, htaken] at hclear
      cases hclear
    refine ⟨hat, fun _ => ?_, ?_⟩
    · rw [hgr.same (by omega) hnz (by omega)]
      exact htaken
    · intro g hg hbase
      rw [hlog] at hg
      rcases List.mem_cons.mp hg with rfl | hg
      · exact ⟨(poolOf flags).pageOffset total + 4096 * r, pageAddr_eq .., hpast, by dsimp only; omega⟩
      · exact hs.grants g hg hbase

/-- A byte of a grant, as an offset from the start of the free memory. -/
theorem FirstPageKept.holds_offset {free total : Nat} {s : Paging Mem}
    (hs : FirstPageKept free total s) {g : Grant} (hg : g ∈ s.handed) {a : Nat} (ha : g.Holds a) :
    ∃ x, 4096 ≤ x ∧ x < 4096 * total ∧ a % 2 ^ 64 = (free + x) % 2 ^ 64 := by
  obtain ⟨hbase, y, hy, hay⟩ := ha
  obtain ⟨off, hoff, hlo, hhi⟩ := hs.grants g hg hbase
  rw [pageSize, Nat.mul_comm] at hy
  exact ⟨off + y, by omega, by omega, by omega⟩

theorem FirstPageKept.write {free total addr : Nat} {v : UInt8} {s : Paging Mem}
    (hs : FirstPageKept free total s) (hown : ∃ g ∈ s.handed, g.Holds addr) :
    FirstPageKept free total { s with store := s.store.set addr v } := by
  obtain ⟨g, hg, ha⟩ := hown
  obtain ⟨x, hlo, hhi, hx⟩ := hs.holds_offset hg ha
  have htotal := hs.pools.total_lt
  refine ⟨⟨hs.pools.total_lt, hs.pools.kernel, hs.pools.user⟩, fun hpos => ?_, hs.grants⟩
  have hset := bitAt_set s.store v (b := free) (o := x) (g := 0) (by omega) (by omega)
  change bitAt (s.store.set addr v) free 0 = true
  rw [set_of_mod_eq s.store v hx, hset, if_neg (by omega)]
  exact hs.taken hpos

/-- The states that calls and writes reach from the pools as `paging_init`
set them up. -/
def PoolRun (memoryMap : List MmapEntry) (kernelEnd physEnd : Nat) : Paging Mem → Prop :=
  Reach (fun s => ∃ m : Mem, poolsInit m memoryMap kernelEnd physEnd = .ok s) OwnWrite pagingStep

theorem PoolRun.firstPageKept {memoryMap : List MmapEntry} {kernelEnd physEnd : Nat}
    {s : Paging Mem} (h : PoolRun memoryMap kernelEnd physEnd s) :
    FirstPageKept (freeStart kernelEnd) (poolPages kernelEnd physEnd) s := by
  apply Reach.invariant _ _ h
  · rintro s ⟨m, hm⟩
    exact poolsInit_firstPageKept hm
  · intro s a t hs hown hn
    cases a with
    | getPages c => exact hs.getPages hn
    | write addr v =>
      cases Except.ok.inj hn
      exact hs.write hown

/-- The bitmaps fit in the first page up to 16384 pages. -/
theorem mdEnd_le_page {total : Nat} (h : total ≤ 16384) : mdEnd total ≤ 4096 := by
  unfold mdEnd uBmpOffset uPoolPages kPoolPages
  rw [bmpBytes_eq (by omega), bmpBytes_eq (by omega)]
  omega

/-- A byte of a bitmap, as an offset from the start of the free memory. -/
theorem PoolsAt.stores_offset {free total : Nat} {s : Paging Mem} (hs : PoolsAt free total s)
    (id : PoolId) {a : Nat}
    (ha : (s.pool id).allocatedBmp.Stores a ∨ (s.pool id).pinnedBmp.Stores a) :
    ∃ x, x < mdEnd total ∧ a % 2 ^ 64 = (free + x) % 2 ^ 64 := by
  have htotal := hs.total_lt
  have hk : kPoolPages total ≤ 2 ^ 52 := by unfold kPoolPages; omega
  have hu : uPoolPages total ≤ 2 ^ 52 := by unfold uPoolPages; omega
  rw [hs.pool id] at ha
  unfold mdEnd uBmpOffset
  rw [bmpBytes_eq hk, bmpBytes_eq hu]
  cases id with
  | kernel =>
    simp only [poolAt, kernelPoolAt, bmpBytes_eq hk, Bitmap.Stores] at ha
    rcases ha with ⟨x, hx, ha⟩ | ⟨x, hx, ha⟩
    · exact ⟨x, by omega, by omega⟩
    · exact ⟨(kPoolPages total + 7) / 8 + x, by omega, by omega⟩
  | user =>
    simp only [poolAt, userPoolAt, uBmpOffset, bmpBytes_eq hk, bmpBytes_eq hu, Bitmap.Stores] at ha
    rcases ha with ⟨x, hx, ha⟩ | ⟨x, hx, ha⟩
    · exact ⟨(kPoolPages total + 7) / 8 * 2 + x, by omega, by omega⟩
    · exact ⟨(kPoolPages total + 7) / 8 * 2 + ((uPoolPages total + 7) / 8 + x), by omega, by omega⟩

/-- With at most 16384 pages no grant of any run reaches into a bitmap. -/
theorem metadata_never_granted {memoryMap : List MmapEntry} {kernelEnd physEnd : Nat}
    (hsmall : poolPages kernelEnd physEnd ≤ 16384) {s : Paging Mem}
    (hs : PoolRun memoryMap kernelEnd physEnd s) : MetadataKept s := by
  have hkept := hs.firstPageKept
  have hmd := mdEnd_le_page hsmall
  have htotal := hkept.pools.total_lt
  have hapart : ∀ g ∈ s.handed, ∀ a, g.Holds a → ∀ id,
      ¬ ((s.pool id).allocatedBmp.Stores a ∨ (s.pool id).pinnedBmp.Stores a) := by
    intro g hg a ha id hst
    obtain ⟨x, hlo, hhi, hx⟩ := hkept.holds_offset hg ha
    obtain ⟨y, hy, hay⟩ := hkept.pools.stores_offset id hst
    omega
  intro g hg a ha id
  exact not_or.mp (hapart g hg a ha id)

/-! ## Two memory sizes -/

/-- Calls played from zeroed memory. -/
def playPools (memoryMap : List MmapEntry) (kernelEnd physEnd : Nat) (calls : List PagesCall)
    (last : Paging Mem → Bool) : Bool :=
  match poolsInit (σ := Mem) ⟨fun _ => 0⟩ memoryMap kernelEnd physEnd with
  | .ok s => checkRun (fun _ _ => true) getPagesStep last s calls
  | .error _ => false

theorem poolRun_of_calls {memoryMap : List MmapEntry} {kernelEnd physEnd : Nat} {s : Paging Mem}
    (h : Reach (fun s => ∃ m : Mem, poolsInit m memoryMap kernelEnd physEnd = .ok s)
      (fun _ _ => True) getPagesStep s) : PoolRun memoryMap kernelEnd physEnd s := by
  induction h with
  | start hs => exact .start hs
  | step _ _ hn ih => exact Reach.step (a := .getPages _) ih trivial hn

theorem poolRun_played (memoryMap : List MmapEntry) (kernelEnd physEnd : Nat)
    (calls : List PagesCall) (last : Paging Mem → Bool)
    (run : playPools memoryMap kernelEnd physEnd calls last = true) :
    ∃ s, PoolRun memoryMap kernelEnd physEnd s ∧ last s = true := by
  unfold playPools at run
  split at run
  · rename_i s hs
    have hstart : Reach (fun s => ∃ m : Mem, poolsInit m memoryMap kernelEnd physEnd = .ok s)
        (fun _ _ => True) getPagesStep s := .start ⟨_, hs⟩
    obtain ⟨t, ht, hlast⟩ := hstart.of_check _ _ calls (fun _ _ _ => trivial) run
    exact ⟨t, poolRun_of_calls ht, hlast⟩
  · cases run

/-- Sixteen pages, four of them granted. -/
theorem metadata_never_granted_sixteen :
    ∃ s, PoolRun [⟨0, 0x110000, 1⟩] 0xFFFFFFFF80100000 0x110000 s ∧
      s.handed = [⟨.user, 0xFFFFFFFF80109000, 1⟩, ⟨.kernel, 0xFFFFFFFF80102000, 2⟩,
        ⟨.kernel, 0xFFFFFFFF80101000, 1⟩] ∧ MetadataKept s := by
  obtain ⟨s, hs, hlast⟩ := poolRun_played [⟨0, 0x110000, 1⟩] 0xFFFFFFFF80100000 0x110000
    [⟨1, 0⟩, ⟨2, 0⟩, ⟨1, 1⟩] (fun s => s.handed == [⟨.user, 0xFFFFFFFF80109000, 1⟩,
      ⟨.kernel, 0xFFFFFFFF80102000, 2⟩, ⟨.kernel, 0xFFFFFFFF80101000, 1⟩]) (by decide +kernel)
  exact ⟨s, hs, by simpa using hlast, metadata_never_granted (by decide +kernel) hs⟩

/-- With 16385 pages the user pool's bitmaps end in the second page, which the
first call hands out. -/
theorem user_bitmap_handed_out :
    0 < poolPages 0xFFFFFFFF80100000 0x4101000 ∧
    ∃ s, PoolRun [⟨0, 0x4101000, 1⟩] 0xFFFFFFFF80100000 0x4101000 s ∧ ¬ MetadataKept s := by
  obtain ⟨s, hs, hlast⟩ := poolRun_played [⟨0, 0x4101000, 1⟩] 0xFFFFFFFF80100000 0x4101000
    [⟨1, 0⟩] (fun s => s.handed == [⟨.kernel, 0xFFFFFFFF80101000, 1⟩]) (by decide +kernel)
  have hlog : s.handed = [⟨.kernel, 0xFFFFFFFF80101000, 1⟩] := by simpa using hlast
  refine ⟨by decide +kernel, s, hs, fun hkept => ?_⟩
  have huser : s.pool .user = userPoolAt 0xFFFFFFFF80100000 16385 := hs.firstPageKept.pools.user
  have hno := (hkept ⟨.kernel, 0xFFFFFFFF80101000, 1⟩ (by simp [hlog]) 0xFFFFFFFF80101000
    ⟨by decide, 0, by decide, rfl⟩ .user).2
  rw [huser] at hno
  exact hno ⟨1023, by decide +kernel, by decide +kernel⟩

end WaddleOS
