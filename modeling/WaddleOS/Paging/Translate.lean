import WaddleOS.Paging.Mapping

/-!
# What the tables of `page_tables_init` translate

A walk gives the leaf of its path. The loop writes one leaf for each physical
page from 0 up to the number of pool pages, so a later page overwrites an
earlier one that has the same 36 index bits, and the base field keeps 39 bits
of the page number.
-/

namespace WaddleOS

theorem kPtov_kVtop {a : Nat} (h : a < 2 ^ 64) : kPtov (kVtop a) = a := by
  unfold kPtov kVtop physBase
  omega

theorem tableAddr_lt (free r : Nat) : tableAddr free r < 2 ^ 64 := Nat.mod_lt _ (by omega)

section Walk

variable {free : Nat} {m : Mem} {D : Finset (List Nat)}
variable {tab : List Nat → Nat} {leaf : List Nat → Option Nat} {π : List Nat} {i : Nat}

theorem PageTree.walkEntry_table (h : PageTree free m D tab leaf) (hπ : π ∈ D) (hi : i < 512)
    (hin : π ++ [i] ∈ D) :
    walkEntry m (kVtop (tableAddr free (tab π))) i =
      some (kVtop (tableAddr free (tab (π ++ [i])))) := by
  have hbase := h.base _ hin (by simp)
  have haligned := h.aligned
  simp only [walkEntry]
  rw [kPtov_kVtop (tableAddr_lt ..), h.loadWord_entry hπ hi, slot, if_pos hin, entryWord_present,
    if_pos rfl, entryWord_base, Option.some.injEq]
  unfold kVtop tableAddr physBase at *
  omega

theorem PageTree.walkEntry_leaf (h : PageTree free m D tab leaf) (hπ : π ∈ D) (hi : i < 512)
    (hin : π ++ [i] ∉ D) :
    walkEntry m (kVtop (tableAddr free (tab π))) i =
      (leaf (π ++ [i])).map (fun p => p / 2 ^ 12 % 2 ^ 39 * 2 ^ 12) := by
  simp only [walkEntry]
  rw [kPtov_kVtop (tableAddr_lt ..), h.loadWord_entry hπ hi, slot, if_neg hin]
  cases hleaf : leaf (π ++ [i]) with
  | none =>
    rw [getBits_zero, if_neg (by decide)]
    rfl
  | some p =>
    rw [entryWord_present, if_pos rfl, entryWord_base]
    rfl

/-- The walk along the indices `is` from the table at `base`. -/
def walkPath (m : Mem) (base : Nat) (is : List Nat) : Option Nat := is.foldlM (walkEntry m) base

theorem walkPath_append_singleton (m : Mem) (base : Nat) (is : List Nat) (i : Nat) :
    walkPath m base (is ++ [i]) = (walkPath m base is).bind (fun table => walkEntry m table i) := by
  simp only [walkPath, List.foldlM_append, List.foldlM_cons, List.foldlM_nil, bind_pure,
    Option.bind_eq_bind]

theorem walk_eq_walkPath (m : Mem) (cr3 v : Nat) : walk m cr3 v = walkPath m cr3 (leafPath v) := by
  simp only [walk, walkPath, leafPath, List.foldlM_cons, List.foldlM_nil, bind_pure]

/-- A walk of at most three indices ends in the table of its path. -/
theorem PageTree.walkPath_table (h : PageTree free m D tab leaf) (hlen : π.length ≤ 3)
    (hlt : ∀ i ∈ π, i < 512) :
    walkPath m (kVtop (tableAddr free (tab []))) π =
      if π ∈ D then some (kVtop (tableAddr free (tab π))) else none := by
  induction π using List.reverseRecOn with
  | nil => rw [if_pos h.root]; rfl
  | append_singleton π i ih =>
    simp only [List.length_append, List.length_singleton] at hlen
    have hi : i < 512 := hlt i (by simp)
    rw [walkPath_append_singleton, ih (by omega) (fun j hj => hlt j (by simp [hj]))]
    by_cases hπ : π ∈ D
    · rw [if_pos hπ, Option.bind_some]
      by_cases hin : π ++ [i] ∈ D
      · rw [if_pos hin, h.walkEntry_table hπ hi hin]
      · have hleaf : leaf (π ++ [i]) = none := h.no_leaf (by omega)
        rw [if_neg hin, h.walkEntry_leaf hπ hi hin, hleaf]
        rfl
    · rw [if_neg hπ, if_neg (fun hin => hπ (h.closed π i hin))]
      rfl

theorem leafPath_lt (v i : Nat) (hi : i ∈ leafPath v) : i < 512 := by
  simp only [leafPath, List.mem_cons, List.not_mem_nil, or_false] at hi
  rcases hi with rfl | rfl | rfl | rfl <;> exact ofs_lt ..

/-- A walk gives the base that the leaf of its path records. -/
theorem PageTree.walk (h : PageTree free m D tab leaf) (v : Nat) :
    walk m (kVtop (tableAddr free (tab []))) v =
      (leaf (leafPath v)).map (fun p => p / 2 ^ 12 % 2 ^ 39 * 2 ^ 12) := by
  have hsplit : leafPath v =
      [getPml4Ofs v, getPml3Ofs v, getPml2Ofs v] ++ [getPml1Ofs v] := rfl
  have hlt : ∀ i ∈ [getPml4Ofs v, getPml3Ofs v, getPml2Ofs v], i < 512 := by
    intro i hi
    exact leafPath_lt v i (hsplit ▸ List.mem_append_left _ hi)
  rw [walk_eq_walkPath, hsplit, walkPath_append_singleton, h.walkPath_table (by simp) hlt]
  by_cases hπ : [getPml4Ofs v, getPml3Ofs v, getPml2Ofs v] ∈ D
  · have hshort : [getPml4Ofs v, getPml3Ofs v, getPml2Ofs v] ++ [getPml1Ofs v] ∉ D :=
      fun hin => by simpa using h.short _ hin
    have hi : getPml1Ofs v < 512 := ofs_lt ..
    rw [if_pos hπ, Option.bind_some, h.walkEntry_leaf hπ hi hshort]
  · have hleaf : leaf ([getPml4Ofs v, getPml3Ofs v, getPml2Ofs v] ++ [getPml1Ofs v]) = none := by
      by_contra hne
      exact hπ (h.under _ _ hne)
    rw [if_neg hπ, hleaf]
    rfl

end Walk

/-! ## Which page a path ends in -/

theorem leafPath_eq_iff (x y : Nat) :
    leafPath x = leafPath y ↔ x / 2 ^ 12 % 2 ^ 36 = y / 2 ^ 12 % 2 ^ 36 := by
  simp only [leafPath, List.cons.injEq, and_true, getPml4Ofs, getPml3Ofs, getPml2Ofs, getPml1Ofs]
  omega

theorem page_path_eq_iff (n j : Nat) :
    leafPath (kPtov (n * 4096 % 2 ^ 64)) = leafPath (kPtov (j * 4096 % 2 ^ 64)) ↔
      n % 2 ^ 36 = j % 2 ^ 36 := by
  rw [leafPath_eq_iff]
  unfold kPtov physBase
  omega

/-- The leaf on the path of page `n` is the last mapped page that has its 36
index bits. -/
theorem leaves_page {total : Nat} (htotal : total ≤ 2 ^ 52) (n : Nat) :
    leaves total (leafPath (kPtov (n * 4096 % 2 ^ 64))) =
      if n % 2 ^ 36 < total then
        some ((n % 2 ^ 36 + (total - 1 - n % 2 ^ 36) / 2 ^ 36 * 2 ^ 36) * 4096)
      else none := by
  induction total with
  | zero => rfl
  | succ k ih =>
    rw [leaves, pageSize]
    by_cases heq : n % 2 ^ 36 = k % 2 ^ 36
    · have hpath := (page_path_eq_iff n k).mpr heq
      have hlast : n % 2 ^ 36 + (k + 1 - 1 - n % 2 ^ 36) / 2 ^ 36 * 2 ^ 36 = k := by omega
      rw [hpath, Function.update_self, if_pos (by omega), hlast, Nat.mod_eq_of_lt (by omega)]
    · have hpath : leafPath (kPtov (n * 4096 % 2 ^ 64)) ≠ leafPath (kPtov (k * 4096 % 2 ^ 64)) :=
        fun e => heq ((page_path_eq_iff n k).mp e)
      rw [Function.update_of_ne hpath, ih (by omega)]
      by_cases hlt : n % 2 ^ 36 < k
      · have hsame : (k - 1 - n % 2 ^ 36) / 2 ^ 36 = (k + 1 - 1 - n % 2 ^ 36) / 2 ^ 36 := by omega
        rw [if_pos hlt, if_pos (by omega), hsame]
      · rw [if_neg hlt, if_neg (by omega)]

/-- Page `n` keeps its own leaf: it is among the pages mapped, its number fits
the base field, and no later page that would give another one shares its path. -/
def KeepsLeaf (total n : Nat) : Prop :=
  n < total ∧ n < 2 ^ 39 ∧ (total - 1 - n) / 2 ^ 36 % 8 = 0

instance (total n : Nat) : Decidable (KeepsLeaf total n) :=
  inferInstanceAs (Decidable (_ ∧ _ ∧ _))

theorem leaves_self_iff {total : Nat} (htotal : total ≤ 2 ^ 52) {n : Nat} (hn : n < 2 ^ 52) :
    (leaves total (leafPath (kPtov (n * 4096 % 2 ^ 64)))).map
      (fun p => p / 2 ^ 12 % 2 ^ 39 * 2 ^ 12) = some (n * 4096) ↔ KeepsLeaf total n := by
  rw [leaves_page htotal n]
  unfold KeepsLeaf
  split
  · simp only [Option.map_some, Option.some.injEq]
    omega
  · simp only [Option.map_none, reduceCtorEq, false_iff]
    omega

/-! ## The pools' pages -/

theorem poolOf_pallocZero : poolOf pallocZero = .kernel := by decide

section Returns

variable {free total : Nat} {s : Paging Mem}

theorem pagingGetPage_returns (hs : PoolsAt free total s) (hk : 0 < kPoolPages total)
    {flags : Nat} (hflags : poolOf flags = .kernel) :
    ∃ p t, pagingGetPage s flags = .ok (p, t) := by
  have htotal := hs.total_lt
  have hpages : kPoolPages total ≤ total := pages_le total .kernel
  have hpool : s.pool (poolOf flags) = kernelPoolAt free total := by
    rw [hflags]
    exact hs.kernel
  apply pagingGetPages_returns hpool
  · change kPoolPages total ≤ 2 ^ 64
    omega
  · omega
  · exact hk

theorem pdeInit_returns (hs : PoolsAt free total s) (hk : 0 < kPoolPages total) (entry : Nat)
    (u : Bool) : ∃ v t, pdeInit s entry u = .ok (v, t) ∧ PoolsAt free total t := by
  unfold pdeInit
  split
  · obtain ⟨p, t, hget⟩ := pagingGetPage_returns hs hk poolOf_pallocZero
    have hat := hs.getPages hget
    exact ⟨_, _, bind_eq_ok.mpr ⟨_, hget, rfl⟩, hat.total_lt, hat.kernel, hat.user⟩
  · exact ⟨_, _, rfl, hs⟩

theorem pagingMapPage_returns (hs : PoolsAt free total s) (hk : 0 < kPoolPages total)
    (vaddr paddr : Nat) : ∃ t, pagingMapPage s vaddr paddr = .ok t ∧ PoolsAt free total t := by
  obtain ⟨pml3, s₁, h₁, hs₁⟩ := pdeInit_returns hs hk (s.initPml4 + 8 * getPml4Ofs vaddr) false
  obtain ⟨pml2, s₂, h₂, hs₂⟩ := pdeInit_returns hs₁ hk (pml3 + 8 * getPml3Ofs vaddr) false
  obtain ⟨pml1, s₃, h₃, hs₃⟩ := pdeInit_returns hs₂ hk (pml2 + 8 * getPml2Ofs vaddr) false
  refine ⟨_, bind_eq_ok.mpr ⟨_, h₁, bind_eq_ok.mpr ⟨_, h₂, bind_eq_ok.mpr ⟨_, h₃, rfl⟩⟩⟩, ?_⟩
  exact ⟨hs₃.total_lt, hs₃.kernel, hs₃.user⟩

theorem mapPages_returns (hs : PoolsAt free total s) (hk : 0 < kPoolPages total) (n : Nat) :
    ∃ t, mapPages s n = .ok t ∧ PoolsAt free total t := by
  induction n with
  | zero => exact ⟨s, rfl, hs⟩
  | succ n ih =>
    obtain ⟨s₁, h₁, hs₁⟩ := ih
    obtain ⟨t, ht, hat⟩ := pagingMapPage_returns hs₁ hk (kPtov (n * pageSize % 2 ^ 64))
      (n * pageSize % 2 ^ 64)
    exact ⟨t, bind_eq_ok.mpr ⟨_, h₁, ht⟩, hat⟩

/-- `page_tables_init` always returns from a kernel pool that has a page. -/
theorem pageTablesInit_returns (hs : PoolsAt free total s) (hk : 0 < kPoolPages total) :
    ∃ t, pageTablesInit s = .ok t ∧ PoolsAt free total t := by
  obtain ⟨p, s₁, hget⟩ := pagingGetPage_returns hs hk poolOf_pallocZero
  have hat := hs.getPages hget
  have hat' : PoolsAt free total { s₁ with initPml4 := p } := ⟨hat.total_lt, hat.kernel, hat.user⟩
  obtain ⟨t, ht, hfin⟩ := mapPages_returns hat' hk s₁.poolPagesTotal
  exact ⟨t, bind_eq_ok.mpr ⟨_, hget, ht⟩, hfin⟩

end Returns

/-- The kernel pool has pages for all the tables: among its first `B` pages
enough are clear, and those that are clear do not hold the bits of the `B`
pages and have an address that fits the base field. -/
def EnoughBelow (free : Nat) (s : Paging Mem) (B : Nat) : Prop :=
  B ≤ kPoolPages s.poolPagesTotal ∧
    (tablePaths s.poolPagesTotal).card ≤ (clearPages free B s.store).card ∧
    ∀ q, q < B → bitAt s.store free q = false →
      B ≤ 32768 * q ∧ kVtop (tableAddr free q) < 2 ^ 51

def EnoughPages (free : Nat) (s : Paging Mem) : Prop := ∃ B, EnoughBelow free s B

/-- With pages for all tables, `page_tables_init` builds them all. -/
theorem EnoughBelow.tables {free total B : Nat} {s : Paging Mem} (henough : EnoughBelow free s B)
    (haligned : free % 4096 = 0) (hat : PoolsAt free total s) (htot : s.poolPagesTotal = total)
    (hlog : s.handed = []) :
    ∃ t tab, Reserve free B s.store ∧ pageTablesInit s = .ok t ∧
      Tables free total B s.store t (tablePaths total) tab (leaves total) := by
  obtain ⟨hB, hcard, hpages⟩ := henough
  rw [htot] at hB hcard
  have htotal := hat.total_lt
  have hk : kPoolPages total ≤ total := pages_le total .kernel
  have hr : Reserve free B s.store :=
    ⟨haligned, by omega, fun q hq hc => (hpages q hq hc).1, fun q hq hc => (hpages q hq hc).2⟩
  have hroot : [] ∈ tablePaths total := tablePaths_mono (Nat.zero_le _) (by simp [tablePaths])
  have hpos : 0 < kPoolPages total := by
    by_contra hzero
    have hB0 : B = 0 := by omega
    have hone := Finset.card_pos.mpr ⟨[], hroot⟩
    simp only [hB0, clearPages, Finset.range_zero, Finset.filter_empty, Finset.card_empty] at hcard
    omega
  obtain ⟨t, ht, -⟩ := pageTablesInit_returns hat hpos
  have htables := pageTablesInit_tables hr hB hat hlog ht
  rw [htot] at htables
  obtain ⟨tab, htab⟩ := htables.resolve_right (fun hout => absurd hout.few (by omega))
  exact ⟨t, tab, hr, ht, htab⟩

/-- The tables translate an address of a page to that page just when its
number is one that the loop reaches and keeps. -/
theorem Tables.walk_self_iff {free total B : Nat} {m₀ : Mem} {t : Paging Mem} {tab : List Nat → Nat}
    (hr : Reserve free B m₀)
    (h : Tables free total B m₀ t (tablePaths total) tab (leaves total)) {v : Nat}
    (hv : v < 2 ^ 64) (haligned : v % 4096 = 0) :
    WaddleOS.walk t.store (kVtop t.initPml4) v = some (kVtop v) ↔
      KeepsLeaf total (kVtop v / 4096) := by
  have htotal := h.pools.total_lt
  have hphys : kVtop v / 4096 * 4096 = kVtop v := by
    unfold kVtop physBase
    omega
  have hback : kPtov (kVtop v / 4096 * 4096 % 2 ^ 64) = v := by
    rw [hphys]
    unfold kPtov kVtop physBase
    omega
  have hnum : kVtop v / 4096 < 2 ^ 52 := by
    unfold kVtop
    omega
  have hself := leaves_self_iff (Nat.le_of_lt htotal) hnum
  rw [hback, hphys] at hself
  rw [h.pml4, (h.tree.pageTree hr).walk v]
  exact hself

theorem pageAddr_lt (free total : Nat) (id : PoolId) (i : Nat) : pageAddr free total id i < 2 ^ 64 :=
  Nat.mod_lt _ (by omega)

theorem pageAddr_aligned {free : Nat} (h : free % 4096 = 0) (total : Nat) (id : PoolId) (i : Nat) :
    pageAddr free total id i % 4096 = 0 := by
  have hoff : id.pageOffset total % 4096 = 0 := by
    cases id <;> simp [PoolId.pageOffset]
  rw [pageAddr_eq]
  omega

/-- `page_tables_init` maps a page of the pools to its physical address just
when its physical page number is one that the loop reaches and keeps. -/
theorem pool_page_translated_iff {m : Mem} {memoryMap : List MmapEntry} {kernelEnd physEnd : Nat}
    {s : Paging Mem} (hinit : poolsInit m memoryMap kernelEnd physEnd = .ok s)
    (henough : EnoughPages (freeStart kernelEnd) s) :
    ∃ t, pageTablesInit s = .ok t ∧
      ∀ id i, i < id.pages (poolPages kernelEnd physEnd) →
      (walk t.store (kVtop t.initPml4)
          (pageAddr (freeStart kernelEnd) (poolPages kernelEnd physEnd) id i) =
        some (kVtop (pageAddr (freeStart kernelEnd) (poolPages kernelEnd physEnd) id i)) ↔
      KeepsLeaf (poolPages kernelEnd physEnd)
        (kVtop (pageAddr (freeStart kernelEnd) (poolPages kernelEnd physEnd) id i) / 4096)) := by
  obtain ⟨hat, htot, hlog⟩ := poolsInit_poolsAt hinit
  have haligned := freeStart_aligned kernelEnd
  obtain ⟨B, hbelow⟩ := henough
  obtain ⟨t, tab, hr, ht, htab⟩ := hbelow.tables haligned hat htot hlog
  refine ⟨t, ht, fun id i _ => ?_⟩
  exact htab.walk_self_iff hr (pageAddr_lt ..) (pageAddr_aligned haligned ..)

/-- A clear page below `B` that no table took can be had by the next call. -/
theorem Tables.page_left {free total B : Nat} {m₀ : Mem} {t : Paging Mem}
    {D : Finset (List Nat)} {tab : List Nat → Nat} {leaf : List Nat → Option Nat}
    (h : Tables free total B m₀ t D tab leaf) (hB : B ≤ kPoolPages total)
    (hleft : D.card < (clearPages free B m₀).card) :
    ∃ r t', pagingGetPages t 1 0 = .ok (pageAddr free total .kernel r, t') ∧
      r < kPoolPages total := by
  have hpos : 0 < kPoolPages total := by
    by_contra hzero
    have hB0 : B = 0 := by omega
    simp [hB0, clearPages] at hleft
  have hpool : poolOf 0 = .kernel := by decide
  obtain ⟨p, t', hget⟩ := pagingGetPage_returns h.pools hpos hpool
  have hcall := (h.pools.call (by omega) hget).2
  rw [hpool] at hcall
  rcases hcall with ⟨-, hno⟩ | ⟨r, rfl, hgr⟩
  · have hfull : ∀ q, q < B → bitAt t.store free q = true := by
      intro q hq
      obtain ⟨j, hqj, hj, hset⟩ := hno.full q (by simp only [PoolId.pages]; omega)
      obtain rfl : j = q := by omega
      simpa only [allocBit, PoolId.bmpOffset, Nat.mul_zero, Nat.zero_add] using hset
    have := h.tree.card_eq_of_full hfull
    omega
  · have hroom := hgr.room
    simp only [PoolId.pages] at hroom
    exact ⟨r, t', hget, by omega⟩

/-! ## Two kernels -/

/-- The check behind `EnoughPages` for the first eight pages of a pool that was
laid out in zeroed memory, of which the tables leave three. -/
def eightPagesLeft (memoryMap : List MmapEntry) (kernelEnd physEnd : Nat) : Bool :=
  match poolsInit (σ := Mem) ⟨fun _ => 0⟩ memoryMap kernelEnd physEnd with
  | .ok s => decide (8 ≤ kPoolPages s.poolPagesTotal ∧
      (tablePaths s.poolPagesTotal).card + 3 = (clearPages (freeStart kernelEnd) 8 s.store).card ∧
      ∀ q, q < 8 → bitAt s.store (freeStart kernelEnd) q = false →
        8 ≤ 32768 * q ∧ kVtop (tableAddr (freeStart kernelEnd) q) < 2 ^ 51)
  | .error _ => false

theorem eightPagesLeft_spec (memoryMap : List MmapEntry) (kernelEnd physEnd : Nat)
    (h : eightPagesLeft memoryMap kernelEnd physEnd = true) :
    ∃ s, poolsInit (σ := Mem) ⟨fun _ => 0⟩ memoryMap kernelEnd physEnd = .ok s ∧
      EnoughBelow (freeStart kernelEnd) s 8 ∧
      (tablePaths s.poolPagesTotal).card + 3 = (clearPages (freeStart kernelEnd) 8 s.store).card := by
  unfold eightPagesLeft at h
  split at h
  · rename_i s hs
    obtain ⟨hB, hcard, hpages⟩ := of_decide_eq_true h
    exact ⟨s, hs, ⟨hB, Nat.le_of_add_right_le hcard.le, hpages⟩, hcard⟩
  · cases h

/-- Sixteen pages past a kernel that ends at physical 0x4000: the pages below
0x10000 are translated, the one at 0x10000 is not. -/
theorem pool_page_translated_low :
    ∃ s t, poolsInit (σ := Mem) ⟨fun _ => 0⟩ [⟨0, 0x14000, 1⟩] 0xFFFFFFFF80004000 0x14000 = .ok s ∧
      pageTablesInit s = .ok t ∧
      walk t.store (kVtop t.initPml4) 0xFFFFFFFF8000F000 = some 0xF000 ∧
      walk t.store (kVtop t.initPml4) 0xFFFFFFFF80010000 ≠ some 0x10000 := by
  obtain ⟨s, hs, henough, -⟩ := eightPagesLeft_spec [⟨0, 0x14000, 1⟩] 0xFFFFFFFF80004000 0x14000
    (by decide +kernel)
  obtain ⟨t, ht, hwalk⟩ := pool_page_translated_iff hs ⟨8, henough⟩
  refine ⟨s, t, hs, ht, ?_, ?_⟩
  · exact (hwalk .user 3 (by decide +kernel)).mpr (by decide +kernel)
  · intro hcon
    have hkeeps := (hwalk .user 4 (by decide +kernel)).mp hcon
    revert hkeeps
    decide +kernel

/-- Past a kernel that ends at 1 MiB the sixteen pages have numbers from 256
on and the loop maps the numbers below 16: the next page is not mapped. -/
theorem pool_page_not_mapped :
    ∃ s t p t', poolsInit (σ := Mem) ⟨fun _ => 0⟩ [⟨0, 0x110000, 1⟩] 0xFFFFFFFF80100000 0x110000 =
        .ok s ∧
      EnoughPages (freeStart 0xFFFFFFFF80100000) s ∧ pageTablesInit s = .ok t ∧
      pagingGetPages t 1 0 = .ok (p, t') ∧ p ≠ 0 ∧
      walk t.store (kVtop t.initPml4) p ≠ some (kVtop p) := by
  obtain ⟨s, hs, henough, hleft⟩ := eightPagesLeft_spec [⟨0, 0x110000, 1⟩] 0xFFFFFFFF80100000
    0x110000 (by decide +kernel)
  obtain ⟨hat, htot, hlog⟩ := poolsInit_poolsAt hs
  have haligned := freeStart_aligned 0xFFFFFFFF80100000
  obtain ⟨t, tab, hr, ht, htab⟩ := henough.tables haligned hat htot hlog
  have hB := henough.1
  rw [htot] at hB hleft
  obtain ⟨r, t', hget, hroom⟩ := htab.page_left hB (by omega)
  have hno : ∀ r, r < kPoolPages (poolPages 0xFFFFFFFF80100000 0x110000) →
      pageAddr (freeStart 0xFFFFFFFF80100000) (poolPages 0xFFFFFFFF80100000 0x110000) .kernel r ≠ 0 ∧
      ¬ KeepsLeaf (poolPages 0xFFFFFFFF80100000 0x110000) (kVtop (pageAddr
        (freeStart 0xFFFFFFFF80100000) (poolPages 0xFFFFFFFF80100000 0x110000) .kernel r) / 4096) := by
    decide +kernel
  obtain ⟨hne, hkeeps⟩ := hno r hroom
  refine ⟨s, t, _, t', hs, ⟨8, henough⟩, ht, hget, hne, fun hwalk => hkeeps ?_⟩
  exact (htab.walk_self_iff hr (pageAddr_lt ..) (pageAddr_aligned haligned ..)).mp hwalk

end WaddleOS
