import WaddleOS.Paging.Mapped

/-!
# The page tables when the kernel pool runs out

`pde_init` does not look at the result of `paging_get_page`. While the pool has
pages for the tables that each call still needs, every entry of the upper
levels holds a page that was returned for it. A `NULL` is entered like a page.
-/

namespace WaddleOS

/-- The paging state and, as a ghost, the entries filled so far. -/
structure TableRun where
  paging : Paging Mem
  made : List (Nat × Nat)

/-- A call of `paging_map_page`. -/
structure MapCall where
  vaddr : UInt64
  paddr : UInt64

def mapStep (r : TableRun) (c : MapCall) : Except Fault TableRun := do
  let log ← mapLog r.paging c.vaddr.toNat
  let t ← pagingMapPage r.paging c.vaddr.toNat c.paddr.toNat
  return ⟨t, log ++ r.made⟩

/-- Any state of the kernel pool, and a zeroed PML4. -/
def TablesStart (free total : Nat) (r : TableRun) : Prop :=
  PoolsAt free total r.paging ∧ free % pageSize = 0 ∧ (∃ q, ZeroedPml4 free total q r.paging) ∧
    r.made = []

/-- The pool has pages for the tables that the call has to make. -/
def PagesForCall (free total : Nat) (r : TableRun) (c : MapCall) : Prop :=
  RoomFor free total (missingTables r.paging c.vaddr.toNat) r.paging

/-- Every present entry of the three upper levels holds the physical address of
a page that `paging_get_page` returned for it, and not `NULL`. -/
def HoldsReturnedPages (r : TableRun) : Prop :=
  ∀ (π : List Nat) (i : Nat), (π ++ [i]).length ≤ 3 → (∀ j ∈ π ++ [i], j < 512) →
    ∀ table base, walkPath r.paging.store (kVtop r.paging.initPml4) π = some table →
      walkEntry r.paging.store table i = some base →
      ∃ page, page ≠ 0 ∧ (kPtov table + 8 * i, page) ∈ r.made ∧ base = kVtop page

/-- The tables and their log between two calls. -/
def TablesMade (free total : Nat) (r : TableRun) : Prop :=
  ∃ D tab leaf, Mapped free total r.paging D tab leaf ∧ Made free D tab r.made

section Runs

variable {free total : Nat} {r r' : TableRun} {c : MapCall}

theorem TablesStart.made (h : TablesStart free total r) : TablesMade free total r := by
  obtain ⟨hs, haligned, ⟨q, hq⟩, -⟩ := h
  refine ⟨{[]}, fun _ => q, fun _ => none, hq.mapped hs haligned, fun π i hin => ?_⟩
  simp at hin

theorem mapStep_ok (h : mapStep r c = .ok r') :
    ∃ log, mapLog r.paging c.vaddr.toNat = .ok log ∧
      pagingMapPage r.paging c.vaddr.toNat c.paddr.toNat = .ok r'.paging ∧
      r'.made = log ++ r.made := by
  obtain ⟨log, hlog, h⟩ := bind_eq_ok.mp h
  obtain ⟨t, ht, h⟩ := bind_eq_ok.mp h
  cases Except.ok.inj h
  exact ⟨log, hlog, ht, rfl⟩

/-- A call that has pages for its tables keeps the tables and their log. -/
theorem TablesMade.step (h : TablesMade free total r) (hpages : PagesForCall free total r c)
    (hstep : mapStep r c = .ok r') : TablesMade free total r' := by
  obtain ⟨D, tab, leaf, hm, hmade⟩ := h
  obtain ⟨log, hlog, hrun, hlater⟩ := mapStep_ok hstep
  obtain ⟨tab', log', hlog', -, hm', hmade'⟩ := hm.mapPage hrun (hm.mapPage_fresh hpages hrun)
  obtain rfl := Except.ok.inj (hlog.symm.trans hlog')
  exact ⟨_, tab', _, hm', hlater ▸ hmade' _ hmade⟩

/-- What a walk of the upper levels finds is in the log. -/
theorem TablesMade.holdsReturnedPages (h : TablesMade free total r) : HoldsReturnedPages r := by
  obtain ⟨D, tab, leaf, hm, hmade⟩ := h
  intro π i hlen hlt table base htable hbase
  rw [List.length_append, List.length_singleton] at hlen
  have hi : i < 512 := hlt i (by simp)
  rw [hm.pml4, hm.tree.walkPath_table (by omega) (fun j hj => hlt j (by simp [hj]))] at htable
  by_cases hπ : π ∈ D
  · rw [if_pos hπ, Option.some.injEq] at htable
    subst htable
    by_cases hin : π ++ [i] ∈ D
    · rw [hm.tree.walkEntry_table hπ hi hin, Option.some.injEq] at hbase
      obtain ⟨hne, hlog⟩ := hmade π i hin
      refine ⟨_, hne, ?_, hbase.symm⟩
      rwa [kPtov_kVtop (tableAddr_lt ..)]
    · rw [hm.tree.walkEntry_leaf hπ hi hin, hm.tree.no_leaf (by omega)] at hbase
      cases hbase
  · rw [if_neg hπ] at htable
    cases htable

/-- A call that has to make no table leaves the upper levels as they are. -/
theorem Mapped.walkPath_same {s t : Paging Mem} {D : Finset (List Nat)} {tab : List Nat → Nat}
    {leaf : List Nat → Option Nat} (h : Mapped free total s D tab leaf) {vaddr paddr : Nat}
    (hnone : missingTables s vaddr = 0) (hrun : pagingMapPage s vaddr paddr = .ok t)
    {π : List Nat} (hlen : π.length ≤ 3) (hlt : ∀ i ∈ π, i < 512) :
    walkPath t.store (kVtop t.initPml4) π = walkPath s.store (kVtop s.initPml4) π := by
  have hroom : RoomFor free total (missingTables s vaddr) s := by
    rw [hnone]
    exact ⟨0, Nat.zero_le _, Nat.zero_le _, by simp [clearPages]⟩
  obtain ⟨tab', -, -, hsame, hm, -⟩ := h.mapPage hrun (h.mapPage_fresh hroom hrun)
  have hall : addPaths vaddr D = D := by
    rw [h.missingTables_eq, Nat.add_eq_zero_iff, Nat.add_eq_zero_iff, lacks_eq_zero, lacks_eq_zero,
      lacks_eq_zero] at hnone
    rw [addPaths, Finset.insert_eq_of_mem hnone.2, Finset.insert_eq_of_mem hnone.1.2,
      Finset.insert_eq_of_mem hnone.1.1]
  rw [hall] at hm
  rw [h.pml4, hm.pml4, h.tree.walkPath_table hlen hlt, hm.tree.walkPath_table hlen hlt]
  by_cases hπ : π ∈ D
  · rw [if_pos hπ, if_pos hπ, hsame π hπ]
  · rw [if_neg hπ, if_neg hπ]

/-- In every run whose calls each have pages for the tables they make, all
present entries of the upper levels hold pages that were returned for them; and
a call that meets an exhausted pool makes no entry there. -/
theorem upper_entries_hold_returned_pages
    (h : Reach (TablesStart free total) (PagesForCall free total) mapStep r) :
    HoldsReturnedPages r ∧
    ∀ c r', PagesForCall free total r c → mapStep r c = .ok r' →
      clearPages free (kPoolPages total) r.paging.store = ∅ →
      ∀ π : List Nat, π.length ≤ 3 → (∀ i ∈ π, i < 512) →
        walkPath r'.paging.store (kVtop r'.paging.initPml4) π =
          walkPath r.paging.store (kVtop r.paging.initPml4) π := by
  have hmade : TablesMade free total r :=
    h.invariant (fun _ hstart => hstart.made) (fun _ _ _ hm hpages hstep => hm.step hpages hstep)
  refine ⟨hmade.holdsReturnedPages, fun c r' hpages hstep hempty π hlen hlt => ?_⟩
  obtain ⟨D, tab, leaf, hm, -⟩ := hmade
  obtain ⟨-, -, hrun, -⟩ := mapStep_ok hstep
  obtain ⟨B, hB, hcard, -⟩ := hpages
  have hnone : missingTables r.paging c.vaddr.toNat = 0 := by
    have hsub : clearPages free B r.paging.store ⊆ clearPages free (kPoolPages total) r.paging.store :=
      fun q hq => mem_clearPages.mpr ⟨Nat.lt_of_lt_of_le (mem_clearPages.mp hq).1 hB,
        (mem_clearPages.mp hq).2⟩
    rw [hempty, Finset.subset_empty] at hsub
    rw [hsub, Finset.card_empty] at hcard
    omega
  exact hm.walkPath_same hnone hrun hlen hlt

/-- A first mapping with room for its three tables: the PML4 entry is present and
holds a page that was returned for it. -/
theorem upper_entries_hold_returned_pages_first :
    ∃ r, HoldsReturnedPages r ∧
      (walkPath r.paging.store (kVtop r.paging.initPml4) [511]).isSome := by
  obtain ⟨s, q, hat, hpml4, hroom⟩ := sixteen_pages_ready
  have hstart : TablesStart 0xFFFFFFFF80100000 16 ⟨s, []⟩ := ⟨hat, by decide, ⟨q, hpml4⟩, rfl⟩
  have hpages : PagesForCall 0xFFFFFFFF80100000 16 ⟨s, []⟩ ⟨0xFFFFFFFF80000000, 0⟩ :=
    hroom.mono (missingTables_le ..)
  obtain ⟨t, hrun, -⟩ := pagingMapPage_returns hat (by decide) 0xFFFFFFFF80000000 0
  have hm := hpml4.mapped hat (by decide)
  obtain ⟨tab, log, hlog, -, hm', -⟩ := hm.mapPage hrun (hm.mapPage_fresh hpages hrun)
  have hstep : mapStep ⟨s, []⟩ ⟨0xFFFFFFFF80000000, 0⟩ = .ok ⟨t, log ++ []⟩ :=
    bind_eq_ok.mpr ⟨log, hlog, bind_eq_ok.mpr ⟨t, hrun, rfl⟩⟩
  refine ⟨_, (upper_entries_hold_returned_pages (.step (.start hstart) hpages hstep)).1, ?_⟩
  have hin : [511] ∈ addPaths 0xFFFFFFFF80000000 {[]} := by decide
  dsimp only
  rw [hm'.pml4, hm'.tree.walkPath_table (by simp) (by simp), if_pos hin]
  rfl

end Runs

/-! ## Without pages -/

/-- From an exhausted pool `pde_init` gets `NULL`, and makes the entry present
with it all the same. -/
theorem Mapped.pdeInit_null {free total : Nat} {s t : Paging Mem} {D : Finset (List Nat)}
    {tab : List Nat → Nat} {leaf : List Nat → Option Nat} {π : List Nat} {i v : Nat}
    (h : Mapped free total s D tab leaf) (hfull : clearPages free (kPoolPages total) s.store = ∅)
    (hπ : π ∈ D) (hlen : π.length < 3) (hi : i < 512) (hnew : π ++ [i] ∉ D)
    (hrun : WaddleOS.pdeInit s (tableAddr free (tab π) + 8 * i) false = .ok (v, t)) :
    pdeLog s (tableAddr free (tab π) + 8 * i) = [(tableAddr free (tab π) + 8 * i, 0)] ∧
      walkEntry t.store (kVtop (tableAddr free (tab π))) i = some (kVtop 0) := by
  have hbound := h.tree.bound π hπ
  obtain ⟨s₁, hget, rfl⟩ := h.tree.pdeInit_missing hπ hlen hi hnew hrun
  obtain ⟨-, hcall⟩ := h.pools.call (by omega) hget
  rw [poolOf_pallocZero] at hcall
  obtain ⟨rfl, -⟩ := hcall.resolve_right (by
    rintro ⟨r, -, hgr⟩
    have hroom : r + 1 ≤ kPoolPages total := hgr.room
    have hclear := hgr.clear r (Nat.le_refl _) (Nat.lt_succ_self _)
    simp only [allocBit, PoolId.bmpOffset, Nat.mul_zero, Nat.zero_add] at hclear
    have hmem := mem_clearPages.mpr ⟨hroom, hclear⟩
    rw [hfull] at hmem
    exact Finset.notMem_empty _ hmem)
  refine ⟨?_, ?_⟩
  · rw [pdeLog, if_pos (h.tree.entry_absent hπ hlen hi hnew), hget]
  · have hword : loadWord (entryInit s₁.store (tableAddr free (tab π) + 8 * i) (kVtop 0) false)
        (tableAddr free (tab π) + 8 * i) = entryWord (kVtop 0) false := by
      rw [loadWord_of_mod_eq _ (entry_address free (tab π) i)]
      exact loadWord_entryInit _ _ _ (entry_address free (tab π) i) (by omega)
    simp only [walkEntry]
    rw [kPtov_kVtop (tableAddr_lt ..), hword, entryWord_present, if_pos rfl, entryWord_base]
    rfl

/-- A kernel pool of two pages, the bitmap in the first and a zeroed PML4 in
the second: no page is left. -/
def fullPool : TableRun where
  paging := {
    store := ⟨fun a => if a = 0xFFFFFFFF80100000 then 3 else 0⟩
    poolPagesTotal := 4
    kernelPool := kernelPoolAt 0xFFFFFFFF80100000 4
    userPool := userPoolAt 0xFFFFFFFF80100000 4
    initPml4 := 0xFFFFFFFF80101000
    handed := [] }
  made := []

theorem fullPool_start : TablesStart 0xFFFFFFFF80100000 4 fullPool := by
  refine ⟨⟨by decide, rfl, rfl⟩, by decide, ⟨1, ⟨by decide, by decide⟩, by decide +kernel,
    by decide +kernel, fun g hlo hhi => ?_⟩, rfl⟩
  have hbyte : (0xFFFFFFFF80100000 + g / 8) % 2 ^ 64 ≠ 0xFFFFFFFF80100000 := by omega
  simp only [bitAt, Mem.get, fullPool, if_neg hbyte]
  exact Nat.zero_testBit _

/-- The first mapping of `page_tables_init` then makes the PML4 entry present,
with the `NULL` of the exhausted pool in its base field. -/
theorem null_entered_as_table :
    ∃ t, TablesStart 0xFFFFFFFF80100000 4 fullPool ∧
      clearPages 0xFFFFFFFF80100000 (kPoolPages 4) fullPool.paging.store = ∅ ∧
      mapStep fullPool ⟨0xFFFFFFFF80000000, 0⟩ = .ok t ∧
      walkPath fullPool.paging.store (kVtop fullPool.paging.initPml4) [511] = none ∧
      walkPath t.paging.store (kVtop t.paging.initPml4) [511] = some (kVtop 0) ∧
      ¬ HoldsReturnedPages t := by
  have hcheck : (match mapStep fullPool ⟨0xFFFFFFFF80000000, 0⟩ with
      | .ok t => decide (t.made.all (fun e => e.2 == 0) ∧
          walkPath t.paging.store (kVtop t.paging.initPml4) [511] = some (kVtop 0))
      | .error _ => false) = true := by decide +kernel
  cases hstep : mapStep fullPool ⟨0xFFFFFFFF80000000, 0⟩ with
  | error e =>
    rw [hstep] at hcheck
    cases hcheck
  | ok t =>
    rw [hstep] at hcheck
    obtain ⟨hmade, hwalk⟩ := of_decide_eq_true hcheck
    refine ⟨t, fullPool_start, by decide +kernel, rfl, by decide +kernel, hwalk, fun hholds => ?_⟩
    rw [← List.nil_append [511], walkPath_append_singleton] at hwalk
    obtain ⟨table, htable, hentry⟩ := Option.bind_eq_some_iff.mp hwalk
    obtain ⟨page, hpage, hin, -⟩ := hholds [] 511 (by simp) (by simp) table _ htable hentry
    exact hpage (eq_of_beq (List.all_eq_true.mp hmade _ hin))

end WaddleOS
