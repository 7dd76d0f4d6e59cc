import WaddleOS.Base.Updates
import WaddleOS.Paging.Mapped

/-!
# `paging_map_page` as a finite map

From a zeroed PML4 the calls build a map from page addresses to physical
pages: a walk finds the page of the last call for its address, through entries
that are writable and closed to user mode, and nothing where no call was made.
-/

namespace WaddleOS

/-- A page-aligned address whose bits 47 to 63 are equal. -/
structure CanonicalPage where
  addr : Nat
  aligned : addr % pageSize = 0
  canonical : addr < 2 ^ 47 ∨ 2 ^ 64 - 2 ^ 47 ≤ addr ∧ addr < 2 ^ 64
  deriving DecidableEq

/-- A physical page whose address fits the base field. -/
structure PhysPage where
  addr : Nat
  aligned : addr % pageSize = 0
  fits : addr < 2 ^ 51
  deriving DecidableEq

/-- `paging_map_page` for one pair of addresses after the other. -/
def mapCalls (s : Paging Mem) : List (CanonicalPage × PhysPage) → Except Fault (Paging Mem)
  | [] => .ok s
  | c :: calls => do mapCalls (← pagingMapPage s c.1.addr c.2.addr) calls

/-- The entries that a walk along `is` reads, as far as they are present. -/
def walkEntries (m : Mem) (base : Nat) : List Nat → List (BitVec 64)
  | [] => []
  | i :: is =>
    match walkEntry m base i with
    | none => []
    | some next => loadWord m (kPtov base + 8 * i) :: walkEntries m next is

/-- The read/write bit is set, the user bit is clear. -/
def KernelWritable (entry : BitVec 64) : Prop := getBits entry 1 1 = 1#64 ∧ getBits entry 2 1 = 0#64

/-- A walk of canonical page addresses tells them apart. -/
theorem leafPath_injective : Function.Injective (fun v : CanonicalPage => leafPath v.addr) := by
  rintro ⟨x, hx, hcx⟩ ⟨y, hy, hcy⟩ h
  have hbits := (leafPath_eq_iff x y).mp h
  unfold pageSize at hx hy
  congr
  omega

/-- The base field keeps a physical page. -/
theorem PhysPage.base (p : PhysPage) : p.addr / 2 ^ 12 % 2 ^ 39 * 2 ^ 12 = p.addr := by
  have haligned := p.aligned
  have hfits := p.fits
  unfold pageSize at haligned
  omega

/-! ## The access bits -/

theorem getBits_one (v : BitVec 64) (pos : Nat) :
    getBits v pos 1 = if v.getLsbD pos = true then 1#64 else 0#64 := by
  apply BitVec.eq_of_getLsbD_eq
  intro i hi
  rw [getLsbD_getBits _ _ (by omega) hi]
  by_cases h0 : i = 0
  · subst h0
    cases v.getLsbD pos <;> simp
  · have hlt : ¬ i < 1 := by omega
    split <;> simp [h0]

theorem entryWord_kernelWritable (p : Nat) : KernelWritable (entryWord p false) := by
  have hrw : (entryWord p false).getLsbD 1 = true := by
    unfold entryWord
    repeat rw [getLsbD_setBits _ _ _ (by decide) (by decide)]
    rfl
  have hus : (entryWord p false).getLsbD 2 = false := by
    unfold entryWord
    repeat rw [getLsbD_setBits _ _ _ (by decide) (by decide)]
    rfl
  constructor
  · rw [getBits_one, hrw, if_pos rfl]
  · rw [getBits_one, hus, if_neg (by decide)]

/-! ## What a walk reads -/

theorem walkEntries_length {m : Mem} {base p : Nat} {is : List Nat}
    (h : walkPath m base is = some p) : (walkEntries m base is).length = is.length := by
  induction is generalizing base with
  | nil => rfl
  | cons i is ih =>
    rw [walkPath, List.foldlM_cons] at h
    obtain ⟨next, hnext, h⟩ := Option.bind_eq_some_iff.mp h
    rw [walkEntries, hnext, List.length_cons, List.length_cons, ih h]

/-- Every entry that a walk reads was written by `entryInit`. -/
theorem PageTree.walkEntries_kernelWritable {free : Nat} {m : Mem} {D : Finset (List Nat)}
    {tab : List Nat → Nat} {leaf : List Nat → Option Nat} (h : PageTree free m D tab leaf)
    {π is : List Nat} (hπ : π ∈ D) (hlen : π.length + is.length ≤ 4) (hlt : ∀ i ∈ is, i < 512) :
    ∀ e ∈ walkEntries m (kVtop (tableAddr free (tab π))) is, KernelWritable e := by
  induction is generalizing π with
  | nil => simp [walkEntries]
  | cons i is ih =>
    have hi : i < 512 := hlt i (List.mem_cons_self ..)
    have hword := h.loadWord_entry hπ hi
    simp only [List.length_cons] at hlen
    rw [walkEntries]
    by_cases hin : π ++ [i] ∈ D
    · rw [h.walkEntry_table hπ hi hin]
      intro e he
      rcases List.mem_cons.mp he with rfl | he
      · rw [kPtov_kVtop (tableAddr_lt ..), hword, slot, if_pos hin]
        exact entryWord_kernelWritable _
      · have hlen' : (π ++ [i]).length + is.length ≤ 4 := by
          rw [List.length_append, List.length_singleton]
          omega
        exact ih hin hlen' (fun j hj => hlt j (List.mem_cons_of_mem _ hj)) e he
    · rw [h.walkEntry_leaf hπ hi hin]
      cases hleaf : leaf (π ++ [i]) with
      | none => simp
      | some p =>
        -- the last level: no index is left
        have hdeep := h.deep (π ++ [i]) (by simp [hleaf])
        rw [List.length_append, List.length_singleton] at hdeep
        obtain rfl : is = [] := List.length_eq_zero_iff.mp (by omega)
        intro e he
        simp only [Option.map_some, walkEntries, List.mem_singleton] at he
        rw [he, kPtov_kVtop (tableAddr_lt ..), hword, slot, if_neg hin, hleaf]
        exact entryWord_kernelWritable _

/-! ## Runs of calls -/

/-- A call as a binding of a leaf. -/
def leafBinding : CanonicalPage × PhysPage → List Nat × Nat :=
  Prod.map (fun v => leafPath v.addr) (fun p => p.addr)

section Run

variable {free total : Nat} {s t : Paging Mem}

theorem mapCalls_log {calls : List (CanonicalPage × PhysPage)} (h : mapCalls s calls = .ok t) :
    s.handed <:+ t.handed := by
  induction calls generalizing s with
  | nil =>
    cases Except.ok.inj h
    exact List.suffix_refl _
  | cons c calls ih =>
    obtain ⟨s₁, h₁, h⟩ := bind_eq_ok.mp h
    exact (pagingMapPage_log h₁).trans (ih h)

theorem mapCalls_returns (hs : PoolsAt free total s) (hk : 0 < kPoolPages total)
    (calls : List (CanonicalPage × PhysPage)) : ∃ t, mapCalls s calls = .ok t := by
  induction calls generalizing s with
  | nil => exact ⟨s, rfl⟩
  | cons c calls ih =>
    obtain ⟨s₁, h₁, hs₁⟩ := pagingMapPage_returns hs hk c.1.addr c.2.addr
    obtain ⟨t, ht⟩ := ih hs₁
    exact ⟨t, bind_eq_ok.mpr ⟨s₁, h₁, ht⟩⟩

/-- A run of calls binds their leaves one after the other. -/
theorem Mapped.mapCalls {D : Finset (List Nat)} {tab : List Nat → Nat}
    {leaf : List Nat → Option Nat} (h : Mapped free total s D tab leaf)
    {calls : List (CanonicalPage × PhysPage)} (hrun : mapCalls s calls = .ok t)
    (hfresh : FreshGrants free total s t) :
    ∃ D' tab', Mapped free total t D' tab' (assign leaf (calls.map leafBinding)) := by
  induction calls generalizing s D tab leaf with
  | nil =>
    cases Except.ok.inj hrun
    exact ⟨D, tab, h⟩
  | cons c calls ih =>
    obtain ⟨s₁, h₁, hrun⟩ := bind_eq_ok.mp hrun
    obtain ⟨hfresh₁, hrest⟩ := hfresh.split (pagingMapPage_log h₁) (mapCalls_log hrun)
    obtain ⟨tab₁, -, -, -, hm₁, -⟩ := h.mapPage h₁ hfresh₁
    exact ih hm₁ hrun hrest

/-- A walk reads the map that the calls wrote. -/
theorem Mapped.walk_calls {D : Finset (List Nat)} {tab : List Nat → Nat}
    {calls : List (CanonicalPage × PhysPage)}
    (h : Mapped free total t D tab (assign (fun _ => none) (calls.map leafBinding)))
    (v : CanonicalPage) :
    walk t.store (kVtop t.initPml4) v.addr =
      (assign (fun _ => none) calls v).map (fun p => p.addr) := by
  have hread := assign_rename (f := fun _ => none) (φ := fun _ => none) leafPath_injective
    (fun p : PhysPage => p.addr) (fun _ => rfl) calls v
  have hbase : (fun p => p / 2 ^ 12 % 2 ^ 39 * 2 ^ 12) ∘ (fun p : PhysPage => p.addr) =
      fun p => p.addr := funext PhysPage.base
  rw [h.pml4, h.tree.walk, leafBinding, hread, Option.map_map, hbase]

/-- From a zeroed PML4, with fresh pages for the tables, a walk finds the
physical page of the last call for its address, through writable entries closed
to user mode, and nothing for an address that no call used. -/
theorem pagingMapPage_finite_map {q : Nat} (hs : PoolsAt free total s)
    (haligned : free % pageSize = 0) (hpml4 : ZeroedPml4 free total q s)
    (calls : List (CanonicalPage × PhysPage)) :
    ∃ t, mapCalls s calls = .ok t ∧ (FreshGrants free total s t →
      (∀ before v p after, calls = before ++ (v, p) :: after → (∀ c ∈ after, c.1 ≠ v) →
        walk t.store (kVtop t.initPml4) v.addr = some p.addr ∧
        (walkEntries t.store (kVtop t.initPml4) (leafPath v.addr)).length = 4 ∧
        ∀ e ∈ walkEntries t.store (kVtop t.initPml4) (leafPath v.addr), KernelWritable e) ∧
      ∀ v : CanonicalPage, (∀ c ∈ calls, c.1 ≠ v) →
        walk t.store (kVtop t.initPml4) v.addr = none) := by
  have hpos : 0 < kPoolPages total := Nat.lt_of_le_of_lt (Nat.zero_le _) hpml4.lt
  obtain ⟨t, hrun⟩ := mapCalls_returns hs hpos calls
  refine ⟨t, hrun, fun hfresh => ?_⟩
  obtain ⟨D, tab, hm⟩ := (hpml4.mapped hs haligned).mapCalls hrun hfresh
  refine ⟨?_, fun v hunused => ?_⟩
  · rintro before v p after rfl hlast
    have hwalk : walk t.store (kVtop t.initPml4) v.addr = some p.addr := by
      rw [hm.walk_calls, assign_last _ _ _ hlast]
      rfl
    refine ⟨hwalk, ?_, ?_⟩
    · rw [walk_eq_walkPath] at hwalk
      exact walkEntries_length hwalk
    · rw [hm.pml4]
      exact hm.tree.walkEntries_kernelWritable hm.tree.root (by simp [leafPath])
        (leafPath_lt v.addr)
  · rw [hm.walk_calls, assign_of_unbound hunused]
    rfl

end Run

/-- Where the tables stand already, a mapping takes no page. -/
theorem Mapped.mapPage_within {free total : Nat} {s t : Paging Mem} {D : Finset (List Nat)}
    {tab : List Nat → Nat} {leaf : List Nat → Option Nat} (h : Mapped free total s D tab leaf)
    {vaddr paddr : Nat} (within : addPaths vaddr D = D) (hrun : pagingMapPage s vaddr paddr = .ok t) :
    FreshGrants free total s t := by
  have here : ∀ π ∈ addPaths vaddr D, π ∈ D := fun π hπ => within ▸ hπ
  have none : missingTables s vaddr = 0 := by
    rw [h.missingTables_eq, lacks, lacks, lacks, if_pos (here _ (by simp [addPaths])),
      if_pos (here _ (by simp [addPaths])), if_pos (here _ (by simp [addPaths]))]
  refine h.mapPage_fresh ?_ hrun
  rw [none]
  exact ⟨0, Nat.zero_le _, Nat.zero_le _, by simp [clearPages]⟩

/-- In a pool of sixteen pages three mappings share their tables, and the last
one replaces the first; the page behind them is not present. -/
theorem pagingMapPage_finite_map_three :
    ∃ s t, mapCalls s
        [(⟨0xFFFFFFFF80200000, by decide, by decide⟩, ⟨0x5000, by decide, by decide⟩),
          (⟨0xFFFFFFFF80201000, by decide, by decide⟩, ⟨0x6000, by decide, by decide⟩),
          (⟨0xFFFFFFFF80200000, by decide, by decide⟩, ⟨0x7000, by decide, by decide⟩)] = .ok t ∧
      walk t.store (kVtop t.initPml4) 0xFFFFFFFF80200000 = some 0x7000 ∧
      walk t.store (kVtop t.initPml4) 0xFFFFFFFF80201000 = some 0x6000 ∧
      walk t.store (kVtop t.initPml4) 0xFFFFFFFF80202000 = none := by
  obtain ⟨s, q, hat, hpml4, hroom⟩ := sixteen_pages_ready
  obtain ⟨t, hrun, hmap⟩ := pagingMapPage_finite_map hat (by decide) hpml4
    [(⟨0xFFFFFFFF80200000, by decide, by decide⟩, ⟨0x5000, by decide, by decide⟩),
      (⟨0xFFFFFFFF80201000, by decide, by decide⟩, ⟨0x6000, by decide, by decide⟩),
      (⟨0xFFFFFFFF80200000, by decide, by decide⟩, ⟨0x7000, by decide, by decide⟩)]
  obtain ⟨s₁, h₁, hrest⟩ := bind_eq_ok.mp hrun
  obtain ⟨s₂, h₂, hrest⟩ := bind_eq_ok.mp hrest
  obtain ⟨s₃, h₃, hdone⟩ := bind_eq_ok.mp hrest
  obtain rfl := Except.ok.inj hdone
  have m := hpml4.mapped hat (by decide)
  have f₁ := m.mapPage_fresh (hroom.mono (missingTables_le ..)) h₁
  obtain ⟨tab₁, -, -, -, m₁, -⟩ := m.mapPage h₁ f₁
  have f₂ := m₁.mapPage_within (by decide +kernel) h₂
  obtain ⟨tab₂, -, -, -, m₂, -⟩ := m₁.mapPage h₂ f₂
  have f₃ := m₂.mapPage_within (by decide +kernel) h₃
  obtain ⟨hlast, hnone⟩ := hmap ((f₁.trans f₂).trans f₃)
  refine ⟨s, s₃, hrun, ?_, ?_, ?_⟩
  · exact (hlast [_, _] _ _ [] rfl (by simp)).1
  · exact (hlast [_] _ _ [_] rfl (by decide)).1
  · exact hnone ⟨0xFFFFFFFF80202000, by decide, by decide⟩ (by decide)

end WaddleOS
