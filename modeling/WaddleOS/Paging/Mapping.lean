import WaddleOS.Paging.Tree

/-!
# `page_tables_init` builds the tree

While the kernel pool has a clear page below `B` for every table, each call of
`paging_map_page` adds the tables its path lacks and writes its leaf. When the
clear pages below `B` run out, a page from elsewhere, or no page, is taken.
-/

namespace WaddleOS

/-- The clear pages of the kernel pool below `B`. -/
def clearPages (free B : Nat) (m : Mem) : Finset Nat :=
  (Finset.range B).filter (fun q => bitAt m free q = false)

theorem clearPages_eq_empty {free B : Nat} {m : Mem}
    (hfull : ∀ q, q < B → bitAt m free q = true) : clearPages free B m = ∅ := by
  apply Finset.filter_eq_empty_iff.mpr
  intro q hq hclear
  rw [hfull q (Finset.mem_range.mp hq)] at hclear
  cases hclear

/-- A result of `paging_get_page` that is no page below `B`. -/
def Outside (free total B : Nat) (g : Grant) : Prop :=
  g.base = 0 ∨ ∃ r, B ≤ r ∧ r < kPoolPages total ∧ g.base = tableAddr free r

/-- The pages below `B` that were clear in `m₀` were too few, and the log shows
it. -/
structure RanOut (free total B : Nat) (m₀ : Mem) (need : Nat) (t : Paging Mem) : Prop where
  few : (clearPages free B m₀).card < need
  logged : ∃ g ∈ t.handed, Outside free total B g

section Page

variable {free total B : Nat} {s t : Paging Mem} {p : Nat}

theorem pageAddr_kernel (r : Nat) : pageAddr free total .kernel r = tableAddr free r := by
  rw [pageAddr_eq, tableAddr, PoolId.pageOffset, Nat.zero_add]

theorem kernel_page_bits (total q : Nat) :
    8 * (PoolId.pageOffset total .kernel + 4096 * q) = 32768 * q := by
  simp only [PoolId.pageOffset, Nat.zero_add, ← Nat.mul_assoc]

theorem Granted.takenPage {q : Nat} (h : Granted free total .kernel pallocZero 1 q s t)
    (hpos : 0 < q) (hbound : 4096 * (q + 1) ≤ 2 ^ 64) : TakenPage free q s.store t.store where
  bit := by
    have hclear := h.clear q (by omega) (by omega)
    simp only [allocBit, PoolId.bmpOffset, Nat.mul_zero, Nat.zero_add] at hclear
    have hin : 8 * PoolId.bmpOffset total .kernel + q ≤ q ∧
        q < 8 * PoolId.bmpOffset total .kernel + (q + 1) := by
      simp only [PoolId.bmpOffset]
      omega
    have hout : ¬ (pallocZero &&& pallocZero ≠ 0 ∧
        8 * (PoolId.pageOffset total .kernel + 4096 * q) ≤ q ∧
        q < 8 * (PoolId.pageOffset total .kernel + 4096 * (q + 1))) := by
      rw [kernel_page_bits]
      omega
    rw [h.bits q (by omega), hclear, decide_eq_true hin, decide_eq_false hout]
    rfl
  zero g hlo hhi := by
    have hin : pallocZero &&& pallocZero ≠ 0 ∧
        8 * (PoolId.pageOffset total .kernel + 4096 * q) ≤ g ∧
        g < 8 * (PoolId.pageOffset total .kernel + 4096 * (q + 1)) := by
      rw [kernel_page_bits, kernel_page_bits]
      exact ⟨by decide, hlo, hhi⟩
    rw [h.bits g (by omega), decide_eq_true hin]
    simp
  same g hg hne hout := by
    apply h.same hg
    · simp only [PoolId.bmpOffset]
      omega
    · rwa [kernel_page_bits, kernel_page_bits]

/-- A call for a table takes a clear page below `B` if there is one. -/
theorem PoolsAt.getPage (hs : PoolsAt free total s) (hB : B ≤ kPoolPages total)
    (hpos : ∀ q, q < B → bitAt s.store free q = false → 0 < q)
    (h : pagingGetPage s pallocZero = .ok (p, t)) :
    (∃ st, t = { s with store := st, handed := ⟨.kernel, p, 1⟩ :: s.handed }) ∧
    ((∃ q, q < B ∧ bitAt s.store free q = false ∧ p = tableAddr free q ∧
      TakenPage free q s.store t.store) ∨
    ((∀ q, q < B → bitAt s.store free q = true) ∧ ∃ g ∈ t.handed, Outside free total B g)) := by
  have htotal := hs.total_lt
  have hk : kPoolPages total ≤ total := pages_le total .kernel
  have hframe := pagingGetPages_frame h
  have hpool : poolOf pallocZero = .kernel := by decide
  rw [hpool] at hframe
  obtain ⟨-, hcases⟩ := hs.call (by omega) h
  rw [hpool] at hcases
  have hlog : ⟨.kernel, p, 1⟩ ∈ t.handed := by
    obtain ⟨st, rfl⟩ := hframe
    exact List.mem_cons_self ..
  refine ⟨hframe, ?_⟩
  have hbit : ∀ j, allocBit free total s.store .kernel j = bitAt s.store free j := by
    intro j
    simp only [allocBit, PoolId.bmpOffset, Nat.mul_zero, Nat.zero_add]
  rcases hcases with ⟨rfl, hno⟩ | ⟨r, rfl, hgr⟩
  · refine .inr ⟨fun q hq => ?_, _, hlog, .inl rfl⟩
    obtain ⟨j, hqj, hj, hset⟩ := hno.full q (by simp only [PoolId.pages]; omega)
    obtain rfl : j = q := by omega
    rw [← hbit, hset]
  · have hroom := hgr.room
    simp only [PoolId.pages] at hroom
    rw [pageAddr_kernel] at hlog ⊢
    by_cases hr : r < B
    · have hclear : bitAt s.store free r = false := by
        rw [← hbit]
        exact hgr.clear r (by omega) (by omega)
      exact .inl ⟨r, hr, hclear, rfl, hgr.takenPage (hpos r hr hclear) (by omega)⟩
    · refine .inr ⟨fun q hq => ?_, _, hlog, .inr ⟨r, by omega, by omega, rfl⟩⟩
      obtain ⟨j, hqj, hj, hset⟩ := hgr.first q (by omega)
      obtain rfl : j = q := by omega
      rw [← hbit, hset]

end Page

/-! ## Counting -/

section Count

variable {free B : Nat} {m₀ m : Mem} {D : Finset (List Nat)} {tab : List Nat → Nat}
variable {leaf : List Nat → Option Nat}

theorem Tree.clearPages_eq (h : Tree free B m₀ m D tab leaf) :
    clearPages free B m = clearPages free B m₀ \ D.image tab := by
  ext q
  simp only [clearPages, Finset.mem_sdiff, Finset.mem_filter, Finset.mem_range, Finset.mem_image,
    not_exists, not_and, and_assoc]
  exact and_congr_right fun hq => h.bits q hq

/-- Every table took a page that was clear. -/
theorem Tree.card_clear (h : Tree free B m₀ m D tab leaf) :
    (clearPages free B m).card + D.card = (clearPages free B m₀).card := by
  have took : D.image tab ⊆ clearPages free B m₀ := by
    intro q hq
    obtain ⟨π, hπ, rfl⟩ := Finset.mem_image.mp hq
    exact Finset.mem_filter.mpr ⟨Finset.mem_range.mpr (h.lt π hπ), h.fresh π hπ⟩
  have each : (D.image tab).card = D.card :=
    Finset.card_image_of_injOn fun π hπ ρ hρ same => h.inj π hπ ρ hρ same
  rw [h.clearPages_eq, ← each]
  exact Finset.card_sdiff_add_card_eq_card took

/-- When no page is clear any more, the tables have them all. -/
theorem Tree.card_eq_of_full (h : Tree free B m₀ m D tab leaf)
    (hfull : ∀ q, q < B → bitAt m free q = true) : (clearPages free B m₀).card ≤ D.card := by
  have count := h.card_clear
  rw [clearPages_eq_empty hfull, Finset.card_empty] at count
  omega

theorem Reserve.pos (hr : Reserve free B m₀) {q : Nat} (hq : q < B)
    (hclear : bitAt m₀ free q = false) : 0 < q := by
  have := hr.apart q hq hclear
  omega

/-- The PML4 alone, zeroed. -/
theorem Tree.init (hr : Reserve free B m₀) {q : Nat} (hq : q < B)
    (hclear : bitAt m₀ free q = false) (htaken : TakenPage free q m₀ m) :
    Tree free B m₀ m {[]} (fun _ => q) (fun _ => none) := by
  have hapart := hr.apart q hq hclear
  have hbound := hr.bound
  have hpages : PageTree free m {[]} (fun _ => q) (fun _ => none) :=
    PageTree.init hr.aligned (by omega) htaken.zero
  refine ⟨hpages.root, fun _ _ => hq, hpages.inj, fun _ _ => hclear, ?_, hpages.closed,
    hpages.short, hpages.deep, hpages.under, hpages.entries⟩
  intro x hx
  by_cases hxq : x = q
  · subst hxq
    simp [htaken.bit]
  · have hne : q ≠ x := fun e => hxq e.symm
    rw [htaken.same x (by omega) hxq (by omega)]
    simp [hne]

end Count

/-! ## One entry -/

/-- The tables of a state whose pools stand in their places. -/
structure Tables (free total B : Nat) (m₀ : Mem) (s : Paging Mem) (D : Finset (List Nat))
    (tab : List Nat → Nat) (leaf : List Nat → Option Nat) : Prop where
  pools : PoolsAt free total s
  tree : Tree free B m₀ s.store D tab leaf
  pml4 : s.initPml4 = tableAddr free (tab [])
  log : ∀ g ∈ s.handed, ∃ q, q < B ∧ g.base = tableAddr free q

/-- The base field of an entry gives the table's address back. -/
theorem kPtov_entryWord {free r : Nat} (u : Bool) (haligned : free % 4096 = 0)
    (hbase : kVtop (tableAddr free r) < 2 ^ 51) :
    kPtov (getBits (entryWord (kVtop (tableAddr free r)) u) 12 39 <<< 12).toNat =
      tableAddr free r := by
  rw [entryWord_base]
  unfold kPtov
  unfold kVtop tableAddr physBase at *
  omega

section Entry

variable {free total B : Nat} {m₀ : Mem} {s t : Paging Mem} {D E : Finset (List Nat)}
variable {tab : List Nat → Nat} {leaf : List Nat → Option Nat} {π : List Nat} {i v : Nat}

theorem entry_address (free r j : Nat) :
    (tableAddr free r + 8 * j) % 2 ^ 64 = (free + (4096 * r + 8 * j)) % 2 ^ 64 := by
  unfold tableAddr
  omega

theorem PageTree.loadWord_entry {m : Mem} (h : PageTree free m D tab leaf) (hπ : π ∈ D)
    (hi : i < 512) :
    loadWord m (tableAddr free (tab π) + 8 * i) = slot free D tab leaf (π ++ [i]) := by
  rw [loadWord_of_mod_eq _ (entry_address free (tab π) i)]
  exact h.entries π hπ i hi

/-- Only paths of four indices lead to a leaf. -/
theorem PageTree.no_leaf {m : Mem} (h : PageTree free m D tab leaf) (hlen : π.length < 3) :
    leaf (π ++ [i]) = none := by
  by_contra hne
  have := h.deep _ hne
  simp only [List.length_append, List.length_singleton] at this
  omega

/-- `pde_init` finds the table of a path that has one. -/
theorem PageTree.pdeInit_found (h : PageTree free s.store D tab leaf) (hπ : π ∈ D) (hi : i < 512)
    (hin : π ++ [i] ∈ D) (u : Bool) :
    pdeInit s (tableAddr free (tab π) + 8 * i) u = .ok (tableAddr free (tab (π ++ [i])), s) := by
  have hpresent : getBits (slot free D tab leaf (π ++ [i])) 0 1 ≠ 0#64 := by
    rw [slot, if_pos hin, entryWord_present]
    decide
  rw [pdeInit, h.loadWord_entry hπ hi, if_neg hpresent, slot, if_pos hin]
  dsimp only
  rw [kPtov_entryWord false h.aligned (h.base _ hin (by simp))]

/-- The entry of a path that has no table is not present. -/
theorem PageTree.entry_absent {m : Mem} (h : PageTree free m D tab leaf) (hπ : π ∈ D)
    (hlen : π.length < 3) (hi : i < 512) (hnew : π ++ [i] ∉ D) :
    getBits (loadWord m (tableAddr free (tab π) + 8 * i)) 0 1 = 0#64 := by
  rw [h.loadWord_entry hπ hi, slot, if_neg hnew, h.no_leaf hlen]
  exact getBits_zero

/-- `pde_init` takes a page for a path that has no table. -/
theorem PageTree.pdeInit_missing (h : PageTree free s.store D tab leaf) (hπ : π ∈ D)
    (hlen : π.length < 3) (hi : i < 512) (hnew : π ++ [i] ∉ D) {u : Bool}
    (hrun : pdeInit s (tableAddr free (tab π) + 8 * i) u = .ok (v, t)) :
    ∃ t₁, pagingGetPage s pallocZero = .ok (v, t₁) ∧
      t = { t₁ with store := entryInit t₁.store (tableAddr free (tab π) + 8 * i) (kVtop v) u } := by
  rw [pdeInit, if_pos (h.entry_absent hπ hlen hi hnew)] at hrun
  obtain ⟨⟨p, t₁⟩, hget, hrun⟩ := bind_eq_ok.mp hrun
  obtain ⟨rfl, rfl⟩ := Prod.mk.inj (Except.ok.inj hrun)
  exact ⟨t₁, hget, rfl⟩

/-- `pde_init` finds the table of a path or makes one, unless the pages run
out. -/
theorem Tables.pdeInit (hr : Reserve free B m₀) (hB : B ≤ kPoolPages total)
    (h : Tables free total B m₀ s D tab leaf) (hπ : π ∈ D) (hlen : π.length < 3) (hi : i < 512)
    (hE : insert (π ++ [i]) D ⊆ E)
    (hrun : pdeInit s (tableAddr free (tab π) + 8 * i) false = .ok (v, t)) :
    (∃ tab', Tables free total B m₀ t (insert (π ++ [i]) D) tab' leaf ∧
      v = tableAddr free (tab' (π ++ [i]))) ∨ RanOut free total B m₀ E.card t := by
  have hpages := h.tree.pageTree hr
  by_cases hin : π ++ [i] ∈ D
  · rw [hpages.pdeInit_found hπ hi hin] at hrun
    obtain ⟨rfl, rfl⟩ := Prod.mk.inj (Except.ok.inj hrun)
    rw [Finset.insert_eq_of_mem hin]
    exact .inl ⟨tab, h, rfl⟩
  · obtain ⟨s₁, hget, rfl⟩ := hpages.pdeInit_missing hπ hlen hi hin hrun
    have hpos : ∀ q, q < B → bitAt s.store free q = false → 0 < q := fun q hq hc =>
      hr.pos hq (h.tree.not_table hq hc).1
    have hat := h.pools.getPages hget
    obtain ⟨⟨st, rfl⟩, ⟨q, hq, hclear, rfl, htaken⟩ | ⟨hfull, g, hg, hout⟩⟩ :=
      h.pools.getPage hB hpos hget
    · refine .inl ⟨Function.update tab (π ++ [i]) q, ⟨⟨hat.total_lt, hat.kernel, hat.user⟩, ?_, ?_, ?_⟩, ?_⟩
      · exact h.tree.addTable hr hπ hlen hi hin hq hclear htaken (entry_address ..)
      · have hne : ([] : List Nat) ≠ π ++ [i] := by simp
        rw [Function.update_of_ne hne]
        exact h.pml4
      · intro g hg
        rcases List.mem_cons.mp hg with rfl | hg
        · exact ⟨q, hq, rfl⟩
        · exact h.log g hg
      · rw [Function.update_self]
    · have hcard : (clearPages free B m₀).card < E.card := by
        have h₁ := h.tree.card_eq_of_full hfull
        have h₂ := Finset.card_le_card hE
        rw [Finset.card_insert_of_notMem hin] at h₂
        omega
      exact .inr ⟨hcard, g, hg, hout⟩

end Entry

/-! ## Whole mappings -/

/-- The log of `t` continues that of `s`. -/
def LogGrows (s t : Paging Mem) : Prop := ∀ g ∈ s.handed, g ∈ t.handed

theorem RanOut.grows {free total B need : Nat} {m₀ : Mem} {s t : Paging Mem}
    (h : RanOut free total B m₀ need s) (hst : LogGrows s t) : RanOut free total B m₀ need t := by
  obtain ⟨g, hg, hout⟩ := h.logged
  exact ⟨h.few, g, hst g hg, hout⟩

theorem pdeInit_grows {s t : Paging Mem} {entry v : Nat} {u : Bool}
    (h : pdeInit s entry u = .ok (v, t)) : LogGrows s t := by
  unfold pdeInit at h
  split at h
  · obtain ⟨⟨p, s₁⟩, hget, h⟩ := bind_eq_ok.mp h
    obtain ⟨rfl, rfl⟩ := Prod.mk.inj (Except.ok.inj h)
    obtain ⟨st, rfl⟩ := pagingGetPages_frame hget
    exact fun g hg => List.mem_cons_of_mem _ hg
  · obtain ⟨rfl, rfl⟩ := Prod.mk.inj (Except.ok.inj h)
    exact fun g hg => hg

/-- The paths that a mapping of `v` needs tables for, in the order it makes
them. -/
def addPaths (v : Nat) (D : Finset (List Nat)) : Finset (List Nat) :=
  insert [getPml4Ofs v, getPml3Ofs v, getPml2Ofs v]
    (insert [getPml4Ofs v, getPml3Ofs v] (insert [getPml4Ofs v] D))

def leafPath (v : Nat) : List Nat := [getPml4Ofs v, getPml3Ofs v, getPml2Ofs v, getPml1Ofs v]

theorem subset_addPaths (v : Nat) (D : Finset (List Nat)) : D ⊆ addPaths v D := by
  intro π hπ
  simp [addPaths, hπ]

theorem ofs_lt (x n : Nat) : x / 2 ^ n % 512 < 512 := Nat.mod_lt _ (by omega)

theorem pagingMapPage_grows {s t : Paging Mem} {vaddr paddr : Nat}
    (h : pagingMapPage s vaddr paddr = .ok t) : LogGrows s t := by
  obtain ⟨⟨pml3, s₁⟩, h₁, h⟩ := bind_eq_ok.mp h
  obtain ⟨⟨pml2, s₂⟩, h₂, h⟩ := bind_eq_ok.mp h
  obtain ⟨⟨pml1, s₃⟩, h₃, h⟩ := bind_eq_ok.mp h
  cases Except.ok.inj h
  exact fun g hg => pdeInit_grows h₃ g (pdeInit_grows h₂ g (pdeInit_grows h₁ g hg))

theorem mapPages_grows {s t : Paging Mem} {n : Nat} (h : mapPages s n = .ok t) : LogGrows s t := by
  induction n generalizing t with
  | zero =>
    cases Except.ok.inj h
    exact fun g hg => hg
  | succ n ih =>
    obtain ⟨s₁, h₁, h₂⟩ := bind_eq_ok.mp h
    exact fun g hg => pagingMapPage_grows h₂ g (ih h₁ g hg)

section Map

variable {free total B : Nat} {m₀ : Mem} {s t : Paging Mem} {D E : Finset (List Nat)}
variable {tab : List Nat → Nat} {leaf : List Nat → Option Nat}

/-- `paging_map_page` adds the tables of its path and writes its leaf. -/
theorem Tables.mapPage (hr : Reserve free B m₀) (hB : B ≤ kPoolPages total)
    (h : Tables free total B m₀ s D tab leaf) {vaddr paddr : Nat} (hE : addPaths vaddr D ⊆ E)
    (hrun : pagingMapPage s vaddr paddr = .ok t) :
    (∃ tab', Tables free total B m₀ t (addPaths vaddr D) tab'
      (Function.update leaf (leafPath vaddr) (some paddr))) ∨ RanOut free total B m₀ E.card t := by
  obtain ⟨⟨pml3, s₁⟩, h₁, hrun⟩ := bind_eq_ok.mp hrun
  obtain ⟨⟨pml2, s₂⟩, h₂, hrun⟩ := bind_eq_ok.mp hrun
  obtain ⟨⟨pml1, s₃⟩, h₃, hrun⟩ := bind_eq_ok.mp hrun
  cases Except.ok.inj hrun
  have hE₂ : insert [getPml4Ofs vaddr, getPml3Ofs vaddr] (insert [getPml4Ofs vaddr] D) ⊆ E :=
    (Finset.subset_insert ..).trans hE
  have hE₁ : insert [getPml4Ofs vaddr] D ⊆ E := (Finset.subset_insert ..).trans hE₂
  rw [h.pml4] at h₁
  rcases h.pdeInit hr hB h.tree.root (by simp) (ofs_lt ..) hE₁ h₁ with ⟨tab₁, ht₁, rfl⟩ | hout
  · rcases ht₁.pdeInit hr hB (Finset.mem_insert_self ..) (by simp) (ofs_lt ..) hE₂ h₂ with
      ⟨tab₂, ht₂, rfl⟩ | hout
    · rcases ht₂.pdeInit hr hB (Finset.mem_insert_self ..) (by simp) (ofs_lt ..) hE h₃ with
        ⟨tab₃, ht₃, rfl⟩ | hout
      · have htree := ht₃.tree.setLeaf hr (Finset.mem_insert_self ..) rfl (ofs_lt vaddr 12) paddr
          (entry_address ..)
        exact .inl ⟨tab₃, ⟨ht₃.pools.total_lt, ht₃.pools.kernel, ht₃.pools.user⟩, htree, ht₃.pml4,
          ht₃.log⟩
      · exact .inr ⟨hout.few, hout.logged⟩
    · exact .inr (hout.grows (fun g hg => pdeInit_grows h₃ g hg))
  · exact .inr (hout.grows (fun g hg => pdeInit_grows h₃ g (pdeInit_grows h₂ g hg)))

/-- The paths that have a table after `n` pages are mapped. -/
def tablePaths : Nat → Finset (List Nat)
  | 0 => {[]}
  | n + 1 => addPaths (kPtov (n * pageSize % 2 ^ 64)) (tablePaths n)

/-- The leaves after `n` pages are mapped. -/
def leaves : Nat → List Nat → Option Nat
  | 0 => fun _ => none
  | n + 1 => Function.update (leaves n) (leafPath (kPtov (n * pageSize % 2 ^ 64)))
      (some (n * pageSize % 2 ^ 64))

theorem tablePaths_mono {n k : Nat} (h : n ≤ k) : tablePaths n ⊆ tablePaths k := by
  induction h with
  | refl => exact fun _ hπ => hπ
  | step _ ih => exact ih.trans (subset_addPaths ..)

theorem Tables.mapPages (hr : Reserve free B m₀) (hB : B ≤ kPoolPages total)
    (h : Tables free total B m₀ s (tablePaths 0) tab (leaves 0)) {n k : Nat} (hn : n ≤ k)
    (hrun : mapPages s n = .ok t) :
    (∃ tab', Tables free total B m₀ t (tablePaths n) tab' (leaves n)) ∨
      RanOut free total B m₀ (tablePaths k).card t := by
  induction n generalizing t with
  | zero =>
    cases Except.ok.inj hrun
    exact .inl ⟨tab, h⟩
  | succ n ih =>
    obtain ⟨s₁, h₁, hrun⟩ := bind_eq_ok.mp hrun
    rcases ih (by omega) h₁ with ⟨tab₁, ht₁⟩ | hout
    · exact ht₁.mapPage hr hB (tablePaths_mono hn) hrun
    · exact .inr (hout.grows (pagingMapPage_grows hrun))

/-- What `page_tables_init` leaves: the tables of all pages, or a log that
shows too few clear pages below `B`. -/
theorem pageTablesInit_tables (hr : Reserve free B s.store) (hB : B ≤ kPoolPages total)
    (hs : PoolsAt free total s) (hlog : s.handed = [])
    (hrun : pageTablesInit s = .ok t) :
    (∃ tab, Tables free total B s.store t (tablePaths s.poolPagesTotal) tab
      (leaves s.poolPagesTotal)) ∨
    RanOut free total B s.store (tablePaths s.poolPagesTotal).card t := by
  obtain ⟨⟨pml4, s₁⟩, hget, hrun⟩ := bind_eq_ok.mp hrun
  have hat := hs.getPages hget
  have hpos : ∀ q, q < B → bitAt s.store free q = false → 0 < q := fun q hq hc => hr.pos hq hc
  obtain ⟨⟨st, rfl⟩, ⟨q, hq, hclear, rfl, htaken⟩ | ⟨hfull, g, hg, hout⟩⟩ := hs.getPage hB hpos hget
  · have hinit : Tables free total B s.store { s with
        store := st
        handed := ⟨.kernel, tableAddr free q, 1⟩ :: s.handed
        initPml4 := tableAddr free q } (tablePaths 0) (fun _ => q) (leaves 0) := by
      refine ⟨⟨hat.total_lt, hat.kernel, hat.user⟩, Tree.init hr hq hclear htaken, rfl, ?_⟩
      intro g hg
      rw [hlog] at hg
      rw [List.mem_singleton.mp hg]
      exact ⟨q, hq, rfl⟩
    exact hinit.mapPages hr hB (Nat.le_refl _) hrun
  · refine .inr ⟨?_, g, mapPages_grows hrun g hg, hout⟩
    have hroot : [] ∈ tablePaths s.poolPagesTotal := tablePaths_mono (Nat.zero_le _) (by simp [tablePaths])
    rw [clearPages_eq_empty hfull, Finset.card_empty]
    exact Finset.card_pos.mpr ⟨[], hroot⟩

end Map

end WaddleOS
