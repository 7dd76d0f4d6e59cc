import WaddleOS.Paging.Disjoint

/-!
# `paging_map_page` one call after the other

The state in which the kernel maps a page: the page tables form a tree, each
in a taken page of the kernel pool that holds no bit of the pool's bitmap. A
call keeps that state while every page it takes is fresh, and takes only fresh
pages while the pool has enough of them.
-/

namespace WaddleOS

/-- A page of the kernel pool that holds no bit of the pool's bitmap. -/
structure OwnPage (total q : Nat) : Prop where
  lt : q < kPoolPages total
  apart : kPoolPages total ≤ 32768 * q

/-- Such a page that `paging_get_page` can return for a table: it has an
address other than `NULL`, and the base field holds its physical address. -/
structure TablePage (free total q : Nat) : Prop extends OwnPage total q where
  nonNull : tableAddr free q ≠ 0
  base : kVtop (tableAddr free q) < 2 ^ 51

def FreshPage (free total p : Nat) : Prop := ∃ q, TablePage free total q ∧ p = tableAddr free q

/-- All that `paging_get_page` returned between `s` and `t` are fresh pages. -/
def FreshGrants (free total : Nat) (s t : Paging Mem) : Prop :=
  ∃ new, t.handed = new ++ s.handed ∧ ∀ g ∈ new, FreshPage free total g.base

/-- `init_pml4` is a taken, zeroed page of the kernel pool. -/
structure ZeroedPml4 (free total q : Nat) (s : Paging Mem) : Prop extends OwnPage total q where
  addr : s.initPml4 = tableAddr free q
  taken : bitAt s.store free q = true
  zero : ∀ g, 32768 * q ≤ g → g < 32768 * (q + 1) → bitAt s.store free g = false

/-- The page tables between two calls. -/
structure Mapped (free total : Nat) (s : Paging Mem) (D : Finset (List Nat))
    (tab : List Nat → Nat) (leaf : List Nat → Option Nat) : Prop where
  pools : PoolsAt free total s
  tree : PageTree free s.store D tab leaf
  pml4 : s.initPml4 = tableAddr free (tab [])
  own : ∀ π ∈ D, OwnPage total (tab π)
  taken : ∀ π ∈ D, bitAt s.store free (tab π) = true

theorem OwnPage.pos {total q : Nat} (h : OwnPage total q) : 0 < q := by
  have hlt := h.lt
  have hapart := h.apart
  omega

section Pages

variable {free total p q : Nat} {s t : Paging Mem}

theorem OwnPage.bound (h : OwnPage total q) (htotal : total < 2 ^ 52) :
    4096 * (q + 1) ≤ 2 ^ 64 := by
  have hlt := h.lt
  have hk : kPoolPages total ≤ total := pages_le total .kernel
  omega

theorem tableAddr_inj {r : Nat} (hq : 4096 * (q + 1) ≤ 2 ^ 64) (hr : 4096 * (r + 1) ≤ 2 ^ 64)
    (h : tableAddr free q = tableAddr free r) : q = r := by
  unfold tableAddr at h
  omega

/-- The PML4 alone. -/
theorem ZeroedPml4.mapped (h : ZeroedPml4 free total q s) (hs : PoolsAt free total s)
    (haligned : free % 4096 = 0) : Mapped free total s {[]} (fun _ => q) (fun _ => none) where
  pools := hs
  tree := PageTree.init haligned (h.toOwnPage.bound hs.total_lt) h.zero
  pml4 := h.addr
  own _ _ := h.toOwnPage
  taken _ _ := h.taken

/-- What `paging_get_page` did if it returned a fresh page. -/
theorem PoolsAt.getPage_fresh (hs : PoolsAt free total s)
    (h : pagingGetPage s pallocZero = .ok (p, t)) (hfresh : FreshPage free total p) :
    ∃ q, TablePage free total q ∧ p = tableAddr free q ∧ bitAt s.store free q = false ∧
      TakenPage free q s.store t.store := by
  obtain ⟨-, hcall⟩ := hs.call (by omega) h
  rw [poolOf_pallocZero] at hcall
  obtain ⟨q, hq, rfl⟩ := hfresh
  have htotal := hs.total_lt
  have hbound := hq.toOwnPage.bound htotal
  rcases hcall with ⟨hnull, -⟩ | ⟨r, hr, hgr⟩
  · exact absurd hnull hq.nonNull
  · have hroom : r + 1 ≤ kPoolPages total := hgr.room
    have hk : kPoolPages total ≤ total := pages_le total .kernel
    rw [pageAddr_kernel] at hr
    obtain rfl : q = r := tableAddr_inj hbound (by omega) hr
    have hclear := hgr.clear q (Nat.le_refl _) (Nat.lt_succ_self _)
    simp only [allocBit, PoolId.bmpOffset, Nat.mul_zero, Nat.zero_add] at hclear
    exact ⟨q, hq, rfl, hclear, hgr.takenPage hq.toOwnPage.pos hbound⟩

/-- `page_tables_init` starts from a zeroed PML4 if its page is fresh. -/
theorem PoolsAt.zeroedPml4 (hs : PoolsAt free total s) (h : pagingGetPage s pallocZero = .ok (p, t))
    (hfresh : FreshPage free total p) : ∃ q, ZeroedPml4 free total q { t with initPml4 := p } := by
  obtain ⟨q, hq, rfl, -, htaken⟩ := hs.getPage_fresh h hfresh
  exact ⟨q, hq.toOwnPage, rfl, htaken.bit, htaken.zero⟩

end Pages

/-! ## The log -/

theorem pdeInit_log {s t : Paging Mem} {entry v : Nat} {u : Bool}
    (h : pdeInit s entry u = .ok (v, t)) : s.handed <:+ t.handed := by
  unfold pdeInit at h
  split at h
  · obtain ⟨⟨p, s₁⟩, hget, h⟩ := bind_eq_ok.mp h
    obtain ⟨rfl, rfl⟩ := Prod.mk.inj (Except.ok.inj h)
    obtain ⟨st, rfl⟩ := pagingGetPages_frame hget
    exact List.suffix_cons ..
  · obtain ⟨rfl, rfl⟩ := Prod.mk.inj (Except.ok.inj h)
    exact List.suffix_refl _

theorem pagingMapPage_log {s t : Paging Mem} {vaddr paddr : Nat}
    (h : pagingMapPage s vaddr paddr = .ok t) : s.handed <:+ t.handed := by
  obtain ⟨⟨pml3, s₁⟩, h₁, h⟩ := bind_eq_ok.mp h
  obtain ⟨⟨pml2, s₂⟩, h₂, h⟩ := bind_eq_ok.mp h
  obtain ⟨⟨pml1, s₃⟩, h₃, h⟩ := bind_eq_ok.mp h
  cases Except.ok.inj h
  have hlog := ((pdeInit_log h₁).trans (pdeInit_log h₂)).trans (pdeInit_log h₃)
  exact hlog

theorem FreshGrants.refl {free total : Nat} (s : Paging Mem) : FreshGrants free total s s :=
  ⟨[], rfl, by simp⟩

theorem FreshGrants.trans {free total : Nat} {s s₁ t : Paging Mem}
    (h₁ : FreshGrants free total s s₁) (h₂ : FreshGrants free total s₁ t) :
    FreshGrants free total s t := by
  obtain ⟨a, ha, hfresh₁⟩ := h₁
  obtain ⟨b, hb, hfresh₂⟩ := h₂
  refine ⟨b ++ a, by rw [hb, ha, List.append_assoc], fun g hg => ?_⟩
  rcases List.mem_append.mp hg with hg | hg
  · exact hfresh₂ g hg
  · exact hfresh₁ g hg

/-- The page that a call returned is one of those. -/
theorem FreshGrants.page {free total : Nat} {s t : Paging Mem} {g : Grant}
    (h : FreshGrants free total s t) (hlog : t.handed = g :: s.handed) :
    FreshPage free total g.base := by
  obtain ⟨new, hnew, hall⟩ := h
  rw [hlog] at hnew
  obtain rfl : new = [g] := List.append_cancel_right hnew.symm
  exact hall g (List.mem_singleton_self _)

/-- Fresh pages on the whole are fresh pages on both parts. -/
theorem FreshGrants.split {free total : Nat} {s s₁ t : Paging Mem}
    (h : FreshGrants free total s t) (h₁ : s.handed <:+ s₁.handed) (h₂ : s₁.handed <:+ t.handed) :
    FreshGrants free total s s₁ ∧ FreshGrants free total s₁ t := by
  obtain ⟨new, hnew, hfresh⟩ := h
  obtain ⟨a, ha⟩ := h₁
  obtain ⟨b, hb⟩ := h₂
  have hsum : new = b ++ a := by
    rw [← hb, ← ha, ← List.append_assoc] at hnew
    exact (List.append_cancel_right hnew).symm
  subst hsum
  exact ⟨⟨a, ha.symm, fun g hg => hfresh g (List.mem_append_right _ hg)⟩,
    ⟨b, hb.symm, fun g hg => hfresh g (List.mem_append_left _ hg)⟩⟩

/-! ## The entries filled -/

/-- The entry that `pde_init` fills with a new page, and what `paging_get_page`
returned for it. -/
def pdeLog (s : Paging Mem) (entry : Nat) : List (Nat × Nat) :=
  if getBits (loadWord s.store entry) 0 1 = 0#64 then
    match pagingGetPage s pallocZero with
    | .ok (page, _) => [(entry, page)]
    | .error _ => []
  else []

/-- The entries that `paging_map_page` fills with new pages, latest first. -/
def mapLog (s : Paging Mem) (vaddr : Nat) : Except Fault (List (Nat × Nat)) := do
  let entry4 := s.initPml4 + 8 * getPml4Ofs vaddr
  let (pml3, s₁) ← pdeInit s entry4 false
  let entry3 := pml3 + 8 * getPml3Ofs vaddr
  let (pml2, s₂) ← pdeInit s₁ entry3 false
  let entry2 := pml2 + 8 * getPml2Ofs vaddr
  return pdeLog s₂ entry2 ++ pdeLog s₁ entry3 ++ pdeLog s entry4

/-- The log has the page of every table but the PML4. -/
def Made (free : Nat) (D : Finset (List Nat)) (tab : List Nat → Nat) (made : List (Nat × Nat)) :
    Prop :=
  ∀ (π : List Nat) (i : Nat), π ++ [i] ∈ D → tableAddr free (tab (π ++ [i])) ≠ 0 ∧
    (tableAddr free (tab π) + 8 * i, tableAddr free (tab (π ++ [i]))) ∈ made

/-! ## One entry -/

section Entry

variable {free total : Nat} {s t : Paging Mem} {D : Finset (List Nat)} {tab : List Nat → Nat}
variable {leaf : List Nat → Option Nat} {π : List Nat} {i v : Nat} {made : List (Nat × Nat)}

/-- A write to one entry changes no bit of the pool's bitmap. -/
theorem Mapped.bit_entryInit (h : Mapped free total s D tab leaf) (hπ : π ∈ D) (hi : i < 512)
    (m : Mem) (p : Nat) (u : Bool) {q : Nat} (hq : q < kPoolPages total) :
    bitAt (entryInit m (tableAddr free (tab π) + 8 * i) p u) free q = bitAt m free q := by
  have hown := (h.own π hπ).apart
  have hbound := h.tree.bound π hπ
  rw [bitAt_entryInit m p u (entry_address ..) (by omega) q (by omega), if_neg (by omega)]

/-- `pde_init` finds the table of a path, or makes one in a fresh page. -/
theorem Mapped.pdeInit (h : Mapped free total s D tab leaf) (hπ : π ∈ D) (hlen : π.length < 3)
    (hi : i < 512) (hrun : pdeInit s (tableAddr free (tab π) + 8 * i) false = .ok (v, t))
    (hfresh : FreshGrants free total s t) :
    ∃ tab', (∀ ρ ∈ D, tab' ρ = tab ρ) ∧ Mapped free total t (insert (π ++ [i]) D) tab' leaf ∧
      v = tableAddr free (tab' (π ++ [i])) := by
  by_cases hin : π ++ [i] ∈ D
  · rw [h.tree.pdeInit_found hπ hi hin] at hrun
    obtain ⟨rfl, rfl⟩ := Prod.mk.inj (Except.ok.inj hrun)
    rw [Finset.insert_eq_of_mem hin]
    exact ⟨tab, fun _ _ => rfl, h, rfl⟩
  · have hat := pdeInit_poolsAt h.pools hrun
    obtain ⟨s₁, hget, rfl⟩ := h.tree.pdeInit_missing hπ hlen hi hin hrun
    obtain ⟨st, rfl⟩ := pagingGetPages_frame hget
    have hv : FreshPage free total v := hfresh.page rfl
    obtain ⟨q, hq, rfl, hclear, htaken⟩ := h.pools.getPage_fresh hget hv
    have hbit := fun m p u q hq => h.bit_entryInit hπ hi m p u (q := q) hq
    have hother : ∀ ρ ∈ D, tab ρ ≠ q := by
      rintro ρ hρ rfl
      rw [h.taken ρ hρ] at hclear
      cases hclear
    have hbelow : ∀ ρ ∈ D, q < 32768 * tab ρ := fun ρ hρ =>
      Nat.lt_of_lt_of_le hq.lt (h.own ρ hρ).apart
    refine ⟨Function.update tab (π ++ [i]) q, fun ρ hρ => update_of_mem hin hρ,
      ⟨hat, ?_, ?_, ?_, ?_⟩, ?_⟩
    · exact h.tree.addTable hπ hlen hi hin (hq.toOwnPage.bound hat.total_lt) hq.base hother hbelow
        htaken (entry_address ..)
    · rw [update_of_mem hin h.tree.root]
      exact h.pml4
    · exact (forall_mem_insert_update (P := OwnPage total) hin).mpr ⟨hq.toOwnPage, h.own⟩
    · refine (forall_mem_insert_update (P := fun x => bitAt _ free x = true) hin).mpr ⟨?_, ?_⟩
      · rw [hbit _ _ _ q hq.lt]
        exact htaken.bit
      · intro ρ hρ
        have hown := h.own ρ hρ
        have hlt := hown.lt
        have hqapart := hq.apart
        have hbound := h.tree.bound ρ hρ
        rw [hbit _ _ _ _ hown.lt, htaken.same _ (by omega) (hother ρ hρ) (by omega)]
        exact h.taken ρ hρ
    · rw [Function.update_self]

/-- `pde_init` logs the table it makes. -/
theorem Mapped.pdeInit_made {tab' : List Nat → Nat} (h : Mapped free total s D tab leaf)
    (hmade : Made free D tab made) (hπ : π ∈ D) (hlen : π.length < 3) (hi : i < 512)
    (hrun : WaddleOS.pdeInit s (tableAddr free (tab π) + 8 * i) false = .ok (v, t))
    (hfresh : FreshGrants free total s t) (hsame : ∀ ρ ∈ D, tab' ρ = tab ρ)
    (hv : v = tableAddr free (tab' (π ++ [i]))) :
    Made free (insert (π ++ [i]) D) tab' (pdeLog s (tableAddr free (tab π) + 8 * i) ++ made) := by
  intro ρ j hρ
  by_cases hold : ρ ++ [j] ∈ D
  · obtain ⟨hne, hin⟩ := hmade ρ j hold
    rw [hsame _ hold, hsame _ (h.tree.closed ρ j hold)]
    exact ⟨hne, List.mem_append_right _ hin⟩
  · have heq : ρ ++ [j] = π ++ [i] := (Finset.mem_insert.mp hρ).resolve_right hold
    obtain ⟨rfl, hji⟩ := List.append_inj' heq rfl
    obtain rfl : j = i := by simpa using hji
    obtain ⟨s₁, hget, rfl⟩ := h.tree.pdeInit_missing hπ hlen hi hold hrun
    have hlog : pdeLog s (tableAddr free (tab ρ) + 8 * j) =
        [(tableAddr free (tab ρ) + 8 * j, v)] := by
      rw [pdeLog, if_pos (h.tree.entry_absent hπ hlen hi hold), hget]
    obtain ⟨st, rfl⟩ := pagingGetPages_frame hget
    obtain ⟨q, hq, hvq⟩ : FreshPage free total v := hfresh.page rfl
    rw [hlog, hsame ρ hπ, ← hv]
    exact ⟨hvq ▸ hq.nonNull, List.mem_append_left _ (List.mem_singleton_self _)⟩

end Entry

/-! ## One call -/

section Call

variable {free total : Nat} {s t : Paging Mem} {D : Finset (List Nat)} {tab : List Nat → Nat}
variable {leaf : List Nat → Option Nat}

/-- A leaf below a table of the last level. -/
theorem Mapped.pteInit {π : List Nat} {i : Nat} (h : Mapped free total s D tab leaf) (hπ : π ∈ D)
    (hlen : π.length = 3) (hi : i < 512) (p : Nat) :
    Mapped free total (pteInit s (tableAddr free (tab π) + 8 * i) p false) D tab
      (Function.update leaf (π ++ [i]) (some p)) where
  pools := ⟨h.pools.total_lt, h.pools.kernel, h.pools.user⟩
  tree := h.tree.setLeaf hπ hlen hi p (entry_address ..)
  pml4 := h.pml4
  own := h.own
  taken ρ hρ := by
    rw [WaddleOS.pteInit, h.bit_entryInit hπ hi _ _ _ (h.own ρ hρ).lt]
    exact h.taken ρ hρ

/-- `paging_map_page` adds the tables of its path in fresh pages, logs them and
writes its leaf. -/
theorem Mapped.mapPage (h : Mapped free total s D tab leaf) {vaddr paddr : Nat}
    (hrun : pagingMapPage s vaddr paddr = .ok t) (hfresh : FreshGrants free total s t) :
    ∃ tab' log, mapLog s vaddr = .ok log ∧ (∀ ρ ∈ D, tab' ρ = tab ρ) ∧
      Mapped free total t (addPaths vaddr D) tab'
        (Function.update leaf (leafPath vaddr) (some paddr)) ∧
      ∀ made, Made free D tab made → Made free (addPaths vaddr D) tab' (log ++ made) := by
  obtain ⟨⟨pml3, s₁⟩, h₁, hrun⟩ := bind_eq_ok.mp hrun
  obtain ⟨⟨pml2, s₂⟩, h₂, hrun⟩ := bind_eq_ok.mp hrun
  obtain ⟨⟨pml1, s₃⟩, h₃, hrun⟩ := bind_eq_ok.mp hrun
  cases Except.ok.inj hrun
  have hlog : mapLog s vaddr = .ok (pdeLog s₂ (pml2 + 8 * getPml2Ofs vaddr) ++
      pdeLog s₁ (pml3 + 8 * getPml3Ofs vaddr) ++ pdeLog s (s.initPml4 + 8 * getPml4Ofs vaddr)) :=
    bind_eq_ok.mpr ⟨_, h₁, bind_eq_ok.mpr ⟨_, h₂, rfl⟩⟩
  have hlog₃ := pdeInit_log h₃
  have hlog₂ := (pdeInit_log h₂).trans hlog₃
  obtain ⟨hfresh₁, hrest⟩ := hfresh.split (pdeInit_log h₁) hlog₂
  obtain ⟨hfresh₂, hfresh₃⟩ := hrest.split (pdeInit_log h₂) hlog₃
  rw [h.pml4] at h₁ hlog
  have hroot := h.tree.root
  obtain ⟨tab₁, hsame₁, hm₁, rfl⟩ := h.pdeInit hroot (by simp) (ofs_lt ..) h₁ hfresh₁
  obtain ⟨tab₂, hsame₂, hm₂, rfl⟩ :=
    hm₁.pdeInit (Finset.mem_insert_self ..) (by simp) (ofs_lt ..) h₂ hfresh₂
  obtain ⟨tab₃, hsame₃, hm₃, rfl⟩ :=
    hm₂.pdeInit (Finset.mem_insert_self ..) (by simp) (ofs_lt ..) h₃ hfresh₃
  refine ⟨tab₃, _, hlog, fun ρ hρ => ?_,
    hm₃.pteInit (Finset.mem_insert_self ..) rfl (ofs_lt ..) paddr, fun made hmade => ?_⟩
  · rw [hsame₃ ρ (Finset.mem_insert_of_mem (Finset.mem_insert_of_mem hρ)),
      hsame₂ ρ (Finset.mem_insert_of_mem hρ), hsame₁ ρ hρ]
  · have hmade₁ := h.pdeInit_made hmade hroot (by simp) (ofs_lt ..) h₁ hfresh₁ hsame₁ rfl
    have hmade₂ := hm₁.pdeInit_made hmade₁ (Finset.mem_insert_self ..) (by simp) (ofs_lt ..) h₂
      hfresh₂ hsame₂ rfl
    have hmade₃ := hm₂.pdeInit_made hmade₂ (Finset.mem_insert_self ..) (by simp) (ofs_lt ..) h₃
      hfresh₃ hsame₃ rfl
    rw [List.append_assoc, List.append_assoc]
    exact hmade₃

end Call

/-! ## Enough pages -/

/-- The first `n` clear pages of the kernel pool are there and can hold
tables. -/
def RoomFor (free total n : Nat) (s : Paging Mem) : Prop :=
  ∃ B, B ≤ kPoolPages total ∧ n ≤ (clearPages free B s.store).card ∧
    ∀ q ∈ clearPages free B s.store, TablePage free total q

/-- The tables that a mapping of `vaddr` has to make: one for each of its upper
levels where a walk finds none. -/
def missingTables (s : Paging Mem) (vaddr : Nat) : Nat :=
  [[getPml4Ofs vaddr], [getPml4Ofs vaddr, getPml3Ofs vaddr],
    [getPml4Ofs vaddr, getPml3Ofs vaddr, getPml2Ofs vaddr]].countP
      (fun π => (walkPath s.store (kVtop s.initPml4) π).isNone)

section Room

variable {free total n : Nat} {s t : Paging Mem}

theorem mem_clearPages {B q : Nat} {m : Mem} :
    q ∈ clearPages free B m ↔ q < B ∧ bitAt m free q = false := by
  rw [clearPages, Finset.mem_filter, Finset.mem_range]

theorem clearPages_congr {B : Nat} {m m' : Mem}
    (h : ∀ q, q < B → bitAt m' free q = bitAt m free q) :
    clearPages free B m' = clearPages free B m := by
  ext q
  rw [mem_clearPages, mem_clearPages]
  exact and_congr_right (fun hq => by rw [h q hq])

/-- Taking a page past the bits below `B` uses up that page alone. -/
theorem TakenPage.clearPages {B q : Nat} {m m₁ : Mem} (h : TakenPage free q m m₁)
    (hB : B ≤ 2 ^ 67) (hpast : B ≤ 32768 * q) :
    clearPages free B m₁ = (clearPages free B m).erase q := by
  ext x
  rw [Finset.mem_erase, mem_clearPages, mem_clearPages]
  by_cases hx : x = q
  · subst hx
    simp [h.bit]
  · by_cases hlt : x < B
    · rw [h.same x (by omega) hx (by omega)]
      simp [hx]
    · simp [hlt]

theorem RoomFor.mono {n' : Nat} (h : RoomFor free total n s) (hle : n' ≤ n) :
    RoomFor free total n' s := by
  obtain ⟨B, hB, hcard, htable⟩ := h
  exact ⟨B, hB, Nat.le_trans hle hcard, htable⟩

theorem missingTables_le (s : Paging Mem) (vaddr : Nat) : missingTables s vaddr ≤ 3 :=
  List.countP_le_length

/-- With room, `paging_get_page` takes a page that can hold a table, and one
page less is left. -/
theorem RoomFor.getPage {p : Nat} (h : RoomFor free total (n + 1) s) (hs : PoolsAt free total s)
    (hget : pagingGetPage s pallocZero = .ok (p, t)) :
    FreshPage free total p ∧ RoomFor free total n t := by
  obtain ⟨B, hB, hcard, htable⟩ := h
  have htotal := hs.total_lt
  have hk : kPoolPages total ≤ total := pages_le total .kernel
  have hpos : ∀ q, q < B → bitAt s.store free q = false → 0 < q := fun q hq hclear =>
    (htable q (mem_clearPages.mpr ⟨hq, hclear⟩)).toOwnPage.pos
  obtain ⟨-, ⟨q, hq, hclear, rfl, htaken⟩ | ⟨hfull, -⟩⟩ := hs.getPage hB hpos hget
  · have hmem := mem_clearPages.mpr ⟨hq, hclear⟩
    have hpage := htable q hmem
    have hafter := htaken.clearPages (B := B) (by omega) (Nat.le_trans hB hpage.apart)
    refine ⟨⟨q, hpage, rfl⟩, B, hB, ?_, ?_⟩
    · rw [hafter, Finset.card_erase_of_mem hmem]
      omega
    · rw [hafter]
      exact fun x hx => htable x (Finset.mem_of_mem_erase hx)
  · rw [clearPages_eq_empty hfull, Finset.card_empty] at hcard
    omega

variable {D : Finset (List Nat)} {tab : List Nat → Nat} {leaf : List Nat → Option Nat}

/-- The tables that the path `π` itself lacks. -/
def lacks (D : Finset (List Nat)) (π : List Nat) : Nat := if π ∈ D then 0 else 1

theorem lacks_insert {D : Finset (List Nat)} {π ρ : List Nat} (hne : π ≠ ρ) :
    lacks (insert ρ D) π = lacks D π := by
  simp only [lacks, Finset.mem_insert, hne, false_or]

theorem lacks_eq_zero {D : Finset (List Nat)} {π : List Nat} : lacks D π = 0 ↔ π ∈ D := by
  simp [lacks]

/-- The room for one table less is left once `pde_init` has made one. -/
theorem Mapped.pdeInit_room {π : List Nat} {i v : Nat} (h : Mapped free total s D tab leaf)
    (hπ : π ∈ D) (hlen : π.length < 3) (hi : i < 512)
    (hroom : RoomFor free total (n + lacks D (π ++ [i])) s)
    (hrun : WaddleOS.pdeInit s (tableAddr free (tab π) + 8 * i) false = .ok (v, t)) :
    FreshGrants free total s t ∧ RoomFor free total n t := by
  by_cases hin : π ++ [i] ∈ D
  · rw [h.tree.pdeInit_found hπ hi hin] at hrun
    obtain ⟨rfl, rfl⟩ := Prod.mk.inj (Except.ok.inj hrun)
    rw [lacks, if_pos hin] at hroom
    exact ⟨.refl s, hroom⟩
  · obtain ⟨s₁, hget, rfl⟩ := h.tree.pdeInit_missing hπ hlen hi hin hrun
    rw [lacks, if_neg hin] at hroom
    obtain ⟨hv, B, hB, hcard, htable⟩ := hroom.getPage h.pools hget
    have hsame := clearPages_congr (B := B) fun q hq =>
      h.bit_entryInit hπ hi s₁.store (kVtop v) false (Nat.lt_of_lt_of_le hq hB)
    obtain ⟨st, rfl⟩ := pagingGetPages_frame hget
    refine ⟨⟨[⟨poolOf pallocZero, v, 1⟩], rfl, fun g hg => ?_⟩, B, hB, ?_, ?_⟩
    · rw [List.mem_singleton.mp hg]
      exact hv
    · rw [hsame]
      exact hcard
    · rw [hsame]
      exact htable

theorem Mapped.missingTables_eq (h : Mapped free total s D tab leaf) (vaddr : Nat) :
    missingTables s vaddr =
      lacks D [getPml4Ofs vaddr, getPml3Ofs vaddr, getPml2Ofs vaddr] +
        lacks D [getPml4Ofs vaddr, getPml3Ofs vaddr] + lacks D [getPml4Ofs vaddr] := by
  have hwalk : ∀ π : List Nat, π <+: leafPath vaddr → π.length ≤ 3 →
      ((walkPath s.store (kVtop s.initPml4) π).isNone = true ↔ π ∉ D) := by
    intro π hπ hlen
    rw [h.pml4, h.tree.walkPath_table hlen (fun i hi => leafPath_lt vaddr i (hπ.subset hi))]
    split <;> simp [*]
  simp only [missingTables, List.countP_cons, List.countP_nil,
    hwalk [getPml4Ofs vaddr] (by simp [leafPath]) (by simp),
    hwalk [getPml4Ofs vaddr, getPml3Ofs vaddr] (by simp [leafPath]) (by simp),
    hwalk [getPml4Ofs vaddr, getPml3Ofs vaddr, getPml2Ofs vaddr] (by simp [leafPath]) (by simp),
    ite_not, lacks]
  omega

/-- With room for the tables that are missing, a mapping takes only fresh
pages. -/
theorem Mapped.mapPage_fresh (h : Mapped free total s D tab leaf) {vaddr paddr : Nat}
    (hroom : RoomFor free total (missingTables s vaddr) s)
    (hrun : pagingMapPage s vaddr paddr = .ok t) : FreshGrants free total s t := by
  rw [h.missingTables_eq] at hroom
  obtain ⟨⟨pml3, s₁⟩, h₁, hrun⟩ := bind_eq_ok.mp hrun
  obtain ⟨⟨pml2, s₂⟩, h₂, hrun⟩ := bind_eq_ok.mp hrun
  obtain ⟨⟨pml1, s₃⟩, h₃, hrun⟩ := bind_eq_ok.mp hrun
  cases Except.ok.inj hrun
  rw [h.pml4] at h₁
  obtain ⟨hfresh₁, hroom₁⟩ := h.pdeInit_room h.tree.root (by simp) (ofs_lt ..) hroom h₁
  obtain ⟨tab₁, -, hm₁, rfl⟩ := h.pdeInit h.tree.root (by simp) (ofs_lt ..) h₁ hfresh₁
  -- a table made for one level does not stand in for the levels below
  have hlacks₂ : lacks (insert [getPml4Ofs vaddr] D) [getPml4Ofs vaddr, getPml3Ofs vaddr] =
      lacks D [getPml4Ofs vaddr, getPml3Ofs vaddr] := lacks_insert (by simp)
  have hlacks₁ : lacks (insert [getPml4Ofs vaddr, getPml3Ofs vaddr] (insert [getPml4Ofs vaddr] D))
      [getPml4Ofs vaddr, getPml3Ofs vaddr, getPml2Ofs vaddr] =
      lacks D [getPml4Ofs vaddr, getPml3Ofs vaddr, getPml2Ofs vaddr] := by
    rw [lacks_insert (by simp), lacks_insert (by simp)]
  rw [← hlacks₂, ← hlacks₁] at hroom₁
  obtain ⟨hfresh₂, hroom₂⟩ :=
    hm₁.pdeInit_room (Finset.mem_insert_self ..) (by simp) (ofs_lt ..) hroom₁ h₂
  obtain ⟨tab₂, -, hm₂, rfl⟩ :=
    hm₁.pdeInit (Finset.mem_insert_self ..) (by simp) (ofs_lt ..) h₂ hfresh₂
  rw [← Nat.zero_add (lacks _ _)] at hroom₂
  obtain ⟨hfresh₃, -⟩ :=
    hm₂.pdeInit_room (Finset.mem_insert_self ..) (by simp) (ofs_lt ..) hroom₂ h₃
  have hfresh := (hfresh₁.trans hfresh₂).trans hfresh₃
  exact hfresh

end Room

/-- The sixteen pages past a kernel that ends at 1 MiB have room for the PML4
and three tables. -/
theorem sixteen_pages_ready :
    ∃ s q, PoolsAt 0xFFFFFFFF80100000 16 s ∧ ZeroedPml4 0xFFFFFFFF80100000 16 q s ∧
      RoomFor 0xFFFFFFFF80100000 16 3 s := by
  obtain ⟨s, hs, ⟨hB, hcard, hclear⟩, hleft⟩ := eightPagesLeft_spec [⟨0, 0x110000, 1⟩]
    0xFFFFFFFF80100000 0x110000 (by decide +kernel)
  obtain ⟨hat, htot, -⟩ := poolsInit_poolsAt hs
  have hfree : freeStart 0xFFFFFFFF80100000 = 0xFFFFFFFF80100000 := by decide
  have htotal : poolPages 0xFFFFFFFF80100000 0x110000 = 16 := by decide
  have htables : (tablePaths 16).card = 4 := by decide +kernel
  have hnull : ∀ q, q < 8 → tableAddr 0xFFFFFFFF80100000 q ≠ 0 := by decide +kernel
  rw [hfree, htotal] at hat
  rw [htotal] at htot
  rw [htot, hfree, htables] at hleft
  rw [hfree] at hclear
  have hroom : RoomFor 0xFFFFFFFF80100000 16 4 s := by
    refine ⟨8, by decide, by omega, fun q hq => ?_⟩
    obtain ⟨hlt, hbit⟩ := mem_clearPages.mp hq
    obtain ⟨hpast, hbase⟩ := hclear q hlt hbit
    have hk : kPoolPages 16 = 8 := by decide
    exact ⟨⟨by omega, by omega⟩, hnull q hlt, hbase⟩
  obtain ⟨p, s₁, hget⟩ := pagingGetPage_returns hat (by decide) poolOf_pallocZero
  obtain ⟨hp, hroom₁⟩ := hroom.getPage hat hget
  obtain ⟨q, hpml4⟩ := hat.zeroedPml4 hget hp
  have hat₁ := hat.getPages hget
  exact ⟨{ s₁ with initPml4 := p }, q, ⟨hat₁.total_lt, hat₁.kernel, hat₁.user⟩, hpml4, hroom₁⟩

end WaddleOS
