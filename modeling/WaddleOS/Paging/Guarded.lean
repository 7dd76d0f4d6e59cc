import WaddleOS.Paging.Shared

/-!
# The page tables under both allocators

The tables of `page_tables_init` stand in pages of the kernel pool that were
taken before any client came. A page that is taken, that no grant holds and
that holds no allocation bit is never granted and never written again, so the
tables translate in every later state as they did when `paging_init` returned.

* `Guarded`, `Keeps`: such pages and what a step leaves of them;
* `mapping_survives`: translation in every run of the pools, the heap and their
  clients.
-/

namespace WaddleOS

/-- Page `q` of the kernel pool is taken, but by no client. -/
structure Guarded (free total : Nat) (s : Paging Mem) (q : Nat) : Prop where
  lt : q < kPoolPages total
  taken : allocBit free total s.store .kernel q = true
  apart : PageApart total .kernel q
  unheld : ∀ g ∈ s.handed, ∀ x, x < 4096 → ¬ g.Holds (free + (4096 * q + x))

/-- One step, seen from the pools: a call, or other contents of granted pages. -/
inductive PagesStep (s t : Paging Mem) : Prop
  | call {n flags p : Nat} (hn : n < 2 ^ 64) (get : pagingGetPages s n flags = .ok (p, t))
  | own {m : Mem} (own : ∀ a, a < 2 ^ 64 → m.get a ≠ s.store.get a → ∃ g ∈ s.handed, g.Holds a)
      (contents : t = { s with store := m })

/-- From `s` to `t` the guarded pages and the place of the PML4 are as they were. -/
structure Keeps (free total : Nat) (s t : Paging Mem) : Prop where
  exclusive : Exclusive free total t
  pml4 : t.initPml4 = s.initPml4
  pages : ∀ q, Guarded free total s q → Guarded free total t q ∧ ∀ x, x < 4096 →
    t.store.get (free + (4096 * q + x)) = s.store.get (free + (4096 * q + x))

section Step

variable {free total : Nat} {s t u : Paging Mem} {n flags p q : Nat} {m : Mem}

theorem Guarded.getPages (hs : Exclusive free total s) (h : Guarded free total s q)
    (hn : n < 2 ^ 64) (get : pagingGetPages s n flags = .ok (p, t)) :
    Guarded free total t q ∧ ∀ x, x < 4096 →
      t.store.get (free + (4096 * q + x)) = s.store.get (free + (4096 * q + x)) := by
  have htotal := hs.pools.total_lt
  have below := h.lt
  have most : kPoolPages total ≤ total := pages_le total .kernel
  have log := pagingGetPages_handed get
  obtain ⟨-, ⟨rfl, refused⟩ | ⟨r, rfl, granted⟩⟩ := hs.pools.call hn get
  · refine ⟨⟨below, by rw [refused.store]; exact h.taken, h.apart, fun g hg x hx holds => ?_⟩,
      fun x _ => by rw [refused.store]⟩
    rw [log] at hg
    rcases List.mem_cons.mp hg with rfl | hg
    · exact holds.1 rfl
    · exact h.unheld g hg x hx holds
  have room := granted.room
  have kernel : PoolId.kernel.pageOffset total = 0 := rfl
  refine ⟨⟨below, (granted.allocBit_iff hs below).mpr (.inl h.taken), h.apart,
    fun g hg x hx holds => ?_⟩, fun x hx => ?_⟩
  · rw [log] at hg
    rcases List.mem_cons.mp hg with rfl | hg
    · obtain ⟨j, y, hj, hj', hy, place⟩ := Grant.holds_page rfl holds
      have span := pageOffset_bound total (poolOf flags)
      apply granted.page_apart h.lt h.taken hx
      simp only at place hj'
      rw [kernel]
      omega
    · exact h.unheld g hg x hx holds
  · have kept := granted.page_kept htotal h.lt h.taken h.apart hx
    rwa [kernel, Nat.zero_add] at kept

theorem Guarded.replace (hs : Exclusive free total s) (h : Guarded free total s q)
    (own : ∀ a, a < 2 ^ 64 → m.get a ≠ s.store.get a → ∃ g ∈ s.handed, g.Holds a) :
    Guarded free total { s with store := m } q ∧ ∀ x, x < 4096 →
      m.get (free + (4096 * q + x)) = s.store.get (free + (4096 * q + x)) := by
  refine ⟨⟨h.lt, (hs.own_allocBit own h.lt).trans h.taken, h.apart, h.unheld⟩, fun x hx => ?_⟩
  by_contra differs
  obtain ⟨g, hg, holds⟩ := held_of_changed own differs
  exact h.unheld g hg x hx holds

theorem Keeps.refl (hs : Exclusive free total s) : Keeps free total s s :=
  ⟨hs, rfl, fun _ h => ⟨h, fun _ _ => rfl⟩⟩

theorem Keeps.trans (h : Keeps free total s t) (h' : Keeps free total t u) :
    Keeps free total s u := by
  refine ⟨h'.exclusive, h'.pml4.trans h.pml4, fun q guarded => ?_⟩
  obtain ⟨still, same⟩ := h.pages q guarded
  obtain ⟨after, same'⟩ := h'.pages q still
  exact ⟨after, fun x hx => (same' x hx).trans (same x hx)⟩

theorem PagesStep.keeps (hs : Exclusive free total s) (step : PagesStep s t)
    (next : Exclusive free total t) : Keeps free total s t := by
  cases step with
  | call hn get =>
    obtain ⟨st, frame⟩ := pagingGetPages_frame get
    exact ⟨next, by rw [frame], fun q h => h.getPages hs hn get⟩
  | own own contents =>
    subst contents
    exact ⟨next, rfl, fun q h => h.replace hs own⟩

theorem OwnWrite.pagesStep {a : PagingAct} (own : OwnWrite s a) (step : pagingStep s a = .ok t) :
    PagesStep s t := by
  cases a with
  | getPages c =>
    obtain ⟨p, get⟩ := getPagesStep_ok step
    exact .call c.numPages.toNat_lt get
  | write addr v =>
    obtain rfl := Except.ok.inj step
    obtain ⟨g, hg, holds⟩ := own
    refine .own (fun a ha differs => ⟨g, hg, ?_⟩) rfl
    by_contra out
    apply differs
    rw [get_set_mod _ _ _ ha, if_neg]
    rintro rfl
    exact out (holds.congr (Nat.mod_mod _ _).symm)

end Step

section Runs

variable {free total fuel size : Nat} {s t : Paging Mem} {k₀ k k' : KernelMemory}

theorem keeps_of_paging_run (hs : Exclusive free total s)
    (run : Reach (fun x => x = s) OwnWrite pagingStep t) : Keeps free total s t := by
  apply run.invariant
  · rintro t rfl
    exact .refl hs
  · intro t a u h own step
    exact h.trans ((own.pagesStep step).keeps h.exclusive (h.exclusive.step own step))

/-- What both allocators do, seen from the pools. -/
theorem Coherent.pagesStep (co : Coherent free total k₀ k) (hfuel : 2732 ≤ fuel) {a : MemoryAct}
    (allowed : k.Allowed a) (step : k.step fuel a = .ok k') : PagesStep k.pages k'.pages := by
  cases a with
  | heap c =>
    obtain ⟨w, spec, step⟩ := bind_eq_ok.mp step
    obtain rfl := Except.ok.inj step
    exact .own (fun a ha differs => co.own hfuel allowed.1 spec ha differs) rfl
  | pages a =>
    obtain ⟨u, paged, step⟩ := bind_eq_ok.mp step
    obtain rfl := Except.ok.inj step
    exact allowed.1.pagesStep paged

/-- The way to a heap on pages. -/
theorem HeapOnPages.keeps {before : Paging Mem → Prop} {c : PagesCall}
    (boot : HeapOnPages before c size k) (pools : ∀ s, before s → Exclusive free total s) :
    ∃ s, before s ∧ Keeps free total s k.pages := by
  have co := boot.coherent pools
  obtain ⟨large, -, fits⟩ := boot.sizes
  obtain ⟨s, p, t, at_, get, found, bound, rfl⟩ := boot.laid
  have exclusive := (pools s at_).getPages (bind_eq_ok.mpr ⟨(p, t), get, rfl⟩)
  obtain ⟨g, hg, within⟩ := heap_granted get found fits
  have header : PagesStep t { t with store := (initHeap t.store p size).mem } :=
    .own (fun a ha differs => ⟨g, hg, initHeap_own large bound within ha differs⟩) rfl
  exact ⟨s, at_, ((PagesStep.call c.numPages.toNat_lt get).keeps (pools s at_) exclusive).trans
    (header.keeps exclusive co.pages)⟩

theorem keeps_of_run (start : Coherent free total k₀ k₀) (top : EndsBelowTop free total)
    (hfuel : 2732 ≤ fuel)
    (run : Reach (fun k => k = k₀) KernelMemory.Allowed (KernelMemory.step fuel) k) :
    Keeps free total k₀.pages k.pages := by
  have both : Coherent free total k₀ k ∧ Keeps free total k₀.pages k.pages := by
    apply run.invariant
    · rintro k rfl
      exact ⟨start, .refl start.pages⟩
    · rintro k a k' ⟨co, h⟩ allowed step
      have next := co.step top hfuel allowed step
      exact ⟨next, h.trans ((co.pagesStep hfuel allowed step).keeps co.pages next.pages)⟩
  exact both.2

end Runs

/-! ## Translation -/

section Translation

variable {free total B : Nat} {s t : Paging Mem} {m m' : Mem} {D : Finset (List Nat)}
  {tab : List Nat → Nat} {leaf : List Nat → Option Nat}

/-- A tree is told by the bytes of its pages. -/
theorem PageTree.congr (h : PageTree free m D tab leaf)
    (same : ∀ π ∈ D, ∀ x, x < 4096 →
      m'.get (free + (4096 * tab π + x)) = m.get (free + (4096 * tab π + x))) :
    PageTree free m' D tab leaf := by
  refine ⟨h.aligned, h.root, h.bound, h.base, h.inj, h.closed, h.short, h.deep, h.under,
    fun π hπ i hi => ?_⟩
  rw [← h.entries π hπ i hi]
  apply loadWord_congr
  intro b hb
  apply bitAt_congr
  have byte := same π hπ (8 * i + b / 8) (by omega)
  rwa [← Nat.add_assoc (4096 * tab π), ← Nat.add_assoc free] at byte

/-- While the bitmaps fit in the first page, the others hold no bit of them. -/
theorem pageApart_of_small (small : total ≤ 16384) {q : Nat} (hq : 0 < q) :
    PageApart total .kernel q := by
  intro id j hj
  have first : 8 * id.bmpOffset total + j < 32768 := by
    cases id with
    | kernel =>
      simp only [PoolId.bmpOffset, PoolId.pages, kPoolPages] at hj ⊢
      omega
    | user =>
      simp only [PoolId.bmpOffset, PoolId.pages, uPoolPages, uBmpOffset, kPoolPages] at hj ⊢
      rw [bmpBytes_eq (by omega)]
      omega
  rw [PoolId.pageOffset]
  omega

/-- The pages of the tables, once `paging_init` is through. -/
theorem Tables.guarded {m₀ : Mem} (hr : Reserve free B m₀) (small : total ≤ 16384)
    (hB : B ≤ kPoolPages total) (h : Tables free total B m₀ t D tab leaf) {π : List Nat}
    (hπ : π ∈ D) : Guarded free total { t with handed := [] } (tab π) := by
  have below := h.tree.lt π hπ
  have past := hr.pos below (h.tree.fresh π hπ)
  refine ⟨by omega, ?_, pageApart_of_small small past, fun g hg => by cases hg⟩
  by_contra clear
  have bit : bitAt t.store free (tab π) = false := by
    simpa [allocBit, PoolId.bmpOffset] using clear
  exact ((h.tree.bits (tab π) below).mp bit).2 π hπ rfl

end Translation

/-- With enough pages for the tables and no more pages than the first one has
bits for, every address is translated as `paging_init` left it, in every run of
the pools' clients before the heap is set up and of both allocators' after. -/
theorem mapping_survives {memoryMap : List MmapEntry} {kernelEnd physEnd fuel size : Nat} {m : Mem}
    {s : Paging Mem} {c : PagesCall}
    (pools : poolsInit m memoryMap kernelEnd physEnd = .ok s)
    (enough : EnoughPages (freeStart kernelEnd) s) (small : poolPages kernelEnd physEnd ≤ 16384)
    (top : EndsBelowTop (freeStart kernelEnd) (poolPages kernelEnd physEnd))
    (hfuel : 2732 ≤ fuel) :
    ∃ s₀, pagingInit m memoryMap kernelEnd physEnd = .ok s₀ ∧ ∀ k₀ k,
      HeapOnPages (Reach (fun t => t = { s₀ with handed := [] }) OwnWrite pagingStep) c size k₀ →
      Reach (fun k => k = k₀) KernelMemory.Allowed (KernelMemory.step fuel) k →
      ∀ v, walk k.pages.store (kVtop k.pages.initPml4) v =
        walk s₀.store (kVtop s₀.initPml4) v := by
  obtain ⟨at_, total, log⟩ := poolsInit_poolsAt pools
  have kept := poolsInit_firstPageKept pools
  obtain ⟨B, below⟩ := enough
  obtain ⟨t, tab, hr, ht, tables⟩ := below.tables (freeStart_aligned kernelEnd) at_ total log
  have bits := below.1
  rw [total] at bits
  have tree := tables.tree.pageTree hr
  have root := tables.tree.lt [] tables.tree.root
  have most : kPoolPages (poolPages kernelEnd physEnd) ≤ poolPages kernelEnd physEnd :=
    pages_le _ .kernel
  have taken : bitAt t.store (freeStart kernelEnd) 0 = true := by
    have first := kept.taken (by omega)
    by_contra clear
    have before := ((tables.tree.bits 0 (by omega)).mp (by simpa using clear)).1
    rw [first] at before
    cases before
  have init : pagingInit m memoryMap kernelEnd physEnd = .ok t := bind_eq_ok.mpr ⟨s, pools, ht⟩
  have start : PagingRun memoryMap kernelEnd physEnd { t with handed := [] } :=
    .start ⟨m, t, init, tables.pools.storageApart small taken, rfl⟩
  have before : ∀ u, Reach (fun x => x = { t with handed := [] }) OwnWrite pagingStep u →
      Keeps (freeStart kernelEnd) (poolPages kernelEnd physEnd) { t with handed := [] } u :=
    fun u run => keeps_of_paging_run start.exclusive run
  refine ⟨t, init, fun k₀ k boot run v => ?_⟩
  obtain ⟨u, reached, first⟩ := boot.keeps fun u run => (before u run).exclusive
  have co := boot.coherent fun u run => (before u run).exclusive
  have all := ((before u reached).trans first).trans (keeps_of_run co top hfuel run)
  have now : PageTree (freeStart kernelEnd) k.pages.store _ tab _ :=
    tree.congr fun π hπ => (all.pages (tab π) (tables.guarded hr small bits hπ)).2
  have pml4 : k.pages.initPml4 = t.initPml4 := all.pml4
  rw [pml4, tables.pml4, now.walk v, tree.walk v]

/-- The first page of memory, after the first block of a heap. -/
theorem mapping_survives_sixteen :
    ∃ s₀ k₀ k, pagingInit ⟨fun _ => 0⟩ [⟨0, 0x110000, 1⟩] 0xFFFFFFFF80100000 0x110000 = .ok s₀ ∧
      HeapOnPages (Reach (fun t => t = { s₀ with handed := [] }) OwnWrite pagingStep) ⟨1, 0⟩ 4000
        k₀ ∧ k₀.step 2732 (.heap (.malloc 100)) = .ok k ∧ k.held ≠ [] ∧
      walk k.pages.store (kVtop k.pages.initPml4) 0xFFFFFFFF80000000 = some 0 := by
  obtain ⟨s, t, pools, enough, init, apart, left, mapped⟩ := sixteen_pages_left
  have start : Reach (fun x => x = { t with handed := [] }) OwnWrite pagingStep
      { t with handed := [] } := .start rfl
  have top : EndsBelowTop (freeStart 0xFFFFFFFF80100000)
      (poolPages 0xFFFFFFFF80100000 0x110000) := by
    unfold EndsBelowTop
    decide +kernel
  have began : PagingRun [⟨0, 0x110000, 1⟩] 0xFFFFFFFF80100000 0x110000 { t with handed := [] } :=
    .start ⟨_, t, init, apart, rfl⟩
  change (freePages _ _ ({ t with handed := [] } : Paging Mem).store _).card = 3 at left
  obtain ⟨k₀, boot, on⟩ := heap_on_page start began.exclusive top (by omega)
    (show 12 < 4000 by decide) (by decide)
  obtain ⟨w, step, -, -, -, held⟩ := on.holds.malloc_first (n := 100) (by decide)
  have moved : k₀.step 2732 (.heap (.malloc 100)) = .ok (k₀.withWorld w) :=
    bind_eq_ok.mpr ⟨w, step, rfl⟩
  obtain ⟨t', init', same⟩ := mapping_survives pools enough (by decide +kernel) top
    (Nat.le_refl 2732)
  obtain rfl := Except.ok.inj (init'.symm.trans init)
  have next := same k₀ (k₀.withWorld w) boot
    (.step (a := .heap (.malloc 100)) (.start rfl) ⟨trivial, trivial⟩ moved) 0xFFFFFFFF80000000
  have some : w.held ≠ [] := by
    rw [held]
    exact List.cons_ne_nil _ _
  exact ⟨t', k₀, _, init, boot, moved, some, next.trans mapped⟩

end WaddleOS
