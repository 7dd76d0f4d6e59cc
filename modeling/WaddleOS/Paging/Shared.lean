import WaddleOS.Heap.Confined
import WaddleOS.Paging.Supply

/-!
# The heap on pages of the pools

`kernel_main` gives `wdmalloc_init` pages that it gets from `paging_get_pages`,
and from then on both allocators work on the same memory, each with clients of
its own. A heap call stays inside its arena, which a grant holds, and a call of
`paging_get_pages` changes no page that was granted before.

* `Exclusive.replace`, `Exclusive.getPages_held`: what one side sees of the other;
* `Coherent`, `coherent_of_run`: the invariant of both;
* `memory_shared`: in every run each client finds what it has written, and
  nothing else in memory changes but the allocation bitmaps.
-/

namespace WaddleOS

/-- The pools, the heap and what their clients know. `wrote` is a ghost: what
was last put where by those that write to pages. -/
structure KernelMemory where
  pages : Paging Mem
  freelistHead : Nat
  heapStart : Nat
  heapSize : Nat
  held : List Held
  wrote : Nat → Option UInt8

inductive MemoryAct where
  | heap (c : Call)
  | pages (a : PagingAct)

namespace KernelMemory

/-- The heap in the memory of the pools. -/
def world (k : KernelMemory) : World :=
  ⟨⟨k.pages.store, k.freelistHead, k.heapStart, k.heapSize⟩, k.held⟩

def withWorld (k : KernelMemory) (w : World) : KernelMemory :=
  ⟨{ k.pages with store := w.heap.mem }, w.heap.freelistHead, w.heap.heapStart, w.heap.heapSize,
    w.held, k.wrote⟩

def InHeap (k : KernelMemory) (a : Nat) : Prop :=
  k.heapStart ≤ a ∧ a < k.heapStart + k.heapSize

def note (wrote : Nat → Option UInt8) : PagingAct → Nat → Option UInt8
  | .getPages _, x => wrote x
  | .write addr v, x => if x = addr % 2 ^ 64 then some v else wrote x

def step (fuel : Nat) (k : KernelMemory) : MemoryAct → Except Fault KernelMemory
  | .heap c => do
    let w ← k.world.step fuel c
    return k.withWorld w
  | .pages a => do
    let s ← pagingStep k.pages a
    return { k with pages := s, wrote := note k.wrote a }

/-- The heap's clients keep to their blocks, the others to their pages. -/
def Allowed (k : KernelMemory) : MemoryAct → Prop
  | .heap c => Admissible k.world c ∧ c.NoWrap
  | .pages a => OwnWrite k.pages a ∧ match a with
    | .getPages _ => True
    | .write addr _ => ¬ k.InHeap (addr % 2 ^ 64)

end KernelMemory

/-- `wdmalloc_init` on the pages of a call, in one of the states `before`. -/
structure HeapOnPages (before : Paging Mem → Prop) (c : PagesCall) (size : Nat)
    (k : KernelMemory) : Prop where
  sizes : 12 < size ∧ size < 2 ^ 16 ∧ size ≤ 4096 * c.numPages.toNat
  booted : ∃ s p t h, before s ∧
    pagingGetPages s c.numPages.toNat c.flags.toNat = .ok (p, t) ∧ p ≠ 0 ∧ p + size < 2 ^ 64 ∧
    wdmallocInit t.store p size = .ok h ∧
    k = ⟨{ t with store := h.mem }, h.freelistHead, h.heapStart, h.heapSize, [], fun _ => none⟩

section Pages

variable {free total : Nat} {s t : Paging Mem} {id : PoolId} {n r flags p a : Nat} {m : Mem}

theorem Grant.Holds.congr {g : Grant} {b : Nat} (h : g.Holds a) (same : a % 2 ^ 64 = b % 2 ^ 64) :
    g.Holds b := by
  obtain ⟨base, x, hx, place⟩ := h
  exact ⟨base, x, hx, same.symm.trans place⟩

/-- A byte that is neither in the bits nor in the pages of a grant. -/
theorem Granted.byte_same {o : Nat} (h : Granted free total id flags n r s t) (ho : o < 2 ^ 64)
    (bits : ∀ b, b < 8 → ¬ (8 * id.bmpOffset total + r ≤ 8 * o + b ∧
      8 * o + b < 8 * id.bmpOffset total + (r + n)))
    (pages : ¬ (id.pageOffset total + 4096 * r ≤ o ∧ o < id.pageOffset total + 4096 * (r + n))) :
    t.store.get (free + o) = s.store.get (free + o) := by
  apply get_eq_of_bits
  intro b hb
  rw [bitAt_add, bitAt_add]
  exact h.same (by omega) (bits b hb) (by omega)

/-- A page that was taken before has no byte in the pages of a grant. -/
theorem Granted.page_apart {id' : PoolId} {q x : Nat} (h : Granted free total id flags n r s t)
    (hq : q < id'.pages total) (taken : allocBit free total s.store id' q = true) (hx : x < 4096) :
    ¬ (id.pageOffset total + 4096 * r ≤ id'.pageOffset total + 4096 * q + x ∧
      id'.pageOffset total + 4096 * q + x < id.pageOffset total + 4096 * (r + n)) := by
  intro inside
  have room := h.room
  obtain ⟨j, y, hj, hj', hy, same⟩ : ∃ j y, r ≤ j ∧ j < r + n ∧ y < 4096 ∧
      id'.pageOffset total + 4096 * q + x = id.pageOffset total + 4096 * j + y :=
    ⟨(id'.pageOffset total + 4096 * q + x - id.pageOffset total) / 4096,
      (id'.pageOffset total + 4096 * q + x - id.pageOffset total) % 4096,
      by omega, by omega, by omega, by omega⟩
  obtain ⟨pool, rfl⟩ := page_offset_inj hq (by omega) hx hy same
  have clear := h.clear q hj hj'
  rw [← pool, taken] at clear
  cases clear

/-- A page that was taken before and holds no bit stays as it is. -/
theorem Granted.page_kept {id' : PoolId} {q x : Nat} (h : Granted free total id flags n r s t)
    (htotal : total < 2 ^ 52) (hq : q < id'.pages total)
    (taken : allocBit free total s.store id' q = true) (apart : PageApart total id' q)
    (hx : x < 4096) : t.store.get (free + (id'.pageOffset total + 4096 * q + x)) =
      s.store.get (free + (id'.pageOffset total + 4096 * q + x)) := by
  have span := pageOffset_bound total id'
  have room := h.room
  refine h.byte_same (by omega) (fun b hb window => ?_) (h.page_apart hq taken hx)
  -- the bits of the grant would lie in the page
  exact apart id (8 * (id'.pageOffset total + 4096 * q + x) + b - 8 * id.bmpOffset total)
    (by omega) (by omega)

/-- A call leaves the pages that were granted before it. -/
theorem Exclusive.getPages_held (hs : Exclusive free total s) (hn : n < 2 ^ 64)
    (get : pagingGetPages s n flags = .ok (p, t)) (held : ∃ g ∈ s.handed, g.Holds a) :
    t.store.get a = s.store.get a := by
  obtain ⟨-, ⟨-, refused⟩ | ⟨r, -, granted⟩⟩ := hs.pools.call hn get
  · rw [refused.store]
  obtain ⟨g, hg, holds⟩ := held
  obtain ⟨q, base, room, set⟩ := hs.grants g hg holds.1
  obtain ⟨j, x, hqj, hj, hx, place⟩ := Grant.holds_page base holds
  obtain ⟨taken, apart⟩ := set j hqj hj
  rw [get_of_mod_eq _ place, get_of_mod_eq _ place]
  exact granted.page_kept hs.pools.total_lt (by omega) taken apart hx

/-- A call changes nothing but bits of the bitmaps and the pages it grants. -/
theorem Exclusive.getPages_elsewhere (hs : Exclusive free total s) (top : EndsBelowTop free total)
    (hn : n < 2 ^ 64) (get : pagingGetPages s n flags = .ok (p, t)) (ha : a < 2 ^ 64)
    (bitmaps : ∀ id, ¬ (s.pool id).allocatedBmp.Stores a)
    (unheld : ∀ g ∈ t.handed, ¬ g.Holds a) : t.store.get a = s.store.get a := by
  obtain ⟨-, ⟨-, refused⟩ | ⟨r, rfl, granted⟩⟩ := hs.pools.call hn get
  · rw [refused.store]
  have room := granted.room
  obtain ⟨o, ho, place⟩ : ∃ o, o < 2 ^ 64 ∧ a % 2 ^ 64 = (free + o) % 2 ^ 64 :=
    ⟨(a + 2 ^ 64 - free % 2 ^ 64) % 2 ^ 64, by omega, by omega⟩
  rw [get_of_mod_eq _ place, get_of_mod_eq _ place]
  refine granted.byte_same ho (fun b hb window => ?_) fun inside => ?_
  · have buf := poolAt_buf free total (poolOf flags)
    have size := poolAt_size free total (poolOf flags)
    refine bitmaps (poolOf flags) ⟨o - (poolOf flags).bmpOffset total, ?_, ?_⟩
    · rw [hs.pools.pool, size]
      omega
    · rw [hs.pools.pool]
      omega
  · have base : pageAddr free total (poolOf flags) r ≠ 0 := pageAddr_ne_zero top (by omega)
    rw [pagingGetPages_handed get] at unheld
    refine unheld _ List.mem_cons_self ⟨base, o - ((poolOf flags).pageOffset total + 4096 * r), ?_, ?_⟩
    · change _ < n * 4096
      omega
    · change _ = (pageAddr free total (poolOf flags) r + _) % 2 ^ 64
      rw [pageAddr_eq]
      omega

/-- A changed byte is in a grant, if the changed ones below `2^64` are. -/
theorem held_of_changed
    (own : ∀ a, a < 2 ^ 64 → m.get a ≠ s.store.get a → ∃ g ∈ s.handed, g.Holds a)
    (differs : m.get a ≠ s.store.get a) : ∃ g ∈ s.handed, g.Holds a := by
  rw [get_of_mod_eq m (Nat.mod_mod a _).symm, get_of_mod_eq s.store (Nat.mod_mod a _).symm]
    at differs
  obtain ⟨g, hg, holds⟩ := own _ (Nat.mod_lt _ (by decide)) differs
  exact ⟨g, hg, holds.congr (Nat.mod_mod _ _)⟩

/-- No allocation bit lies in a granted page. -/
theorem Exclusive.own_allocBit (hs : Exclusive free total s)
    (own : ∀ a, a < 2 ^ 64 → m.get a ≠ s.store.get a → ∃ g ∈ s.handed, g.Holds a) {j : Nat}
    (hj : j < id.pages total) : allocBit free total m id j = allocBit free total s.store id j := by
  have htotal := hs.pools.total_lt
  have offset := bmpOffset_bound total id htotal
  have most := pages_le total id
  apply bitAt_congr
  by_contra differs
  obtain ⟨g, hg, holds⟩ := held_of_changed own differs
  obtain ⟨q, base, room, set⟩ := hs.grants g hg holds.1
  obtain ⟨i, x, hqi, hi, hx, place⟩ := Grant.holds_page base holds
  have span := pageOffset_bound total g.pool
  have apart := (set i hqi hi).2 id j hj
  omega

/-- Other contents of granted pages leave the pools as they are. -/
theorem Exclusive.replace (hs : Exclusive free total s)
    (own : ∀ a, a < 2 ^ 64 → m.get a ≠ s.store.get a → ∃ g ∈ s.handed, g.Holds a) :
    Exclusive free total { s with store := m } := by
  refine ⟨⟨hs.pools.total_lt, hs.pools.kernel, hs.pools.user⟩, fun id j hj clear => ?_,
    fun g hg base => ?_, hs.disjoint⟩
  · exact hs.apart id j hj ((hs.own_allocBit own hj).symm.trans clear)
  · obtain ⟨q, place, room, set⟩ := hs.grants g hg base
    refine ⟨q, place, room, fun j hqj hj => ?_⟩
    exact ⟨(hs.own_allocBit own (by omega)).trans (set j hqj hj).1, (set j hqj hj).2⟩

end Pages

/-! ## Both allocators -/

/-- The state of both allocators in a run from `k₀` on. -/
structure Coherent (free total : Nat) (k₀ k : KernelMemory) : Prop where
  pages : Exclusive free total k.pages
  pools : ∀ id, k.pages.pool id = k₀.pages.pool id
  arena : ∃ g ∈ k.pages.handed, ∀ a, k.InHeap a → g.Holds a
  heap : HeapStands k.world
  size : k.heapSize = k₀.heapSize
  wrote : ∀ a v, k.wrote a = some v → (a < 2 ^ 64 ∧ ¬ k.InHeap a) ∧
    (∃ g ∈ k.pages.handed, g.Holds a) ∧ k.pages.store.get a = v
  elsewhere : ∀ a, a < 2 ^ 64 → (∀ id, ¬ (k₀.pages.pool id).allocatedBmp.Stores a) →
    (∀ g ∈ k.pages.handed, ¬ g.Holds a) → k.pages.store.get a = k₀.pages.store.get a

section Runs

variable {free total fuel : Nat} {k₀ k k' : KernelMemory}

/-- A move of the heap's client changes nothing outside the heap. -/
theorem Coherent.confined (co : Coherent free total k₀ k) (hfuel : 2732 ≤ fuel) {c : Call}
    (adm : Admissible k.world c) {w : World} (step : k.world.step fuel c = .ok w) {a : Nat}
    (ha : a < 2 ^ 64) (out : ¬ k.InHeap a) : w.heap.mem.get a = k.pages.store.get a := by
  refine co.heap.confined hfuel adm step a ha ?_
  change a < k.heapStart ∨ k.heapStart + k.heapSize ≤ a
  unfold KernelMemory.InHeap at out
  omega

/-- What it changes, a grant holds. -/
theorem Coherent.own (co : Coherent free total k₀ k) (hfuel : 2732 ≤ fuel) {c : Call}
    (adm : Admissible k.world c) {w : World} (step : k.world.step fuel c = .ok w) {a : Nat}
    (ha : a < 2 ^ 64) (differs : w.heap.mem.get a ≠ k.pages.store.get a) :
    ∃ g ∈ k.pages.handed, g.Holds a := by
  obtain ⟨g, hg, holds⟩ := co.arena
  refine ⟨g, hg, holds a ?_⟩
  by_contra out
  exact differs (co.confined hfuel adm step ha out)

theorem Coherent.heap_step (co : Coherent free total k₀ k) (hfuel : 2732 ≤ fuel) {c : Call}
    (adm : Admissible k.world c) (small : c.NoWrap) :
    ∃ w, k.world.step fuel c = .ok w ∧ Coherent free total k₀ (k.withWorld w) := by
  obtain ⟨w, step, stands, start, size⟩ := co.heap.step hfuel adm small
  obtain ⟨g, hg, holds⟩ := co.arena
  have inHeap : ∀ a, (k.withWorld w).InHeap a ↔ k.InHeap a := by
    intro a
    change w.heap.heapStart ≤ a ∧ a < w.heap.heapStart + w.heap.heapSize ↔ _
    rw [start, size]
    exact Iff.rfl
  refine ⟨w, step, co.pages.replace fun a ha differs => co.own hfuel adm step ha differs, co.pools,
    ⟨g, hg, fun a ha => holds a ((inHeap a).mp ha)⟩,
    stands, size.trans co.size, fun a v hv => ?_, fun a ha bitmaps unheld => ?_⟩
  · obtain ⟨⟨ha, out⟩, own, byte⟩ := co.wrote a v hv
    exact ⟨⟨ha, mt (inHeap a).mp out⟩, own, (co.confined hfuel adm step ha out).trans byte⟩
  · have out : ¬ k.InHeap a := fun within => unheld g hg (holds a within)
    exact (co.confined hfuel adm step ha out).trans (co.elsewhere a ha bitmaps unheld)

/-- The heap after a change of memory outside of it. -/
theorem Coherent.heap_kept (co : Coherent free total k₀ k) {s : Paging Mem}
    {wrote : Nat → Option UInt8} (same : ∀ a, k.InHeap a → s.store.get a = k.pages.store.get a) :
    HeapStands (KernelMemory.world { k with pages := s, wrote := wrote }) :=
  co.heap.elsewhere (m := s.store) fun a lo hi => same a ⟨lo, hi⟩

/-- A call of `paging_get_pages`. -/
theorem Coherent.getPages (co : Coherent free total k₀ k) (top : EndsBelowTop free total)
    {c : PagesCall} {s : Paging Mem} (call : getPagesStep k.pages c = .ok s) :
    Coherent free total k₀ { k with pages := s } := by
  obtain ⟨p, get⟩ := getPagesStep_ok call
  obtain ⟨st, frame⟩ := pagingGetPages_frame get
  have held : ∀ {a}, (∃ g ∈ k.pages.handed, g.Holds a) → s.store.get a = k.pages.store.get a :=
    fun own => co.pages.getPages_held c.numPages.toNat_lt get own
  have log : ∀ g ∈ k.pages.handed, g ∈ s.handed := by
    intro g hg
    rw [pagingGetPages_handed get]
    exact List.mem_cons_of_mem _ hg
  have pools : ∀ id, s.pool id = k.pages.pool id := by
    intro id
    rw [frame]
    rfl
  obtain ⟨g, hg, holds⟩ := co.arena
  refine ⟨co.pages.getPages call, fun id => (pools id).trans (co.pools id), ⟨g, log g hg, holds⟩,
    co.heap_kept fun a within => held ⟨g, hg, holds a within⟩, co.size, fun a v hv => ?_,
    fun a ha bitmaps unheld => ?_⟩
  · obtain ⟨place, ⟨d, hd, own⟩, byte⟩ := co.wrote a v hv
    exact ⟨place, ⟨d, log d hd, own⟩, (held ⟨d, hd, own⟩).trans byte⟩
  · have before := co.elsewhere a ha bitmaps fun d hd => unheld d (log d hd)
    refine (co.pages.getPages_elsewhere top c.numPages.toNat_lt get ha (fun id => ?_) unheld).trans
      before
    rw [co.pools]
    exact bitmaps id

/-- A write of a client to its pages. -/
theorem Coherent.write (co : Coherent free total k₀ k) {addr : Nat} {v : UInt8}
    (own : ∃ g ∈ k.pages.handed, g.Holds addr) (out : ¬ k.InHeap (addr % 2 ^ 64)) :
    Coherent free total k₀ { k with
      pages := { k.pages with store := k.pages.store.set addr v }
      wrote := KernelMemory.note k.wrote (.write addr v) } := by
  have bound : ∀ a, k.InHeap a → a < 2 ^ 64 := fun a within => within.2.trans co.heap.bound
  obtain ⟨g, hg, holds⟩ := own
  have here : g.Holds (addr % 2 ^ 64) := holds.congr (Nat.mod_mod _ _).symm
  refine ⟨co.pages.write ⟨g, hg, holds⟩, co.pools, co.arena, co.heap_kept fun a within => ?_,
    co.size, fun a u hu => ?_, fun a ha bitmaps unheld => ?_⟩
  · rw [get_set_mod _ _ _ (bound a within), if_neg]
    rintro rfl
    exact out within
  · change (if a = addr % 2 ^ 64 then some v else k.wrote a) = some u at hu
    split at hu
    next at_ =>
      obtain rfl := Option.some.inj hu
      subst at_
      have low := Nat.mod_lt addr (show 0 < 2 ^ 64 by decide)
      exact ⟨⟨low, out⟩, ⟨g, hg, here⟩, by rw [get_set_mod _ _ _ low, if_pos rfl]⟩
    next elsewhere =>
      obtain ⟨⟨ha, outside⟩, own, old⟩ := co.wrote a u hu
      exact ⟨⟨ha, outside⟩, own, by rw [get_set_mod _ _ _ ha, if_neg elsewhere]; exact old⟩
  · rw [get_set_mod _ _ _ ha, if_neg]
    · exact co.elsewhere a ha bitmaps unheld
    · rintro rfl
      exact unheld g hg here

theorem Coherent.step (co : Coherent free total k₀ k) (top : EndsBelowTop free total)
    (hfuel : 2732 ≤ fuel) {a : MemoryAct} (allowed : k.Allowed a) (step : k.step fuel a = .ok k') :
    Coherent free total k₀ k' := by
  cases a with
  | heap c =>
    obtain ⟨w, spec, next⟩ := co.heap_step hfuel allowed.1 allowed.2
    rw [KernelMemory.step, spec] at step
    obtain rfl := Except.ok.inj step
    exact next
  | pages a =>
    obtain ⟨s, paged, step⟩ := bind_eq_ok.mp step
    obtain rfl := Except.ok.inj step
    cases a with
    | getPages c => exact co.getPages top paged
    | write addr v =>
      obtain rfl := Except.ok.inj paged
      exact co.write allowed.1 allowed.2

/-- The pages of a call hold the heap. -/
theorem heap_granted {s t : Paging Mem} {n flags p size : Nat}
    (get : pagingGetPages s n flags = .ok (p, t)) (found : p ≠ 0) (fits : size ≤ 4096 * n) :
    ∃ g ∈ t.handed, ∀ a, p ≤ a → a < p + size → g.Holds a := by
  refine ⟨⟨poolOf flags, p, n⟩, ?_, fun a lo hi => ⟨found, a - p, ?_, ?_⟩⟩
  · rw [pagingGetPages_handed get]
    exact List.mem_cons_self
  · change _ < n * 4096
    omega
  · change _ = (p + (a - p)) % 2 ^ 64
    rw [Nat.add_sub_cancel' lo]

theorem initHeap_own {m : Mem} {p size a : Nat} {g : Grant} (large : 12 < size)
    (bound : p + size < 2 ^ 64) (within : ∀ a, p ≤ a → a < p + size → g.Holds a) (ha : a < 2 ^ 64)
    (differs : (initHeap m p size).mem.get a ≠ m.get a) : g.Holds a := by
  have header : SameOutside p (p + 12) m (initHeap m p size).mem :=
    (((SameOutside.refl _ _ m).store _ (by omega) (by omega) (by omega)).store _ (by omega)
      (by omega) (by omega)).store _ (by omega) (by omega) (by omega)
  by_contra outside
  have out := mt (fun inside : p ≤ a ∧ a < p + size => within a inside.1 inside.2) outside
  exact differs (header a ha (by omega))

/-- The header is all that `wdmalloc_init` writes. -/
theorem HeapOnPages.laid {before : Paging Mem → Prop} {c : PagesCall} {size : Nat}
    (boot : HeapOnPages before c size k) : ∃ s p t, before s ∧
      pagingGetPages s c.numPages.toNat c.flags.toNat = .ok (p, t) ∧ p ≠ 0 ∧ p + size < 2 ^ 64 ∧
      k = ⟨{ t with store := (initHeap t.store p size).mem }, p, p, size, [], fun _ => none⟩ := by
  obtain ⟨⟨large, -⟩, s, p, t, h, at_, get, found, bound, init, rfl⟩ := boot
  rw [wdmallocInit_eq _ _ large] at init
  obtain rfl := Except.ok.inj init
  exact ⟨s, p, t, at_, get, found, bound, rfl⟩

theorem HeapOnPages.coherent {before : Paging Mem → Prop} {c : PagesCall} {size : Nat}
    (boot : HeapOnPages before c size k) (pools : ∀ s, before s → Exclusive free total s) :
    Coherent free total k k := by
  obtain ⟨large, narrow, fits⟩ := boot.sizes
  obtain ⟨s, p, t, at_, get, found, bound, rfl⟩ := boot.laid
  have exclusive := (pools s at_).getPages (bind_eq_ok.mpr ⟨(p, t), get, rfl⟩)
  obtain ⟨g, hg, within⟩ := heap_granted get found fits
  refine ⟨exclusive.replace fun a ha differs => ⟨g, hg, initHeap_own large bound within ha differs⟩,
    fun _ => rfl, ⟨g, hg, fun a ha => within a ha.1 ha.2⟩,
    .init t.store found large narrow bound, rfl, ?_, fun _ _ _ _ => rfl⟩
  intro a v hv
  cases hv

theorem HeapOnPages.heapSize {before : Paging Mem → Prop} {c : PagesCall} {size : Nat}
    (boot : HeapOnPages before c size k) : k.heapSize = size := by
  obtain ⟨s, p, t, -, -, -, -, rfl⟩ := boot.laid
  rfl

theorem coherent_of_run (start : Coherent free total k₀ k₀) (top : EndsBelowTop free total)
    (hfuel : 2732 ≤ fuel)
    (run : Reach (fun k => k = k₀) KernelMemory.Allowed (KernelMemory.step fuel) k) :
    Coherent free total k₀ k := by
  apply run.invariant
  · rintro k rfl
    exact start
  · exact fun k a k' co allowed step => co.step top hfuel allowed step

/-- In every run of both allocators and their clients: the heap is well formed,
its blocks are isolated and hold what was put there, or it is too large to have
any; the grants share no byte with one another and the bytes written in them
stand; a byte in no grant and no allocation bitmap never changes; every call of
the heap returns. -/
theorem memory_shared {memoryMap : List MmapEntry} {kernelEnd physEnd size : Nat}
    {c : PagesCall} (boot : HeapOnPages (PagingRun memoryMap kernelEnd physEnd) c size k₀)
    (top : EndsBelowTop (freeStart kernelEnd) (poolPages kernelEnd physEnd))
    (hfuel : 2732 ≤ fuel)
    (run : Reach (fun k => k = k₀) KernelMemory.Allowed (KernelMemory.step fuel) k) :
    ((size ≤ 32779 → (∃ hs fl, WellFormed k.world.heap hs fl) ∧ Isolated k.world) ∧
      (32779 < size → k.held = [])) ∧
    (k.pages.handed.Pairwise (fun g h => ∀ a, ¬ (g.Holds a ∧ h.Holds a)) ∧
      ∀ a v, k.wrote a = some v → k.pages.store.get a = v) ∧
    (∀ a, a < 2 ^ 64 → (∀ id, ¬ (k₀.pages.pool id).allocatedBmp.Stores a) →
      (∀ g ∈ k.pages.handed, ¬ g.Holds a) → k.pages.store.get a = k₀.pages.store.get a) ∧
    ∀ c, Admissible k.world c → c.NoWrap → ∃ k', k.step fuel (.heap c) = .ok k' := by
  have co := coherent_of_run (boot.coherent fun _ => PagingRun.exclusive) top hfuel run
  have length : k.heapSize = size := co.size.trans boot.heapSize
  have blocks : (size ≤ 32779 → (∃ hs fl, WellFormed k.world.heap hs fl) ∧ Isolated k.world) ∧
      (32779 < size → k.held = []) := by
    rw [← length]
    cases co.heap with
    | wellFormed H fits =>
      have small : k.heapSize ≤ 32779 := H.rep.arena.small
      exact ⟨fun _ => ⟨⟨_, _, H.rep.wellFormed⟩, H.isolated fits⟩, fun large => by omega⟩
    | oversized large _ _ idle =>
      exact ⟨fun small => absurd large (Nat.not_lt.mpr small), fun _ => idle.empty⟩
  refine ⟨blocks, ⟨co.pages.disjoint, fun a v hv => (co.wrote a v hv).2.2⟩, co.elsewhere, fun c adm small => ?_⟩
  obtain ⟨w, step, -⟩ := co.heap_step hfuel adm small
  exact ⟨_, bind_eq_ok.mpr ⟨w, step, rfl⟩⟩

end Runs

/-! ## A run of both -/

/-- Contents of granted pages are no bits. -/
theorem Exclusive.own_freePages {free total : Nat} {s : Paging Mem} {m : Mem}
    (hs : Exclusive free total s) (id : PoolId)
    (own : ∀ a, a < 2 ^ 64 → m.get a ≠ s.store.get a → ∃ g ∈ s.handed, g.Holds a) :
    freePages free total m id = freePages free total s.store id :=
  Finset.filter_congr fun j hj => by rw [hs.own_allocBit own (Finset.mem_range.mp hj)]

/-- A page of the kernel pool with a heap on it. -/
structure HeapOnPage (free total size : Nat) (s : Paging Mem) (k : KernelMemory) : Prop where
  handed : k.pages.handed = ⟨.kernel, k.heapStart, 1⟩ :: s.handed
  left : (freePages free total k.pages.store .kernel).card + 1 =
    (freePages free total s.store .kernel).card
  holds : Holds k.world ⟨[⟨size - 12, false⟩], [k.heapStart]⟩
  held : k.held = []

theorem heap_on_page {free total size : Nat} {before : Paging Mem → Prop} {s : Paging Mem}
    (at_ : before s) (hs : Exclusive free total s) (top : EndsBelowTop free total)
    (left : 0 < (freePages free total s.store .kernel).card) (large : 12 < size)
    (small : size < 4096) :
    ∃ k, HeapOnPages before ⟨1, 0⟩ size k ∧ HeapOnPage free total size s k := by
  obtain ⟨r, t, step, room, log, exclusive, count⟩ := hs.next_page left
  obtain ⟨p, get⟩ := getPagesStep_ok step
  have place : p = pageAddr free total .kernel r := by
    have same := (pagingGetPages_handed get).symm.trans log
    exact (Grant.mk.inj (List.cons.inj same).1).2.1
  have found : p ≠ 0 := place ▸ pageAddr_ne_zero top room
  have bound : p + size < 2 ^ 64 := by
    obtain ⟨pos, below⟩ := top
    have most := pages_le total .kernel
    rw [place, pageAddr_eq, PoolId.pageOffset]
    simp only [PoolId.pages] at most
    omega
  have arena : Arena p size := ⟨by omega, bound, large, by omega⟩
  obtain ⟨g, hg, within⟩ := heap_granted get found (show size ≤ 4096 * 1 by omega)
  rw [← place] at log
  refine ⟨⟨{ t with store := (initHeap t.store p size).mem }, p, p, size, [], fun _ => none⟩,
    ⟨⟨large, by omega, by change size ≤ 4096 * 1; omega⟩, s, p, t, _, at_, get, found, bound,
      wdmallocInit_eq t.store p large, rfl⟩, log, ?_, ⟨init_rep _ arena, List.nodup_nil,
      fun e he => by cases he⟩, rfl⟩
  dsimp only
  rw [exclusive.own_freePages .kernel fun a ha differs =>
    ⟨g, hg, initHeap_own large bound within ha differs⟩]
  exact count

theorem reqs_put (held : List Held) (p i : Nat) (v : UInt8) :
    (put held p i v).map Held.req = held.map Held.req := by
  rw [put, List.map_map]
  refine List.map_congr_left fun e _ => ?_
  simp only [Function.comp]
  split <;> rfl

/-- The heap gives out a block of 100 bytes; a page is granted, and its client
writes to it; the heap gives out a block of 50 bytes, and a byte of the first
one is written. -/
theorem memory_shared_sixteen :
    ∃ k₀ k a, HeapOnPages (PagingRun [⟨0, 0x110000, 1⟩] 0xFFFFFFFF80100000 0x110000) ⟨1, 0⟩ 4000 k₀ ∧
      Reach (fun k => k = k₀) KernelMemory.Allowed (KernelMemory.step 2732) k ∧
      k.held.map Held.req = [50, 100] ∧ Isolated k.world ∧ k.pages.handed.length = 2 ∧
      k.wrote a = some 7 ∧ k.pages.store.get a = 7 := by
  obtain ⟨-, s, -, -, init, apart, left, -⟩ := sixteen_pages_left
  have start : PagingRun [⟨0, 0x110000, 1⟩] 0xFFFFFFFF80100000 0x110000 { s with handed := [] } :=
    .start ⟨_, s, init, apart, rfl⟩
  have top : EndsBelowTop (freeStart 0xFFFFFFFF80100000)
      (poolPages 0xFFFFFFFF80100000 0x110000) := by
    unfold EndsBelowTop
    decide +kernel
  change (freePages _ _ ({ s with handed := [] } : Paging Mem).store _).card = 3 at left
  obtain ⟨k₀, boot, on⟩ := heap_on_page start start.exclusive top (by omega)
    (show 12 < 4000 by decide) (by decide)
  have co₀ := boot.coherent fun _ => PagingRun.exclusive
  -- the first block
  obtain ⟨w₁, step₁, -, -, H₁, held₁⟩ := on.holds.malloc_first (n := 100) (by decide)
  have run₁ : Reach (fun k => k = k₀) KernelMemory.Allowed (KernelMemory.step 2732)
      (k₀.withWorld w₁) := .step (a := MemoryAct.heap (.malloc 100)) (.start rfl) ⟨trivial, trivial⟩
    (bind_eq_ok.mpr ⟨w₁, step₁, rfl⟩)
  have co₁ := coherent_of_run co₀ top (Nat.le_refl 2732) run₁
  -- the page
  obtain ⟨r, t, step₂, room, log, exclusive, -⟩ := co₁.pages.next_page (by
    have same := co₀.pages.own_freePages .kernel
      fun a ha differs => co₀.own (c := .malloc 100) (Nat.le_refl 2732) trivial step₁ ha differs
    change 0 < (freePages _ _ w₁.heap.mem .kernel).card
    have count := on.left
    rw [same]
    omega)
  generalize place : pageAddr (freeStart 0xFFFFFFFF80100000) (poolPages 0xFFFFFFFF80100000 0x110000)
    .kernel r = b at log
  have low : b < 2 ^ 64 := place ▸ pageAddr_lt ..
  have run₂ := run₁.step (a := MemoryAct.pages (.getPages ⟨1, 0⟩)) ⟨trivial, trivial⟩
    (bind_eq_ok.mpr ⟨t, step₂, rfl⟩)
  have mine : (Grant.mk .kernel b 1).Holds b :=
    Grant.holds_base (place ▸ pageAddr_ne_zero top room) Nat.one_pos
  obtain ⟨g, hg, arena⟩ := co₁.arena
  have out : ¬ (k₀.withWorld w₁).InHeap b := by
    intro inside
    have disjoint := exclusive.disjoint
    rw [log] at disjoint
    exact (List.pairwise_cons.mp disjoint).1 g hg b ⟨mine, arena b inside⟩
  have out' : ¬ (k₀.withWorld w₁).InHeap (b % 2 ^ 64) := by
    rw [Nat.mod_eq_of_lt low]
    exact out
  have run₃ := run₂.step (a := MemoryAct.pages (.write b 7))
    ⟨⟨_, by rw [log]; exact List.mem_cons_self, mine⟩, out'⟩ rfl
  -- the second block
  have same : ∀ x, w₁.heap.heapStart ≤ x → x < w₁.heap.heapStart + w₁.heap.heapSize →
      (t.store.set b 7).get x = w₁.heap.mem.get x := by
    intro x lo hi
    obtain ⟨p, get⟩ := getPagesStep_ok step₂
    have bound := H₁.rep.arena.bound
    have other : x ≠ b := by
      rintro rfl
      exact out ⟨lo, hi⟩
    rw [get_set_at _ _ low (by omega), if_neg other]
    exact co₁.pages.getPages_held (by decide) get ⟨g, hg, arena x ⟨lo, hi⟩⟩
  obtain ⟨w₄, step₄, -, -, H₄, held₄⟩ := (H₁.elsewhere same).malloc_first (n := 50) (by decide)
  have run₄ := run₃.step (a := MemoryAct.heap (.malloc 50)) ⟨trivial, trivial⟩
    (bind_eq_ok.mpr ⟨w₄, step₄, rfl⟩)
  -- a byte of the first one
  rw [show k₀.world.held = [] from on.held] at held₁
  have first : (⟨k₀.heapStart + 3888 + 12, 100, fun _ => none⟩ : Held) ∈ w₄.held := by
    rw [held₄]
    refine List.mem_cons_of_mem _ ?_
    change _ ∈ w₁.held
    rw [held₁]
    exact List.mem_singleton_self _
  obtain ⟨x, n, ptr, used, -⟩ := H₄.stands _ first
  have long : 0 < wdmActualSize w₄.heap.mem (k₀.heapStart + 3888 + 12 - 12) := by
    have size := H₄.rep.actualSize used
    rw [show k₀.heapStart + 3888 + 12 - 12 = x from by dsimp only at ptr; omega, size]
    simp only [usedAt_cons_free, usedAt_cons_used, usedAt_nil, or_false] at used
    dsimp only
    rcases used with ⟨-, rfl⟩ | ⟨-, rfl⟩ <;> decide
  have run := run₄.step (a := MemoryAct.heap (.write (k₀.heapStart + 3888 + 12) 0 9))
    ⟨⟨List.mem_map_of_mem first, long⟩, trivial⟩ rfl
  obtain ⟨⟨blocks, -⟩, ⟨-, stands⟩, -⟩ := memory_shared boot top (Nat.le_refl 2732) run
  have wrote : KernelMemory.note (KernelMemory.note k₀.wrote (.getPages ⟨1, 0⟩)) (.write b 7) b =
      some 7 := if_pos (Nat.mod_eq_of_lt low).symm
  refine ⟨k₀, _, b, boot, run, ?_, (blocks (by decide)).2, ?_, wrote, stands b 7 wrote⟩
  · change (put w₄.held _ 0 9).map Held.req = _
    rw [reqs_put, held₄]
    change _ :: w₁.held.map Held.req = _
    rw [held₁]
    rfl
  · change t.handed.length = 2
    rw [log]
    change k₀.pages.handed.length + 1 = 2
    rw [on.handed]
    rfl

end WaddleOS
