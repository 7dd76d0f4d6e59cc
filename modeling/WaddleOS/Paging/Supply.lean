import WaddleOS.Paging.Disjoint

/-!
# How many pages the pools hand out

No call of `paging_get_pages` and no write of a client clears an allocation
bit, and a grant sets as many as it has pages. So in every run the clear bits
and the pages granted add up to what was clear at its start. An address of 0
stands for a refusal only while the free memory ends below the top of the
address space, 2 GiB after its start: beyond, a page has that address.

* `Exclusive.step_supply`: what one step does to a pool;
* `Supplied`, `supplied_of_run`: the same for whole runs;
* `page_supply`: a request for one page is refused exactly when the run has
  handed out all that was there.
-/

namespace WaddleOS

/-- The pages of a pool in the grants of a log; a base of 0 is a refusal. -/
def grantedPages (id : PoolId) : List Grant → Nat
  | [] => 0
  | g :: gs => (if g.pool = id ∧ g.base ≠ 0 then g.numPages else 0) + grantedPages id gs

/-- The free memory ends before its addresses wrap around. -/
def EndsBelowTop (free total : Nat) : Prop := 0 < free ∧ free + 4096 * total ≤ 2 ^ 64

/-- From `s` to `t` the log has grown by `new`, and for every page in it a bit has been set. -/
structure Supplied (free total : Nat) (s t : Paging Mem) (new : List Grant) : Prop where
  log : t.handed = new ++ s.handed
  balance : ∀ id, (freePages free total t.store id).card + grantedPages id new =
    (freePages free total s.store id).card

section Step

variable {free total : Nat} {s t u : Paging Mem} {id : PoolId} {n r flags : Nat}
  {new new' : List Grant}

theorem grantedPages_append (id : PoolId) (gs hs : List Grant) :
    grantedPages id (gs ++ hs) = grantedPages id gs + grantedPages id hs := by
  induction gs with
  | nil => simp [grantedPages]
  | cons g gs ih => simp only [List.cons_append, grantedPages, ih, Nat.add_assoc]

theorem Supplied.refl (free total : Nat) (s : Paging Mem) : Supplied free total s s [] :=
  ⟨rfl, fun _ => rfl⟩

theorem Supplied.trans (h : Supplied free total s t new) (h' : Supplied free total t u new') :
    Supplied free total s u (new' ++ new) := by
  refine ⟨by rw [h'.log, h.log, List.append_assoc], fun id => ?_⟩
  have first := h.balance id
  have second := h'.balance id
  rw [grantedPages_append]
  omega

/-- The address of a page is that of a refusal for no page. -/
theorem pageAddr_ne_zero (top : EndsBelowTop free total) (hr : r < id.pages total) :
    pageAddr free total id r ≠ 0 := by
  have bound := pageOffset_bound total id
  obtain ⟨pos, below⟩ := top
  rw [pageAddr_eq, Nat.mod_eq_of_lt (by omega)]
  omega

/-- A client's write to its pages leaves the bits alone. -/
theorem Exclusive.write_allocBit {addr j : Nat} {v : UInt8} (hs : Exclusive free total s)
    (own : ∃ g ∈ s.handed, g.Holds addr) (hj : j < id.pages total) :
    allocBit free total (s.store.set addr v) id j = allocBit free total s.store id j := by
  obtain ⟨g, hg, holds⟩ := own
  obtain ⟨r, base, room, bits⟩ := hs.grants g hg holds.1
  obtain ⟨k, x, hrk, hk, hx, place⟩ := Grant.holds_page base holds
  have htotal := hs.pools.total_lt
  have span := pageOffset_bound total g.pool
  have offset := bmpOffset_bound total id htotal
  have pages := pages_le total id
  have apart := (bits k hrk hk).2 id j hj
  rw [allocBit, allocBit, set_of_mod_eq _ _ place, bitAt_set _ _ (by omega) (by omega),
    if_neg (by omega)]

/-- One step of a client. -/
theorem Exclusive.step_supply {a : PagingAct} (hs : Exclusive free total s)
    (top : EndsBelowTop free total) (own : OwnWrite s a) (step : pagingStep s a = .ok t) :
    ∃ new, Supplied free total s t new := by
  cases a with
  | getPages c =>
    obtain ⟨p, get⟩ := getPagesStep_ok step
    refine ⟨[⟨poolOf c.flags.toNat, p, c.numPages.toNat⟩], pagingGetPages_handed get,
      fun id => ?_⟩
    obtain ⟨⟨pos, -⟩, ⟨rfl, refused⟩ | ⟨r, rfl, granted⟩⟩ := hs.pools.call c.numPages.toNat_lt get
    · simp [grantedPages, refused.store]
    · have room := granted.room
      have address : pageAddr free total (poolOf c.flags.toNat) r ≠ 0 :=
        pageAddr_ne_zero top (by omega)
      by_cases same : poolOf c.flags.toNat = id
      · subst same
        simpa [grantedPages, address] using granted.card hs
      · rw [(granted.freePages_eq hs).2 id (fun h => same h.symm)]
        simp [grantedPages, same]
  | write addr v =>
    cases Except.ok.inj step
    refine ⟨[], rfl, fun id => ?_⟩
    have bits : freePages free total (s.store.set addr v) id = freePages free total s.store id :=
      Finset.filter_congr fun j hj => by
        rw [hs.write_allocBit own (Finset.mem_range.mp hj)]
    rw [bits]
    rfl

theorem Exclusive.step {a : PagingAct} (hs : Exclusive free total s) (own : OwnWrite s a)
    (step : pagingStep s a = .ok t) : Exclusive free total t := by
  cases a with
  | getPages c => exact hs.getPages step
  | write addr v =>
    cases Except.ok.inj step
    exact hs.write own

/-- A run of clients from a state whose grants are exclusive. -/
theorem supplied_of_run (hs : Exclusive free total s) (top : EndsBelowTop free total)
    (run : Reach (fun x => x = s) OwnWrite pagingStep t) :
    Exclusive free total t ∧ ∃ new, Supplied free total s t new := by
  induction run with
  | start h =>
    subst h
    exact ⟨hs, [], .refl free total _⟩
  | step _ own step ih =>
    obtain ⟨exclusive, new, supplied⟩ := ih
    obtain ⟨more, next⟩ := exclusive.step_supply top own step
    exact ⟨exclusive.step own step, _, supplied.trans next⟩

end Step

/-- Over any run the pages granted are at most those that were clear, and a
request for one page is refused exactly when the run has used them up. -/
theorem page_supply {memoryMap : List MmapEntry} {kernelEnd physEnd flags : Nat} {s t : Paging Mem}
    (hs : PagingRun memoryMap kernelEnd physEnd s)
    (top : EndsBelowTop (freeStart kernelEnd) (poolPages kernelEnd physEnd))
    (run : Reach (fun x => x = s) OwnWrite pagingStep t)
    (pages : 0 < (poolOf flags).pages (poolPages kernelEnd physEnd)) :
    ∃ new, t.handed = new ++ s.handed ∧
      grantedPages (poolOf flags) new ≤ (freePages (freeStart kernelEnd)
        (poolPages kernelEnd physEnd) s.store (poolOf flags)).card ∧
      ∃ p u, pagingGetPages t 1 flags = .ok (p, u) ∧
        (p = 0 ↔ grantedPages (poolOf flags) new = (freePages (freeStart kernelEnd)
          (poolPages kernelEnd physEnd) s.store (poolOf flags)).card) := by
  obtain ⟨exclusive, new, supplied⟩ := supplied_of_run hs.exclusive top run
  have balance := supplied.balance (poolOf flags)
  obtain ⟨p, u, get, answer⟩ := exclusive.one_page pages
  refine ⟨new, supplied.log, by omega, p, u, get, ?_⟩
  rcases answer with ⟨zero, empty⟩ | ⟨r, mem, address, -⟩
  · rw [empty, Finset.card_empty] at balance
    exact ⟨fun _ => by omega, fun _ => zero⟩
  · have left := Finset.card_pos.mpr ⟨r, mem⟩
    have address' := pageAddr_ne_zero top (mem_freePages.mp mem).1
    exact ⟨fun zero => absurd (address.symm.trans zero) address', fun all => by omega⟩

/-- Of the sixteen pages past a kernel that ends at 1 MiB the tables leave three:
three clients get one each, and the fourth request is refused. -/
theorem page_supply_sixteen :
    ∃ s t, PagingRun [⟨0, 0x110000, 1⟩] 0xFFFFFFFF80100000 0x110000 s ∧
      Reach (fun x => x = s) OwnWrite pagingStep t ∧ grantedPages .kernel t.handed = 3 ∧
      ∃ u, pagingGetPages t 1 0 = .ok (0, u) := by
  obtain ⟨-, s, -, -, init, apart, left, -⟩ := sixteen_pages_left
  have start : PagingRun [⟨0, 0x110000, 1⟩] 0xFFFFFFFF80100000 0x110000 { s with handed := [] } :=
    .start ⟨_, s, init, apart, rfl⟩
  have top : EndsBelowTop (freeStart 0xFFFFFFFF80100000)
      (poolPages 0xFFFFFFFF80100000 0x110000) := by
    unfold EndsBelowTop
    decide +kernel
  have nonnull : ∀ {r}, r < kPoolPages (poolPages 0xFFFFFFFF80100000 0x110000) →
      pageAddr (freeStart 0xFFFFFFFF80100000) (poolPages 0xFFFFFFFF80100000 0x110000) .kernel r ≠
        0 := fun room => pageAddr_ne_zero top room
  change (freePages _ _ ({ s with handed := [] } : Paging Mem).store _).card = 3 at left
  have run₀ : Reach (fun x => x = { s with handed := [] }) OwnWrite pagingStep
      { s with handed := [] } := .start rfl
  obtain ⟨r₁, t₁, step₁, room₁, log₁, exclusive₁, more₁⟩ := start.exclusive.next_page (by omega)
  obtain ⟨r₂, t₂, step₂, room₂, log₂, exclusive₂, more₂⟩ := exclusive₁.next_page (by omega)
  obtain ⟨r₃, t₃, step₃, room₃, log₃, -, more₃⟩ := exclusive₂.next_page (by omega)
  have run₁ := run₀.step (a := PagingAct.getPages ⟨1, 0⟩) trivial step₁
  have run₂ := run₁.step (a := PagingAct.getPages ⟨1, 0⟩) trivial step₂
  have run := run₂.step (a := PagingAct.getPages ⟨1, 0⟩) trivial step₃
  have granted : grantedPages .kernel t₃.handed = 3 := by
    rw [log₃, log₂, log₁]
    simp [grantedPages, nonnull room₁, nonnull room₂, nonnull room₃]
  have pages : 0 < (poolOf 0).pages (poolPages 0xFFFFFFFF80100000 0x110000) := by decide +kernel
  obtain ⟨new, log, -, p, u, get, refused⟩ := page_supply start top run pages
  rw [List.append_nil] at log
  rw [← log, show poolOf 0 = .kernel from rfl, granted, left] at refused
  rw [refused.mpr rfl] at get
  exact ⟨_, t₃, start, run, granted, u, get⟩

end WaddleOS
