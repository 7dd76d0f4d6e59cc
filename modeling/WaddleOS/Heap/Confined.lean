import WaddleOS.Heap.Demand

/-!
# The heap keeps to its arena

A call writes headers of the row that it finds, headers of the row that it
leaves and payloads in between, all of them inside the arena. Whatever else
lies in memory is safe from it, and the heap does not see it change.

* `wdrealloc_confined`: the call with the most ways to write;
* `Holds.confined`: every move of the client;
* `Holds.elsewhere`: a write outside the arena does not touch the heap;
* `HeapStands`: the same for a heap of any size, also one that serves nothing.
-/

namespace WaddleOS

/-- Nothing outside the arena of `h` differs in `m`. -/
def Heap.Confines (h : Heap) (m : Mem) : Prop :=
  SameOutside h.heapStart (h.heapStart + h.heapSize) h.mem m

section Arena

variable {h h' : Heap} {A A' : Abs} {m : Mem} {p x : Nat} {hs : List Nat}

theorem Heap.Confines.refl (h : Heap) : h.Confines h.mem := SameOutside.refl _ _ _

theorem Heap.Confines.trans (c : h.Confines h'.mem) (start : h'.heapStart = h.heapStart)
    (size : h'.heapSize = h.heapSize) (c' : h'.Confines m) : h.Confines m := by
  unfold Heap.Confines at c'
  rw [start, size] at c'
  exact SameOutside.trans c c'

theorem Rep.header_inside (r : Rep h A) (hp : p ∈ headers h.heapStart A.blocks) :
    h.heapStart ≤ p ∧ p + 12 ≤ h.heapStart + h.heapSize := by
  obtain ⟨b, hb⟩ := mem_headers.mp hp
  have bounds := placed_bounds hb
  have total := r.total
  omega

theorem HdrFrame.confines (fr : HdrFrame hs h.mem m)
    (inside : ∀ p ∈ hs, h.heapStart ≤ p ∧ p + 12 ≤ h.heapStart + h.heapSize) : h.Confines m := by
  intro y hy out
  apply fr y hy
  intro p hp
  have at_ := inside p hp
  omega

/-- A step that writes headers only. -/
theorem Becomes.confines (r : Rep h A) (b : Becomes h A h' A') : h.Confines h'.mem := by
  apply b.frame.confines
  intro p hp
  rcases List.mem_append.mp hp with hp | hp
  · exact r.header_inside hp
  · rw [← b.start] at hp
    have inside := b.rep.header_inside hp
    rwa [b.start, b.size] at inside

end Arena

section Calls

variable {h h' h1 : Heap} {A : Abs} {pre mid post : List Block} {fl : List Nat} {r : Reposition}
  {p hdr c n fuel : Nat}

theorem wdmalloc_confined (rep : Rep h A) (hfuel : A.free.length < fuel)
    (call : wdmalloc fuel h n = .ok (p, h')) : h.Confines h'.mem := by
  obtain ⟨q, k, A', spec, -, becomes, -⟩ := wdmalloc_spec rep n hfuel
  obtain ⟨rfl, rfl⟩ := Prod.mk.inj (Except.ok.inj (spec.symm.trans call))
  exact becomes.confines rep

theorem wdfree_confined (rep : Rep h ⟨pre ++ ⟨c, true⟩ :: post, fl⟩) (hfuel : fl.length < fuel)
    (call : wdfree fuel h (h.heapStart + span pre + 12) = .ok h') : h.Confines h'.mem := by
  rcases wdfree_spec rep hfuel with ⟨-, spec⟩ | ⟨-, k, A', spec, -, becomes⟩
  · obtain rfl := Except.ok.inj (spec.symm.trans call)
    exact Heap.Confines.refl h
  · obtain rfl := Except.ok.inj (spec.symm.trans call)
    exact becomes.confines rep

/-- A growth in place writes links, its region and the header behind it. -/
theorem grow_confined (rep : Rep h ⟨pre ++ (mid ++ post), fl⟩)
    (g : Region h.heapStart pre mid r hdr c) (larger : c < n) (fits : n ≤ r.bytesAvail)
    (hfuel : fl.length < fuel) (unlinked : unlink r fuel h h.freelistHead 0 = .ok h1)
    (settled : settle h1 r hdr (hdr + 12) n = (p, h')) : h.Confines h'.mem := by
  have bound := rep.arena.bound
  have total : span pre + (span mid + span post) = h.heapSize := by simpa using rep.total
  have avail := g.avail
  have own : UsedAt h.heapStart (pre ++ (mid ++ post)) hdr c :=
    usedAt_append.mpr (.inr (usedAt_append.mpr (.inl g.own)))
  have place := g.own.bounds
  obtain ⟨k, loop, edit, merged⟩ := unlink_merged rep g hfuel
  obtain rfl := Except.ok.inj (loop.symm.trans unlinked)
  have links : h.Confines k.mem :=
    edit.frame.confines fun x hx => rep.header_inside ((rep.mem_free x).mp hx).mem_headers
  have size : wdmActualSize k.mem hdr = c := by
    have fields := edit.fields hdr (by omega) fun y hy => (((rep.mem_free y).mp hy).apart own).1
    rw [wdmActualSize, fields.2.1]
    exact rep.actualSize own
  obtain ⟨k', spec, grown⟩ := settle_spec (r := r) (n := n) merged
    (by rw [edit.start]; exact placed_head g.own) size (by rw [edit.start]; omega) larger fits
    (by rw [edit.start]; exact g.at_start) rfl
  obtain ⟨-, rfl⟩ := Prod.mk.inj (spec.symm.trans settled)
  refine links.trans edit.start edit.size fun x hx out => grown.outside x hx ?_ fun p hp => ?_
  · rw [edit.start, edit.size] at out
    rw [edit.start]
    omega
  · have inside := grown.rep.header_inside (p := p) (by rwa [grown.start])
    rw [grown.start, grown.size] at inside
    omega

/-- The region that a growth in place works on. -/
theorem Rep.grow_region (rep : Rep h ⟨pre ++ ⟨c, true⟩ :: post, fl⟩)
    (hdr_eq : h.heapStart + span pre = hdr) (chosen : reposition h hdr n = some r) :
    ∃ pre' mid post', pre ++ ⟨c, true⟩ :: post = pre' ++ (mid ++ post') ∧
      Region h.heapStart pre' mid r hdr c ∧ n ≤ r.bytesAvail := by
  by_cases noNext : NextFits n c post
  · obtain ⟨s, post', rfl, fits⟩ := noNext
    subst hdr_eq
    obtain rfl := Option.some.inj ((reposition_next rep fits).symm.trans chosen)
    exact ⟨pre, _, post', by simp, region_next _ _, fits⟩
  by_cases noPrev : PrevFits n c pre
  · obtain ⟨q, pre', rfl, fits⟩ := noPrev
    have place : h.heapStart + span pre' + 12 + q = hdr := by
      simp only [span_append, span] at hdr_eq
      omega
    have spec := reposition_prev rep noNext fits
    rw [hdr_eq] at spec
    obtain rfl := Option.some.inj (spec.symm.trans chosen)
    rw [← place]
    exact ⟨pre', _, post, by simp, region_prev _ _, fits⟩
  by_cases noBoth : BothFit n c pre post
  · obtain ⟨q, pre', s, post', rfl, rfl, fits⟩ := noBoth
    have place : h.heapStart + span pre' + 12 + q = hdr := by
      simp only [span_append, span] at hdr_eq
      omega
    have spec := reposition_both rep noNext noPrev fits
    rw [hdr_eq] at spec
    obtain rfl := Option.some.inj (spec.symm.trans chosen)
    rw [← place]
    exact ⟨pre', _, post', by simp, region_both _ _, fits⟩
  · subst hdr_eq
    rw [reposition_none rep noNext noPrev noBoth] at chosen
    cases chosen

/-- A move to another place writes the new block before the old one is freed. -/
theorem relocate_confined (rep : Rep h ⟨pre ++ ⟨c, true⟩ :: post, fl⟩) (larger : c < n)
    (hfuel : fl.length < fuel)
    (call : relocate fuel h (h.heapStart + span pre) (h.heapStart + span pre + 12) n = .ok (p, h')) :
    h.Confines h'.mem := by
  have own : UsedAt h.heapStart (pre ++ ⟨c, true⟩ :: post) (h.heapStart + span pre) c :=
    mem_placed_mid _ _ _ _
  obtain ⟨q, k, A1, spec, malloc, becomes, -⟩ := wdmalloc_spec rep n hfuel
  have alloc := becomes.confines rep
  obtain ⟨⟨q', k'⟩, first, call⟩ := bind_eq_ok.mp call
  obtain ⟨rfl, rfl⟩ := Prod.mk.inj (Except.ok.inj (spec.symm.trans first))
  rcases malloc.used with ⟨rfl, -⟩ | ⟨x, s, rfl, room, -, fresh, used⟩
  · obtain ⟨-, rfl⟩ := Prod.mk.inj (Except.ok.inj call)
    exact alloc
  simp only [Nat.add_eq_zero_iff, OfNat.ofNat_ne_zero, and_false, if_false] at call
  have old : UsedAt h.heapStart A1.blocks (h.heapStart + span pre) c := (used _ _).mpr (.inl own)
  have new : UsedAt k.heapStart A1.blocks x s := by
    rw [becomes.start]
    exact (used x s).mpr (.inr ⟨rfl, rfl⟩)
  have size : wdmActualSize k.mem (h.heapStart + span pre) = c :=
    becomes.rep.actualSize (b := ⟨c, true⟩) (by rw [becomes.start]; exact old)
  rw [size] at call
  generalize copied : memmove k.mem (x + 12) (h.heapStart + span pre + 12) c = m at call
  have eff := Malloc.effect (h.heapStart + h.heapSize) rep malloc becomes
  obtain ⟨rep', -, -⟩ := relocate_copy rep becomes eff (by omega) own fresh used copied
  have inside := becomes.rep.bound new
  have arena := becomes.rep.arena.bound
  have low := new.bounds
  have copy : k.Confines m := by
    rw [← copied]
    exact (SameOutside.refl _ _ k.mem).memmove _ (by omega) (by simp only at inside; omega) (by omega)
  obtain ⟨k', freed, call⟩ := bind_eq_ok.mp call
  obtain ⟨-, rfl⟩ := Prod.mk.inj (Except.ok.inj call)
  obtain ⟨pre1, post1, row, place⟩ := placed_split old
  obtain ⟨blocks, free⟩ := A1
  simp only at row
  subst row
  have at_ : k.heapStart + span pre1 = h.heapStart + span pre := by rw [becomes.start, place]
  have release : Heap.Confines { k with mem := m } k'.mem :=
    wdfree_confined rep' (Nat.lt_of_le_of_lt malloc.free_length hfuel)
      (by simp only [at_]; exact freed)
  have moved : h.Confines (Heap.mem { k with mem := m }) :=
    alloc.trans becomes.start becomes.size copy
  exact moved.trans becomes.start becomes.size release

theorem wdrealloc_confined (rep : Rep h ⟨pre ++ ⟨c, true⟩ :: post, fl⟩) (hfuel : fl.length < fuel)
    (call : wdrealloc fuel h (h.heapStart + span pre + 12) n = .ok (p, h')) : h.Confines h'.mem := by
  have bound := rep.arena.bound
  have total : span pre + (12 + c + span post) = h.heapSize := by simpa [span] using rep.total
  have size := rep.actualSize (mem_placed_mid h.heapStart pre post ⟨c, true⟩)
  have header : (h.heapStart + span pre + 12 + 2 ^ 64 - 12) % 2 ^ 64 = h.heapStart + span pre := by
    omega
  have same : ∀ {q : Nat}, (Except.ok (q, h) : Except Fault (Nat × Heap)) = .ok (p, h') →
      h.Confines h'.mem := by
    intro q call
    obtain ⟨-, rfl⟩ := Prod.mk.inj (Except.ok.inj call)
    exact Heap.Confines.refl h
  simp only at size
  unfold wdrealloc at call
  rw [if_neg (show h.heapStart + span pre + 12 ≠ 0 by omega)] at call
  simp only [header, size] at call
  split at call
  · exact same call
  split at call
  · exact same call
  split at call
  next larger =>
    cases chosen : reposition h (h.heapStart + span pre) n with
    | none =>
      rw [chosen] at call
      exact relocate_confined rep larger hfuel call
    | some r =>
      rw [chosen] at call
      obtain ⟨k, unlinked, call⟩ := bind_eq_ok.mp call
      obtain ⟨pre', mid, post', row, region, fits⟩ := rep.grow_region rfl chosen
      rw [row] at rep
      exact grow_confined rep region larger fits hfuel unlinked (Except.ok.inj call)
  split at call
  · obtain ⟨k, freed, call⟩ := bind_eq_ok.mp call
    obtain ⟨-, rfl⟩ := Prod.mk.inj (Except.ok.inj call)
    exact wdfree_confined rep hfuel freed
  · obtain ⟨k, shrunk, call⟩ := bind_eq_ok.mp call
    obtain ⟨-, rfl⟩ := Prod.mk.inj (Except.ok.inj call)
    by_cases room : n + 16 ≤ c
    · obtain ⟨k', A', spec, -, becomes⟩ := shrink_spec rep room hfuel
      obtain rfl := Except.ok.inj (spec.symm.trans shrunk)
      exact becomes.confines rep
    · have small := rep.arena.small
      rw [shrink, size, if_neg (by omega)] at shrunk
      obtain rfl := Except.ok.inj shrunk
      exact Heap.Confines.refl h

end Calls

section Moves

variable {w w' : World} {A : Abs} {fuel : Nat}

/-- The row around a held block, with the list of the free ones. -/
theorem Holds.around (H : Holds w A) {p : Nat} (hp : p ∈ w.ptrs) :
    ∃ pre c post fl, A = ⟨pre ++ ⟨c, true⟩ :: post, fl⟩ ∧ p = w.heap.heapStart + span pre + 12 := by
  obtain ⟨pre, c, post, row, place⟩ := H.locate hp
  exact ⟨pre, c, post, A.free, by rw [← row], place⟩

/-- No move of the client changes a byte outside the heap. -/
theorem Holds.confined (H : Holds w A) (hfuel : A.free.length < fuel) {c : Call}
    (adm : Admissible w c) (step : w.step fuel c = .ok w') : w.heap.Confines w'.heap.mem := by
  cases c with
  | malloc n =>
    obtain ⟨⟨p, k⟩, call, step⟩ := bind_eq_ok.mp step
    obtain rfl := Except.ok.inj step
    exact wdmalloc_confined H.rep hfuel call
  | calloc num n =>
    obtain ⟨⟨p, k⟩, call, step⟩ := bind_eq_ok.mp step
    obtain rfl := Except.ok.inj step
    rw [wdcalloc_eq] at call
    split at call
    · obtain ⟨-, rfl⟩ := Prod.mk.inj (Except.ok.inj call)
      exact Heap.Confines.refl _
    · exact wdmalloc_confined H.rep hfuel call
  | realloc p n =>
    obtain ⟨⟨q, k⟩, call, step⟩ := bind_eq_ok.mp step
    have confined : w.heap.Confines k.mem := by
      rcases adm with rfl | hp
      · rw [wdrealloc_null] at call
        exact wdmalloc_confined H.rep hfuel call
      · obtain ⟨pre, c, post, fl, rfl, rfl⟩ := H.around hp
        exact wdrealloc_confined H.rep hfuel call
    simp only at step
    split at step <;> obtain rfl := Except.ok.inj step <;> exact confined
  | free p =>
    obtain ⟨k, call, step⟩ := bind_eq_ok.mp step
    obtain rfl := Except.ok.inj step
    rcases adm with rfl | hp
    · obtain rfl := Except.ok.inj ((wdfree_null H).symm.trans call)
      exact Heap.Confines.refl _
    · obtain ⟨pre, c, post, fl, rfl, rfl⟩ := H.around hp
      exact wdfree_confined H.rep hfuel call
  | write p i v =>
    obtain rfl := Except.ok.inj step
    obtain ⟨pre, c, post, fl, rfl, rfl⟩ := H.around adm.1
    have size := H.rep.actualSize (mem_placed_mid w.heap.heapStart pre post ⟨c, true⟩)
    have inside := H.rep.bound (mem_placed_mid w.heap.heapStart pre post ⟨c, true⟩)
    have bound := H.rep.arena.bound
    have within := adm.2
    simp only [Nat.add_sub_cancel, size] at within inside
    intro x hx out
    exact (get_set_at _ v (by omega) hx).trans (if_neg (by omega))

/-- The heap is as it was when memory changes outside of it. -/
theorem Holds.elsewhere (H : Holds w A) {m : Mem}
    (same : ∀ x, w.heap.heapStart ≤ x → x < w.heap.heapStart + w.heap.heapSize →
      m.get x = w.heap.mem.get x) : Holds ⟨{ w.heap with mem := m }, w.held⟩ A := by
  have bound := H.rep.arena.bound
  have fields : ∀ y c, (y, c) ∈ placed w.heap.heapStart A.blocks →
      prevSz m y = prevSz w.heap.mem y ∧ sz m y = sz w.heap.mem y ∧ lom m y = lom w.heap.mem y := by
    intro y c hy
    have inside := H.rep.header_inside (mem_headers.mpr ⟨c, hy⟩)
    exact fields_congr fun i hi => same _ (by omega) (by omega)
  refine ⟨⟨H.rep.arena, H.rep.total, H.rep.layout.congr ?_, H.rep.chain.congr ?_, H.rep.nodup,
    H.rep.mem_free⟩, H.nodup, fun e he => ?_⟩
  · intro y c hy
    obtain ⟨prev, size, link⟩ := fields y c hy
    exact ⟨prev, size, fun _ => link⟩
  · intro y hy
    obtain ⟨c, hc, -⟩ := (H.rep.mem_free y).mp hy
    exact (fields y c hc).2.2
  · obtain ⟨x, s, place, used, data⟩ := H.stands e he
    have inside := H.rep.bound used
    have low := used.bounds
    refine ⟨x, s, place, used, fun i v hv => ?_⟩
    obtain ⟨hi, byte⟩ := data i v hv
    simp only at inside
    exact ⟨hi, (same _ (by omega) (by omega)).trans byte⟩

end Moves

/-! ### Heaps of any size -/

section AnySize

variable {w w' : World} {m : Mem} {start size fuel : Nat}

theorem initHeap_self (hsize : size < 2 ^ 16) (prev : prevSz m start = 0)
    (length : sz m start = size - 12) (link : lom m start = 0) :
    initHeap m start size = ⟨m, start, start, size⟩ := by
  have first : setPrevSz m start 0 = m := store_eq_self (prev.trans (Nat.zero_mod _).symm)
  have second : setSz m start (size - 12) = m :=
    store_eq_self (length.trans (Nat.mod_eq_of_lt (by omega)).symm)
  have third : setLom m start 0 = m := store_eq_self (link.trans (Nat.zero_mod _).symm)
  rw [initHeap, first, second, third]

theorem Oversized.elsewhere (o : Oversized start size w) (large : 12 < size)
    (hsize : size < 2 ^ 16)
    (same : ∀ x, start ≤ x → x < start + size → m.get x = w.heap.mem.get x) :
    Oversized start size ⟨{ w.heap with mem := m }, w.held⟩ := by
  obtain ⟨⟨m₀, heap⟩, empty⟩ := o
  obtain ⟨length, link⟩ := initHeap_fields m₀ start hsize
  have prev : prevSz (initHeap m₀ start size).mem start = 0 := by
    have last := load_store_outside (setSz (setPrevSz m₀ start 0) start (size - 12)) 0
      (b := start) (o := 4) (n := 8) (p := 0) (k := 2) (by decide) (by decide) (by decide)
    have middle := load_store_outside (setPrevSz m₀ start 0) (size - 12)
      (b := start) (o := 2) (n := 2) (p := 0) (k := 2) (by decide) (by decide) (by decide)
    have written := load_store_same m₀ 0 (b := start) (o := 0) (n := 2) (by decide)
    exact (last.trans middle).trans (written.trans (Nat.zero_mod _))
  rw [heap] at same
  have header : ∀ i, i < 12 → m.get (start + i) = (initHeap m₀ start size).mem.get (start + i) :=
    fun i hi => same _ (by omega) (by omega)
  obtain ⟨prev', length', link'⟩ := fields_congr header
  refine ⟨⟨m, ?_⟩, empty⟩
  rw [initHeap_self hsize (prev'.trans prev) (length'.trans length) (link'.trans link)]
  rw [heap]
  rfl

/-- A heap in a run: well formed, or with more bytes than a header can say. -/
inductive HeapStands (w : World) : Prop
  | wellFormed {A : Abs} (holds : Holds w A) (fits : ∀ e ∈ w.held, e.Fits w.heap A)
  | oversized (large : 32779 < w.heap.heapSize) (size : w.heap.heapSize < 2 ^ 16)
      (bound : w.heap.heapStart + w.heap.heapSize < 2 ^ 64)
      (idle : Oversized w.heap.heapStart w.heap.heapSize w)

theorem HeapStands.init (m : Mem) (nonnull : start ≠ 0) (large : 12 < size)
    (hsize : size < 2 ^ 16) (bound : start + size < 2 ^ 64) :
    HeapStands ⟨initHeap m start size, []⟩ := by
  by_cases small : size ≤ 32779
  · have arena : Arena start size := ⟨by omega, bound, large, small⟩
    refine .wellFormed ⟨init_rep m arena, List.nodup_nil, fun e he => by cases he⟩
      fun e he => by cases he
  · exact .oversized (by change _ < size; omega) hsize bound ⟨⟨m, rfl⟩, rfl⟩

theorem HeapStands.bound (h : HeapStands w) : w.heap.heapStart + w.heap.heapSize < 2 ^ 64 := by
  cases h with
  | wellFormed H _ => exact H.rep.arena.bound
  | oversized _ _ bound _ => exact bound

theorem HeapStands.confined (h : HeapStands w) (hfuel : 2732 ≤ fuel) {c : Call}
    (adm : Admissible w c) (step : w.step fuel c = .ok w') : w.heap.Confines w'.heap.mem := by
  cases h with
  | wellFormed H _ => exact H.confined (Nat.lt_of_lt_of_le H.rep.free_length_lt hfuel) adm step
  | oversized large size _ idle =>
    rw [idle.step large size (by omega) adm] at step
    obtain rfl := Except.ok.inj step
    exact Heap.Confines.refl _

theorem HeapStands.step (h : HeapStands w) (hfuel : 2732 ≤ fuel) {c : Call}
    (adm : Admissible w c) (small : c.NoWrap) :
    ∃ w', w.step fuel c = .ok w' ∧ HeapStands w' ∧ w'.heap.heapStart = w.heap.heapStart ∧
      w'.heap.heapSize = w.heap.heapSize := by
  cases h with
  | wellFormed H fits =>
    have enough := Nat.lt_of_lt_of_le H.rep.free_length_lt hfuel
    obtain ⟨w', A', step, stepped⟩ := w.step_spec H c adm enough
    exact ⟨w', step, .wellFormed stepped.holds (stepped.fits small fits), stepped.start,
      stepped.size⟩
  | oversized large size bound idle =>
    exact ⟨w, idle.step large size (by omega) adm, .oversized large size bound idle, rfl, rfl⟩

theorem HeapStands.elsewhere (h : HeapStands w)
    (same : ∀ x, w.heap.heapStart ≤ x → x < w.heap.heapStart + w.heap.heapSize →
      m.get x = w.heap.mem.get x) : HeapStands ⟨{ w.heap with mem := m }, w.held⟩ := by
  cases h with
  | wellFormed H fits => exact .wellFormed (H.elsewhere same) fits
  | oversized large size bound idle =>
    exact .oversized large size bound (idle.elsewhere (by omega) size same)

end AnySize

end WaddleOS
