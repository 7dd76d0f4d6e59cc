import WaddleOS.Heap.Capacity

/-!
# What the heap can still serve

A row without neighbouring free blocks has at most one free block more than
used ones, so the blocks that the client holds bound how far the rest can be
broken up. A heap whose only block reads as allocated serves nothing, ever.
-/

namespace WaddleOS

/-! ### Rows -/

/-- What the used blocks of a row cover, headers included. -/
def usedSpan : List Block → Nat
  | [] => 0
  | b :: bs => (if b.used then 12 + b.size else 0) + usedSpan bs

def usedCount (bs : List Block) : Nat := bs.countP Block.used

instance : DecidablePred StartsFree := fun bs =>
  match bs with
  | [] => isFalse not_startsFree_nil
  | ⟨_, _⟩ :: _ => decidable_of_iff _ startsFree_cons.symm

/-- A spread row whose free blocks are all too small for `n` bytes is covered by
its used blocks and one short free block for each of them, and one more if it
starts with a free block. -/
theorem span_le_of_spread {n : Nat} {bs : List Block} (spread : Spread bs)
    (short : ∀ b ∈ bs, b.used = false → b.size < n) :
    span bs ≤ usedSpan bs + (usedCount bs + if StartsFree bs then 1 else 0) * (n + 11) := by
  induction bs with
  | nil => exact Nat.zero_le _
  | cons b bs ih =>
    obtain ⟨s, u⟩ := b
    obtain ⟨alone, spread⟩ := spread
    have rest := ih spread fun c hc => short c (List.mem_cons_of_mem _ hc)
    cases u with
    | true =>
      have starts : ¬ StartsFree (⟨s, true⟩ :: bs) := fun h => Bool.noConfusion (startsFree_cons.mp h)
      have count : usedCount (⟨s, true⟩ :: bs) = usedCount bs + 1 := List.countP_cons_of_pos rfl
      have more : (usedCount bs + if StartsFree bs then 1 else 0) * (n + 11) ≤
          (usedCount bs + 1) * (n + 11) := by
        apply Nat.mul_le_mul_right
        split <;> omega
      rw [if_neg starts, Nat.add_zero, count, span, usedSpan, if_pos rfl]
      dsimp only
      omega
    | false =>
      have starts : StartsFree (⟨s, false⟩ :: bs) := startsFree_cons.mpr rfl
      have count : usedCount (⟨s, false⟩ :: bs) = usedCount bs :=
        List.countP_cons_of_neg Bool.false_ne_true
      have small : s < n := short _ List.mem_cons_self rfl
      rw [if_neg (alone rfl), Nat.add_zero] at rest
      rw [if_pos starts, count, span, usedSpan, if_neg Bool.false_ne_true, Nat.add_mul]
      dsimp only
      omega

/-- A spread row without used blocks is one free block. -/
theorem spread_unused {bs : List Block} (spread : Spread bs) (none : usedCount bs = 0)
    (some : bs ≠ []) : bs = [⟨span bs - 12, false⟩] := by
  have unused : ∀ b ∈ bs, b.used = false := by
    intro b hb
    simpa using List.countP_eq_zero.mp none b hb
  match bs, spread with
  | [⟨s, u⟩], _ =>
    obtain rfl : u = false := unused _ List.mem_cons_self
    simp [span]
  | ⟨s, u⟩ :: ⟨t, v⟩ :: cs, ⟨alone, _⟩ =>
    have first : u = false := unused _ List.mem_cons_self
    have second : v = false := unused _ (List.mem_cons_of_mem _ List.mem_cons_self)
    exact absurd (startsFree_cons.mpr second) (alone first)

/-! ### The client's book -/

/-- What the held blocks cover of the heap. -/
def heldSpan (w : World) : Nat := (w.ptrs.map fun p => 12 + wdmActualSize w.heap.mem (p - 12)).sum

theorem sum_used {m : Mem} {a p : Nat} {bs : List Block} (layout : Layout m a p bs)
    (small : ∀ b ∈ bs, b.size < 2 ^ 15) :
    (((headers a bs).filter fun x => !wdmIsFree m x).map fun x => 12 + wdmActualSize m x).sum =
        usedSpan bs ∧
      ((headers a bs).filter fun x => !wdmIsFree m x).length = usedCount bs := by
  induction bs generalizing a p with
  | nil => exact ⟨rfl, rfl⟩
  | cons b bs ih =>
    obtain ⟨⟨-, raw, -⟩, rest⟩ := layout
    have bound := small b List.mem_cons_self
    have free := isFree_of_raw raw bound
    have size := actualSize_of_raw raw bound
    obtain ⟨sum, length⟩ := ih rest fun c hc => small c (List.mem_cons_of_mem _ hc)
    have row : headers a (b :: bs) = a :: headers (a + 12 + b.size) bs := rfl
    rw [row, usedSpan, usedCount, List.countP_cons]
    cases used : b.used with
    | true =>
      rw [used] at free
      rw [List.filter_cons_of_pos (by rw [free]; rfl), List.map_cons, List.sum_cons, size, sum,
        List.length_cons, length]
      exact ⟨rfl, rfl⟩
    | false =>
      rw [used] at free
      rw [List.filter_cons_of_neg (by rw [free]; decide), sum, length]
      exact ⟨(Nat.zero_add _).symm, rfl⟩

theorem walk_up (m : Mem) (a : Nat) : a < walkNext m a := by
  unfold walkNext
  omega

theorem walk_le_end {m : Mem} {a e : Nat} {hs : List Nat} (walk : Seg (walkNext m) a hs e) :
    a ≤ e := by
  induction hs generalizing a with
  | nil => exact Nat.le_of_eq walk
  | cons x xs ih =>
    obtain ⟨rfl, rest⟩ := walk
    exact Nat.le_trans (Nat.le_of_lt (walk_up m a)) (ih rest)

/-- A walk stays below where it ends. -/
theorem walk_lt_end {m : Mem} {a e x : Nat} {hs : List Nat} (walk : Seg (walkNext m) a hs e)
    (hx : x ∈ hs) : x < e := by
  induction hs generalizing a with
  | nil => cases hx
  | cons y ys ih =>
    obtain ⟨rfl, rest⟩ := walk
    rcases List.mem_cons.mp hx with rfl | hx
    · exact Nat.lt_of_lt_of_le (walk_up m x) (walk_le_end rest)
    · exact ih rest hx

theorem walk_unique {h : Heap} {hs hs' : List Nat} (walk : Walk h hs) (walk' : Walk h hs') :
    hs = hs' :=
  walk.unique_to walk' (fun hm => Nat.lt_irrefl _ (walk_lt_end walk hm))
    (fun hm => Nat.lt_irrefl _ (walk_lt_end walk' hm))

variable {w : World} {A : Abs}

theorem Rep.size_small {h : Heap} (r : Rep h A) : ∀ b ∈ A.blocks, b.size < 2 ^ 15 := by
  intro b hb
  obtain ⟨pre, post, he⟩ := List.append_of_mem hb
  exact r.size_lt (x := h.heapStart + span pre) (by rw [he]; exact mem_placed_mid _ _ _ _)

/-- When every used block is held, the book says what the used blocks cover. -/
theorem Holds.held_used (H : Holds w A) (exact : Exact w A) :
    heldSpan w = usedSpan A.blocks ∧ w.ptrs.length = usedCount A.blocks := by
  obtain ⟨sum, length⟩ := sum_used H.rep.layout H.rep.size_small
  obtain ⟨hs, walk, perm⟩ := H.allHeld exact
  obtain rfl := walk_unique walk H.rep.walk
  have sums := (perm.map fun p => 12 + wdmActualSize w.heap.mem (p - 12)).sum_nat
  rw [List.map_map] at sums
  refine ⟨?_, by rw [← perm.length_eq, List.length_map, length]⟩
  rw [heldSpan, ← sums, ← sum]
  congr 2

/-! ### Runs -/

/-- A call that neither loses a block nor leaves two free ones side by side. -/
structure Tidy (w : World) (c : Call) : Prop where
  admissible : Admissible w c
  releases : Releases w.heap c
  merges : Merges w.heap c

variable {start size fuel : Nat}

theorem tidy_in_run (hwrap : start + size < 2 ^ 64) (hlarge : 12 < size) (hsmall : size ≤ 32779)
    (hfuel : 2732 ≤ fuel) (run : Reach (Booted start size) Tidy (World.step fuel) w)
    (nonnull : start ≠ 0) :
    w.heap.heapStart = start ∧ w.heap.heapSize = size ∧
      ∃ A, Holds w A ∧ Exact w A ∧ Spread A.blocks := by
  have sound := run_sound (P := fun w A => Exact w A ∧ Spread A.blocks) hwrap hlarge hsmall hfuel
    (fun _ _ tidy => tidy.admissible)
    (fun w _ => ⟨fun x s hu => by simp at hu, fun _ => not_startsFree_nil, trivial⟩)
    (fun _ _ _ _ _ tidy stepped h =>
      ⟨stepped.exact tidy.releases h.1, stepped.spread tidy.merges h.2⟩) run
  rcases sound with ⟨hst, hsi, A, H, exact, spread⟩ | ⟨null, -⟩
  · exact ⟨hst, hsi, A, H, exact, spread⟩
  · exact absurd null nonnull

/-- In every tidy run a request is met whenever the bytes that are not held could
not be lost to free blocks that are too short, one more than blocks are held. -/
theorem request_served (hwrap : start + size < 2 ^ 64) (hlarge : 12 < size) (hsmall : size ≤ 32779)
    (hfuel : 2732 ≤ fuel) (nonnull : start ≠ 0)
    (run : Reach (Booted start size) Tidy (World.step fuel) w) (n : Nat)
    (room : heldSpan w + (w.ptrs.length + 1) * (n + 11) < size) :
    ∃ p h', wdmalloc fuel w.heap n = .ok (p, h') ∧ p ≠ 0 := by
  obtain ⟨-, hsi, A, H, exact, spread⟩ := tidy_in_run hwrap hlarge hsmall hfuel run nonnull
  obtain ⟨held, count⟩ := H.held_used exact
  obtain ⟨p, h', A', ran, malloc, -⟩ := wdmalloc_spec H.rep n
    (Nat.lt_of_lt_of_le H.rep.free_length_lt hfuel)
  refine ⟨p, h', ran, fun null => ?_⟩
  have short := (malloc.null null).2
  have bound := span_le_of_spread (n := n) spread fun b hb hu => by
    obtain ⟨pre, post, he⟩ := List.append_of_mem hb
    obtain ⟨s, u⟩ := b
    obtain rfl : u = false := hu
    exact short (w.heap.heapStart + span pre) s (by rw [he]; exact mem_placed_mid _ _ _ _)
  have more : (usedCount A.blocks + if StartsFree A.blocks then 1 else 0) * (n + 11) ≤
      (w.ptrs.length + 1) * (n + 11) := by
    apply Nat.mul_le_mul_right
    split <;> omega
  have total := H.rep.total
  omega

/-- A heap that stands for one free block. -/
theorem Rep.single {h : Heap} {s : Nat} {free : List Nat} (r : Rep h ⟨[⟨s, false⟩], free⟩) :
    h.freelistHead = h.heapStart ∧ prevSz h.mem h.heapStart = 0 ∧ sz h.mem h.heapStart = s ∧
      lom h.mem h.heapStart = 0 := by
  have only : ∀ x, x ∈ free ↔ x ∈ [h.heapStart] := by
    intro x
    rw [List.mem_singleton, r.mem_free x, freeAt_cons]
    exact ⟨fun h => h.elim And.right fun h => absurd h (freeAt_nil _ _), fun h => Or.inl ⟨rfl, h⟩⟩
  have single : free = [h.heapStart] := List.perm_singleton.mp
    ((List.perm_ext_iff_of_nodup r.nodup (List.nodup_singleton _)).mpr only)
  obtain ⟨head, ends⟩ : Seg (lom h.mem) h.freelistHead [h.heapStart] 0 := single ▸ r.chain
  exact ⟨head, r.layout.1.1, r.layout.1.2.1, ends⟩

/-- Once the client has given everything back, the heap is as `wdmalloc_init` left it. -/
theorem drained_heap_restored (hwrap : start + size < 2 ^ 64) (hlarge : 12 < size)
    (hsmall : size ≤ 32779) (hfuel : 2732 ≤ fuel) (nonnull : start ≠ 0)
    (run : Reach (Booted start size) Tidy (World.step fuel) w) (drained : w.held = []) :
    w.heap.freelistHead = start ∧ prevSz w.heap.mem start = 0 ∧
      sz w.heap.mem start = size - 12 ∧ lom w.heap.mem start = 0 := by
  obtain ⟨hst, hsi, A, H, exact, spread⟩ := tidy_in_run hwrap hlarge hsmall hfuel run nonnull
  have count := (H.held_used exact).2
  have none : w.ptrs.length = 0 := by
    rw [World.ptrs, drained]
    rfl
  obtain ⟨blocks, free⟩ := A
  have total : span blocks = size := H.rep.total.trans hsi
  have row : blocks = [⟨size - 12, false⟩] := by
    rw [← total]
    refine spread_unused spread (count.symm.trans none) fun empty => ?_
    rw [empty, span] at total
    omega
  rw [row] at H
  have restored := H.rep.single
  rwa [hst] at restored

/-- What is tidy about a `wdmalloc`, and about a `wdfree` while another block is free. -/
def tidyCheck (w : World) : Call → Bool
  | .malloc _ => true
  | .free p => decide (p ∈ w.ptrs ∧ w.heap.freelistHead ≠ 0 ∧ p < w.heap.heapStart + w.heap.heapSize)
  | _ => false

theorem tidyCheck_sound (w : World) (c : Call) (h : tidyCheck w c = true) : Tidy w c := by
  cases c with
  | malloc n => exact ⟨trivial, trivial, trivial⟩
  | free p =>
    obtain ⟨held, listed, inside⟩ := of_decide_eq_true h
    exact ⟨Or.inr held, Or.inr ⟨listed, inside⟩, trivial⟩
  | calloc | realloc | write => cases h

/-- Of 200 bytes two blocks of 16 are held, and 36 bytes are asked for. -/
theorem request_served_between : ∃ w, Reach (Booted 4096 200) Tidy (World.step 2732) w ∧
    ∃ p h', wdmalloc 2732 w.heap 36 = .ok (p, h') ∧ p ≠ 0 := by
  obtain ⟨w, run, last⟩ := reach_played 4096 (show 12 < 200 by decide) tidyCheck
    (fun w => decide (heldSpan w + (w.ptrs.length + 1) * 47 < 200))
    [.malloc 16, .malloc 16, .malloc 16, .free 4252] tidyCheck_sound (by decide +kernel)
  exact ⟨w, run, request_served (by decide) (by decide) (by decide) (by decide) (by decide) run 36
    (of_decide_eq_true last)⟩

theorem drained_heap_restored_after_three :
    ∃ w, Reach (Booted 4096 200) Tidy (World.step 2732) w ∧ w.heap.freelistHead = 4096 ∧
      sz w.heap.mem 4096 = 188 := by
  obtain ⟨w, run, last⟩ := reach_played 4096 (show 12 < 200 by decide) tidyCheck
    (fun w => w.held.isEmpty)
    [.malloc 16, .malloc 16, .malloc 20, .free 4252, .free 4280, .free 4220] tidyCheck_sound
    (by decide +kernel)
  obtain ⟨head, -, whole, -⟩ := drained_heap_restored (by decide) (by decide) (by decide) (by decide)
    (by decide) run (List.isEmpty_iff.mp last)
  exact ⟨w, run, head, whole⟩

/-! ### A heap that only hands out -/

/-- While only the first block of the heap is free, a request is cut off its end. -/
theorem Malloc.from_first {start n s p : Nat} {row : List Block} {A A' : Abs}
    (m : Malloc start n A p A') (blocks : A = ⟨⟨s, false⟩ :: row, [start]⟩) (room : n + 12 ≤ s) :
    p = start + (s - n) + 12 ∧ A' = ⟨⟨s - n - 12, false⟩ :: ⟨n, true⟩ :: row, [start]⟩ := by
  have only : ∀ {before after : List Nat} {pre : List Block},
      before ++ (start + span pre) :: after = [start] → before = [] ∧ after = [] ∧ pre = [] := by
    intro before after pre free
    obtain ⟨none, rest⟩ : before = [] ∧ (start + span pre) :: after = [start] := by
      cases before with
      | nil => exact ⟨rfl, free⟩
      | cons b bs => simp at free
    obtain ⟨place, last⟩ := List.cons.inj rest
    cases pre with
    | nil => exact ⟨none, last, rfl⟩
    | cons b bs =>
      rw [span] at place
      omega
  cases m with
  | fail short =>
    subst blocks
    have first := short start s List.mem_cons_self
    omega
  | carve =>
    obtain ⟨row', free⟩ := Abs.mk.inj blocks
    obtain ⟨rfl, rfl, rfl⟩ := only free
    obtain ⟨block, rfl⟩ := List.cons.inj row'
    obtain rfl : _ = s := (Block.mk.inj block).1
    rw [span]
    exact ⟨by omega, rfl⟩
  | whole _ tight =>
    obtain ⟨row', free⟩ := Abs.mk.inj blocks
    obtain ⟨rfl, rfl, rfl⟩ := only free
    obtain ⟨block, -⟩ := List.cons.inj row'
    obtain rfl : _ = s := (Block.mk.inj block).1
    omega

/-- The client then holds one block more. -/
theorem Holds.malloc_first {w : World} {s : Nat} {row : List Block} {n : UInt16}
    (H : Holds w ⟨⟨s, false⟩ :: row, [w.heap.heapStart]⟩) (room : n.toNat + 12 ≤ s) :
    ∃ w', w.step 2732 (.malloc n) = .ok w' ∧ w'.heap.heapStart = w.heap.heapStart ∧
      w'.heap.heapSize = w.heap.heapSize ∧
      Holds w' ⟨⟨s - n.toNat - 12, false⟩ :: ⟨n.toNat, true⟩ :: row, [w'.heap.heapStart]⟩ ∧
      w'.held = ⟨w.heap.heapStart + (s - n.toNat) + 12, n.toNat, fun _ => none⟩ :: w.held := by
  obtain ⟨p, h', A', run, malloc, becomes, -⟩ := wdmalloc_spec H.rep n.toNat (show 1 < 2732 by decide)
  obtain ⟨rfl, rfl⟩ := malloc.from_first rfl room
  have stepped := malloc_stepped H (.malloc n) n.toNat malloc becomes fun _ => Nat.le_refl _
  have start : h'.heapStart = w.heap.heapStart := stepped.start
  have taken : hold w.held (w.heap.heapStart + (s - n.toNat) + 12) n.toNat (fun _ => none) =
      ⟨w.heap.heapStart + (s - n.toNat) + 12, n.toNat, fun _ => none⟩ :: w.held :=
    if_neg (Nat.succ_ne_zero _)
  rw [taken] at stepped
  refine ⟨⟨h', _⟩, ?_, start, stepped.size, ?_, rfl⟩
  · rw [World.step, run, ← taken]
    rfl
  · dsimp only
    rw [start]
    exact stepped.holds

/-! ### A heap too large for its header -/

/-- The world in which `wdmalloc_init` was given more than a header can say. -/
structure Oversized (start size : Nat) (w : World) : Prop where
  heap : ∃ m, w.heap = initHeap m start size
  empty : w.held = []

theorem wdmalloc_serves_nothing (start : Nat) (hbig : 32779 < size) (hsize : size < 2 ^ 16) (hfuel : 2 ≤ fuel)
    (m : Mem) (n : Nat) :
    wdmalloc fuel (initHeap m start size) n = .ok (0, initHeap m start size) := by
  by_cases null : start = 0
  · have idle : notReady (initHeap m start size) = true := by simp [notReady, initHeap, null]
    rw [wdmalloc, if_pos idle]
  · exact wdmalloc_oversized null hbig hsize hfuel

theorem wdcalloc_serves_nothing (start : Nat) (hbig : 32779 < size) (hsize : size < 2 ^ 16) (hfuel : 2 ≤ fuel)
    (m : Mem) (num n : Nat) :
    wdcalloc fuel (initHeap m start size) num n = .ok (0, initHeap m start size) := by
  unfold wdcalloc
  split
  · rfl
  · split
    · rfl
    · exact wdmalloc_serves_nothing start hbig hsize hfuel m _

/-- The client has no block to pass to `wdrealloc`. -/
theorem wdrealloc_serves_nothing (start : Nat) (hbig : 32779 < size) (hsize : size < 2 ^ 16) (hfuel : 2 ≤ fuel)
    (m : Mem) (n : Nat) :
    wdrealloc fuel (initHeap m start size) 0 n = .ok (0, initHeap m start size) := by
  rw [wdrealloc_null]
  exact wdmalloc_serves_nothing start hbig hsize hfuel m n

theorem wdfree_null_init (start : Nat) (m : Mem) :
    wdfree fuel (initHeap m start size) 0 = .ok (initHeap m start size) := by
  unfold wdfree
  by_cases null : start = 0
  · have idle : notReady (initHeap m start size) = true := by simp [notReady, initHeap, null]
    rw [if_pos idle]
  · have below : wdmInHeap (initHeap m start size) 0 = false := by simp [wdmInHeap, initHeap, null]
    rw [if_pos below]
    split <;> rfl

theorem Oversized.step {c : Call} (o : Oversized start size w) (hbig : 32779 < size)
    (hsize : size < 2 ^ 16) (hfuel : 2 ≤ fuel) (adm : Admissible w c) : w.step fuel c = .ok w := by
  obtain ⟨⟨m, heap⟩, empty⟩ := o
  obtain ⟨h, held⟩ := w
  dsimp only at heap empty
  subst heap empty
  have null : ∀ {p : Nat}, p = 0 ∨ p ∈ World.ptrs ⟨initHeap m start size, []⟩ → p = 0 :=
    fun h => h.elim id fun h => by cases h
  cases c with
  | malloc n =>
    rw [World.step, wdmalloc_serves_nothing start hbig hsize hfuel]
    rfl
  | calloc num n =>
    rw [World.step, wdcalloc_serves_nothing start hbig hsize hfuel]
    rfl
  | realloc p n =>
    obtain rfl := null adm
    rw [World.step, wdrealloc_serves_nothing start hbig hsize hfuel]
    change (if 0 = 0 ∧ n.toNat ≠ 0 then _ else _) = _
    split <;> rfl
  | free p =>
    obtain rfl := null adm
    rw [World.step, wdfree_null_init]
    rfl
  | write p i v => cases adm.1

/-- A heap of more than 32779 bytes, such as the kernel's, never serves a
request. From the world `w₀` in which it was set up no run leads anywhere else:
the heap stays as it is, the client holds nothing, and every `wdmalloc`,
`wdcalloc` and `wdrealloc` it can make returns null. -/
theorem oversized_heap_serves_nothing {w₀ : World} (hbig : 32779 < size) (hsize : size < 2 ^ 16)
    (hfuel : 2 ≤ fuel) (boot : Booted start size w₀)
    (run : Reach (fun v => v = w₀) Admissible (World.step fuel) w) :
    w = w₀ ∧ w.held = [] ∧
      (∀ n, wdmalloc fuel w.heap n = .ok (0, w.heap)) ∧
      (∀ num n, wdcalloc fuel w.heap num n = .ok (0, w.heap)) ∧
      ∀ p n, Admissible w (.realloc p n) → wdrealloc fuel w.heap p n.toNat = .ok (0, w.heap) := by
  obtain ⟨m, init, empty⟩ := boot
  rw [wdmallocInit_eq m start (by omega)] at init
  have heap : w₀.heap = initHeap m start size := (Except.ok.inj init).symm
  have o : Oversized start size w₀ := ⟨⟨m, heap⟩, empty⟩
  have same : w = w₀ := by
    apply run.invariant
    · exact fun v fresh => fresh
    · rintro v c v' rfl adm step
      rw [o.step hbig hsize hfuel adm] at step
      exact (Except.ok.inj step).symm
  subst same
  have none : w.ptrs = [] := by rw [World.ptrs, empty]; rfl
  refine ⟨rfl, empty, ?_, ?_, ?_⟩ <;> rw [heap]
  · exact wdmalloc_serves_nothing start hbig hsize hfuel m
  · exact wdcalloc_serves_nothing start hbig hsize hfuel m
  · rintro p n (rfl | held)
    · exact wdrealloc_serves_nothing start hbig hsize hfuel m n.toNat
    · rw [none] at held
      cases held

/-- `wdmalloc_init(paging_get_pages(10, 0), 10 * 4096)`, three calls, and then
what `kernel_main` asks for. -/
theorem kernel_heap_serves_nothing :
    ∃ w, Reach (fun v => v = bootWorld 0xFFFFFFFF80200000 (10 * 4096)) Admissible (World.step 2732) w ∧
      w.held = [] ∧ wdmalloc 2732 w.heap 1 = .ok (0, w.heap) := by
  have boot : Booted 0xFFFFFFFF80200000 (10 * 4096) (bootWorld 0xFFFFFFFF80200000 (10 * 4096)) :=
    booted_bootWorld _ (by decide)
  have fresh : Reach (fun v => v = bootWorld 0xFFFFFFFF80200000 (10 * 4096)) Admissible
      (World.step 2732) _ := .start rfl
  obtain ⟨w, run, -⟩ := fresh.of_check (fun w c => decide (Admissible w c)) (fun _ => true)
    [.malloc 1, .calloc 2 8, .realloc 0 100] (fun _ _ h => of_decide_eq_true h) (by decide +kernel)
  obtain ⟨-, empty, malloc, -⟩ :=
    oversized_heap_serves_nothing (by decide) (by decide) (by decide) boot run
  exact ⟨w, run, empty, malloc 1⟩

end WaddleOS
