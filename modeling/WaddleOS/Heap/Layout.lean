import WaddleOS.Base.Chain
import WaddleOS.Heap.Alloc

/-!
# The heap as a row of blocks

The abstract heap is the physical row of blocks, each a size and whether it
is in use, together with the headers on the freelist in link order. `Layout`
says that memory holds the headers of a row placed at an address, and `Rep`
that a concrete heap stands for an abstract one.
-/

namespace WaddleOS

structure Block where
  size : Nat
  used : Bool
  deriving DecidableEq, Repr

/-- The `sz` field of a block: its size with the alloc bit. -/
def Block.raw (b : Block) : Nat := if b.used then b.size + 2 ^ 15 else b.size

/-- The bytes a row of blocks covers, headers included. -/
def span : List Block → Nat
  | [] => 0
  | b :: bs => 12 + b.size + span bs

/-- Each block of a row starting at `a`, with the address of its header. -/
def placed (a : Nat) : List Block → List (Nat × Block)
  | [] => []
  | b :: bs => (a, b) :: placed (a + 12 + b.size) bs

/-- The size of the last block of a row, or `p` for the empty row. -/
def lastSize (p : Nat) : List Block → Nat
  | [] => p
  | b :: bs => lastSize b.size bs

/-- A free block has its header at `x`. -/
def FreeAt (a : Nat) (bs : List Block) (x : Nat) : Prop :=
  ∃ b, (x, b) ∈ placed a bs ∧ b.used = false

/-- The headers of the row, whose first `prev_sz` is `p`, stand in memory. -/
def Layout (m : Mem) (a p : Nat) : List Block → Prop
  | [] => True
  | b :: bs =>
    (prevSz m a = p ∧ sz m a = b.raw ∧ (b.used = true → lom m a = wdmMagic)) ∧
      Layout m (a + 12 + b.size) b.size bs

@[simp] theorem span_append (xs ys : List Block) : span (xs ++ ys) = span xs + span ys := by
  induction xs with
  | nil => simp [span]
  | cons x xs ih => simp only [List.cons_append, span, ih]; omega

theorem placed_append (a : Nat) (xs ys : List Block) :
    placed a (xs ++ ys) = placed a xs ++ placed (a + span xs) ys := by
  induction xs generalizing a with
  | nil => rfl
  | cons x xs ih =>
    simp only [List.cons_append, placed, ih, span]
    rw [show a + 12 + x.size + span xs = a + (12 + x.size + span xs) by omega]

theorem lastSize_append (p : Nat) (xs ys : List Block) :
    lastSize p (xs ++ ys) = lastSize (lastSize p xs) ys := by
  induction xs generalizing p with
  | nil => rfl
  | cons x xs ih => exact ih x.size

theorem lastSize_append_cons (p : Nat) (xs ys : List Block) (b : Block) :
    lastSize p (xs ++ b :: ys) = lastSize b.size ys :=
  lastSize_append p xs (b :: ys)

theorem layout_append {m : Mem} {a p : Nat} {xs ys : List Block} :
    Layout m a p (xs ++ ys) ↔ Layout m a p xs ∧ Layout m (a + span xs) (lastSize p xs) ys := by
  induction xs generalizing a p with
  | nil => simp [Layout, span, lastSize]
  | cons x xs ih =>
    simp only [List.cons_append, Layout, ih, span, lastSize, and_assoc]
    rw [show a + 12 + x.size + span xs = a + (12 + x.size + span xs) by omega]

theorem placed_bounds {a x : Nat} {b : Block} {bs : List Block} (h : (x, b) ∈ placed a bs) :
    a ≤ x ∧ x + 12 + b.size ≤ a + span bs := by
  induction bs generalizing a with
  | nil => cases h
  | cons c cs ih =>
    simp only [placed, List.mem_cons, Prod.mk.injEq] at h
    simp only [span]
    rcases h with ⟨rfl, rfl⟩ | h
    · omega
    · have := ih h
      omega

/-- Two blocks of one row are the same block or do not overlap. -/
theorem placed_apart {a x y : Nat} {b c : Block} {bs : List Block}
    (hx : (x, b) ∈ placed a bs) (hy : (y, c) ∈ placed a bs) :
    (x = y ∧ b = c) ∨ x + 12 + b.size ≤ y ∨ y + 12 + c.size ≤ x := by
  induction bs generalizing a with
  | nil => cases hx
  | cons d ds ih =>
    simp only [placed, List.mem_cons, Prod.mk.injEq] at hx hy
    rcases hx with ⟨rfl, rfl⟩ | hx <;> rcases hy with ⟨rfl, rfl⟩ | hy
    · exact Or.inl ⟨rfl, rfl⟩
    · exact Or.inr (Or.inl (placed_bounds hy).1)
    · exact Or.inr (Or.inr (placed_bounds hx).1)
    · exact ih hx hy

theorem placed_sameOrApart {a x y : Nat} {b c : Block} {bs : List Block}
    (hx : (x, b) ∈ placed a bs) (hy : (y, c) ∈ placed a bs) : SameOrApart x y := by
  rcases placed_apart hx hy with h | h | h
  · exact Or.inl h.1
  · exact Or.inr (Or.inl (by omega))
  · exact Or.inr (Or.inr (by omega))

/-- A placed block splits the row at its header. -/
theorem placed_split {a x : Nat} {b : Block} {bs : List Block} (h : (x, b) ∈ placed a bs) :
    ∃ pre post, bs = pre ++ b :: post ∧ x = a + span pre := by
  induction bs generalizing a with
  | nil => cases h
  | cons c cs ih =>
    simp only [placed, List.mem_cons, Prod.mk.injEq] at h
    rcases h with ⟨rfl, rfl⟩ | h
    · exact ⟨[], cs, rfl, rfl⟩
    · obtain ⟨pre, post, rfl, rfl⟩ := ih h
      exact ⟨c :: pre, post, rfl, by simp only [span]; omega⟩

theorem mem_placed_append {a : Nat} {xs ys : List Block} {e : Nat × Block} :
    e ∈ placed a (xs ++ ys) ↔ e ∈ placed a xs ∨ e ∈ placed (a + span xs) ys := by
  rw [placed_append, List.mem_append]

theorem mem_placed_mid (a : Nat) (pre post : List Block) (b : Block) :
    (a + span pre, b) ∈ placed a (pre ++ b :: post) :=
  mem_placed_append.mpr (Or.inr List.mem_cons_self)

theorem freeAt_nil (a x : Nat) : ¬ FreeAt a [] x := by
  rintro ⟨b, h, _⟩
  cases h

theorem freeAt_cons {a x : Nat} {b : Block} {bs : List Block} :
    FreeAt a (b :: bs) x ↔ (b.used = false ∧ x = a) ∨ FreeAt (a + 12 + b.size) bs x := by
  constructor
  · rintro ⟨c, h, hu⟩
    simp only [placed, List.mem_cons, Prod.mk.injEq] at h
    rcases h with ⟨rfl, rfl⟩ | h
    · exact Or.inl ⟨hu, rfl⟩
    · exact Or.inr ⟨c, h, hu⟩
  · rintro (⟨hu, rfl⟩ | ⟨c, h, hu⟩)
    · exact ⟨b, List.mem_cons_self, hu⟩
    · exact ⟨c, List.mem_cons_of_mem _ h, hu⟩

theorem freeAt_append {a x : Nat} {xs ys : List Block} :
    FreeAt a (xs ++ ys) x ↔ FreeAt a xs x ∨ FreeAt (a + span xs) ys x := by
  simp only [FreeAt, mem_placed_append, or_and_right, exists_or]

theorem FreeAt.bounds {a x : Nat} {bs : List Block} (h : FreeAt a bs x) :
    a ≤ x ∧ x + 12 ≤ a + span bs := by
  obtain ⟨b, hb, _⟩ := h
  have := placed_bounds hb
  omega

/-- A used block of `s` bytes has its header at `x`. -/
def UsedAt (a : Nat) (bs : List Block) (x s : Nat) : Prop := (x, ⟨s, true⟩) ∈ placed a bs

theorem usedAt_append {a x s : Nat} {xs ys : List Block} :
    UsedAt a (xs ++ ys) x s ↔ UsedAt a xs x s ∨ UsedAt (a + span xs) ys x s :=
  mem_placed_append

@[simp] theorem usedAt_cons_used {a x s n : Nat} {bs : List Block} :
    UsedAt a (⟨n, true⟩ :: bs) x s ↔ (x = a ∧ s = n) ∨ UsedAt (a + 12 + n) bs x s := by
  simp [UsedAt, placed]

@[simp] theorem usedAt_cons_free {a x s n : Nat} {bs : List Block} :
    UsedAt a (⟨n, false⟩ :: bs) x s ↔ UsedAt (a + 12 + n) bs x s := by
  simp [UsedAt, placed]

@[simp] theorem usedAt_nil (a x s : Nat) : ¬ UsedAt a [] x s := by
  simp [UsedAt, placed]

theorem UsedAt.bounds {a x s : Nat} {bs : List Block} (h : UsedAt a bs x s) :
    a ≤ x ∧ x + 12 + s ≤ a + span bs := placed_bounds h

theorem UsedAt.size_eq {a x s t : Nat} {bs : List Block} (h : UsedAt a bs x s)
    (h' : UsedAt a bs x t) : s = t := by
  have hap := placed_apart h h'
  simp only [Block.mk.injEq, and_true, true_and] at hap
  omega

/-- A layout depends on the sizes of its headers and on the magic of its
used ones, not on the links of its free ones. -/
theorem Layout.congr {m m' : Mem} {a p : Nat} {bs : List Block} (h : Layout m a p bs)
    (same : ∀ x b, (x, b) ∈ placed a bs → prevSz m' x = prevSz m x ∧ sz m' x = sz m x ∧
      (b.used = true → lom m' x = lom m x)) : Layout m' a p bs := by
  induction bs generalizing a p with
  | nil => trivial
  | cons b bs ih =>
    obtain ⟨⟨hp, hs, hl⟩, hr⟩ := h
    obtain ⟨ep, es, el⟩ := same a b List.mem_cons_self
    refine ⟨⟨ep.trans hp, es.trans hs, fun hu => (el hu).trans (hl hu)⟩, ?_⟩
    exact ih hr (fun x c hx => same x c (List.mem_cons_of_mem _ hx))

theorem Layout.sz_eq {m : Mem} {a p x : Nat} {b : Block} {bs : List Block}
    (h : Layout m a p bs) (hx : (x, b) ∈ placed a bs) : sz m x = b.raw := by
  induction bs generalizing a p with
  | nil => cases hx
  | cons c cs ih =>
    simp only [placed, List.mem_cons, Prod.mk.injEq] at hx
    rcases hx with ⟨rfl, rfl⟩ | hx
    · exact h.1.2.1
    · exact ih h.2 hx

/-- Writing headers that lie outside a row leaves its layout. -/
theorem Layout.frame {m m' : Mem} {a p : Nat} {bs : List Block} {hs : List Nat}
    (h : Layout m a p bs) (fr : HdrFrame hs m m') (hb : a + span bs ≤ 2 ^ 64)
    (out : ∀ q ∈ hs, q + 12 ≤ a ∨ a + span bs ≤ q) : Layout m' a p bs := by
  apply h.congr
  intro x b hx
  have hx' := placed_bounds hx
  obtain ⟨e1, e2, e3⟩ := fr.fields (q := x) (by omega)
    (fun q hq => by have := out q hq; omega)
  exact ⟨e1, e2, fun _ => e3⟩

theorem Layout.outside {m m' : Mem} {a p lo hi : Nat} {bs : List Block} (h : Layout m a p bs)
    (so : SameOutside lo hi m m') (hb : a + span bs ≤ 2 ^ 64)
    (out : a + span bs ≤ lo ∨ hi ≤ a) : Layout m' a p bs := by
  apply h.congr
  intro x b hx
  have hx' := placed_bounds hx
  obtain ⟨e1, e2, e3⟩ := so.fields (q := x) (by omega) (by omega)
  exact ⟨e1, e2, fun _ => e3⟩

/-- The abstract heap. -/
structure Abs where
  blocks : List Block
  free : List Nat
  deriving DecidableEq, Repr

/-- What `wdmalloc_init` was given: a region that has a one-past-end address
and whose single block fits below the alloc bit. -/
structure Arena (start size : Nat) : Prop where
  nonnull : 0 < start
  bound : start + size < 2 ^ 64
  large : 12 < size
  small : size ≤ 32779

structure Rep (h : Heap) (A : Abs) : Prop where
  arena : Arena h.heapStart h.heapSize
  total : span A.blocks = h.heapSize
  layout : Layout h.mem h.heapStart 0 A.blocks
  chain : Seg (lom h.mem) h.freelistHead A.free 0
  nodup : A.free.Nodup
  mem_free : ∀ x, x ∈ A.free ↔ FreeAt h.heapStart A.blocks x

theorem Arena.inHeap {h : Heap} (ar : Arena h.heapStart h.heapSize) (p : Nat) :
    wdmInHeap h p = true ↔ h.heapStart ≤ p ∧ p < h.heapStart + h.heapSize := by
  have hb := ar.bound
  simp only [wdmInHeap, Nat.mod_eq_of_lt hb, Bool.and_eq_true, decide_eq_true_eq]
  exact and_comm

theorem raw_free (n : Nat) : Block.raw ⟨n, false⟩ = n := rfl

theorem raw_used (n : Nat) : Block.raw ⟨n, true⟩ = n + 2 ^ 15 := rfl

theorem isFree_of_raw {m : Mem} {x : Nat} {b : Block} (hs : sz m x = b.raw) (hb : b.size < 2 ^ 15) :
    wdmIsFree m x = !b.used := by
  apply Bool.eq_iff_iff.mpr
  rw [wdmIsFree_iff, hs, Block.raw]
  cases b.used <;> simp only [Bool.false_eq_true, if_true, if_false, Bool.not_true, Bool.not_false,
    iff_true, iff_false] <;> omega

theorem actualSize_of_raw {m : Mem} {x : Nat} {b : Block} (hs : sz m x = b.raw)
    (hb : b.size < 2 ^ 15) : wdmActualSize m x = b.size := by
  rw [wdmActualSize_eq, hs, Block.raw]
  cases b.used <;> simp only [Bool.false_eq_true, if_true, if_false] <;> omega

/-- The header addresses of a row. -/
def headers (a : Nat) (bs : List Block) : List Nat := (placed a bs).map Prod.fst

theorem mem_headers {a x : Nat} {bs : List Block} : x ∈ headers a bs ↔ ∃ b, (x, b) ∈ placed a bs := by
  simp [headers]

theorem mem_headers_mid (a : Nat) (pre post : List Block) (b : Block) :
    a + span pre ∈ headers a (pre ++ b :: post) :=
  mem_headers.mpr ⟨b, mem_placed_mid a pre post b⟩

/-- Writes into the header of one block are writes into headers of the row. -/
theorem HdrFrame.row {m m' : Mem} {a x : Nat} {pre : List Block} (fr : HdrFrame [x] m m')
    (hx : a + span pre = x) (b : Block) (post : List Block) :
    HdrFrame (headers a (pre ++ b :: post)) m m' :=
  fr.mono fun _ hp => List.mem_singleton.mp hp ▸ hx ▸ mem_headers_mid a pre post b

theorem FreeAt.mem_headers {a x : Nat} {bs : List Block} (h : FreeAt a bs x) : x ∈ headers a bs :=
  WaddleOS.mem_headers.mpr ⟨h.choose, h.choose_spec.1⟩

/-- The payload of a block is clear of every header of its row. -/
theorem payload_clear {a x i : Nat} {b : Block} {bs : List Block} (hx : (x, b) ∈ placed a bs)
    (hi : i < b.size) : ∀ p ∈ headers a bs, x + 12 + i < p ∨ p + 12 ≤ x + 12 + i := by
  intro p hp
  obtain ⟨c, hc⟩ := mem_headers.mp hp
  have := placed_apart hx hc
  omega

/-- A free header is no used header of the same row. -/
theorem FreeAt.apart {a x y : Nat} {b : Block} {bs : List Block} (hy : FreeAt a bs y)
    (hx : (x, b) ∈ placed a bs) : SameOrApart y x ∧ (b.used = true → y ≠ x) := by
  obtain ⟨c, hc, hu⟩ := hy
  refine ⟨placed_sameOrApart hc hx, fun hb e => ?_⟩
  rcases placed_apart hc hx with ⟨-, rfl⟩ | h | h
  · rw [hu] at hb
    cases hb
  · omega
  · omega

/-- Marking a block used takes its header from the free ones, no other. -/
theorem freeAt_use {a x s : Nat} {pre post : List Block} :
    FreeAt a (pre ++ ⟨s, true⟩ :: post) x ↔
      FreeAt a (pre ++ ⟨s, false⟩ :: post) x ∧ x ≠ a + span pre := by
  simp only [freeAt_append, freeAt_cons, Bool.true_eq_false, false_and, false_or, true_and]
  constructor
  · rintro (h | h)
    · have := h.bounds
      exact ⟨Or.inl h, by omega⟩
    · have := h.bounds
      exact ⟨Or.inr (Or.inr h), by omega⟩
  · rintro ⟨h | h | h, hne⟩
    · exact Or.inl h
    · exact absurd h hne
    · exact Or.inr h

/-! Merging free blocks into one changes which headers are free only at the
headers that disappear. -/

theorem freeAt_merge_prev (pre post : List Block) {a p s x : Nat} :
    FreeAt a (pre ++ ⟨p + 12 + s, false⟩ :: post) x ↔
      FreeAt a (pre ++ ⟨p, false⟩ :: ⟨s, true⟩ :: post) x := by
  simp only [freeAt_append, freeAt_cons, Bool.true_eq_false, false_and, false_or, true_and]
  rw [show a + span pre + 12 + (p + 12 + s) = a + span pre + 12 + p + 12 + s by omega]

theorem freeAt_merge_next (pre post : List Block) {a s n x : Nat} :
    FreeAt a (pre ++ ⟨s + 12 + n, false⟩ :: post) x ↔ x = a + span pre ∨
      (FreeAt a (pre ++ ⟨s, true⟩ :: ⟨n, false⟩ :: post) x ∧ x ≠ a + span pre + 12 + s) := by
  simp only [freeAt_append, freeAt_cons, Bool.true_eq_false, false_and, false_or, true_and]
  rw [show a + span pre + 12 + (s + 12 + n) = a + span pre + 12 + s + 12 + n by omega]
  constructor
  · rintro (h | h | h)
    · have := h.bounds
      exact Or.inr ⟨Or.inl h, by omega⟩
    · exact Or.inl h
    · have := h.bounds
      exact Or.inr ⟨Or.inr (Or.inr h), by omega⟩
  · rintro (h | ⟨h | h | h, hne⟩)
    · exact Or.inr (Or.inl h)
    · exact Or.inl h
    · exact absurd h hne
    · exact Or.inr (Or.inr h)

theorem freeAt_merge_both (pre post : List Block) {a p s n x : Nat} :
    FreeAt a (pre ++ ⟨p + 12 + s + 12 + n, false⟩ :: post) x ↔
      FreeAt a (pre ++ ⟨p, false⟩ :: ⟨s, true⟩ :: ⟨n, false⟩ :: post) x ∧
        x ≠ a + span pre + 12 + p + 12 + s := by
  simp only [freeAt_append, freeAt_cons, Bool.true_eq_false, false_and, false_or, true_and]
  rw [show a + span pre + 12 + (p + 12 + s + 12 + n) =
    a + span pre + 12 + p + 12 + s + 12 + n by omega]
  constructor
  · rintro (h | h | h)
    · have := h.bounds
      exact ⟨Or.inl h, by omega⟩
    · exact ⟨Or.inr (Or.inl h), by omega⟩
    · have := h.bounds
      exact ⟨Or.inr (Or.inr (Or.inr h)), by omega⟩
  · rintro ⟨h | h | h | h, hne⟩
    · exact Or.inl h
    · exact Or.inr (Or.inl h)
    · exact absurd h hne
    · exact Or.inr (Or.inr h)

/-- One step of the allocator: the new heap stands for the new row, and only
headers of the old and the new row were written. -/
structure Becomes (h : Heap) (A : Abs) (h' : Heap) (A' : Abs) : Prop where
  rep : Rep h' A'
  start : h'.heapStart = h.heapStart
  size : h'.heapSize = h.heapSize
  frame : HdrFrame (headers h.heapStart A.blocks ++ headers h.heapStart A'.blocks) h.mem h'.mem

/-- What the blocks a call was not given see of it: they stay where they are,
with their contents. `x` is the header of the block the call was given. -/
structure Effect (h : Heap) (A : Abs) (x : Nat) (h' : Heap) (A' : Abs) : Prop where
  rep : Rep h' A'
  start : h'.heapStart = h.heapStart
  size : h'.heapSize = h.heapSize
  kept : ∀ y s, UsedAt h.heapStart A.blocks y s → y ≠ x →
    UsedAt h.heapStart A'.blocks y s ∧ ∀ i, i < s → h'.mem.get (y + 12 + i) = h.mem.get (y + 12 + i)

theorem Becomes.effect {h h' : Heap} {A A' : Abs} {x : Nat} (b : Becomes h A h' A')
    (hb : h.heapStart + span A.blocks ≤ 2 ^ 64)
    (stay : ∀ y s, UsedAt h.heapStart A.blocks y s → y ≠ x → UsedAt h.heapStart A'.blocks y s) :
    Effect h A x h' A' := by
  refine ⟨b.rep, b.start, b.size, fun y s hy hne => ⟨stay y s hy hne, fun i hi => ?_⟩⟩
  have hyb := hy.bounds
  apply b.frame _ (by omega)
  intro p hp
  rcases List.mem_append.mp hp with hp | hp
  · exact payload_clear hy hi p hp
  · exact payload_clear (stay y s hy hne) hi p hp

theorem Rep.becomes_self {h : Heap} {A : Abs} (r : Rep h A) : Becomes h A h A :=
  ⟨r, rfl, rfl, HdrFrame.refl _ _⟩

/-- A header of a row stands before a given block, at it or behind it. -/
theorem placed_mid {a x : Nat} {b c : Block} {pre post : List Block}
    (h : (x, c) ∈ placed a (pre ++ b :: post)) :
    x + 12 + c.size ≤ a + span pre ∧ (x, c) ∈ placed a pre ∨ (x = a + span pre ∧ c = b) ∨
      a + span pre + 12 + b.size ≤ x ∧ (x, c) ∈ placed (a + span pre + 12 + b.size) post := by
  rcases mem_placed_append.mp h with h | h
  · exact Or.inl ⟨(placed_bounds h).2, h⟩
  · simp only [placed, List.mem_cons, Prod.mk.injEq] at h
    rcases h with h | h
    · exact Or.inr (Or.inl h)
    · exact Or.inr (Or.inr ⟨(placed_bounds h).1, h⟩)

/-- No free header reaches into a used block. -/
theorem FreeAt.outside_used {a s x : Nat} {pre post : List Block}
    (h : FreeAt a (pre ++ ⟨s, true⟩ :: post) x) :
    x + 12 ≤ a + span pre ∨ a + span pre + 12 + s ≤ x := by
  obtain ⟨c, hc, hfree⟩ := h
  rcases placed_mid hc with ⟨hbefore, -⟩ | ⟨-, rfl⟩ | ⟨hbehind, -⟩
  · exact .inl (by omega)
  · cases hfree
  · exact .inr hbehind

theorem placed_head {a x : Nat} {c : Block} {bs : List Block} (h : (x, c) ∈ placed a bs) :
    x = a ∨ a + 12 ≤ x := by
  cases bs with
  | nil => cases h
  | cons b bs =>
    simp only [placed, List.mem_cons, Prod.mk.injEq] at h
    rcases h with h | h
    · exact Or.inl h.1
    · have := placed_bounds h
      omega

theorem Seg.head_eq {a : Nat} {next : Nat → Nat} {fl : List Nat} (h : Seg next a fl 0)
    (nz : ∀ x ∈ fl, x ≠ 0) : a = 0 ↔ fl = [] := by
  cases fl with
  | nil => simpa [Seg] using h
  | cons x xs =>
    have ha : a = x := h.1
    have hx := nz x List.mem_cons_self
    simp only [reduceCtorEq, iff_false]
    omega

namespace Rep
variable {h : Heap} {A : Abs}

theorem free_pos (r : Rep h A) {x : Nat} (hx : x ∈ A.free) : x ≠ 0 := by
  have hb := ((r.mem_free x).mp hx).bounds
  have := r.arena.nonnull
  omega

theorem head_zero (r : Rep h A) : h.freelistHead = 0 ↔ A.free = [] :=
  r.chain.head_eq (fun _ hx => r.free_pos hx)

theorem size_lt (r : Rep h A) {x : Nat} {b : Block} (hx : (x, b) ∈ placed h.heapStart A.blocks) :
    b.size < 2 ^ 15 := by
  have hb := placed_bounds hx
  have := r.arena.small
  have := r.total
  omega

theorem bound (r : Rep h A) {x : Nat} {b : Block} (hx : (x, b) ∈ placed h.heapStart A.blocks) :
    h.heapStart ≤ x ∧ x + 12 + b.size ≤ h.heapStart + h.heapSize := by
  have hb := placed_bounds hx
  rw [r.total] at hb
  exact hb

theorem isFree (r : Rep h A) {x : Nat} {b : Block} (hx : (x, b) ∈ placed h.heapStart A.blocks) :
    wdmIsFree h.mem x = !b.used :=
  isFree_of_raw (r.layout.sz_eq hx) (r.size_lt hx)

theorem actualSize (r : Rep h A) {x : Nat} {b : Block}
    (hx : (x, b) ∈ placed h.heapStart A.blocks) : wdmActualSize h.mem x = b.size :=
  actualSize_of_raw (r.layout.sz_eq hx) (r.size_lt hx)

theorem notReady_iff (r : Rep h A) : notReady h = true ↔ A.free = [] := by
  have h1 := r.arena.nonnull
  have h2 := r.arena.large
  simp only [notReady, Bool.or_eq_true, beq_iff_eq, r.head_zero]
  constructor
  · rintro ((hf | hs) | hs)
    · exact hf
    · omega
    · omega
  · exact fun hf => Or.inl (Or.inl hf)

end Rep

end WaddleOS
