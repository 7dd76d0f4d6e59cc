import WaddleOS.Heap.Edit

/-!
# `wdmalloc` on rows of blocks

`bestFit_spec` reads the scan as a choice on the freelist. `Malloc` is what a
call may do to the abstract heap, and `wdmalloc_spec` shows that the code
does one of these things and ends, given fuel for the freelist.
-/

namespace WaddleOS

/-- What the scan has found in the nodes seen so far: nothing that fits, or
the first of the smallest that fit together with the node before it. -/
def Found (m : Mem) (size : Nat) (seen : List Nat) (min minPrev minSz : Nat) : Prop :=
  (min = 0 ∧ minPrev = 0 ∧ minSz = 2 ^ 16 - 1 ∧ ∀ y ∈ seen, sz m y < size) ∨
  ∃ before after, seen = before ++ min :: after ∧ minPrev = lastOr 0 before ∧
    minSz = sz m min ∧ size ≤ sz m min ∧
    (∀ y ∈ before, size ≤ sz m y → sz m min < sz m y) ∧
    (∀ y ∈ after, size ≤ sz m y → sz m min ≤ sz m y)

theorem Found.better {m : Mem} {size min minPrev minSz x : Nat} {seen : List Nat}
    (h : Found m size seen min minPrev minSz) (hfit : size ≤ sz m x) (hlt : sz m x < minSz) :
    Found m size (seen ++ [x]) x (lastOr 0 seen) (sz m x) := by
  refine Or.inr ⟨seen, [], rfl, rfl, rfl, hfit, ?_, by simp⟩
  intro y hy hsize
  rcases h with ⟨_, _, _, hnone⟩ | ⟨before, after, rfl, _, rfl, _, hb, ha⟩
  · have := hnone y hy
    omega
  · rcases List.mem_append.mp hy with hy | hy
    · have := hb y hy hsize
      omega
    · rcases List.mem_cons.mp hy with rfl | hy
      · exact hlt
      · have := ha y hy hsize
        omega

theorem Found.keep {m : Mem} {size min minPrev minSz x : Nat} {seen : List Nat}
    (h : Found m size seen min minPrev minSz) (small : sz m x < 2 ^ 16 - 1)
    (hno : ¬ (size ≤ sz m x ∧ sz m x < minSz)) :
    Found m size (seen ++ [x]) min minPrev minSz := by
  rcases h with ⟨h1, h2, h3, hnone⟩ | ⟨before, after, rfl, h1, h2, h3, hb, ha⟩
  · refine Or.inl ⟨h1, h2, h3, ?_⟩
    intro y hy
    rcases List.mem_append.mp hy with hy | hy
    · exact hnone y hy
    · rw [List.mem_singleton.mp hy]
      omega
  · refine Or.inr ⟨before, after ++ [x], by simp, h1, h2, h3, hb, ?_⟩
    intro y hy hsize
    rcases List.mem_append.mp hy with hy | hy
    · exact ha y hy hsize
    · rw [List.mem_singleton.mp hy] at hsize ⊢
      omega

/-- The scan ends and returns the best fit of the whole freelist. -/
theorem bestFit_spec {m : Mem} {size : Nat} {todo : List Nat} :
    ∀ (seen : List Nat) {fuel curr min minPrev minSz : Nat}, Seg (lom m) curr todo 0 →
      (∀ x ∈ todo, x ≠ 0 ∧ sz m x < 2 ^ 15) → todo.length < fuel →
      Found m size seen min minPrev minSz →
      ∃ min' minPrev' minSz', bestFit m size fuel curr (lastOr 0 seen) min minPrev minSz =
        .ok (min', minPrev', minSz') ∧ Found m size (seen ++ todo) min' minPrev' minSz' := by
  induction todo with
  | nil =>
    intro seen fuel curr min minPrev minSz hseg _ hfuel hf
    cases fuel with
    | zero => simp at hfuel
    | succ fuel =>
      have hcurr : curr = 0 := hseg
      exact ⟨min, minPrev, minSz, by rw [bestFit, if_pos hcurr], by simpa using hf⟩
  | cons x xs ih =>
    intro seen fuel curr min minPrev minSz hseg hall hfuel hf
    cases fuel with
    | zero => simp at hfuel
    | succ fuel =>
      obtain ⟨rfl, hrest⟩ := hseg
      obtain ⟨hx0, hx15⟩ := hall curr List.mem_cons_self
      have hxs : ∀ y ∈ xs, y ≠ 0 ∧ sz m y < 2 ^ 15 :=
        fun y hy => hall y (List.mem_cons_of_mem curr hy)
      have hlen : xs.length < fuel := by simpa using hfuel
      have hfree : wdmIsFree m curr = true := (wdmIsFree_iff m curr).mpr hx15
      have hlast : lastOr 0 (seen ++ [curr]) = curr := lastOr_append_cons 0 curr seen []
      have happ : seen ++ curr :: xs = (seen ++ [curr]) ++ xs := by simp
      rw [bestFit, if_neg hx0, hfree, happ]
      by_cases hb : size ≤ sz m curr ∧ sz m curr < minSz
      · have := ih (seen ++ [curr]) hrest hxs hlen (hf.better hb.1 hb.2)
        simpa [hb.1, hb.2, hlast] using this
      · have := ih (seen ++ [curr]) hrest hxs hlen (hf.keep (by omega) hb)
        have hcond : (true && decide (size ≤ sz m curr) && decide (sz m curr < minSz)) = false := by
          simpa using hb
        rw [hcond]
        simpa [hlast] using this

/-- What `wdmalloc(n)` may do to the abstract heap and what it returns. -/
inductive Malloc (start n : Nat) : Abs → Nat → Abs → Prop
  | fail {A : Abs} (none : ∀ x s, (x, ⟨s, false⟩) ∈ placed start A.blocks → s < n) :
      Malloc start n A 0 A
  | carve {pre post : List Block} {s : Nat} {before after : List Nat} (room : n + 12 ≤ s)
      (first : ∀ y ∈ before, ∀ t, (y, ⟨t, false⟩) ∈ placed start (pre ++ ⟨s, false⟩ :: post) →
        n ≤ t → s < t)
      (least : ∀ y ∈ after, ∀ t, (y, ⟨t, false⟩) ∈ placed start (pre ++ ⟨s, false⟩ :: post) →
        n ≤ t → s ≤ t) :
      Malloc start n ⟨pre ++ ⟨s, false⟩ :: post, before ++ (start + span pre) :: after⟩
        (start + span pre + 12 + (s - n - 12) + 12)
        ⟨pre ++ ⟨s - n - 12, false⟩ :: ⟨n, true⟩ :: post, before ++ (start + span pre) :: after⟩
  | whole {pre post : List Block} {s : Nat} {before after : List Nat} (room : n ≤ s)
      (tight : s < n + 12)
      (first : ∀ y ∈ before, ∀ t, (y, ⟨t, false⟩) ∈ placed start (pre ++ ⟨s, false⟩ :: post) →
        n ≤ t → s < t)
      (least : ∀ y ∈ after, ∀ t, (y, ⟨t, false⟩) ∈ placed start (pre ++ ⟨s, false⟩ :: post) →
        n ≤ t → s ≤ t) :
      Malloc start n ⟨pre ++ ⟨s, false⟩ :: post, before ++ (start + span pre) :: after⟩
        (start + span pre + 12) ⟨pre ++ ⟨s, true⟩ :: post, before ++ after⟩

/-- A successful call adds one used block, with room for `n` bytes and at
most 11 to spare, at a header that no used block had. -/
theorem Malloc.used {start n p : Nat} {A A' : Abs} (hm : Malloc start n A p A') :
    (p = 0 ∧ A' = A) ∨ ∃ x s, p = x + 12 ∧ n ≤ s ∧ s < n + 12 ∧
      (∀ t, ¬ UsedAt start A.blocks x t) ∧
      ∀ y t, UsedAt start A'.blocks y t ↔ UsedAt start A.blocks y t ∨ (y = x ∧ t = s) := by
  cases hm with
  | fail none => exact Or.inl ⟨rfl, rfl⟩
  | @carve pre post s before after room first least =>
    refine Or.inr ⟨_, n, rfl, Nat.le_refl n, by omega, fun t ht => ?_, fun y t => ?_⟩
    · simp only [usedAt_append, usedAt_cons_free] at ht
      rcases ht with ht | ht
      · have := ht.bounds
        omega
      · have := ht.bounds
        omega
    · simp only [usedAt_append, usedAt_cons_free, usedAt_cons_used]
      rw [show start + span pre + 12 + (s - n - 12) + 12 + n = start + span pre + 12 + s by omega]
      tauto
  | @whole pre post s before after room tight first least =>
    refine Or.inr ⟨_, s, rfl, room, tight, fun t ht => ?_, fun y t => ?_⟩
    · simp only [usedAt_append, usedAt_cons_free] at ht
      rcases ht with ht | ht
      · have := ht.bounds
        omega
      · have := ht.bounds
        omega
    · simp only [usedAt_append, usedAt_cons_free, usedAt_cons_used]
      tauto

/-- Only a failed call returns null. -/
theorem Malloc.null {start n p : Nat} {A A' : Abs} (hm : Malloc start n A p A') (hp : p = 0) :
    A' = A ∧ ∀ x s, (x, ⟨s, false⟩) ∈ placed start A.blocks → s < n := by
  cases hm with
  | fail none => exact ⟨rfl, none⟩
  | carve room first least => omega
  | whole room tight first least => omega

/-- A successful call found a free block on the freelist with enough room. -/
theorem Malloc.found {start n p : Nat} {A A' : Abs} (hm : Malloc start n A p A') (hp : p ≠ 0) :
    ∃ x s, x ∈ A.free ∧ (x, ⟨s, false⟩) ∈ placed start A.blocks ∧ n ≤ s := by
  cases hm with
  | fail none => exact absurd rfl hp
  | carve room first least => exact ⟨_, _, by simp, mem_placed_mid _ _ _ _, by omega⟩
  | whole room tight first least => exact ⟨_, _, by simp, mem_placed_mid _ _ _ _, room⟩

/-- Only a call that takes the one free block whole empties the freelist. -/
theorem Malloc.emptied {start n p : Nat} {A A' : Abs} (hm : Malloc start n A p A') (hp : p ≠ 0)
    (he : A'.free = []) :
    ∃ x s, A.free = [x] ∧ (x, ⟨s, false⟩) ∈ placed start A.blocks ∧ s < n + 12 := by
  cases hm with
  | fail none => exact absurd rfl hp
  | carve room first least => simp at he
  | whole room tight first least =>
    obtain ⟨rfl, rfl⟩ := List.append_eq_nil_iff.mp he
    exact ⟨_, _, rfl, mem_placed_mid _ _ _ _, tight⟩

theorem Malloc.free_length {start n p : Nat} {A A' : Abs} (hm : Malloc start n A p A') :
    A'.free.length ≤ A.free.length := by
  cases hm with
  | fail none => exact Nat.le_refl _
  | carve room first least => exact Nat.le_refl _
  | whole room tight first least => simp

theorem freeAt_carve {a x s n : Nat} {pre post : List Block} (room : n + 12 ≤ s) :
    FreeAt a (pre ++ ⟨s - n - 12, false⟩ :: ⟨n, true⟩ :: post) x ↔
      FreeAt a (pre ++ ⟨s, false⟩ :: post) x := by
  simp only [freeAt_append, freeAt_cons, Bool.true_eq_false, false_and, false_or]
  rw [show a + span pre + 12 + (s - n - 12) + 12 + n = a + span pre + 12 + s by omega]

/-- The two headers that `carve` writes; the freelist link of the first stays. -/
theorem carve_row {m m' : Mem} {x y s n p : Nat} (room : n + 12 ≤ s) (small : s < 2 ^ 15)
    (bound : x + 12 + s < 2 ^ 64) (hy : x + 12 + (s - n - 12) = y) (hprev : prevSz m x = p)
    (hm' : m' = setLom (setSz (setPrevSz (setSz m x (s - n - 12)) y (s - n - 12)) y
      (n ||| wdmAllocBit)) y wdmMagic) :
    Layout m' x p [⟨s - n - 12, false⟩, ⟨n, true⟩] ∧ HdrFrame [x, y] m m' ∧
      lom m' x = lom m x := by
  subst hm'
  refine ⟨⟨⟨?_, ?_, by simp⟩, ?_⟩, ?_, ?_⟩
  · simp (disch := omega) only [prevSz_setLom, prevSz_setSz, prevSz_setPrevSz_apart, hprev]
  · simp (disch := omega) only [sz_setLom, sz_setSz_apart, sz_setPrevSz, sz_setSz, raw_free,
      Nat.mod_eq_of_lt]
  · simp only [hy]
    refine ⟨⟨?_, ?_, fun _ => ?_⟩, trivial⟩
    · simp (disch := omega) only [prevSz_setLom, prevSz_setSz, prevSz_setPrevSz, Nat.mod_eq_of_lt]
    · simp (disch := omega) only [sz_setLom, sz_setSz, raw_used, or_wdmAllocBit, Nat.mod_eq_of_lt]
    · simp (disch := omega) only [lom_setLom]
      rfl
  · exact ((((HdrFrame.refl _ m).setSz (by simp) (by omega)).setPrevSz (by simp) (by omega)).setSz
      (by simp) (by omega)).setLom (by simp) (by omega)
  · simp (disch := omega) only [lom_setLom_apart, lom_setSz, lom_setPrevSz]

/-- The row after the writes of `carve`, with the old size still behind it. -/
theorem carve_rough {h : Heap} {pre post : List Block} {s n x y : Nat} {fl : List Nat} {m : Mem}
    (r : Rep h ⟨pre ++ ⟨s, false⟩ :: post, fl⟩) (room : n + 12 ≤ s)
    (hx : h.heapStart + span pre = x) (hy : x + 12 + (s - n - 12) = y)
    (hm : m = setLom (setSz (setPrevSz (setSz h.mem x (s - n - 12)) y (s - n - 12)) y
      (n ||| wdmAllocBit)) y wdmMagic) :
    Rough { h with mem := m } (pre ++ [⟨s - n - 12, false⟩, ⟨n, true⟩]) post s fl ∧
      HdrFrame [x, y] h.mem m := by
  have hb := r.arena.bound
  have hsm := r.arena.small
  have hspan : span pre + (12 + s + span post) = h.heapSize := by
    simpa [span] using r.total
  obtain ⟨hpre, ⟨hprev, -, -⟩, hpost⟩ := layout_append.mp r.layout
  simp only [hx] at hprev hpost
  obtain ⟨hrow, fr, hlom⟩ := carve_row room (by omega) (by omega) hy hprev hm
  refine ⟨⟨r.arena, ?_, ?_, ?_, ?_, r.nodup, ?_⟩, fr⟩
  · simp only [span_append, span]
    omega
  · refine layout_append.mpr ⟨hpre.frame fr (by omega) (by simp; omega), ?_⟩
    simp only [hx]
    exact hrow
  · rw [show h.heapStart + span (pre ++ [⟨s - n - 12, false⟩, ⟨n, true⟩]) = x + 12 + s by
      simp only [span_append, span]; omega]
    exact hpost.frame fr (by omega) (by simp; omega)
  · -- of the nodes only the carved block's is written to, and its link stays
    apply r.chain.congr
    intro z hz
    obtain ⟨c, hc, _⟩ := (r.mem_free z).mp hz
    have hzb := r.bound hc
    by_cases hzx : z = x
    · rw [hzx]
      exact hlom
    · have hloc := placed_mid hc
      simp only [hx] at hloc
      exact (fr.fields (by omega) (by simp; omega)).2.2
  · intro z
    rw [r.mem_free z, List.append_assoc]
    exact (freeAt_carve room).symm

theorem carve_spec {h : Heap} {pre post : List Block} {s n : Nat} {fl : List Nat}
    (r : Rep h ⟨pre ++ ⟨s, false⟩ :: post, fl⟩) (room : n + 12 ≤ s) :
    ∃ h', carve h (h.heapStart + span pre) n =
        (h.heapStart + span pre + 12 + (s - n - 12) + 12, h') ∧
      Becomes h ⟨pre ++ ⟨s, false⟩ :: post, fl⟩ h'
        ⟨pre ++ ⟨s - n - 12, false⟩ :: ⟨n, true⟩ :: post, fl⟩ := by
  have hb := r.arena.bound
  have hsm := r.arena.small
  have hspan : span pre + (12 + s + span post) = h.heapSize := by
    simpa [span] using r.total
  obtain ⟨-, ⟨-, hsz, -⟩, -⟩ := layout_append.mp r.layout
  rw [raw_free] at hsz
  generalize hx : h.heapStart + span pre = x at *
  generalize hy : x + 12 + (s - n - 12) = y
  have hend : y + 12 + n = x + 12 + s := by omega
  have hsz1 : sz (setSz h.mem x (s - n - 12)) x = s - n - 12 := by
    rw [sz_setSz _ _ (by omega), Nat.mod_eq_of_lt (by omega)]
  generalize hm : setLom (setSz (setPrevSz (setSz h.mem x (s - n - 12)) y (s - n - 12)) y
    (n ||| wdmAllocBit)) y wdmMagic = m
  obtain ⟨rough, fr⟩ := carve_rough r room hx hy hm.symm
  have hlast : n = lastSize 0 (pre ++ [⟨s - n - 12, false⟩, ⟨n, true⟩]) := by
    rw [lastSize_append_cons]
    rfl
  have hat : h.heapStart + span (pre ++ [⟨s - n - 12, false⟩, ⟨n, true⟩]) = x + 12 + s := by
    simp only [span_append, span]
    omega
  obtain ⟨rep, fr'⟩ := rough.fix hlast (by omega)
  simp only [hat, List.append_assoc, List.cons_append, List.nil_append] at rep fr'
  refine ⟨_, ?_, rep, rfl, rfl, ?_⟩
  · simp only [carve, hsz]
    rw [hsz1, hy, Nat.mod_eq_of_lt (show y < 2 ^ 64 by omega), hend,
      Nat.mod_eq_of_lt (show x + 12 + s < 2 ^ 64 by omega),
      Nat.mod_eq_of_lt (show y + 12 < 2 ^ 64 by omega), hm]
    rfl
  · refine (fr.mono ?_).trans (fr'.mono fun p hp => List.mem_append_right _ hp)
    have hmx := mem_headers_mid h.heapStart pre post ⟨s, false⟩
    have hmy := mem_headers_mid h.heapStart (pre ++ [⟨s - n - 12, false⟩]) post ⟨n, true⟩
    rw [hx] at hmx
    rw [show h.heapStart + span (pre ++ [⟨s - n - 12, false⟩]) = y by
      simp only [span_append, span]; omega, List.append_assoc] at hmy
    simp only [List.mem_cons, List.not_mem_nil, or_false, List.mem_append]
    rintro p (rfl | rfl)
    · exact Or.inl hmx
    · exact Or.inr hmy

/-- `takeWhole` unlinks a node as `relink` does. -/
theorem unlink_eq_relink {h : Heap} {before after : List Nat} {x : Nat}
    (ns : Nodes (before ++ x :: after))
    (chain : Seg (lom h.mem) h.freelistHead (before ++ x :: after) 0) :
    (if lastOr 0 before = 0 then { h with freelistHead := lom h.mem h.freelistHead }
      else { h with mem := setLom h.mem (lastOr 0 before) (lom h.mem x) }) =
      relink h (lastOr 0 before) (lom h.mem x) := by
  cases before with
  | nil =>
    have hh : h.freelistHead = x := chain.1
    simp [lastOr, relink, hh]
  | cons y ys =>
    have hne : lastOr 0 (y :: ys) ≠ 0 := lastOr_ne_zero (by simp) ns.left.pos
    rw [if_neg hne, relink, if_pos hne]

theorem takeWhole_spec {h : Heap} {pre post : List Block} {s : Nat} {before after : List Nat}
    (r : Rep h ⟨pre ++ ⟨s, false⟩ :: post, before ++ (h.heapStart + span pre) :: after⟩) :
    ∃ h', takeWhole h (h.heapStart + span pre) (lastOr 0 before) =
        (h.heapStart + span pre + 12, h') ∧
      Becomes h ⟨pre ++ ⟨s, false⟩ :: post, before ++ (h.heapStart + span pre) :: after⟩ h'
        ⟨pre ++ ⟨s, true⟩ :: post, before ++ after⟩ := by
  have hb := r.arena.bound
  have hsm := r.arena.small
  have hspan : span pre + (12 + s + span post) = h.heapSize := by
    simpa [span] using r.total
  have ns := r.nodes
  have hfree : ∀ y ∈ before ++ (h.heapStart + span pre) :: after,
      FreeAt h.heapStart (pre ++ ⟨s, false⟩ :: post) y := fun y hy => (r.mem_free y).mp hy
  have hchain := chain_unlink ns r.chain
  have hlay := relink_layout (v := lom h.mem (h.heapStart + span pre)) ns.left r.layout
    (by simp only [span_append, span]; omega)
    (fun y hy x b hx => (hfree y (List.mem_append_left _ hy)).apart hx)
  have hfr1 := relink_frame (v := lom h.mem (h.heapStart + span pre)) ns.left
    (HdrFrame.refl (headers h.heapStart (pre ++ ⟨s, false⟩ :: post)) h.mem)
    (fun y hy => (hfree y (List.mem_append_left _ hy)).mem_headers)
  have hhead := unlink_eq_relink ns r.chain
  generalize hx : h.heapStart + span pre = x at *
  generalize hh1 : relink h (lastOr 0 before) (lom h.mem x) = h1 at *
  have hst : h1.heapStart = h.heapStart := by rw [← hh1]; exact relink_start h _ _
  have hsi : h1.heapSize = h.heapSize := by rw [← hh1]; exact relink_size h _ _
  obtain ⟨hpre, ⟨hprev, hsz, -⟩, hpost⟩ := layout_append.mp hlay
  rw [raw_free] at hsz
  simp only [hx] at hprev hsz hpost
  let m2 := setLom h1.mem x wdmMagic
  let m3 := setSz m2 x (s ||| wdmAllocBit)
  have fr : HdrFrame [x] h1.mem m3 :=
    ((HdrFrame.refl _ h1.mem).setLom (by simp) (by omega)).setSz (by simp) (by omega)
  have hsz2 : sz m2 x = s := by
    rw [sz_setLom _ _ (by omega) (by omega) (Or.inl rfl), hsz]
  refine ⟨{ h1 with mem := m3 }, ?_, ⟨hst ▸ hsi ▸ r.arena, ?_, ?_, ?_, ?_, ?_⟩, hst, hsi, ?_⟩
  · simp only [takeWhole, hhead]
    rw [show sz (setLom h1.mem x wdmMagic) x = s from hsz2,
      Nat.mod_eq_of_lt (show x + 12 < 2 ^ 64 by omega)]
  · simp only [span_append, span, hsi]
    omega
  · simp only [hst]
    refine layout_append.mpr ⟨hpre.frame fr (by omega) (by simp; omega), ?_⟩
    rw [hx]
    refine ⟨⟨?_, ?_, fun _ => ?_⟩, hpost.frame fr (by omega) (by simp)⟩
    · simp (disch := omega) only [m3, m2, prevSz_setSz, prevSz_setLom, hprev]
    · simp (disch := omega) only [m3, sz_setSz, raw_used, or_wdmAllocBit, Nat.mod_eq_of_lt]
    · simp (disch := omega) only [m3, m2, lom_setSz, lom_setLom]
      rfl
  · apply hchain.congr
    intro z hz
    obtain ⟨hz', hzx⟩ := (mem_unlinked r.nodup).mp hz
    obtain ⟨c, hc, _⟩ := hfree z hz'
    have hzb := r.bound hc
    have hloc := placed_mid hc
    simp only [hx] at hloc
    simp (disch := omega) only [m3, m2, lom_setSz, lom_setLom_apart]
  · exact r.nodup.sublist (List.Sublist.append_left (List.sublist_cons_self x after) before)
  · intro z
    simp only [hst, freeAt_use, hx, ← r.mem_free z]
    exact mem_unlinked r.nodup
  · have hfr2 := hfr1.trans (fr.row hx ⟨s, false⟩ post)
    exact hfr2.mono fun p hp => List.mem_append_left _ hp

theorem Rep.found_block {h : Heap} {A : Abs} (r : Rep h A) {before after : List Nat} {x : Nat}
    (hfl : A.free = before ++ x :: after) :
    ∃ pre post, A.blocks = pre ++ ⟨sz h.mem x, false⟩ :: post ∧ x = h.heapStart + span pre := by
  obtain ⟨⟨s, u⟩, hb, hu⟩ := (r.mem_free x).mp (by rw [hfl]; simp)
  obtain ⟨pre, post, he, hx⟩ := placed_split hb
  simp only at hu
  subst hu
  have hs : sz h.mem x = s := r.layout.sz_eq hb
  exact ⟨pre, post, by rw [hs, he], hx⟩

/-- `wdmalloc` ends within the freelist's length and does what `Malloc` says;
a null result leaves the heap as it was. -/
theorem wdmalloc_spec {h : Heap} {A : Abs} (r : Rep h A) (n : Nat) {fuel : Nat}
    (hfuel : A.free.length < fuel) :
    ∃ p h' A', wdmalloc fuel h n = .ok (p, h') ∧ Malloc h.heapStart n A p A' ∧
      Becomes h A h' A' ∧ (p = 0 → h' = h) := by
  by_cases hr : notReady h = true
  · have hnil := r.notReady_iff.mp hr
    refine ⟨0, h, A, by rw [wdmalloc, if_pos hr], Malloc.fail ?_, r.becomes_self, fun _ => rfl⟩
    intro x s hx
    have := (r.mem_free x).mpr ⟨_, hx, rfl⟩
    rw [hnil] at this
    cases this
  · have hall : ∀ x ∈ A.free, x ≠ 0 ∧ sz h.mem x < 2 ^ 15 := by
      intro x hx
      obtain ⟨b, hb, hu⟩ := (r.mem_free x).mp hx
      refine ⟨r.free_pos hx, ?_⟩
      have hlt := r.size_lt hb
      rw [r.layout.sz_eq hb, Block.raw, hu]
      exact hlt
    obtain ⟨min, minPrev, minSz, hscan, hfound⟩ := bestFit_spec [] r.chain hall hfuel
      (Or.inl ⟨rfl, rfl, rfl, by simp⟩)
    rw [List.nil_append] at hfound
    have hcall : wdmalloc fuel h n =
        if min = 0 ∨ minSz = 2 ^ 16 - 1 then .ok (0, h)
        else if n < sz h.mem min ∧ 12 ≤ sz h.mem min - n then .ok (carve h min n)
        else .ok (takeWhole h min minPrev) := by
      rw [wdmalloc, if_neg hr]
      exact congrArg (· >>= _) hscan
    rcases hfound with ⟨rfl, _, _, hnone⟩ | ⟨before, after, hfl, rfl, rfl, hfit, hfirst, hleast⟩
    · refine ⟨0, h, A, by rw [hcall, if_pos (Or.inl rfl)], Malloc.fail ?_, r.becomes_self,
        fun _ => rfl⟩
      intro x s hx
      have := hnone x ((r.mem_free x).mpr ⟨_, hx, rfl⟩)
      rwa [r.layout.sz_eq hx] at this
    · obtain ⟨hm0, hm15⟩ := hall min (by rw [hfl]; simp)
      obtain ⟨pre, post, hblocks, hmin⟩ := r.found_block hfl
      obtain ⟨blocks, free⟩ := A
      simp only at hfl hblocks
      subst hfl hblocks
      -- what the scan knows of the sizes it has read holds of the blocks
      have ofRead {P : Nat → Prop} {l : List Nat}
          (hread : ∀ y ∈ l, n ≤ sz h.mem y → P (sz h.mem y)) : ∀ y ∈ l, ∀ t, (y, ⟨t, false⟩) ∈
            placed h.heapStart (pre ++ ⟨sz h.mem min, false⟩ :: post) → n ≤ t → P t := by
        intro y hy t ht hn
        have hsz : sz h.mem y = t := r.layout.sz_eq ht
        have hP := hread y hy
        rw [hsz] at hP
        exact hP hn
      have first := ofRead (P := fun t => sz h.mem min < t) hfirst
      have least := ofRead (P := fun t => sz h.mem min ≤ t) hleast
      generalize sz h.mem min = s at *
      subst hmin
      rw [if_neg (by omega)] at hcall
      by_cases hroom : n < s ∧ 12 ≤ s - n
      · obtain ⟨h', hc, hbec⟩ := carve_spec (n := n) r (by omega)
        exact ⟨_, h', _, by rw [hcall, if_pos hroom, hc], .carve (by omega) first least, hbec,
          fun h0 => by omega⟩
      · obtain ⟨h', hc, hbec⟩ := takeWhole_spec r
        exact ⟨_, h', _, by rw [hcall, if_neg hroom, hc],
          .whole (by omega) (by omega) first least, hbec, fun h0 => by omega⟩

/-- `wdcalloc` is `wdmalloc` of the wrapped product, behind its own guards. -/
theorem wdcalloc_eq (fuel : Nat) (h : Heap) (num n : Nat) :
    wdcalloc fuel h num n =
      if notReady h = true ∨ 2 ^ 16 - 1 < num * n % 2 ^ 64 then .ok (0, h)
      else wdmalloc fuel h (num * n % 2 ^ 64) := by
  unfold wdcalloc
  by_cases hr : notReady h = true
  · rw [if_pos hr, if_pos (Or.inl hr)]
  · rw [if_neg hr]
    by_cases hbig : 2 ^ 16 - 1 < num * n % 2 ^ 64
    · rw [if_pos hbig, if_pos (Or.inr hbig)]
    · rw [if_neg hbig, if_neg (not_or.mpr ⟨hr, hbig⟩), Nat.mod_eq_of_lt (b := 2 ^ 16) (by omega)]

end WaddleOS
