import WaddleOS.Heap.Grow
import WaddleOS.Heap.Malloc

/-!
# `wdrealloc` on rows of blocks

`Realloc` lists what a call may do to the abstract heap: nothing, one of the
three growths in place, a move, a release or a shrink. `wdrealloc_spec` shows
that the code does one of these things.
-/

namespace WaddleOS

/-- The block behind is free and with it there is room for `n` bytes. -/
def NextFits (n c : Nat) (post : List Block) : Prop :=
  ∃ s post', post = ⟨s, false⟩ :: post' ∧ n ≤ s + 12 + c

def PrevFits (n c : Nat) (pre : List Block) : Prop :=
  ∃ p pre', pre = pre' ++ [⟨p, false⟩] ∧ n ≤ p + 12 + c

def BothFit (n c : Nat) (pre post : List Block) : Prop :=
  ∃ p pre' s post', pre = pre' ++ [⟨p, false⟩] ∧ post = ⟨s, false⟩ :: post' ∧
    n ≤ p + 12 + c + 12 + s

/-- What `wdrealloc` of the block of `c` bytes between `pre` and `post` to `n`
bytes may return and leave. -/
inductive Realloc (start n c : Nat) (pre post : List Block) (fl : List Nat) : Nat → Abs → Prop
  | full (empty : fl = []) : Realloc start n c pre post fl 0 ⟨pre ++ ⟨c, true⟩ :: post, fl⟩
  | same (ready : fl ≠ []) (eq : n = c) :
      Realloc start n c pre post fl (start + span pre + 12) ⟨pre ++ ⟨c, true⟩ :: post, fl⟩
  | growNext {s : Nat} {post' : List Block} (larger : c < n) (next : post = ⟨s, false⟩ :: post')
      (fits : n ≤ s + 12 + c) :
      Realloc start n c pre post fl (start + span pre + 12)
        (regrown start pre (s + 12 + c) n post' (without (start + span pre + 12 + c) 0 fl))
  | growPrev {p : Nat} {pre' : List Block} (larger : c < n) (noNext : ¬ NextFits n c post)
      (prev : pre = pre' ++ [⟨p, false⟩]) (fits : n ≤ p + 12 + c) :
      Realloc start n c pre post fl (start + span pre' + 12)
        (regrown start pre' (p + 12 + c) n post (without (start + span pre') 0 fl))
  | growBoth {p s : Nat} {pre' post' : List Block} (larger : c < n) (noNext : ¬ NextFits n c post)
      (noPrev : ¬ PrevFits n c pre) (prev : pre = pre' ++ [⟨p, false⟩])
      (next : post = ⟨s, false⟩ :: post') (fits : n ≤ p + 12 + c + 12 + s) :
      Realloc start n c pre post fl (start + span pre' + 12)
        (regrown start pre' (p + 12 + c + 12 + s) n post'
          (without (start + span pre') (start + span pre + 12 + c) fl))
  | fail (larger : c < n) (noNext : ¬ NextFits n c post) (noPrev : ¬ PrevFits n c pre)
      (noBoth : ¬ BothFit n c pre post)
      (none : ∀ x s, (x, ⟨s, false⟩) ∈ placed start (pre ++ ⟨c, true⟩ :: post) → s < n) :
      Realloc start n c pre post fl 0 ⟨pre ++ ⟨c, true⟩ :: post, fl⟩
  | moved {q : Nat} {pre1 post1 : List Block} {fl1 : List Nat} {A' : Abs} (larger : c < n)
      (noNext : ¬ NextFits n c post) (noPrev : ¬ PrevFits n c pre)
      (noBoth : ¬ BothFit n c pre post)
      (malloc : Malloc start n ⟨pre ++ ⟨c, true⟩ :: post, fl⟩ q ⟨pre1 ++ ⟨c, true⟩ :: post1, fl1⟩)
      (found : q ≠ 0) (place : span pre1 = span pre) (release : Release start c pre1 post1 fl1 A') :
      Realloc start n c pre post fl q A'
  | leaked {q : Nat} {A1 : Abs} (larger : c < n)
      (noNext : ¬ NextFits n c post) (noPrev : ¬ PrevFits n c pre)
      (noBoth : ¬ BothFit n c pre post)
      (malloc : Malloc start n ⟨pre ++ ⟨c, true⟩ :: post, fl⟩ q A1) (found : q ≠ 0)
      (stuck : A1.free = [] ∨ post = [] ∧ c = 0) :
      Realloc start n c pre post fl q A1
  | release {A' : Abs} (zero : n = 0) (larger : 0 < c) (gone : Release start c pre post fl A') :
      Realloc start n c pre post fl 0 A'
  | keep (ready : fl ≠ []) (nonzero : 0 < n) (smaller : n < c) (tight : c < n + 16) :
      Realloc start n c pre post fl (start + span pre + 12) ⟨pre ++ ⟨c, true⟩ :: post, fl⟩
  | shrink {A' : Abs} (nonzero : 0 < n) (room : n + 16 ≤ c)
      (rest : Release start (c - 12 - n) (pre ++ [⟨n, true⟩]) post fl A') :
      Realloc start n c pre post fl (start + span pre + 12) A'

section Neighbours
variable {h : Heap} {pre post : List Block} {c n : Nat} {fl : List Nat}

theorem Rep.prev_free_iff (r : Rep h ⟨pre ++ ⟨c, true⟩ :: post, fl⟩) :
    (prevNghbrOf h (h.heapStart + span pre) ≠ 0 ∧
      wdmIsFree h.mem (prevNghbrOf h (h.heapStart + span pre)) = true) ↔ EndsFree pre := by
  have ht : span pre + (12 + c + span post) = h.heapSize := by simpa [span] using r.total
  obtain ⟨hpre, ⟨hp, -⟩, -⟩ := layout_append.mp r.layout
  exact prevNghbrOf_row r.arena hpre hp (by omega)

theorem Rep.next_free_iff (r : Rep h ⟨pre ++ ⟨c, true⟩ :: post, fl⟩) :
    (nextNghbrOf h (h.heapStart + span pre) ≠ 0 ∧
      wdmIsFree h.mem (nextNghbrOf h (h.heapStart + span pre)) = true) ↔ StartsFree post := by
  have ht : span pre + (12 + c + span post) = h.heapSize := by simpa [span] using r.total
  have hact := r.actualSize (mem_placed_mid h.heapStart pre post ⟨c, true⟩)
  obtain ⟨-, -, hpost⟩ := layout_append.mp r.layout
  simp only at hact hpost
  exact nextNghbrOf_row r.arena hpost hact rfl (by omega) (by omega)

theorem Rep.prev_value {p : Nat} (r : Rep h ⟨(pre ++ [⟨p, false⟩]) ++ ⟨c, true⟩ :: post, fl⟩) :
    prevNghbrOf h (h.heapStart + span (pre ++ [⟨p, false⟩])) = h.heapStart + span pre ∧
      sz h.mem (h.heapStart + span pre) = p := by
  have ht := r.total
  obtain ⟨hpre, ⟨hp, -⟩, -⟩ := layout_append.mp r.layout
  obtain ⟨-, ⟨-, hs, -⟩, -⟩ := layout_append.mp hpre
  rw [lastSize_append_cons] at hp
  simp only [span_append, span] at ht hp ⊢
  refine ⟨prevNghbrOf_eq r.arena hp ?_ (by omega) (by omega), hs⟩
  simp only [lastSize]
  omega

theorem Rep.next_value {s : Nat} (r : Rep h ⟨pre ++ ⟨c, true⟩ :: ⟨s, false⟩ :: post, fl⟩) :
    nextNghbrOf h (h.heapStart + span pre) = h.heapStart + span pre + 12 + c ∧
      sz h.mem (h.heapStart + span pre + 12 + c) = s := by
  have ht : span pre + (12 + c + (12 + s + span post)) = h.heapSize := by
    simpa [span] using r.total
  have hact := r.actualSize (mem_placed_mid h.heapStart pre (⟨s, false⟩ :: post) ⟨c, true⟩)
  obtain ⟨-, -, ⟨-, hs, -⟩, -⟩ := layout_append.mp r.layout
  simp only at hact hs
  exact ⟨nextNghbrOf_inner r.arena hact rfl (by omega) (by omega), hs⟩

/-- The tests of the three scenarios, read on the row. -/
theorem Rep.fits_next (r : Rep h ⟨pre ++ ⟨c, true⟩ :: post, fl⟩) :
    (nextNghbrOf h (h.heapStart + span pre) ≠ 0 ∧
      wdmIsFree h.mem (nextNghbrOf h (h.heapStart + span pre)) = true ∧
      n ≤ sz h.mem (nextNghbrOf h (h.heapStart + span pre)) + 12 + c) ↔ NextFits n c post := by
  rw [← and_assoc, r.next_free_iff]
  constructor
  · rintro ⟨⟨s, post', rfl⟩, hn⟩
    rw [r.next_value.1, r.next_value.2] at hn
    exact ⟨s, post', rfl, hn⟩
  · rintro ⟨s, post', rfl, hn⟩
    rw [r.next_value.1, r.next_value.2]
    exact ⟨⟨s, post', rfl⟩, hn⟩

theorem Rep.fits_prev (r : Rep h ⟨pre ++ ⟨c, true⟩ :: post, fl⟩) :
    (prevNghbrOf h (h.heapStart + span pre) ≠ 0 ∧
      wdmIsFree h.mem (prevNghbrOf h (h.heapStart + span pre)) = true ∧
      n ≤ sz h.mem (prevNghbrOf h (h.heapStart + span pre)) + 12 + c) ↔ PrevFits n c pre := by
  rw [← and_assoc, r.prev_free_iff]
  constructor
  · rintro ⟨⟨pre', p, rfl⟩, hn⟩
    rw [r.prev_value.1, r.prev_value.2] at hn
    exact ⟨p, pre', rfl, hn⟩
  · rintro ⟨p, pre', rfl, hn⟩
    rw [r.prev_value.1, r.prev_value.2]
    exact ⟨⟨pre', p, rfl⟩, hn⟩

theorem Rep.fits_both (r : Rep h ⟨pre ++ ⟨c, true⟩ :: post, fl⟩) :
    (nextNghbrOf h (h.heapStart + span pre) ≠ 0 ∧ prevNghbrOf h (h.heapStart + span pre) ≠ 0 ∧
      wdmIsFree h.mem (nextNghbrOf h (h.heapStart + span pre)) = true ∧
      wdmIsFree h.mem (prevNghbrOf h (h.heapStart + span pre)) = true ∧
      n ≤ sz h.mem (prevNghbrOf h (h.heapStart + span pre)) + 12 + c + 12 +
        sz h.mem (nextNghbrOf h (h.heapStart + span pre))) ↔ BothFit n c pre post := by
  constructor
  · rintro ⟨h1, h2, h3, h4, hn⟩
    obtain ⟨pre', p, rfl⟩ := r.prev_free_iff.mp ⟨h2, h4⟩
    obtain ⟨s, post', rfl⟩ := r.next_free_iff.mp ⟨h1, h3⟩
    rw [r.prev_value.1, r.prev_value.2, r.next_value.1, r.next_value.2] at hn
    exact ⟨p, pre', s, post', rfl, rfl, hn⟩
  · rintro ⟨p, pre', s, post', rfl, rfl, hn⟩
    obtain ⟨h2, h4⟩ := r.prev_free_iff.mpr ⟨pre', p, rfl⟩
    obtain ⟨h1, h3⟩ := r.next_free_iff.mpr ⟨s, post', rfl⟩
    refine ⟨h1, h2, h3, h4, ?_⟩
    rw [r.prev_value.1, r.prev_value.2, r.next_value.1, r.next_value.2]
    exact hn

/-- Scenario 1 is chosen when the block behind gives enough room. -/
theorem reposition_next {s : Nat} (r : Rep h ⟨pre ++ ⟨c, true⟩ :: ⟨s, false⟩ :: post, fl⟩)
    (hn : n ≤ s + 12 + c) :
    reposition h (h.heapStart + span pre) n =
      some ⟨s + 12 + c, h.heapStart + span pre, h.heapStart + span pre + 12 + c, 0⟩ := by
  have hsm := r.arena.small
  have ht := r.total
  have hact := r.actualSize (mem_placed_mid h.heapStart pre (⟨s, false⟩ :: post) ⟨c, true⟩)
  have hfit := r.fits_next.mpr ⟨s, post, rfl, hn⟩
  simp only [span_append, span] at ht hact
  unfold reposition
  simp only [hact]
  rw [if_pos hfit, r.next_value.1, r.next_value.2, Nat.mod_eq_of_lt (by omega)]

theorem reposition_prev {p : Nat} (r : Rep h ⟨(pre ++ [⟨p, false⟩]) ++ ⟨c, true⟩ :: post, fl⟩)
    (noNext : ¬ NextFits n c post) (hn : n ≤ p + 12 + c) :
    reposition h (h.heapStart + span (pre ++ [⟨p, false⟩])) n =
      some ⟨p + 12 + c, h.heapStart + span pre, h.heapStart + span pre, 0⟩ := by
  have hsm := r.arena.small
  have ht := r.total
  have hact := r.actualSize (mem_placed_mid h.heapStart (pre ++ [⟨p, false⟩]) post ⟨c, true⟩)
  have hno := mt r.fits_next.mp noNext
  have hfit := r.fits_prev.mpr ⟨p, pre, rfl, hn⟩
  simp only [span_append, span] at ht
  unfold reposition
  simp only [hact]
  rw [if_neg hno, if_pos hfit, r.prev_value.1, r.prev_value.2, Nat.mod_eq_of_lt (by omega)]

theorem reposition_both {p s : Nat}
    (r : Rep h ⟨(pre ++ [⟨p, false⟩]) ++ ⟨c, true⟩ :: ⟨s, false⟩ :: post, fl⟩)
    (noNext : ¬ NextFits n c (⟨s, false⟩ :: post)) (noPrev : ¬ PrevFits n c (pre ++ [⟨p, false⟩]))
    (hn : n ≤ p + 12 + c + 12 + s) :
    reposition h (h.heapStart + span (pre ++ [⟨p, false⟩])) n =
      some ⟨p + 12 + c + 12 + s, h.heapStart + span pre, h.heapStart + span pre,
        h.heapStart + span (pre ++ [⟨p, false⟩]) + 12 + c⟩ := by
  have hsm := r.arena.small
  have ht := r.total
  have hact := r.actualSize
    (mem_placed_mid h.heapStart (pre ++ [⟨p, false⟩]) (⟨s, false⟩ :: post) ⟨c, true⟩)
  have hno1 := mt r.fits_next.mp noNext
  have hno2 := mt r.fits_prev.mp noPrev
  have hfit := r.fits_both.mpr ⟨p, pre, s, post, rfl, rfl, hn⟩
  simp only [span_append, span] at ht
  unfold reposition
  simp only [hact]
  rw [if_neg hno1, if_neg hno2, if_pos hfit, r.prev_value.1, r.prev_value.2, r.next_value.1,
    r.next_value.2, Nat.mod_eq_of_lt (by omega)]

theorem reposition_none (r : Rep h ⟨pre ++ ⟨c, true⟩ :: post, fl⟩) (noNext : ¬ NextFits n c post)
    (noPrev : ¬ PrevFits n c pre) (noBoth : ¬ BothFit n c pre post) :
    reposition h (h.heapStart + span pre) n = none := by
  have hact := r.actualSize (mem_placed_mid h.heapStart pre post ⟨c, true⟩)
  unfold reposition
  simp only [hact]
  rw [if_neg (mt r.fits_next.mp noNext), if_neg (mt r.fits_prev.mp noPrev),
    if_neg (mt r.fits_both.mp noBoth)]

end Neighbours

section Regions
variable (start : Nat) (pre : List Block) {p c s : Nat}

theorem region_next :
    Region start pre [⟨c, true⟩, ⟨s, false⟩]
      ⟨s + 12 + c, start + span pre, start + span pre + 12 + c, 0⟩ (start + span pre) c := by
  refine ⟨rfl, ?_, ?_, ?_, ?_, Or.inr ?_, Or.inl rfl⟩
  · simp only [span]
    omega
  · simp
  · intro y t hy
    simp only [usedAt_cons_used, usedAt_cons_free, usedAt_nil, or_false] at hy
    exact hy.1
  · intro t ht
    simp only [freeAt_cons, Bool.true_eq_false, false_and, false_or, true_and] at ht
    exact Or.inl (ht.resolve_right (freeAt_nil _ _))
  · simp only [span]
    omega

theorem region_prev :
    Region start pre [⟨p, false⟩, ⟨c, true⟩] ⟨p + 12 + c, start + span pre, start + span pre, 0⟩
      (start + span pre + 12 + p) c := by
  refine ⟨rfl, ?_, ?_, ?_, ?_, Or.inr ?_, Or.inl rfl⟩
  · simp only [span]
    omega
  · simp
  · intro y t hy
    simp only [usedAt_cons_used, usedAt_cons_free, usedAt_nil, or_false] at hy
    exact hy.1
  · intro t ht
    simp only [freeAt_cons, Bool.true_eq_false, false_and, false_or, true_and] at ht
    exact Or.inl (ht.resolve_right (freeAt_nil _ _))
  · simp only [span]
    omega

theorem region_both :
    Region start pre [⟨p, false⟩, ⟨c, true⟩, ⟨s, false⟩]
      ⟨p + 12 + c + 12 + s, start + span pre, start + span pre, start + span pre + 12 + p + 12 + c⟩
      (start + span pre + 12 + p) c := by
  refine ⟨rfl, ?_, ?_, ?_, ?_, Or.inr ?_, Or.inr ?_⟩
  · simp only [span]
    omega
  · simp
  · intro y t hy
    simp only [usedAt_cons_used, usedAt_cons_free, usedAt_nil, or_false] at hy
    exact hy.1
  · intro t ht
    simp only [freeAt_cons, Bool.true_eq_false, false_and, false_or, true_and] at ht
    rcases ht with ht | ht | ht
    · exact Or.inl ht
    · exact Or.inr ht
    · exact absurd ht (freeAt_nil _ _)
  · simp only [span]
    omega
  · simp only [span]
    omega

end Regions

section Shrink
variable {h : Heap} {pre post : List Block} {c n fuel : Nat} {fl : List Nat}

/-- The state in which the shrink path calls `coalesce`: the rest of the
block is a free block of its own, with the old size still behind it. -/
theorem shrink_detached (r : Rep h ⟨pre ++ ⟨c, true⟩ :: post, fl⟩) (room : n + 16 ≤ c) {m : Mem}
    (hm : m = setLom (setSz (setPrevSz (setSz h.mem (h.heapStart + span pre) (n ||| wdmAllocBit))
      (h.heapStart + span pre + 12 + n) n) (h.heapStart + span pre + 12 + n) (c - 12 - n))
      (h.heapStart + span pre + 12 + n) 0) :
    Detached { h with mem := m } (pre ++ [⟨n, true⟩]) (c - 12 - n) post c fl ∧
      HdrFrame [h.heapStart + span pre, h.heapStart + span pre + 12 + n] h.mem m := by
  have hb := r.arena.bound
  have hsm := r.arena.small
  have ht : span pre + (12 + c + span post) = h.heapSize := by simpa [span] using r.total
  obtain ⟨hpre, ⟨hprev, -, hlom⟩, hpost⟩ := layout_append.mp r.layout
  have hout : ∀ t ∈ fl, t + 12 ≤ 2 ^ 64 ∧
      (t + 12 ≤ h.heapStart + span pre ∨ h.heapStart + span pre + 12 + c ≤ t) := by
    intro t ht'
    have houtside := ((r.mem_free t).mp ht').outside_used
    obtain ⟨b, hb', -⟩ := (r.mem_free t).mp ht'
    have hbd := r.bound hb'
    omega
  have hmf := r.mem_free
  have hmagic := hlom rfl
  generalize hx : h.heapStart + span pre = x at *
  simp only at hpost
  have so : SameOutside x (x + 12 + c) h.mem m := by
    rw [hm]
    exact ((((SameOutside.refl _ _ h.mem).store _ (by omega) (by omega) (by omega)).store _
      (by omega) (by omega) (by omega)).store _ (by omega) (by omega) (by omega)).store _ (by omega)
      (by omega) (by omega)
  have fr : HdrFrame [x, x + 12 + n] h.mem m := by
    rw [hm]
    exact ((((HdrFrame.refl _ h.mem).setSz (by simp) (by omega)).setPrevSz (by simp) (by omega)).setSz
      (by simp) (by omega)).setLom (by simp) (by omega)
  refine ⟨⟨r.arena, ?_, ?_, ?_, ?_, r.nodup, ?_⟩, fr⟩
  · simp only [span_append, span]
    omega
  · rw [List.append_assoc]
    refine layout_append.mpr ⟨hpre.outside so (by omega) (by omega), ?_⟩
    simp only [hx, Layout, List.cons_append, List.nil_append]
    refine ⟨⟨?_, ?_, fun _ => ?_⟩, ⟨?_, ?_, by simp⟩, trivial⟩
    · simp (disch := omega) only [hm, prevSz_setLom, prevSz_setSz, prevSz_setPrevSz_apart, hprev]
    · simp (disch := omega) only [hm, sz_setLom, sz_setSz_apart, sz_setPrevSz, sz_setSz, raw_used,
        or_wdmAllocBit, Nat.mod_eq_of_lt]
    · simp (disch := omega) only [hm, lom_setLom_apart, lom_setSz, lom_setPrevSz, hmagic]
    · simp (disch := omega) only [hm, prevSz_setLom, prevSz_setSz, prevSz_setPrevSz,
        Nat.mod_eq_of_lt]
    · simp (disch := omega) only [hm, sz_setLom, sz_setSz, raw_free, Nat.mod_eq_of_lt]
  · rw [show h.heapStart + span (pre ++ [⟨n, true⟩]) + 12 + (c - 12 - n) = x + 12 + c by
      simp only [span_append, span]; omega]
    exact hpost.outside so (by omega) (by omega)
  · apply r.chain.congr
    intro t ht'
    exact (so.fields (hout t ht').1 (hout t ht').2).2.2
  · intro t
    rw [hmf t]
    simp only [freeAt_append, freeAt_cons, List.append_assoc, List.cons_append, List.nil_append,
      Bool.true_eq_false, false_and, false_or, hx]
    rw [show x + 12 + n + 12 + (c - 12 - n) = x + 12 + c by omega]

theorem not_endsFree_used (pre : List Block) (n : Nat) : ¬ EndsFree (pre ++ [⟨n, true⟩]) := by
  rintro ⟨pre', p, he⟩
  have := (List.append_inj' he rfl).2
  simp at this

/-- Cutting a block adds the header of its rest and no other. -/
theorem headers_cut {a p : Nat} {u : Bool} {pre post : List Block} (room : n + 16 ≤ c)
    (hp : p ∈ headers a ((pre ++ [⟨n, true⟩]) ++ ⟨c - 12 - n, u⟩ :: post)) :
    p ∈ headers a (pre ++ ⟨c, true⟩ :: post) ∨ p = a + span pre + 12 + n := by
  simp only [headers, List.append_assoc, List.cons_append, List.nil_append, placed_append, placed,
    List.map_append, List.map_cons, List.mem_append, List.mem_cons] at hp ⊢
  rw [show a + span pre + 12 + n + 12 + (c - 12 - n) = a + span pre + 12 + c by omega] at hp
  tauto

/-- After a shrink the block is there with its new size, and the rest is not
a used block. -/
theorem Release.used_cut {start : Nat} {A' : Abs} (room : n + 16 ≤ c)
    (hr : Release start (c - 12 - n) (pre ++ [⟨n, true⟩]) post fl A') (y s : Nat) :
    UsedAt start A'.blocks y s ↔ (UsedAt start (pre ++ ⟨c, true⟩ :: post) y s ∧
      y ≠ start + span pre) ∨ (y = start + span pre ∧ s = n) := by
  rw [hr.used]
  simp only [usedAt_append, usedAt_cons_used, span_append, span, usedAt_nil, or_false]
  rw [show start + (span pre + (12 + n + 0)) + 12 + (c - 12 - n) = start + span pre + 12 + c by omega]
  constructor
  · rintro ⟨(h | h) | h | h, hne⟩
    · have := h.bounds
      exact Or.inl ⟨Or.inl h, by omega⟩
    · exact Or.inr h
    · exact absurd h.1 hne
    · have := h.bounds
      exact Or.inl ⟨Or.inr (Or.inr h), by omega⟩
  · rintro (⟨h | h | h, hne⟩ | h)
    · have := h.bounds
      exact ⟨Or.inl (Or.inl h), by omega⟩
    · exact absurd h.1 hne
    · have := h.bounds
      exact ⟨Or.inr (Or.inr h), by omega⟩
    · exact ⟨Or.inl (Or.inr h), by omega⟩

/-- `coalesce` on the rest of a shrunk block, before the last write of the
shrink path. -/
theorem Detached.coalesce_rest {h : Heap} {pre post : List Block} {n s q fuel : Nat} {fl : List Nat}
    (d : Detached h (pre ++ [⟨n, true⟩]) s post q fl) (hfuel : fl.length < fuel) :
    ∃ h' v post' q' fl', coalesce fuel h (h.heapStart + span (pre ++ [⟨n, true⟩])) = .ok h' ∧
      Release h.heapStart s (pre ++ [⟨n, true⟩]) post fl
        ⟨(pre ++ [⟨n, true⟩]) ++ ⟨v, false⟩ :: post', fl'⟩ ∧
      Rough h' ((pre ++ [⟨n, true⟩]) ++ [⟨v, false⟩]) post' q' fl' ∧
      h'.heapStart = h.heapStart ∧ h'.heapSize = h.heapSize ∧
      HdrFrame (headers h.heapStart ((pre ++ [⟨n, true⟩]) ++ ⟨s, false⟩ :: post) ++
        headers h.heapStart ((pre ++ [⟨n, true⟩]) ++ ⟨v, false⟩ :: post')) h.mem h'.mem := by
  have hprev := not_endsFree_used pre n
  by_cases hnext : StartsFree post
  · obtain ⟨k, post', rfl⟩ := hnext
    obtain ⟨h', before, after, rfl, hc, hbec⟩ := d.coalesce_next hprev hfuel
    have hrep := hbec.rep
    rw [List.append_cons] at hrep
    exact ⟨h', _, post', _, _, hc, .next hprev, hrep.rough, hbec.start, hbec.size, hbec.frame⟩
  · obtain ⟨h', hc, rough, hst, hsi, fr⟩ := d.coalesce_none fuel hprev hnext
    exact ⟨h', _, post, _, _, hc, .none hprev hnext, rough, hst, hsi,
      fr.mono fun t ht => List.mem_append_left _ ht⟩

theorem shrink_spec (r : Rep h ⟨pre ++ ⟨c, true⟩ :: post, fl⟩) (room : n + 16 ≤ c)
    (hfuel : fl.length < fuel) :
    ∃ h' A', shrink fuel h (h.heapStart + span pre) n = .ok h' ∧
      Release h.heapStart (c - 12 - n) (pre ++ [⟨n, true⟩]) post fl A' ∧
      Becomes h ⟨pre ++ ⟨c, true⟩ :: post, fl⟩ h' A' := by
  have hb := r.arena.bound
  have hsm := r.arena.small
  have ht : span pre + (12 + c + span post) = h.heapSize := by simpa [span] using r.total
  have hsplit : 12 + 4 ≤ (c + 2 ^ 64 - n) % 2 ^ 64 := by omega
  have hleft : (c + 2 ^ 64 - 12 - n) % 2 ^ 64 = c - 12 - n := by omega
  have htail : h.heapStart + span pre + 12 + n < 2 ^ 64 := by omega
  have hact := r.actualSize (mem_placed_mid h.heapStart pre post ⟨c, true⟩)
  have hmx := mem_headers_mid h.heapStart pre post ⟨c, true⟩
  obtain ⟨d, fr⟩ := shrink_detached r room rfl
  obtain ⟨h2, v, post2, q2, fl2, hc, hrel, rough, hst, hsi, fr2⟩ := d.coalesce_rest hfuel
  simp only at hst hsi hrel fr2 hact
  have hrow := rough.total
  have hszv : sz h2.mem (h2.heapStart + span (pre ++ [⟨n, true⟩])) = v :=
    rough.layout.sz_eq (b := ⟨v, false⟩) (mem_placed_mid _ _ _ _)
  have hsp : h.heapStart + span (pre ++ [⟨n, true⟩]) = h.heapStart + span pre + 12 + n := by
    simp only [span_append, span]
    omega
  have hvlt : h.heapStart + span pre + 12 + n + 12 + v ≤ h.heapStart + h.heapSize := by
    simp only [span_append, span] at hrow
    omega
  obtain ⟨rep, fr3⟩ := rough.fix_behind (a := h.heapStart + span pre + 12 + n + 12 + v)
    (by rw [hst, hsp])
  simp only at rep fr3
  rw [hst, hsp] at hszv
  refine ⟨_, _, ?_, hrel, rep, hst, hsi, ?_⟩
  · unfold shrink
    simp only [hact]
    rw [if_pos hsplit, Nat.mod_eq_of_lt htail, hleft]
    rw [hsp] at hc
    simp only [hc]
    change Except.ok _ = _
    rw [hszv, Nat.mod_eq_of_lt (show h.heapStart + span pre + 12 + n + 12 + v < 2 ^ 64 by omega)]
  · have hmsp := mem_headers_mid h.heapStart (pre ++ [⟨n, true⟩]) post2 ⟨v, false⟩
    rw [hsp] at hmsp
    rw [hst] at fr3
    have sub1 : ∀ t ∈ [h.heapStart + span pre, h.heapStart + span pre + 12 + n],
        t ∈ headers h.heapStart (pre ++ ⟨c, true⟩ :: post) ++
          headers h.heapStart ((pre ++ [⟨n, true⟩]) ++ ⟨v, false⟩ :: post2) := by
      intro t ht'
      simp only [List.mem_cons, List.not_mem_nil, or_false] at ht'
      rcases ht' with rfl | rfl
      · exact List.mem_append_left _ hmx
      · exact List.mem_append_right _ hmsp
    have sub2 : ∀ t ∈ headers h.heapStart ((pre ++ [⟨n, true⟩]) ++ ⟨c - 12 - n, false⟩ :: post) ++
        headers h.heapStart ((pre ++ [⟨n, true⟩]) ++ ⟨v, false⟩ :: post2),
        t ∈ headers h.heapStart (pre ++ ⟨c, true⟩ :: post) ++
          headers h.heapStart ((pre ++ [⟨n, true⟩]) ++ ⟨v, false⟩ :: post2) := by
      intro t ht'
      rcases List.mem_append.mp ht' with ht' | ht'
      · rcases headers_cut room ht' with ht' | rfl
        · exact List.mem_append_left _ ht'
        · exact List.mem_append_right _ hmsp
      · exact List.mem_append_right _ ht'
    exact ((fr.mono sub1).trans (fr2.mono sub2)).trans (fr3.mono fun t ht' =>
      List.mem_append_right _ ht')

end Shrink

theorem Malloc.effect {h h' : Heap} {A A' : Abs} {n p : Nat} (x : Nat) (r : Rep h A)
    (hm : Malloc h.heapStart n A p A') (b : Becomes h A h' A') : Effect h A x h' A' := by
  have hb := r.arena.bound
  have ht := r.total
  apply b.effect (by omega)
  intro y s hy _
  rcases hm.used with ⟨-, rfl⟩ | ⟨x', s', -, -, -, -, hu⟩
  · exact hy
  · exact (hu y s).mpr (Or.inl hy)

theorem Release.effect {h h' : Heap} {pre post : List Block} {s : Nat} {fl : List Nat} {A' : Abs}
    (r : Rep h ⟨pre ++ ⟨s, true⟩ :: post, fl⟩) (hr : Release h.heapStart s pre post fl A')
    (b : Becomes h ⟨pre ++ ⟨s, true⟩ :: post, fl⟩ h' A') :
    Effect h ⟨pre ++ ⟨s, true⟩ :: post, fl⟩ (h.heapStart + span pre) h' A' := by
  have hb := r.arena.bound
  have ht := r.total
  apply b.effect (by omega)
  exact fun y t hy hne => (hr.used y t).mpr ⟨hy, hne⟩

theorem Effect.refl {h : Heap} {A : Abs} (x : Nat) (r : Rep h A) : Effect h A x h A :=
  ⟨r, rfl, rfl, fun _ _ hy _ => ⟨hy, fun _ _ => rfl⟩⟩

/-- Everything `wdrealloc` promises about the memory behind its result. -/
structure Reallocated (h : Heap) (A : Abs) (x c n p : Nat) (h' : Heap) (A' : Abs) : Prop where
  effect : Effect h A x h' A'
  carried : p ≠ 0 → ∀ i, i < c → i < n → h'.mem.get (p + i) = h.mem.get (x + 12 + i)
  failed : p = 0 → 0 < n → h' = h

/-- The copy of scenario 4: the new block has the old payload, and every block
has its bytes. -/
theorem relocate_copy {h h1 : Heap} {A A1 : Abs} {m2 : Mem} {x c x' s' : Nat} (r : Rep h A)
    (b : Becomes h A h1 A1) (eff : Effect h A (h.heapStart + h.heapSize) h1 A1) (larger : c < s')
    (hown : UsedAt h.heapStart A.blocks x c) (hfresh : ∀ t, ¬ UsedAt h.heapStart A.blocks x' t)
    (hu : ∀ y t, UsedAt h.heapStart A1.blocks y t ↔
      UsedAt h.heapStart A.blocks y t ∨ y = x' ∧ t = s')
    (hm2 : memmove h1.mem (x' + 12) (x + 12) c = m2) :
    Rep { h1 with mem := m2 } A1 ∧ (∀ i, i < c → m2.get (x' + 12 + i) = h.mem.get (x + 12 + i)) ∧
      ∀ y s, UsedAt h.heapStart A.blocks y s → ∀ i, i < s →
        m2.get (y + 12 + i) = h.mem.get (y + 12 + i) := by
  have hb := r.arena.bound
  have hnew : UsedAt h.heapStart A1.blocks x' s' := (hu x' s').mpr (Or.inr ⟨rfl, rfl⟩)
  have hnew1 : UsedAt h1.heapStart A1.blocks x' s' := by rwa [b.start]
  have hold : UsedAt h.heapStart A1.blocks x c := (hu x c).mpr (Or.inl hown)
  have hbx := b.rep.bound hnew1
  have hby := r.bound hown
  have hne : x' ≠ x := fun e => hfresh c (e ▸ hown)
  have hapart := placed_apart hnew hold
  rw [b.start, b.size] at hbx
  simp only at hbx hby hapart
  have so : SameOutside (x' + 12) (x' + 12 + s') h1.mem m2 := by
    rw [← hm2]
    exact (SameOutside.refl _ _ h1.mem).memmove _ (by omega) (by omega) (by omega)
  refine ⟨b.rep.payload hnew1 so, fun i hi => ?_, fun y s hy i hi => ?_⟩
  · rw [← hm2, memmove_inside h1.mem (by omega) (by omega) (by omega) hi]
    exact (eff.kept _ _ hown (by omega)).2 i hi
  · have hyb := r.bound hy
    have hyx : y ≠ x' := fun e => hfresh s (e ▸ hy)
    have hap := placed_apart ((hu y s).mpr (Or.inl hy)) hnew
    simp only at hyb hap
    rw [so _ (by omega) (by omega)]
    exact (eff.kept y s hy (by omega)).2 i hi

/-- Scenario 4 when a place was found: copy there, then free the original. -/
theorem relocate_found {h h1 : Heap} {pre post : List Block} {c n q fuel : Nat} {fl : List Nat}
    {A1 : Abs} (r : Rep h ⟨pre ++ ⟨c, true⟩ :: post, fl⟩) (larger : c < n)
    (hm : Malloc h.heapStart n ⟨pre ++ ⟨c, true⟩ :: post, fl⟩ q A1) (found : q ≠ 0)
    (b : Becomes h ⟨pre ++ ⟨c, true⟩ :: post, fl⟩ h1 A1) (hfuel : A1.free.length < fuel) :
    ∃ h' A', wdfree fuel { h1 with
          mem := (memmove h1.mem q (h.heapStart + span pre + 12)
            (wdmActualSize h1.mem (h.heapStart + span pre))) }
        (h.heapStart + span pre + 12) = .ok h' ∧
      Reallocated h ⟨pre ++ ⟨c, true⟩ :: post, fl⟩ (h.heapStart + span pre) c n q h' A' ∧
      ((A' = A1 ∧ (A1.free = [] ∨ post = [] ∧ c = 0)) ∨
        ∃ pre1 post1 fl1, A1 = ⟨pre1 ++ ⟨c, true⟩ :: post1, fl1⟩ ∧ span pre1 = span pre ∧
          Release h.heapStart c pre1 post1 fl1 A') := by
  have hb := r.arena.bound
  have ht : span pre + (12 + c + span post) = h.heapSize := by simpa [span] using r.total
  have hown : UsedAt h.heapStart (pre ++ ⟨c, true⟩ :: post) (h.heapStart + span pre) c :=
    mem_placed_mid _ _ _ _
  have eff := Malloc.effect (h.heapStart + h.heapSize) r hm b
  have hst := b.start
  have hsi := b.size
  rcases hm.used with ⟨h0, -⟩ | ⟨x', s', rfl, hns, -, hfresh, hu⟩
  · exact absurd h0 found
  have hnew : UsedAt h.heapStart A1.blocks x' s' := (hu x' s').mpr (Or.inr ⟨rfl, rfl⟩)
  have hold : UsedAt h.heapStart A1.blocks (h.heapStart + span pre) c := (hu _ _).mpr (Or.inl hown)
  have hne : x' ≠ h.heapStart + span pre := fun e => hfresh c (e ▸ hown)
  have hact : wdmActualSize h1.mem (h.heapStart + span pre) = c := by
    have := b.rep.actualSize (x := h.heapStart + span pre) (b := ⟨c, true⟩) (by rw [hst]; exact hold)
    exact this
  rw [hact]
  generalize hm2 : memmove h1.mem (x' + 12) (h.heapStart + span pre + 12) c = m2
  obtain ⟨rep2, hcopy, hbytes⟩ := relocate_copy r b eff (by omega) hown hfresh hu hm2
  obtain ⟨pre1, post1, hrow, hplace⟩ := placed_split hold
  obtain ⟨blocks1, fl1⟩ := A1
  simp only at hrow hnew
  subst hrow
  have hpl : h1.heapStart + span pre1 = h.heapStart + span pre := by rw [hst, hplace]
  have hspec := wdfree_spec rep2 hfuel
  simp only [hpl] at hspec
  rcases hspec with ⟨hstuck, hcall⟩ | ⟨-, h', A', hcall, hrel, hbec⟩
  · refine ⟨_, _, hcall, ⟨⟨rep2, hst, hsi, ?_⟩, fun _ i hi _ => hcopy i hi, fun h0 => by omega⟩,
      Or.inl ⟨rfl, ?_⟩⟩
    · exact fun y s hy _ => ⟨(hu y s).mpr (Or.inl hy), hbytes y s hy⟩
    · refine hstuck.imp_right fun he => ?_
      rw [hst, hsi] at he
      cases post with
      | nil => exact ⟨rfl, by simp only [span] at ht; omega⟩
      | cons b bs =>
        simp only [span] at ht
        omega
  · simp only [hst] at hrel
    have effF := Release.effect (h := { h1 with mem := m2 }) rep2 (by simpa only [hst] using hrel) hbec
    simp only [hpl] at effF
    refine ⟨h', A', hcall, ⟨⟨effF.rep, effF.start.trans hst, effF.size.trans hsi, ?_⟩, ?_,
      fun h0 => by omega⟩, Or.inr ⟨pre1, post1, fl1, rfl, by omega, hrel⟩⟩
    · intro y s hy hyne
      obtain ⟨h1', h2'⟩ := effF.kept y s (by simpa only [hst] using (hu y s).mpr (Or.inl hy)) hyne
      simp only [hst] at h1'
      exact ⟨h1', fun i hi => (h2' i hi).trans (hbytes y s hy i hi)⟩
    · intro _ i hi hin
      obtain ⟨-, h2'⟩ := effF.kept x' s' (by simpa only [hst] using hnew) hne
      exact (h2' i (by omega)).trans (hcopy i hi)

section Call
variable {h : Heap} {pre post : List Block} {c n fuel : Nat} {fl : List Nat}

theorem relocate_spec (r : Rep h ⟨pre ++ ⟨c, true⟩ :: post, fl⟩) (larger : c < n)
    (noNext : ¬ NextFits n c post) (noPrev : ¬ PrevFits n c pre) (noBoth : ¬ BothFit n c pre post)
    (hfuel : fl.length < fuel) :
    ∃ p h' A', relocate fuel h (h.heapStart + span pre) (h.heapStart + span pre + 12) n =
        .ok (p, h') ∧ Realloc h.heapStart n c pre post fl p A' ∧
      Reallocated h ⟨pre ++ ⟨c, true⟩ :: post, fl⟩ (h.heapStart + span pre) c n p h' A' := by
  obtain ⟨q, h1, A1, hmc, hm, hbec, hnull⟩ := wdmalloc_spec r n hfuel
  by_cases hq : q = 0
  · obtain ⟨rfl, none⟩ := hm.null hq
    subst hq
    refine ⟨0, h1, _, ?_, .fail larger noNext noPrev noBoth none, Malloc.effect _ r hm hbec,
      fun h0 => absurd rfl h0, fun _ _ => hnull rfl⟩
    simp only [relocate, hmc]
    rfl
  · obtain ⟨h', A', hfc, hre, hcase⟩ := relocate_found r larger hm hq hbec
      (Nat.lt_of_le_of_lt hm.free_length hfuel)
    refine ⟨q, h', A', ?_, ?_, hre⟩
    · simp only [relocate, hmc]
      change (if q = 0 then _ else _) = _
      rw [if_neg hq]
      exact congrArg (· >>= _) hfc
    · rcases hcase with ⟨rfl, hstuck⟩ | ⟨pre1, post1, fl1, rfl, hplace, hrel⟩
      · exact .leaked larger noNext noPrev noBoth hm hq hstuck
      · exact .moved larger noNext noPrev noBoth hm hq hplace hrel

theorem Reallocated.of_grow {h h' : Heap} {A A' : Abs} {x c n q : Nat} (e : Effect h A x h' A')
    (carried : ∀ i, i < c → h'.mem.get (q + 12 + i) = h.mem.get (x + 12 + i)) :
    Reallocated h A x c n (q + 12) h' A' :=
  ⟨e, fun _ i hi _ => carried i hi, fun h0 => by omega⟩

/-- The part of `wdrealloc` for a larger size. -/
theorem grow_or_relocate {x : Nat} (r : Rep h ⟨pre ++ ⟨c, true⟩ :: post, fl⟩) (larger : c < n)
    (hx : h.heapStart + span pre = x) (hfuel : fl.length < fuel) :
    ∃ p h' A', (match reposition h x n with
        | some rp => do
          let h ← unlink rp fuel h h.freelistHead 0
          return settle h rp x (x + 12) n
        | none => relocate fuel h x (x + 12) n) = .ok (p, h') ∧
      Realloc h.heapStart n c pre post fl p A' ∧
      Reallocated h ⟨pre ++ ⟨c, true⟩ :: post, fl⟩ x c n p h' A' := by
  by_cases noNext : NextFits n c post
  · obtain ⟨s, post', rfl, fits⟩ := noNext
    subst hx
    rw [reposition_next r fits]
    have hrow : pre ++ ⟨c, true⟩ :: ⟨s, false⟩ :: post' =
        pre ++ ([⟨c, true⟩, ⟨s, false⟩] ++ post') := by simp
    rw [hrow] at r ⊢
    obtain ⟨h', hcall, eff, hcar⟩ := grow_spec r (region_next _ _) larger fits hfuel
    exact ⟨_, h', _, hcall, .growNext larger rfl fits, .of_grow eff hcar⟩
  by_cases noPrev : PrevFits n c pre
  · obtain ⟨p, pre', rfl, fits⟩ := noPrev
    have hrow : (pre' ++ [⟨p, false⟩]) ++ ⟨c, true⟩ :: post =
        pre' ++ ([⟨p, false⟩, ⟨c, true⟩] ++ post) := by simp
    have hx' : h.heapStart + span pre' + 12 + p = x := by
      simp only [span_append, span] at hx
      omega
    have hrp := reposition_prev r noNext fits
    rw [hx] at hrp
    rw [hrp]
    rw [hrow] at r ⊢
    obtain ⟨h', hcall, eff, hcar⟩ := grow_spec r (region_prev _ _) larger fits hfuel
    rw [hx'] at hcall eff hcar
    exact ⟨_, h', _, hcall, .growPrev larger noNext rfl fits, .of_grow eff hcar⟩
  by_cases noBoth : BothFit n c pre post
  · obtain ⟨p, pre', s, post', rfl, rfl, fits⟩ := noBoth
    have hrow : (pre' ++ [⟨p, false⟩]) ++ ⟨c, true⟩ :: ⟨s, false⟩ :: post' =
        pre' ++ ([⟨p, false⟩, ⟨c, true⟩, ⟨s, false⟩] ++ post') := by simp
    have hx' : h.heapStart + span pre' + 12 + p = x := by
      simp only [span_append, span] at hx
      omega
    have hrp := reposition_both r noNext noPrev fits
    have hre : Realloc h.heapStart n c _ _ fl _ _ := .growBoth larger noNext noPrev rfl rfl fits
    rw [hx] at hrp hre
    rw [hrp]
    rw [hrow] at r ⊢
    obtain ⟨h', hcall, eff, hcar⟩ := grow_spec r (region_both _ _) larger fits hfuel
    rw [hx'] at hcall eff hcar
    exact ⟨_, h', _, hcall, hre, .of_grow eff hcar⟩
  · subst hx
    rw [reposition_none r noNext noPrev noBoth]
    exact relocate_spec r larger noNext noPrev noBoth hfuel

/-- `wdrealloc` of a used block ends within the freelist's length and does
what `Realloc` says. -/
theorem wdrealloc_spec (r : Rep h ⟨pre ++ ⟨c, true⟩ :: post, fl⟩) (n : Nat)
    (hfuel : fl.length < fuel) :
    ∃ p h' A', wdrealloc fuel h (h.heapStart + span pre + 12) n = .ok (p, h') ∧
      Realloc h.heapStart n c pre post fl p A' ∧
      Reallocated h ⟨pre ++ ⟨c, true⟩ :: post, fl⟩ (h.heapStart + span pre) c n p h' A' := by
  have hb := r.arena.bound
  have ht : span pre + (12 + c + span post) = h.heapSize := by simpa [span] using r.total
  have hact := r.actualSize (mem_placed_mid h.heapStart pre post ⟨c, true⟩)
  have hnn := r.arena.nonnull
  have hown : UsedAt h.heapStart (pre ++ ⟨c, true⟩ :: post) (h.heapStart + span pre) c :=
    mem_placed_mid _ _ _ _
  have stay : Reallocated h ⟨pre ++ ⟨c, true⟩ :: post, fl⟩ (h.heapStart + span pre) c n
      (h.heapStart + span pre + 12) h ⟨pre ++ ⟨c, true⟩ :: post, fl⟩ :=
    ⟨Effect.refl _ r, fun _ _ _ _ => rfl, fun _ _ => rfl⟩
  by_cases hfl : fl = []
  · refine ⟨0, h, _, ?_, .full hfl, Effect.refl _ r, fun h0 => absurd rfl h0, fun _ _ => rfl⟩
    rw [wdrealloc, if_pos (r.notReady_iff.mpr hfl)]
  have hready : ¬ notReady h = true := fun hr => hfl (r.notReady_iff.mp hr)
  have hhdr : (h.heapStart + span pre + 12 + 2 ^ 64 - 12) % 2 ^ 64 = h.heapStart + span pre := by
    omega
  simp only at hact
  unfold wdrealloc
  rw [if_neg hready, if_neg (by omega)]
  simp only [hhdr, hact]
  by_cases heq : n = c
  · rw [if_pos heq]
    exact ⟨_, h, _, rfl, .same hfl heq, stay⟩
  rw [if_neg heq]
  by_cases hlarger : c < n
  · rw [if_pos hlarger]
    exact grow_or_relocate r hlarger rfl hfuel
  rw [if_neg hlarger]
  by_cases hzero : n = 0
  · rw [if_pos hzero]
    rcases wdfree_spec r hfuel with ⟨hstuck, -⟩ | ⟨-, h', A', hcall, hrel, hbec⟩
    · rcases hstuck with hstuck | hstuck
      · exact absurd hstuck hfl
      · omega
    · refine ⟨0, h', A', ?_, .release hzero (by omega) hrel, Release.effect r hrel hbec,
        fun h0 => absurd rfl h0, fun _ hpos => by omega⟩
      rw [hcall]
      rfl
  rw [if_neg hzero]
  by_cases hroom : n + 16 ≤ c
  · obtain ⟨h', A', hcall, hrel, hbec⟩ := shrink_spec r hroom hfuel
    have hused := hrel.used_cut hroom
    have hnew := (hused (h.heapStart + span pre) n).mpr (Or.inr ⟨rfl, rfl⟩)
    refine ⟨_, h', A', ?_, .shrink (by omega) hroom hrel,
      hbec.effect (by simp only [span_append, span]; omega)
        fun y s hy hne => (hused y s).mpr (Or.inl ⟨hy, hne⟩), ?_, fun h0 => by omega⟩
    · rw [hcall]
      rfl
    · intro _ i hi hin
      apply hbec.frame _ (by omega)
      intro p hp
      rcases List.mem_append.mp hp with hp | hp
      · exact payload_clear hown hi p hp
      · exact payload_clear hnew hin p hp
  · refine ⟨_, h, _, ?_, .keep hfl (by omega) (by omega) (by omega), stay⟩
    have hno : ¬ 12 + 4 ≤ (c + 2 ^ 64 - n) % 2 ^ 64 := by
      have := r.arena.small
      omega
    unfold shrink
    simp only [hact]
    rw [if_neg hno]
    rfl

end Call

section Used
variable {start n c r : Nat} {pre post : List Block} {fl : List Nat} {A' : Abs}

/-- The move whose second half, the release of the original, is skipped: the
new place took the last free block, or the original is an empty block at the
end of the heap. -/
def Leaks (start n c : Nat) (pre post : List Block) (fl : List Nat) : Prop :=
  c < n ∧ (¬ NextFits n c post ∧ ¬ PrevFits n c pre ∧ ¬ BothFit n c pre post) ∧
    ∃ q A1, Malloc start n ⟨pre ++ ⟨c, true⟩ :: post, fl⟩ q A1 ∧ q ≠ 0 ∧
      (A1.free = [] ∨ post = [] ∧ c = 0)

/-- A null result changes nothing, unless it answers a request for 0 bytes. -/
theorem Realloc.null (hr : Realloc start n c pre post fl r A') (h0 : r = 0) :
    (A' = ⟨pre ++ ⟨c, true⟩ :: post, fl⟩ ∧ (fl = [] ∨ 0 < n)) ∨
      (n = 0 ∧ 0 < c ∧ Release start c pre post fl A') := by
  cases hr with
  | full empty => exact Or.inl ⟨rfl, Or.inl empty⟩
  | fail larger noNext noPrev noBoth none => exact Or.inl ⟨rfl, Or.inr (by omega)⟩
  | release zero larger gone => exact Or.inr ⟨zero, larger, gone⟩
  | moved larger noNext noPrev noBoth malloc found place release => exact absurd h0 found
  | leaked larger noNext noPrev noBoth malloc found stuck => exact absurd h0 found
  | _ => omega

/-- A request for 0 bytes returns null, unless the block is empty already. -/
theorem Realloc.zero (hr : Realloc start 0 c pre post fl r A') (hc : c ≠ 0) : r = 0 := by
  cases hr with
  | full empty => rfl
  | same ready eq => exact absurd eq.symm hc
  | growNext larger next fits => cases larger
  | growPrev larger noNext prev fits => cases larger
  | growBoth larger noNext noPrev prev next fits => cases larger
  | fail larger noNext noPrev noBoth none => rfl
  | moved larger noNext noPrev noBoth malloc found place release => cases larger
  | leaked larger noNext noPrev noBoth malloc found stuck => cases larger
  | release zero larger gone => rfl
  | keep ready nonzero smaller tight => cases nonzero
  | shrink nonzero room rest => cases nonzero

/-- A result that is not null has room for `n` bytes, in the old place or one
that no used block had; unless the move leaks, the old block is gone. -/
theorem Realloc.used (hr : Realloc start n c pre post fl r A') (h0 : r ≠ 0) :
    ∃ x s, r = x + 12 ∧ n ≤ s ∧ UsedAt start A'.blocks x s ∧
      (x = start + span pre ∨ ∀ t, ¬ UsedAt start (pre ++ ⟨c, true⟩ :: post) x t) ∧
      (Leaks start n c pre post fl ∨ ∀ y t, UsedAt start A'.blocks y t →
        (UsedAt start (pre ++ ⟨c, true⟩ :: post) y t ∧ y ≠ start + span pre) ∨ y = x) := by
  have hself : UsedAt start (pre ++ ⟨c, true⟩ :: post) (start + span pre) c :=
    mem_placed_mid _ _ _ _
  have hstay : ∀ y t, UsedAt start (pre ++ ⟨c, true⟩ :: post) y t →
      (UsedAt start (pre ++ ⟨c, true⟩ :: post) y t ∧ y ≠ start + span pre) ∨
        y = start + span pre := by
    intro y t hy
    by_cases e : y = start + span pre
    · exact Or.inr e
    · exact Or.inl ⟨hy, e⟩
  cases hr with
  | full empty => exact absurd rfl h0
  | same ready eq => exact ⟨_, c, rfl, by omega, hself, Or.inl rfl, Or.inr hstay⟩
  | @growNext s post' larger next fits =>
    subst next
    obtain ⟨k, hk, hnew, hplace, hu⟩ := (region_next start pre).used post' _ fits
    exact ⟨_, k, rfl, hk, hnew, hplace, Or.inr hu⟩
  | @growPrev p pre' larger noNext prev fits =>
    subst prev
    obtain ⟨k, hk, hnew, hplace, hu⟩ := (region_prev start pre').used post _ fits
    rw [show (pre' ++ [⟨p, false⟩]) ++ ⟨c, true⟩ :: post =
        pre' ++ ([⟨p, false⟩, ⟨c, true⟩] ++ post) by simp,
      show start + span (pre' ++ [⟨p, false⟩]) = start + span pre' + 12 + p by
        simp only [span_append, span]; omega]
    exact ⟨_, k, rfl, hk, hnew, hplace, Or.inr hu⟩
  | @growBoth p s pre' post' larger noNext noPrev prev next fits =>
    subst prev
    subst next
    obtain ⟨k, hk, hnew, hplace, hu⟩ := (region_both start pre').used post'
      (without (start + span pre') (start + span (pre' ++ [⟨p, false⟩]) + 12 + c) fl) fits
    rw [show (pre' ++ [⟨p, false⟩]) ++ ⟨c, true⟩ :: ⟨s, false⟩ :: post' =
      pre' ++ ([⟨p, false⟩, ⟨c, true⟩, ⟨s, false⟩] ++ post') by simp]
    have hhdr : start + span pre' + 12 + p = start + span (pre' ++ [⟨p, false⟩]) := by
      simp only [span_append, span]
      omega
    rw [hhdr] at hplace hu
    exact ⟨_, k, rfl, hk, hnew, hplace, Or.inr hu⟩
  | fail larger noNext noPrev noBoth none => exact absurd rfl h0
  | @moved _ pre1 post1 fl1 _ larger noNext noPrev noBoth malloc found place release =>
    rcases malloc.used with ⟨h0', -⟩ | ⟨x, s, rfl, hns, -, hfresh, hu⟩
    · exact absurd h0' found
    have hne : x ≠ start + span pre := fun e => hfresh c (e ▸ hself)
    have hrel := release.used
    rw [place] at hrel
    refine ⟨x, s, rfl, hns, (hrel x s).mpr ⟨(hu x s).mpr (Or.inr ⟨rfl, rfl⟩), hne⟩, Or.inr hfresh,
      Or.inr fun y t hy => ?_⟩
    obtain ⟨h1, h2⟩ := (hrel y t).mp hy
    rcases (hu y t).mp h1 with h1 | h1
    · exact Or.inl ⟨h1, h2⟩
    · exact Or.inr h1.1
  | leaked larger noNext noPrev noBoth malloc found stuck =>
    rcases malloc.used with ⟨h0', -⟩ | ⟨x, s, rfl, hns, -, hfresh, hu⟩
    · exact absurd h0' found
    exact ⟨x, s, rfl, hns, (hu x s).mpr (Or.inr ⟨rfl, rfl⟩), Or.inr hfresh,
      Or.inl ⟨larger, ⟨noNext, noPrev, noBoth⟩, _, _, malloc, found, stuck⟩⟩
  | release zero larger gone => exact absurd rfl h0
  | keep ready nonzero smaller tight =>
    exact ⟨_, c, rfl, by omega, hself, Or.inl rfl, Or.inr hstay⟩
  | shrink nonzero room rest =>
    have hu := rest.used_cut room
    refine ⟨_, n, rfl, Nat.le_refl n, (hu _ _).mpr (Or.inr ⟨rfl, rfl⟩), Or.inl rfl,
      Or.inr fun y t hy => ?_⟩
    exact ((hu y t).mp hy).imp_right And.left

end Used

end WaddleOS
