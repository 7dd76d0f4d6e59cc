import WaddleOS.Heap.Edit

/-!
# `coalesce` and `wdfree` on rows of blocks

A block that is marked free but not yet on the freelist is `Detached` from
it. `coalesce` has four cases by the state of its two neighbours. Each is one
lemma; `Release` collects what they do to the abstract heap.
-/

namespace WaddleOS

theorem Arena.notInHeap {h : Heap} (ar : Arena h.heapStart h.heapSize) {p : Nat}
    (hp : p < h.heapStart ∨ h.heapStart + h.heapSize ≤ p) : wdmInHeap h p = false := by
  cases hin : wdmInHeap h p
  · rfl
  · have := (ar.inHeap p).mp hin
    omega

/-- The first block has no block before it. -/
theorem prevNghbrOf_first {h : Heap} (ar : Arena h.heapStart h.heapSize)
    (hp : prevSz h.mem h.heapStart = 0) : prevNghbrOf h h.heapStart = 0 := by
  have h1 := ar.bound
  have h2 := ar.small
  have hout : wdmInHeap h ((h.heapStart + 2 ^ 64 - 0 - 12) % 2 ^ 64) = false :=
    ar.notInHeap (by omega)
  rw [prevNghbrOf, hp]
  simp only [hout, Bool.false_eq_true, if_false]

theorem prevNghbrOf_eq {h : Heap} (ar : Arena h.heapStart h.heapSize) {x y p : Nat}
    (hp : prevSz h.mem x = p) (hx : x = y + 12 + p) (hlo : h.heapStart ≤ y)
    (hhi : y < h.heapStart + h.heapSize) : prevNghbrOf h x = y := by
  have h1 := ar.bound
  have he : (x + 2 ^ 64 - prevSz h.mem x - 12) % 2 ^ 64 = y := by omega
  have hin : wdmInHeap h y = true := (ar.inHeap y).mpr ⟨hlo, hhi⟩
  simp only [prevNghbrOf, he, hin, if_true]

theorem nextNghbrOf_eq {h : Heap} {x n a : Nat} (hs : wdmActualSize h.mem x = n)
    (ha : x + 12 + n = a) (hb : a < 2 ^ 64) :
    nextNghbrOf h x = if wdmInHeap h a then a else 0 := by
  simp only [nextNghbrOf, hs, ha, Nat.mod_eq_of_lt hb]

theorem nextNghbrOf_last {h : Heap} (ar : Arena h.heapStart h.heapSize) {x n : Nat}
    (hs : wdmActualSize h.mem x = n) (ha : x + 12 + n = h.heapStart + h.heapSize) :
    nextNghbrOf h x = 0 := by
  rw [nextNghbrOf_eq hs ha ar.bound, ar.notInHeap (Or.inr (Nat.le_refl _))]
  rfl

theorem nextNghbrOf_inner {h : Heap} (ar : Arena h.heapStart h.heapSize) {x n a : Nat}
    (hs : wdmActualSize h.mem x = n) (ha : x + 12 + n = a) (hlo : h.heapStart ≤ a)
    (hhi : a < h.heapStart + h.heapSize) : nextNghbrOf h x = a := by
  have h1 := ar.bound
  rw [nextNghbrOf_eq hs ha (by omega), (ar.inHeap a).mpr ⟨hlo, hhi⟩]
  rfl

/-- The null test on a neighbour is the heap test on its address. -/
theorem setPrevSzIf_nghbr {h k : Heap} {a v : Nat} (hs : k.heapStart = h.heapStart)
    (hz : k.heapSize = h.heapSize) (ha : a ≠ 0) :
    setPrevSzIf k (if wdmInHeap h a then a else 0) v =
      { k with mem := setPrevSzIn k k.mem a v } := by
  have hin : wdmInHeap k a = wdmInHeap h a := by simp only [wdmInHeap, hs, hz]
  unfold setPrevSzIf setPrevSzIn
  rw [hin]
  cases wdmInHeap h a with
  | true => simp [ha]
  | false => simp

theorem findLink_spec {m : Mem} {target : Nat} {before : List Nat} :
    ∀ (seen : List Nat) {fuel curr : Nat} {after : List Nat},
      Seg (lom m) curr (before ++ target :: after) 0 → (∀ x ∈ before, x ≠ 0 ∧ x ≠ target) →
      before.length < fuel →
      findLink m target fuel curr (lastOr 0 seen) = .ok (target, lastOr 0 (seen ++ before)) := by
  induction before with
  | nil =>
    intro seen fuel curr after hseg _ hfuel
    cases fuel with
    | zero => simp at hfuel
    | succ fuel =>
      have hc : curr = target := hseg.1
      rw [findLink, if_neg (by simp [hc]), hc, List.append_nil]
  | cons x xs ih =>
    intro seen fuel curr after hseg hall hfuel
    cases fuel with
    | zero => simp at hfuel
    | succ fuel =>
      obtain ⟨rfl, hrest⟩ := hseg
      obtain ⟨h0, ht⟩ := hall curr List.mem_cons_self
      have hi := ih (seen ++ [curr]) hrest (fun y hy => hall y (List.mem_cons_of_mem _ hy))
        (by simpa using hfuel)
      rw [lastOr_append_cons, List.append_assoc] at hi
      rw [findLink, if_pos ⟨ht, h0⟩]
      exact hi

def EndsFree (pre : List Block) : Prop := ∃ pre' p, pre = pre' ++ [⟨p, false⟩]

def StartsFree (post : List Block) : Prop := ∃ n post', post = ⟨n, false⟩ :: post'

/-- The neighbour before a block that stands behind `pre`. -/
theorem prevNghbrOf_row {h : Heap} (ar : Arena h.heapStart h.heapSize) {pre : List Block}
    (hl : Layout h.mem h.heapStart 0 pre)
    (hp : prevSz h.mem (h.heapStart + span pre) = lastSize 0 pre) (hs : span pre < h.heapSize) :
    (prevNghbrOf h (h.heapStart + span pre) ≠ 0 ∧
      wdmIsFree h.mem (prevNghbrOf h (h.heapStart + span pre)) = true) ↔ EndsFree pre := by
  have hsm := ar.small
  have hnn := ar.nonnull
  rcases List.eq_nil_or_concat' pre with rfl | ⟨pre', b, rfl⟩
  · have h0 : prevNghbrOf h (h.heapStart + span []) = 0 := prevNghbrOf_first ar hp
    constructor
    · exact fun hc => absurd h0 hc.1
    · rintro ⟨pre', p, hc⟩
      simp at hc
  · obtain ⟨-, ⟨-, hb, -⟩, -⟩ := layout_append.mp hl
    rw [lastSize_append_cons] at hp
    simp only [span_append, span] at hp hs ⊢
    have hpn := prevNghbrOf_eq ar hp (y := h.heapStart + span pre')
      (by simp only [lastSize]; omega) (by omega) (by omega)
    rw [hpn, isFree_of_raw hb (by omega)]
    obtain ⟨p, u⟩ := b
    constructor
    · rintro ⟨-, hu⟩
      exact ⟨pre', p, by simpa using hu⟩
    · rintro ⟨pre'', p', he⟩
      obtain ⟨-, he⟩ := List.append_inj' he rfl
      simp only [List.cons.injEq, Block.mk.injEq, and_true] at he
      exact ⟨by omega, by simp [he.2]⟩

/-- The neighbour behind a block that `post` follows. -/
theorem nextNghbrOf_row {h : Heap} (ar : Arena h.heapStart h.heapSize) {post : List Block}
    {x n a q : Nat} (hl : Layout h.mem a q post) (hs : wdmActualSize h.mem x = n)
    (ha : x + 12 + n = a) (hlo : h.heapStart ≤ x) (hend : a + span post = h.heapStart + h.heapSize) :
    (nextNghbrOf h x ≠ 0 ∧ wdmIsFree h.mem (nextNghbrOf h x) = true) ↔ StartsFree post := by
  have hsm := ar.small
  have hnn := ar.nonnull
  cases post with
  | nil =>
    have h0 : nextNghbrOf h x = 0 := nextNghbrOf_last ar hs (by simp only [span] at hend; omega)
    constructor
    · exact fun hc => absurd h0 hc.1
    · rintro ⟨n, post', hc⟩
      simp at hc
  | cons b post =>
    simp only [span] at hend
    obtain ⟨⟨-, hb, -⟩, -⟩ := hl
    rw [nextNghbrOf_inner ar hs ha (by omega) (by omega), isFree_of_raw hb (by omega)]
    obtain ⟨k, u⟩ := b
    constructor
    · rintro ⟨-, hu⟩
      exact ⟨k, post, by simpa using hu⟩
    · rintro ⟨k', post', he⟩
      simp only [List.cons.injEq, Block.mk.injEq] at he
      exact ⟨by omega, by simp [he.1.2]⟩

/-- A row whose block between `pre` and `post` is marked free but not on the
freelist; the `prev_sz` behind it may be stale. -/
structure Detached (h : Heap) (pre : List Block) (s : Nat) (post : List Block) (q : Nat)
    (fl : List Nat) : Prop where
  arena : Arena h.heapStart h.heapSize
  total : span pre + (12 + s + span post) = h.heapSize
  layout : Layout h.mem h.heapStart 0 (pre ++ [⟨s, false⟩])
  rest : Layout h.mem (h.heapStart + span pre + 12 + s) q post
  chain : Seg (lom h.mem) h.freelistHead fl 0
  nodup : fl.Nodup
  mem_free : ∀ x, x ∈ fl ↔ FreeAt h.heapStart (pre ++ ⟨s, true⟩ :: post) x

namespace Detached
variable {h : Heap} {pre post : List Block} {s q : Nat} {fl : List Nat}

theorem nodes (d : Detached h pre s post q fl) : Nodes fl := by
  have hb := d.arena.bound
  have ht := d.total
  apply Nodes.of_placed (pre ++ ⟨s, true⟩ :: post) d.nodup d.arena.nonnull
    (by simp only [span_append, span]; omega)
  intro x hx
  obtain ⟨b, hb, _⟩ := (d.mem_free x).mp hx
  exact ⟨b, hb⟩

theorem fields (d : Detached h pre s post q fl) :
    prevSz h.mem (h.heapStart + span pre) = lastSize 0 pre ∧
    sz h.mem (h.heapStart + span pre) = s ∧ wdmActualSize h.mem (h.heapStart + span pre) = s := by
  have ht := d.total
  have hsm := d.arena.small
  obtain ⟨-, ⟨hp, hs, -⟩, -⟩ := layout_append.mp d.layout
  exact ⟨hp, hs, actualSize_of_raw hs (by simp only; omega)⟩

/-- The detached header is apart from every freelist node. -/
theorem apart (d : Detached h pre s post q fl) {t : Nat} (ht : t ∈ fl) :
    t ≠ h.heapStart + span pre ∧
      (h.heapStart + span pre + 12 ≤ t ∨ t + 12 ≤ h.heapStart + span pre) := by
  have hout := ((d.mem_free t).mp ht).outside_used
  omega

theorem prev_free_iff (d : Detached h pre s post q fl) :
    (prevNghbrOf h (h.heapStart + span pre) ≠ 0 ∧
      wdmIsFree h.mem (prevNghbrOf h (h.heapStart + span pre)) = true) ↔ EndsFree pre := by
  have ht := d.total
  exact prevNghbrOf_row d.arena (layout_append.mp d.layout).1 d.fields.1 (by omega)

theorem next_free_iff (d : Detached h pre s post q fl) :
    (nextNghbrOf h (h.heapStart + span pre) ≠ 0 ∧
      wdmIsFree h.mem (nextNghbrOf h (h.heapStart + span pre)) = true) ↔ StartsFree post := by
  have ht := d.total
  exact nextNghbrOf_row d.arena d.rest d.fields.2.2 rfl (by omega) (by omega)

/-- The freelist node of a free block behind the detached one. -/
theorem split_next {n : Nat} {post' : List Block}
    (d : Detached h pre s (⟨n, false⟩ :: post') q fl) :
    ∃ before after, fl = before ++ (h.heapStart + span pre + 12 + s) :: after ∧
      ∀ y ∈ before, y ≠ 0 ∧ y ≠ h.heapStart + span pre + 12 + s := by
  have hmem : h.heapStart + span pre + 12 + s ∈ fl := by
    rw [d.mem_free, freeAt_append, freeAt_cons, freeAt_cons]
    exact Or.inr (Or.inr (Or.inl ⟨rfl, rfl⟩))
  obtain ⟨before, after, rfl⟩ := List.append_of_mem hmem
  refine ⟨before, after, rfl, fun y hy => ⟨d.nodes.left.pos y hy, ?_⟩⟩
  rintro rfl
  exact (List.nodup_append.mp d.nodup).2.2 _ hy _ List.mem_cons_self rfl

/-- What `coalesce` finds behind the detached block when that block is free. -/
theorem next_block {n x z w : Nat} {post' : List Block}
    (d : Detached h pre s (⟨n, false⟩ :: post') q fl) (hx : h.heapStart + span pre = x)
    (hz : x + 12 + s = z) (hw : z + 12 + n = w) :
    nextNghbrOf h x = z ∧ sz h.mem z = n ∧
      nextNghbrOf h z = (if wdmInHeap h w then w else 0) ∧ Layout h.mem w n post' := by
  have hb := d.arena.bound
  have hsm := d.arena.small
  have ht := d.total
  have hact := d.fields.2.2
  obtain ⟨⟨-, hszn, -⟩, hpost'⟩ := d.rest
  simp only [span] at ht
  simp only [hx, hz, hw] at hszn hpost' hact
  have hactn : wdmActualSize h.mem z = n := actualSize_of_raw hszn (by simp only; omega)
  rw [raw_free] at hszn
  exact ⟨nextNghbrOf_inner d.arena hact hz (by omega) (by omega), hszn,
    nextNghbrOf_eq hactn hw (by omega), hpost'⟩

/-- What it finds before the detached block when that block is free. -/
theorem prev_block {p x y : Nat} {pre' : List Block}
    (d : Detached h (pre' ++ [⟨p, false⟩]) s post q fl) (hy : h.heapStart + span pre' = y)
    (hx : y + 12 + p = x) : prevNghbrOf h x = y ∧ sz h.mem y = p := by
  have hb := d.arena.bound
  have ht := d.total
  have hprev := d.fields.1
  obtain ⟨-, ⟨-, hszp, -⟩, -⟩ := layout_append.mp (layout_append.mp d.layout).1
  rw [lastSize_append_cons] at hprev
  rw [raw_free, hy] at hszp
  simp only [span_append, span] at ht hprev
  rw [show h.heapStart + (span pre' + (12 + p + 0)) = x by omega] at hprev
  exact ⟨prevNghbrOf_eq d.arena hprev (by simp only [lastSize]; omega) (by omega) (by omega), hszp⟩

/-- The freelist of the row in which the detached block has absorbed the one
behind it. -/
theorem mem_free_next {n x z : Nat} {post' : List Block} {before after : List Nat}
    (d : Detached h pre s (⟨n, false⟩ :: post') q (before ++ z :: after))
    (hx : h.heapStart + span pre = x) (hz : x + 12 + s = z) (t : Nat) :
    t ∈ before ++ x :: after ↔ FreeAt h.heapStart ((pre ++ [⟨s + 12 + n, false⟩]) ++ post') t := by
  have hm := freeAt_merge_next pre post' (a := h.heapStart) (s := s) (n := n) (x := t)
  rw [hx, hz] at hm
  rw [mem_replaced d.nodup, d.mem_free t, List.append_assoc]
  exact hm.symm

/-- The same when the block before has taken both. -/
theorem mem_free_both {p n x y z : Nat} {pre' post' : List Block} {before after : List Nat}
    (d : Detached h (pre' ++ [⟨p, false⟩]) s (⟨n, false⟩ :: post') q (before ++ z :: after))
    (hy : h.heapStart + span pre' = y) (hx : y + 12 + p = x) (hz : x + 12 + s = z) (t : Nat) :
    t ∈ before ++ after ↔
      FreeAt h.heapStart ((pre' ++ [⟨p + 12 + s + 12 + n, false⟩]) ++ post') t := by
  have hm := freeAt_merge_both pre' post' (a := h.heapStart) (p := p) (s := s) (n := n) (x := t)
  rw [hy, hx, hz] at hm
  rw [mem_unlinked d.nodup, d.mem_free t, List.append_assoc, List.append_assoc]
  exact hm.symm

/-- The block before takes a new size: the row up to it and the freelist
stand. -/
theorem grow_prev {p y M : Nat} {pre' : List Block}
    (d : Detached h (pre' ++ [⟨p, false⟩]) s post q fl) (hy : h.heapStart + span pre' = y)
    (hM : M < 2 ^ 15) :
    HdrFrame [y] h.mem (setSz h.mem y M) ∧
      Layout (setSz h.mem y M) h.heapStart 0 (pre' ++ [⟨M, false⟩]) ∧
      Seg (lom (setSz h.mem y M)) h.freelistHead fl 0 := by
  have hb := d.arena.bound
  have ht := d.total
  obtain ⟨hpre', ⟨hprev', -, -⟩, -⟩ := layout_append.mp (layout_append.mp d.layout).1
  simp only [span_append, span] at ht
  rw [hy] at hprev'
  have fr : HdrFrame [y] h.mem (setSz h.mem y M) :=
    (HdrFrame.refl _ h.mem).setSz (by simp) (by omega)
  refine ⟨fr, ?_, ?_⟩
  · refine layout_append.mpr ⟨hpre'.frame fr (by omega) (by simp; omega), ⟨?_, ?_, by simp⟩, trivial⟩
    · simp (disch := omega) only [hy, prevSz_setSz, hprev']
    · simp (disch := omega) only [hy, sz_setSz, raw_free, Nat.mod_eq_of_lt]
  · apply d.chain.congr
    intro t ht'
    have hyfl : y ∈ fl := by
      rw [d.mem_free, freeAt_append, freeAt_append, freeAt_cons]
      exact Or.inl (Or.inr (Or.inl ⟨rfl, hy.symm⟩))
    exact lom_setSz _ _ (by omega) (d.nodes.bound t ht') (d.nodes.apart y hyfl t ht')

/-- Whatever is written into the detached header, the row up to it stands with
the size it then has, and so does the freelist. -/
theorem own_header {x M : Nat} {m : Mem} (d : Detached h pre s post q fl)
    (hx : h.heapStart + span pre = x) (fr : HdrFrame [x] h.mem m)
    (hprev : prevSz m x = prevSz h.mem x) (hsz : sz m x = M) :
    Layout m h.heapStart 0 (pre ++ [⟨M, false⟩]) ∧ Seg (lom m) h.freelistHead fl 0 := by
  subst hx
  have hb := d.arena.bound
  have ht := d.total
  obtain ⟨hpre, -⟩ := layout_append.mp d.layout
  refine ⟨layout_append.mpr ⟨hpre.frame fr (by omega) (by simp), ⟨?_, ?_, by simp⟩, trivial⟩, ?_⟩
  · rw [hprev, d.fields.1]
  · rw [raw_free]
    exact hsz
  · apply d.chain.congr
    intro t ht'
    have hta := (d.apart ht').2
    exact (fr.fields (d.nodes.bound t ht') (by simpa using hta)).2.2

/-- Both neighbours free: one block remains, where the first of the three was. -/
theorem coalesce_both {pre' post' : List Block} {p n fuel : Nat}
    (d : Detached h (pre' ++ [⟨p, false⟩]) s (⟨n, false⟩ :: post') q fl)
    (hfuel : fl.length < fuel) :
    ∃ h' before after, fl = before ++ (h.heapStart + span pre' + 12 + p + 12 + s) :: after ∧
      coalesce fuel h (h.heapStart + span (pre' ++ [⟨p, false⟩])) = .ok h' ∧
      Becomes h ⟨pre' ++ ⟨p, false⟩ :: ⟨s, false⟩ :: ⟨n, false⟩ :: post', fl⟩ h'
        ⟨pre' ++ ⟨p + 12 + s + 12 + n, false⟩ :: post', before ++ after⟩ := by
  have hb := d.arena.bound
  have hsm := d.arena.small
  have hnn := d.arena.nonnull
  obtain ⟨before, after, hfl, hbefore⟩ := d.split_next
  have hguard1 := d.prev_free_iff.mpr ⟨pre', p, rfl⟩
  have hguard2 := d.next_free_iff.mpr ⟨n, post', rfl⟩
  obtain ⟨-, hsz, -⟩ := d.fields
  have ht := d.total
  have hrow : h.heapStart + span (pre' ++ [⟨p, false⟩]) = h.heapStart + span pre' + 12 + p := by
    simp only [span_append, span]
    omega
  simp only [span_append, span, Nat.add_zero] at ht
  rw [hrow] at hguard1 hguard2 hsz hfl hbefore ⊢
  generalize hy : h.heapStart + span pre' = y at *
  generalize hx : y + 12 + p = x at *
  generalize hz : x + 12 + s = z at *
  generalize hw : z + 12 + n = w at *
  obtain ⟨epn, hszp⟩ := d.prev_block hy hx
  obtain ⟨enn, hszn, ennn, hpost'⟩ := d.next_block hrow hz hw
  let M := p + 12 + s + 12 + n
  let m1 := setSz h.mem y M
  obtain ⟨fr, hlay, hchain⟩ := d.grow_prev (M := M) hy (by omega)
  subst hfl
  have hmf' : ∀ t, t ∈ before ++ after ↔
      FreeAt h.heapStart ((pre' ++ [⟨M, false⟩]) ++ post') t := d.mem_free_both hy hx hz
  have hend : h.heapStart + span (pre' ++ [⟨M, false⟩]) = w := by
    simp only [span_append, span]
    omega
  have hlay' : Layout m1 (h.heapStart + span (pre' ++ [⟨M, false⟩])) n post' := by
    rw [hend]
    exact hpost'.frame fr (by omega) (by simp; omega)
  obtain ⟨rough, fr2⟩ := rough_unlink (h := { h with mem := m1 }) d.arena
    (by simp only [span_append, span]; omega) hlay hlay' d.nodes hchain hmf'
  generalize hh2 : relink { h with mem := m1 } (lastOr 0 before) (lom m1 z) = h2 at rough fr2
  have hst : h2.heapStart = h.heapStart := by rw [← hh2, relink_start]
  have hsi : h2.heapSize = h.heapSize := by rw [← hh2, relink_size]
  have hszM : sz h2.mem y = M :=
    rough.layout.sz_eq (b := ⟨M, false⟩) (by rw [hst, ← hy]; exact mem_placed_mid _ _ _ _)
  obtain ⟨rep, fr3⟩ := rough.fix_behind (a := w) (by simp only; omega)
  refine ⟨_, before, after, rfl, ?_, rep, hst, hsi, ?_⟩
  · have hfind : findLink m1 z fuel h.freelistHead 0 = .ok (z, lastOr 0 before) :=
      findLink_spec [] hchain hbefore (by simp only [List.length_append] at hfuel; omega)
    rw [← setPrevSzIf_nghbr hst hsi (show w ≠ 0 by omega), ← ennn]
    simp only
    rw [← hszM]
    simp only [coalesce, epn, enn, hszp, hsz, hszn]
    rw [epn] at hguard1
    rw [enn] at hguard2
    rw [if_pos ⟨hguard1.1, hguard1.2, hguard2.1, hguard2.2⟩, if_pos hguard2.1]
    change (findLink m1 z fuel h.freelistHead 0 >>= _) = _
    rw [hfind]
    change (assert (z = z) >>= _) = _
    rw [assert_ok rfl, ← hh2]
    rfl
  · rw [hst] at fr3
    rw [List.append_assoc] at fr2
    exact (((fr.row hy ⟨M, false⟩ post').trans fr2).trans fr3).mono
      fun t ht => List.mem_append_right _ ht

/-- Only the block before is free: it grows over the detached one. -/
theorem coalesce_prev (fuel : Nat) {pre' : List Block} {p : Nat}
    (d : Detached h (pre' ++ [⟨p, false⟩]) s post q fl) (hnext : ¬ StartsFree post) :
    ∃ h', coalesce fuel h (h.heapStart + span (pre' ++ [⟨p, false⟩])) = .ok h' ∧
      Becomes h ⟨pre' ++ ⟨p, false⟩ :: ⟨s, false⟩ :: post, fl⟩ h'
        ⟨pre' ++ ⟨p + 12 + s, false⟩ :: post, fl⟩ := by
  have hb := d.arena.bound
  have hsm := d.arena.small
  have hnn := d.arena.nonnull
  have hguard1 := d.prev_free_iff.mpr ⟨pre', p, rfl⟩
  have hguard2 := mt d.next_free_iff.mp hnext
  obtain ⟨-, hsz, hact⟩ := d.fields
  have ht := d.total
  have hrest := d.rest
  have hrow : h.heapStart + span (pre' ++ [⟨p, false⟩]) = h.heapStart + span pre' + 12 + p := by
    simp only [span_append, span]
    omega
  simp only [span_append, span, Nat.add_zero] at ht
  rw [hrow] at hguard1 hguard2 hsz hact hrest ⊢
  generalize hy : h.heapStart + span pre' = y at *
  generalize hx : y + 12 + p = x at *
  generalize hz : x + 12 + s = z at *
  obtain ⟨epn, hszp⟩ := d.prev_block hy hx
  have enn : nextNghbrOf h x = if wdmInHeap h z then z else 0 :=
    nextNghbrOf_eq hact hz (by omega)
  let M := p + 12 + s
  let m1 := setSz h.mem y M
  obtain ⟨fr, hlay, hchain⟩ := d.grow_prev (M := M) hy (by omega)
  have hszM : sz m1 y = M := by rw [sz_setSz _ _ (by omega), Nat.mod_eq_of_lt (by omega)]
  have rough : Rough { h with mem := m1 } (pre' ++ [⟨M, false⟩]) post q fl := by
    refine ⟨d.arena, ?_, hlay, ?_, hchain, d.nodup, ?_⟩
    · simp only [span_append, span]
      omega
    · rw [show h.heapStart + span (pre' ++ [⟨M, false⟩]) = z by
        simp only [span_append, span]; omega]
      exact hrest.frame fr (by omega) (by simp; omega)
    · intro t
      rw [d.mem_free t, List.append_assoc, List.append_assoc]
      exact (freeAt_merge_prev pre' post).symm
  obtain ⟨rep, fr3⟩ := rough.fix_behind (a := z) (by simp only; omega)
  refine ⟨_, ?_, rep, rfl, rfl, ?_⟩
  · rw [epn] at hguard1
    have hno : ¬ (y ≠ 0 ∧ wdmIsFree h.mem y = true ∧ nextNghbrOf h x ≠ 0 ∧
        wdmIsFree h.mem (nextNghbrOf h x) = true) := fun hc => hguard2 ⟨hc.2.2.1, hc.2.2.2⟩
    simp only [coalesce, epn, hszp, hsz]
    rw [if_neg hno, if_pos hguard1]
    rw [show sz (setSz h.mem y (p + 12 + s)) y = M from hszM, enn]
    exact congrArg Except.ok
      (setPrevSzIf_nghbr (h := h) (k := { h with mem := m1 }) rfl rfl (show z ≠ 0 by omega))
  · exact ((fr.row hy ⟨M, false⟩ post).trans fr3).mono fun t ht => List.mem_append_right _ ht

/-- Only the block behind is free: the detached block absorbs it and takes
its place in the freelist. -/
theorem coalesce_next {post' : List Block} {n fuel : Nat}
    (d : Detached h pre s (⟨n, false⟩ :: post') q fl) (hprev : ¬ EndsFree pre)
    (hfuel : fl.length < fuel) :
    ∃ h' before after, fl = before ++ (h.heapStart + span pre + 12 + s) :: after ∧
      coalesce fuel h (h.heapStart + span pre) = .ok h' ∧
      Becomes h ⟨pre ++ ⟨s, false⟩ :: ⟨n, false⟩ :: post', fl⟩ h'
        ⟨pre ++ ⟨s + 12 + n, false⟩ :: post', before ++ (h.heapStart + span pre) :: after⟩ := by
  have hb := d.arena.bound
  have hsm := d.arena.small
  have hnn := d.arena.nonnull
  obtain ⟨before, after, hfl, hbefore⟩ := d.split_next
  have hguard1 := mt d.prev_free_iff.mp hprev
  have hguard2 := d.next_free_iff.mpr ⟨n, post', rfl⟩
  obtain ⟨-, hsz, -⟩ := d.fields
  have ns := d.nodes
  have ht := d.total
  have hapart := fun t (ht : t ∈ fl) => d.apart ht
  simp only [span] at ht
  generalize hx : h.heapStart + span pre = x at *
  generalize hz : x + 12 + s = z at *
  generalize hw : z + 12 + n = w at *
  obtain ⟨enn, hszn, ennn, hpost'⟩ := d.next_block hx hz hw
  subst hfl
  let M := s + 12 + n
  let m1 := setSz h.mem x M
  let m2 := setLom m1 x (lom h.mem z)
  have hlomz : lom h.mem z < 2 ^ 64 := lom_lt _ _
  have fr : HdrFrame [x] h.mem m2 :=
    ((HdrFrame.refl _ h.mem).setSz (by simp) (by omega)).setLom (by simp) (by omega)
  have hz1 : lom m1 z = lom h.mem z := lom_setSz _ _ (by omega) (by omega) (by omega)
  have hmf' : ∀ t, t ∈ before ++ x :: after ↔
      FreeAt h.heapStart ((pre ++ [⟨M, false⟩]) ++ post') t := d.mem_free_next hx hz
  have ny : Nodes (before ++ x :: after) :=
    Nodes.of_placed _ (nodup_replaced d.nodup fun hm => (hapart x hm).1 rfl) hnn
      (by simp only [span_append, span]; omega)
      (fun t ht' => mem_headers.mp ((hmf' t).mp ht').mem_headers)
  obtain ⟨hlay, hchain⟩ := d.own_header (m := m2) (M := M) hx fr
    (by simp (disch := omega) only [m2, m1, prevSz_setLom, prevSz_setSz])
    (by simp (disch := omega) only [m2, m1, sz_setLom, sz_setSz, Nat.mod_eq_of_lt])
  have hsame : lom m2 x = lom m2 z := by
    simp (disch := omega) only [m2, m1, lom_setLom, lom_setLom_apart, lom_setSz, Nat.mod_eq_of_lt]
  have hend : h.heapStart + span (pre ++ [⟨M, false⟩]) = w := by
    simp only [span_append, span]
    omega
  have hlay' : Layout m2 (h.heapStart + span (pre ++ [⟨M, false⟩])) n post' := by
    rw [hend]
    exact hpost'.frame fr (by omega) (by simp; omega)
  obtain ⟨rough, fr2⟩ := rough_replace (h := { h with mem := m2 }) d.arena
    (by simp only [span_append, span]; omega) hlay hlay' ns ny hchain hsame hmf'
  generalize hh2 : relink { h with mem := m2 } (lastOr 0 before) x = h2 at rough fr2
  have hst : h2.heapStart = h.heapStart := by rw [← hh2, relink_start]
  have hsi : h2.heapSize = h.heapSize := by rw [← hh2, relink_size]
  have hszM : sz h2.mem x = M :=
    rough.layout.sz_eq (b := ⟨M, false⟩) (by rw [hst, ← hx]; exact mem_placed_mid _ _ _ _)
  obtain ⟨rep, fr3⟩ := rough.fix_behind (a := w) (by simp only; omega)
  refine ⟨_, before, after, rfl, ?_, rep, hst, hsi, ?_⟩
  · have hfind : findLink m2 z fuel h.freelistHead 0 = .ok (z, lastOr 0 before) :=
      findLink_spec [] hchain hbefore (by simp only [List.length_append] at hfuel; omega)
    rw [← setPrevSzIf_nghbr hst hsi (show w ≠ 0 by omega), ← ennn]
    simp only
    rw [← hszM]
    rw [enn] at hguard2
    have hno : ¬ (prevNghbrOf h x ≠ 0 ∧ wdmIsFree h.mem (prevNghbrOf h x) = true ∧ z ≠ 0 ∧
        wdmIsFree h.mem z = true) := fun hc => hguard1 ⟨hc.1, hc.2.1⟩
    simp only [coalesce, enn, hsz, hszn]
    rw [if_neg hno, if_neg hguard1, if_pos hguard2, if_pos hguard2.1,
      show lom (setSz h.mem x (s + 12 + n)) z = lom h.mem z from hz1,
      show (if lom h.mem z ≠ 0 then lom h.mem z else 0) = lom h.mem z by split <;> omega]
    change (findLink m2 z fuel h.freelistHead 0 >>= _) = _
    rw [hfind]
    change (assert (z = z) >>= _) = _
    rw [assert_ok rfl, ← hh2]
    rfl
  · rw [hst] at fr3
    rw [List.append_assoc] at fr2
    exact (((fr.row hx ⟨M, false⟩ post').trans fr2).trans fr3).mono
      fun t ht => List.mem_append_right _ ht

/-- No free neighbour: the block becomes the head of the freelist. The stale
`prev_sz` behind it stays. -/
theorem coalesce_none (fuel : Nat) (d : Detached h pre s post q fl) (hprev : ¬ EndsFree pre)
    (hnext : ¬ StartsFree post) :
    ∃ h', coalesce fuel h (h.heapStart + span pre) = .ok h' ∧
      Rough h' (pre ++ [⟨s, false⟩]) post q ((h.heapStart + span pre) :: fl) ∧
      h'.heapStart = h.heapStart ∧ h'.heapSize = h.heapSize ∧
      HdrFrame (headers h.heapStart (pre ++ ⟨s, false⟩ :: post)) h.mem h'.mem := by
  have hb := d.arena.bound
  have ht := d.total
  have ns := d.nodes
  have hapart := fun t (ht : t ∈ fl) => d.apart ht
  have hmf := d.mem_free
  have hguard1 := mt d.prev_free_iff.mp hprev
  have hguard2 := mt d.next_free_iff.mp hnext
  obtain ⟨-, hsz, -⟩ := d.fields
  have hrest := d.rest
  generalize hx : h.heapStart + span pre = x at *
  let m1 := setLom h.mem x h.freelistHead
  have fr : HdrFrame [x] h.mem m1 := (HdrFrame.refl _ h.mem).setLom (by simp) (by omega)
  have hhead : h.freelistHead < 2 ^ 64 := by
    refine d.chain.start_of_all (P := (· < 2 ^ 64)) (by decide) fun t ht => ?_
    have hbound := ns.bound t ht
    omega
  obtain ⟨hlay, hchain⟩ := d.own_header (m := m1) (M := s) hx fr
    (by simp (disch := omega) only [m1, prevSz_setLom])
    (by simp (disch := omega) only [m1, sz_setLom, hsz])
  refine ⟨{ h with mem := m1, freelistHead := x }, ?_, ⟨d.arena, ?_, hlay, ?_, ⟨rfl, ?_⟩, ?_, ?_⟩,
    rfl, rfl, fr.row hx ⟨s, false⟩ post⟩
  · have hno : ¬ (prevNghbrOf h x ≠ 0 ∧ wdmIsFree h.mem (prevNghbrOf h x) = true ∧
        nextNghbrOf h x ≠ 0 ∧ wdmIsFree h.mem (nextNghbrOf h x) = true) :=
      fun hc => hguard1 ⟨hc.1, hc.2.1⟩
    simp only [coalesce]
    rw [if_neg hno, if_neg hguard1, if_neg hguard2]
  · simp only [span_append, span]
    omega
  · rw [show h.heapStart + span (pre ++ [⟨s, false⟩]) = x + 12 + s by
      simp only [span_append, span]; omega]
    exact hrest.frame fr (by omega) (by simp)
  · rw [show lom m1 x = h.freelistHead by
      rw [lom_setLom _ _ (by omega), Nat.mod_eq_of_lt hhead]]
    exact hchain
  · exact List.nodup_cons.mpr ⟨fun hm => (hapart x hm).1 rfl, d.nodup⟩
  · intro t
    rw [List.mem_cons, hmf t, freeAt_use, hx]
    simp only [List.append_assoc, List.cons_append, List.nil_append]
    constructor
    · rintro (rfl | h)
      · exact ⟨_, hx ▸ mem_placed_mid _ _ _ _, rfl⟩
      · exact h.1
    · intro h
      by_cases e : t = x
      · exact Or.inl e
      · exact Or.inr ⟨h, e⟩

end Detached

/-- What becomes of the abstract heap when the block of size `s` between
`pre` and `post` is given back. -/
inductive Release (start s : Nat) : List Block → List Block → List Nat → Abs → Prop
  | both {pre post : List Block} {p n : Nat} {before after : List Nat} :
      Release start s (pre ++ [⟨p, false⟩]) (⟨n, false⟩ :: post)
        (before ++ (start + span pre + 12 + p + 12 + s) :: after)
        ⟨pre ++ ⟨p + 12 + s + 12 + n, false⟩ :: post, before ++ after⟩
  | prev {pre post : List Block} {p : Nat} {fl : List Nat} (next : ¬ StartsFree post) :
      Release start s (pre ++ [⟨p, false⟩]) post fl ⟨pre ++ ⟨p + 12 + s, false⟩ :: post, fl⟩
  | next {pre post : List Block} {n : Nat} {before after : List Nat} (prev : ¬ EndsFree pre) :
      Release start s pre (⟨n, false⟩ :: post) (before ++ (start + span pre + 12 + s) :: after)
        ⟨pre ++ ⟨s + 12 + n, false⟩ :: post, before ++ (start + span pre) :: after⟩
  | none {pre post : List Block} {fl : List Nat} (prev : ¬ EndsFree pre)
      (next : ¬ StartsFree post) :
      Release start s pre post fl ⟨pre ++ ⟨s, false⟩ :: post, (start + span pre) :: fl⟩

/-- A release takes exactly its own block from the used ones. -/
theorem Release.used {start s : Nat} {pre post : List Block} {fl : List Nat} {A' : Abs}
    (hr : Release start s pre post fl A') (y t : Nat) :
    UsedAt start A'.blocks y t ↔
      UsedAt start (pre ++ ⟨s, true⟩ :: post) y t ∧ y ≠ start + span pre := by
  have base : UsedAt start (pre ++ ⟨s, false⟩ :: post) y t ↔
      UsedAt start (pre ++ ⟨s, true⟩ :: post) y t ∧ y ≠ start + span pre := by
    simp only [usedAt_append, usedAt_cons_free, usedAt_cons_used]
    constructor
    · rintro (h | h)
      · have := h.bounds
        exact ⟨Or.inl h, by omega⟩
      · have := h.bounds
        exact ⟨Or.inr (Or.inr h), by omega⟩
    · rintro ⟨h | ⟨h, -⟩ | h, hne⟩
      · exact Or.inl h
      · exact absurd h hne
      · exact Or.inr h
  rw [← base]
  cases hr with
  | @both pre post p n before after =>
    simp only [usedAt_append, usedAt_cons_free, usedAt_nil, or_false, span_append, span]
    rw [show start + span pre + 12 + (p + 12 + s + 12 + n) =
      start + (span pre + (12 + p + 0)) + 12 + s + 12 + n by omega]
  | @prev pre _ p _ next =>
    simp only [usedAt_append, usedAt_cons_free, usedAt_nil, or_false, span_append, span]
    rw [show start + span pre + 12 + (p + 12 + s) =
      start + (span pre + (12 + p + 0)) + 12 + s by omega]
  | @next pre post n before after prev =>
    simp only [usedAt_append, usedAt_cons_free]
    rw [show start + span pre + 12 + (s + 12 + n) = start + span pre + 12 + s + 12 + n by omega]
  | none prev next => rfl

/-- `coalesce` puts a detached block whose `prev_sz` behind is right back. -/
theorem Detached.coalesce_spec {h : Heap} {pre post : List Block} {s fuel : Nat} {fl : List Nat}
    (d : Detached h pre s post s fl) (hfuel : fl.length < fuel) :
    ∃ h' A', coalesce fuel h (h.heapStart + span pre) = .ok h' ∧
      Release h.heapStart s pre post fl A' ∧
      Becomes h ⟨pre ++ ⟨s, false⟩ :: post, fl⟩ h' A' := by
  by_cases hprev : EndsFree pre
  · obtain ⟨pre', p, rfl⟩ := hprev
    by_cases hnext : StartsFree post
    · obtain ⟨n, post', rfl⟩ := hnext
      obtain ⟨h', before, after, rfl, hc, hbec⟩ := d.coalesce_both hfuel
      exact ⟨h', _, hc, .both, by simpa using hbec⟩
    · obtain ⟨h', hc, hbec⟩ := d.coalesce_prev fuel hnext
      exact ⟨h', _, hc, .prev hnext, by simpa using hbec⟩
  · by_cases hnext : StartsFree post
    · obtain ⟨n, post', rfl⟩ := hnext
      obtain ⟨h', before, after, rfl, hc, hbec⟩ := d.coalesce_next hprev hfuel
      exact ⟨h', _, hc, .next hprev, hbec⟩
    · obtain ⟨h', hc, rough, hst, hsi, fr⟩ := d.coalesce_none fuel hprev hnext
      have rough' : Rough h' (pre ++ [⟨s, false⟩]) post (lastSize 0 (pre ++ [⟨s, false⟩]))
          ((h.heapStart + span pre) :: fl) := by
        rwa [lastSize_append_cons]
      refine ⟨h', _, hc, .none hprev hnext, by simpa using rough'.rep, hst, hsi, ?_⟩
      exact fr.mono fun t ht => List.mem_append_left _ ht

theorem headers_mark (a s : Nat) (u v : Bool) (pre post : List Block) :
    headers a (pre ++ ⟨s, u⟩ :: post) = headers a (pre ++ ⟨s, v⟩ :: post) := by
  simp only [headers, placed_append, placed, List.map_append, List.map_cons]

/-- `wdfree` of a used block: nothing at all when the freelist is empty or the
block has no byte inside the heap, and a release otherwise. -/
theorem wdfree_spec {h : Heap} {pre post : List Block} {s fuel : Nat} {fl : List Nat}
    (r : Rep h ⟨pre ++ ⟨s, true⟩ :: post, fl⟩) (hfuel : fl.length < fuel) :
    ((fl = [] ∨ h.heapStart + h.heapSize ≤ h.heapStart + span pre + 12) ∧
      wdfree fuel h (h.heapStart + span pre + 12) = .ok h) ∨
    ((fl ≠ [] ∧ h.heapStart + span pre + 12 < h.heapStart + h.heapSize) ∧
      ∃ h' A', wdfree fuel h (h.heapStart + span pre + 12) = .ok h' ∧
        Release h.heapStart s pre post fl A' ∧ Becomes h ⟨pre ++ ⟨s, true⟩ :: post, fl⟩ h' A') := by
  have hb := r.arena.bound
  have hsm := r.arena.small
  have hnn := r.arena.nonnull
  have ht : span pre + (12 + s + span post) = h.heapSize := by simpa [span] using r.total
  by_cases hfl : fl = []
  · exact Or.inl ⟨Or.inl hfl, by rw [wdfree, if_pos (r.notReady_iff.mpr hfl)]⟩
  have hready : ¬ notReady h = true := fun hr => hfl (r.notReady_iff.mp hr)
  by_cases hend : h.heapStart + h.heapSize ≤ h.heapStart + span pre + 12
  · refine Or.inl ⟨Or.inr hend, ?_⟩
    rw [wdfree, if_neg hready, if_pos (r.arena.notInHeap (Or.inr hend))]
  refine Or.inr ⟨⟨hfl, by omega⟩, ?_⟩
  have hact := r.actualSize (mem_placed_mid h.heapStart pre post ⟨s, true⟩)
  obtain ⟨hpre, ⟨hprev, hsz, -⟩, hpost⟩ := layout_append.mp r.layout
  have hapart : ∀ t ∈ fl, t ≠ h.heapStart + span pre ∧
      (h.heapStart + span pre + 12 ≤ t ∨ t + 12 ≤ h.heapStart + span pre) := by
    intro t ht'
    have hout := ((r.mem_free t).mp ht').outside_used
    omega
  generalize hx : h.heapStart + span pre = x at *
  simp only at hact hpost
  let m1 := setSz h.mem x s
  let m2 := setLom m1 x 0
  have fr : HdrFrame [x] h.mem m2 :=
    ((HdrFrame.refl _ h.mem).setSz (by simp) (by omega)).setLom (by simp) (by omega)
  have d : Detached { h with mem := m2 } pre s post s fl := by
    refine ⟨r.arena, ht, ?_, ?_, ?_, r.nodup, r.mem_free⟩
    · refine layout_append.mpr ⟨hpre.frame fr (by omega) (by simp; omega), ?_⟩
      simp only [hx]
      refine ⟨⟨?_, ?_, by simp⟩, trivial⟩
      · simp (disch := omega) only [m2, m1, prevSz_setLom, prevSz_setSz, hprev]
      · simp (disch := omega) only [m2, m1, sz_setLom, sz_setSz, raw_free, Nat.mod_eq_of_lt]
    · simp only [hx]
      exact hpost.frame fr (by omega) (by simp)
    · apply r.chain.congr
      intro t ht'
      have hta := (hapart t ht').2
      have htb := r.nodes.bound t ht'
      rw [lom_setLom_apart _ _ (by omega) htb hta, lom_setSz _ _ (by omega) htb (Or.inr hta)]
  obtain ⟨h', A', hc, hrel, hbec⟩ := d.coalesce_spec hfuel
  refine ⟨h', A', ?_, hrel, hbec.rep, hbec.start, hbec.size, ?_⟩
  · have hin : wdmInHeap h (x + 12) = true := (r.arena.inHeap _).mpr (by omega)
    have hin' : wdmInHeap h x = true := (r.arena.inHeap _).mpr (by omega)
    have hhdr : (x + 12 + 2 ^ 64 - 12) % 2 ^ 64 = x := by omega
    simp only [wdfree, hhdr, hin, hin', hact, Bool.true_eq_false, if_false]
    rw [if_neg hready]
    simp only [hx] at hc
    exact hc
  · have hfr := hbec.frame
    rw [headers_mark _ s false true] at hfr
    exact ((fr.row hx ⟨s, true⟩ post).mono fun _ => List.mem_append_left _).trans hfr

end WaddleOS
