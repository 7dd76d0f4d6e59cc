import WaddleOS.Heap.Coalesce

/-!
# Growing a block in place

`wdrealloc` grows a block over its free neighbours in two moves. The removal
loop takes them off the freelist (`unlink_spec`), which leaves a `Merged`
region; `settle` then writes the new block at its start, copies the payload
and gives a large enough rest back as a free block.
-/

namespace WaddleOS

/-- Only links of the nodes `fl` may have changed. -/
structure LinkEdit (fl : List Nat) (h h' : Heap) : Prop where
  start : h'.heapStart = h.heapStart
  size : h'.heapSize = h.heapSize
  fields : ∀ z, z + 12 ≤ 2 ^ 64 → (∀ y ∈ fl, SameOrApart y z) →
    prevSz h'.mem z = prevSz h.mem z ∧ sz h'.mem z = sz h.mem z ∧
      (z ∉ fl → lom h'.mem z = lom h.mem z)
  frame : HdrFrame fl h.mem h'.mem

theorem LinkEdit.refl (fl : List Nat) (h : Heap) : LinkEdit fl h h :=
  ⟨rfl, rfl, fun _ _ _ => ⟨rfl, rfl, fun _ => rfl⟩, HdrFrame.refl _ _⟩

theorem LinkEdit.trans {fl : List Nat} {h h' h'' : Heap} (e : LinkEdit fl h h')
    (e' : LinkEdit fl h' h'') : LinkEdit fl h h'' := by
  refine ⟨e'.start.trans e.start, e'.size.trans e.size, fun z hz hap => ?_, e.frame.trans e'.frame⟩
  obtain ⟨a1, a2, a3⟩ := e.fields z hz hap
  obtain ⟨b1, b2, b3⟩ := e'.fields z hz hap
  exact ⟨b1.trans a1, b2.trans a2, fun hn => (b3 hn).trans (a3 hn)⟩

theorem LinkEdit.mono {fl gl : List Nat} {h h' : Heap} (e : LinkEdit fl h h')
    (sub : ∀ x ∈ fl, x ∈ gl) : LinkEdit gl h h' := by
  refine ⟨e.start, e.size, fun z hz hap => ?_, e.frame.mono sub⟩
  obtain ⟨a1, a2, a3⟩ := e.fields z hz fun y hy => hap y (sub y hy)
  exact ⟨a1, a2, fun hn => a3 fun hm => hn (sub z hm)⟩

theorem linkEdit_relink {h : Heap} {before : List Nat} {v : Nat} (ns : Nodes before) :
    LinkEdit before h (relink h (lastOr 0 before) v) := by
  refine ⟨relink_start _ _ _, relink_size _ _ _, fun z hz hap => ?_,
    relink_frame ns (HdrFrame.refl _ _) fun _ hy => hy⟩
  obtain ⟨a1, a2, a3⟩ := relink_fields (h := h) (v := v) ns hz hap
  exact ⟨a1, a2, fun hn => a3 fun hne e => hn (e ▸ lastOr_mem hne)⟩

/-- A row keeps its layout when the edited nodes are free headers of it or
lie outside it. -/
theorem LinkEdit.layout {fl : List Nat} {h h' : Heap} {a p : Nat} {bs : List Block}
    (e : LinkEdit fl h h') (hl : Layout h.mem a p bs) (hb : a + span bs ≤ 2 ^ 64)
    (free : ∀ y ∈ fl, ∀ x b, (x, b) ∈ placed a bs → SameOrApart y x ∧ (b.used = true → y ≠ x)) :
    Layout h'.mem a p bs := by
  apply hl.congr
  intro x b hx
  have hxb := placed_bounds hx
  obtain ⟨e1, e2, e3⟩ := e.fields x (by omega) fun y hy => (free y hy x b hx).1
  exact ⟨e1, e2, fun hu => e3 fun hm => (free x hm x b hx).2 hu rfl⟩

/-- The nodes that the removal loop leaves. -/
def without (a b : Nat) (fl : List Nat) : List Nat := fl.filter fun t => t ≠ a ∧ t ≠ b

theorem mem_without {a b t : Nat} {fl : List Nat} :
    t ∈ without a b fl ↔ t ∈ fl ∧ t ≠ a ∧ t ≠ b := by
  simp [without]

theorem without_drop {a b x : Nat} {xs : List Nat} (h : x = a ∨ x = b) :
    without a b (x :: xs) = without a b xs := by
  rcases h with rfl | rfl <;> simp [without]

theorem without_keep {a b x : Nat} {xs : List Nat} (h : ¬ (x = a ∨ x = b)) :
    without a b (x :: xs) = x :: without a b xs := by
  rw [not_or] at h
  simp [without, h.1, h.2]

/-- Inside the loop the source writes the link of the last kept node, or the
head when there is none; both are `relink`. -/
theorem unlink_step {h : Heap} {seen todo : List Nat} {x : Nat} (ns : Nodes (seen ++ x :: todo))
    (hseg : Seg (lom h.mem) h.freelistHead seen x) :
    (let h1 := if lastOr 0 seen ≠ 0 then { h with mem := setLom h.mem (lastOr 0 seen) (lom h.mem x) } else h
     if x = h1.freelistHead then { h1 with freelistHead := lom h1.mem x } else h1) =
      relink h (lastOr 0 seen) (lom h.mem x) := by
  cases seen with
  | nil =>
    have hx : h.freelistHead = x := hseg
    simp [lastOr, relink, hx]
  | cons y ys =>
    have hne : lastOr 0 (y :: ys) ≠ 0 := lastOr_ne_zero (by simp) ns.left.pos
    have hhead : h.freelistHead = y := hseg.1
    have hxy : x ≠ y := by
      rintro rfl
      exact (List.nodup_append.mp ns.nodup).2.2 x List.mem_cons_self x List.mem_cons_self rfl
    simp only [relink, if_pos hne, hhead, if_neg hxy]

theorem unlink_spec {r : Reposition} {todo : List Nat} :
    ∀ (seen : List Nat) (fuel : Nat) {curr : Nat} {h : Heap}, Nodes (seen ++ todo) →
      Seg (lom h.mem) h.freelistHead seen curr → Seg (lom h.mem) curr todo 0 →
      todo.length < fuel →
      ∃ h', unlink r fuel h curr (lastOr 0 seen) = .ok h' ∧
        Seg (lom h'.mem) h'.freelistHead (seen ++ without r.remove0 r.remove1 todo) 0 ∧
        LinkEdit (seen ++ todo) h h' := by
  induction todo with
  | nil =>
    intro seen fuel curr h _ hseen htodo hfuel
    have hcurr : curr = 0 := htodo
    cases fuel with
    | zero => simp at hfuel
    | succ fuel =>
      refine ⟨h, by rw [unlink, if_pos hcurr], ?_, LinkEdit.refl _ _⟩
      rw [hcurr] at hseen
      simpa [without] using hseen
  | cons x xs ih =>
    intro seen fuel curr h ns hseen htodo hfuel
    obtain ⟨rfl, hrest⟩ := htodo
    have hx0 := ns.pos curr (by simp)
    cases fuel with
    | zero => simp at hfuel
    | succ fuel =>
      have hlen : xs.length < fuel := by simpa using hfuel
      by_cases hrm : curr = r.remove0 ∨ curr = r.remove1
      · have hstep := unlink_step ns hseen
        have edit := linkEdit_relink (h := h) (v := lom h.mem curr) ns.left
        have hlom : lom (relink h (lastOr 0 seen) (lom h.mem curr)).mem curr = lom h.mem curr := by
          obtain ⟨-, -, e3⟩ := edit.fields curr (ns.bound curr (by simp))
            fun y hy => ns.apart y (List.mem_append_left _ hy) curr (by simp)
          exact e3 fun hm => (List.nodup_append.mp ns.nodup).2.2 curr hm curr (by simp) rfl
        obtain ⟨h', hcall, hseg, edit'⟩ := ih seen fuel ns.unlinked
          (relink_seg ns.left hseen (lom_lt h.mem curr))
          (relink_after ns.unlinked hrest) hlen
        refine ⟨h', ?_, ?_, ?_⟩
        · simp only at hstep
          simp only [unlink, if_neg hx0, if_pos hrm, hstep, hlom]
          exact hcall
        · rwa [without_drop hrm]
        · have sub : ∀ y ∈ seen ++ xs, y ∈ seen ++ curr :: xs := fun y hy =>
            (List.Sublist.append_left (List.sublist_cons_self curr xs) seen).mem hy
          exact (edit.mono fun y hy => List.mem_append_left _ hy).trans (edit'.mono sub)
      · obtain ⟨h', hcall, hseg, edit'⟩ := ih (seen ++ [curr]) fuel
          (by simpa using ns) (seg_append.mpr ⟨curr, hseen, rfl, rfl⟩) hrest hlen
        rw [lastOr_append_cons] at hcall
        refine ⟨h', ?_, ?_, by simpa using edit'⟩
        · simp only [unlink, if_neg hx0, if_neg hrm]
          exact hcall
        · rw [List.append_assoc] at hseg
          rwa [without_keep hrm]

/-- A row in which the block of `B` bytes between `pre` and `post` is in the
hands of `wdrealloc`: of its header only `prev_sz` counts, and the `prev_sz`
behind it may be stale. -/
structure Merged (h : Heap) (pre : List Block) (B : Nat) (post : List Block) (q : Nat)
    (fl : List Nat) : Prop where
  arena : Arena h.heapStart h.heapSize
  total : span pre + (12 + B + span post) = h.heapSize
  layout : Layout h.mem h.heapStart 0 pre
  prev : prevSz h.mem (h.heapStart + span pre) = lastSize 0 pre
  rest : Layout h.mem (h.heapStart + span pre + 12 + B) q post
  chain : Seg (lom h.mem) h.freelistHead fl 0
  nodup : fl.Nodup
  mem_free : ∀ x, x ∈ fl ↔ FreeAt h.heapStart (pre ++ ⟨B, true⟩ :: post) x

/-- The row after a block of `n` bytes was placed at the start of a region of
`B`: the rest is split off when it can hold a header and 4 bytes. -/
def regrown (start : Nat) (pre : List Block) (B n : Nat) (post : List Block) (fl : List Nat) : Abs :=
  if n + 16 ≤ B then
    ⟨pre ++ ⟨n, true⟩ :: ⟨B - n - 12, false⟩ :: post, (start + span pre + 12 + n) :: fl⟩
  else ⟨pre ++ ⟨B, true⟩ :: post, fl⟩

namespace Merged
variable {h : Heap} {pre post : List Block} {B q : Nat} {fl : List Nat}

/-- No freelist node lies in the region. -/
theorem node_outside (g : Merged h pre B post q fl) {t : Nat} (ht : t ∈ fl) :
    t + 12 ≤ 2 ^ 64 ∧
      (t + 12 ≤ h.heapStart + span pre ∨ h.heapStart + span pre + 12 + B ≤ t) := by
  have hb := g.arena.bound
  have htot := g.total
  have hout := ((g.mem_free t).mp ht).outside_used
  obtain ⟨c, hc, -⟩ := (g.mem_free t).mp ht
  have hbd := placed_bounds hc
  simp only [span_append, span] at hbd
  omega

theorem head_lt (g : Merged h pre B post q fl) : h.freelistHead < 2 ^ 64 := by
  refine g.chain.start_of_all (P := (· < 2 ^ 64)) (by decide) fun t ht => ?_
  have hbound := (g.node_outside ht).1
  omega

/-- Whatever is written inside the region leaves the rest of the heap. -/
theorem outside (g : Merged h pre B post q fl) {m : Mem}
    (so : SameOutside (h.heapStart + span pre) (h.heapStart + span pre + 12 + B) h.mem m) :
    Layout m h.heapStart 0 pre ∧ Layout m (h.heapStart + span pre + 12 + B) q post ∧
      Seg (lom m) h.freelistHead fl 0 := by
  have hb := g.arena.bound
  have ht := g.total
  refine ⟨g.layout.outside so (by omega) (by omega), g.rest.outside so (by omega) (by omega), ?_⟩
  apply g.chain.congr
  intro t ht'
  obtain ⟨h1, h2⟩ := g.node_outside ht'
  exact (so.fields h1 h2).2.2

/-- With the headers of a used block of `n` bytes and of a free rest written into
the region, the heap is a row again, but for the `prev_sz` behind it. -/
theorem rough_split (g : Merged h pre B post q fl) {m : Mem} {x n : Nat}
    (hx : h.heapStart + span pre = x) (room : n + 16 ≤ B)
    (so : SameOutside x (x + 12 + B) h.mem m)
    (used : prevSz m x = prevSz h.mem x ∧ sz m x = Block.raw ⟨n, true⟩ ∧ lom m x = wdmMagic)
    (rest : prevSz m (x + 12 + n) = n ∧ sz m (x + 12 + n) = B - n - 12 ∧
      lom m (x + 12 + n) = h.freelistHead) :
    Rough { h with mem := m, freelistHead := x + 12 + n }
      (pre ++ [⟨n, true⟩, ⟨B - n - 12, false⟩]) post q ((x + 12 + n) :: fl) := by
  subst hx
  obtain ⟨hpre, hpost, hchain⟩ := g.outside so
  have ht := g.total
  refine ⟨g.arena, ?_, ?_, ?_, ⟨rfl, ?_⟩, ?_, ?_⟩
  · simp only [span_append, span]
    omega
  · refine layout_append.mpr ⟨hpre, ⟨?_, used.2.1, fun _ => used.2.2⟩, ⟨rest.1, ?_, by simp⟩,
      trivial⟩
    · rw [used.1, g.prev]
    · rw [raw_free]
      exact rest.2.1
  · rw [show h.heapStart + span (pre ++ [⟨n, true⟩, ⟨B - n - 12, false⟩]) =
      h.heapStart + span pre + 12 + B by simp only [span_append, span]; omega]
    exact hpost
  · rw [rest.2.2]
    exact hchain
  · refine List.nodup_cons.mpr ⟨fun hm => ?_, g.nodup⟩
    have := (g.node_outside hm).2
    omega
  · intro t
    rw [List.mem_cons, g.mem_free t, List.append_assoc]
    simp only [freeAt_append, List.cons_append, List.nil_append, freeAt_cons, Bool.true_eq_false,
      false_and, false_or, true_and]
    rw [show h.heapStart + span pre + 12 + n + 12 + (B - n - 12) = h.heapStart + span pre + 12 + B
      by omega]
    exact or_left_comm

/-- The same with the header of one used block over the whole region. -/
theorem rough_whole (g : Merged h pre B post q fl) {m : Mem} {x : Nat}
    (hx : h.heapStart + span pre = x) (so : SameOutside x (x + 12 + B) h.mem m)
    (used : prevSz m x = prevSz h.mem x ∧ sz m x = Block.raw ⟨B, true⟩ ∧ lom m x = wdmMagic) :
    Rough { h with mem := m } (pre ++ [⟨B, true⟩]) post q fl := by
  subst hx
  obtain ⟨hpre, hpost, hchain⟩ := g.outside so
  have ht := g.total
  refine ⟨g.arena, ?_, ?_, ?_, hchain, g.nodup, ?_⟩
  · simp only [span_append, span]
    omega
  · exact layout_append.mpr ⟨hpre, ⟨used.1.trans g.prev, used.2.1, fun _ => used.2.2⟩, trivial⟩
  · rw [show h.heapStart + span (pre ++ [⟨B, true⟩]) = h.heapStart + span pre + 12 + B by
      simp only [span_append, span]; omega]
    exact hpost
  · simpa using g.mem_free

end Merged

/-- The copy that `settle` makes: from the old payload at `hdr + 12`, `c`
bytes long unless the block stays where it is. -/
theorem settle_copy {m : Mem} {st hdr c e : Nat} (hst : hdr = st ∨ st + 12 ≤ hdr)
    (hc : hdr ≠ st → wdmActualSize m hdr = c) (he : hdr + 12 + c ≤ e) (hb : e < 2 ^ 64) :
    SameOutside (st + 12) e m (memmove m (st + 12) (hdr + 12) (wdmActualSize m hdr)) ∧
    ∀ i, i < c → (memmove m (st + 12) (hdr + 12) (wdmActualSize m hdr)).get (st + 12 + i) =
      m.get (hdr + 12 + i) := by
  by_cases hs : hdr = st
  · subst hs
    have hself : memmove m (hdr + 12) (hdr + 12) (wdmActualSize m hdr) = m := by simp [memmove]
    rw [hself]
    exact ⟨SameOutside.refl _ _ _, fun _ _ => rfl⟩
  · rw [hc hs]
    refine ⟨(SameOutside.refl _ _ m).memmove _ (by omega) (by omega) (by omega), ?_⟩
    exact fun i hi => memmove_inside m (by omega) (by omega) (by omega) hi

/-- What an in-place growth over the region at `st` of `B` bytes leaves: the
new row, the old payload at its start, and every byte that is neither in the
region nor in a header of the new row. -/
structure Regrown (h : Heap) (st B hdr c : Nat) (h' : Heap) (A' : Abs) : Prop where
  rep : Rep h' A'
  start : h'.heapStart = h.heapStart
  size : h'.heapSize = h.heapSize
  carried : ∀ i, i < c → h'.mem.get (st + 12 + i) = h.mem.get (hdr + 12 + i)
  outside : ∀ x, x < 2 ^ 64 → x < st ∨ st + 12 + B ≤ x →
    (∀ p ∈ headers h.heapStart A'.blocks, x < p ∨ p + 12 ≤ x) → h'.mem.get x = h.mem.get x

/-- The header that `settle` writes over the region. -/
theorem used_header {m : Mem} {x n : Nat} (hx : x + 12 ≤ 2 ^ 64) (hn : n < 2 ^ 15) :
    SameOutside x (x + 12) m (setLom (setSz m x (n ||| wdmAllocBit)) x wdmMagic) ∧
      prevSz (setLom (setSz m x (n ||| wdmAllocBit)) x wdmMagic) x = prevSz m x ∧
      sz (setLom (setSz m x (n ||| wdmAllocBit)) x wdmMagic) x = Block.raw ⟨n, true⟩ ∧
      lom (setLom (setSz m x (n ||| wdmAllocBit)) x wdmMagic) x = wdmMagic := by
  refine ⟨?_, ?_, ?_, ?_⟩
  · exact ((SameOutside.refl _ _ m).store _ (by omega) (by omega) (by omega)).store _ (by omega)
      (by omega) (by omega)
  · simp (disch := omega) only [prevSz_setLom, prevSz_setSz]
  · simp (disch := omega) only [sz_setLom, sz_setSz, raw_used, or_wdmAllocBit, Nat.mod_eq_of_lt]
  · simp (disch := omega) only [lom_setLom]
    rfl

/-- The header that `settle` writes for the rest. -/
theorem free_header {m : Mem} {y s p v : Nat} (hy : y + 12 ≤ 2 ^ 64) (hs : s < 2 ^ 16)
    (hp : p < 2 ^ 16) (hv : v < 2 ^ 64) :
    SameOutside y (y + 12) m (setLom (setPrevSz (setSz m y s) y p) y v) ∧
      prevSz (setLom (setPrevSz (setSz m y s) y p) y v) y = p ∧
      sz (setLom (setPrevSz (setSz m y s) y p) y v) y = s ∧
      lom (setLom (setPrevSz (setSz m y s) y p) y v) y = v := by
  refine ⟨?_, ?_, ?_, ?_⟩
  · exact (((SameOutside.refl _ _ m).store _ (by omega) (by omega) (by omega)).store _ (by omega)
      (by omega) (by omega)).store _ (by omega) (by omega) (by omega)
  · simp (disch := omega) only [prevSz_setLom, prevSz_setPrevSz, Nat.mod_eq_of_lt]
  · simp (disch := omega) only [sz_setLom, sz_setPrevSz, sz_setSz, Nat.mod_eq_of_lt]
  · rw [lom_setLom _ _ (by omega), Nat.mod_eq_of_lt hv]

section Settle
variable {h : Heap} {pre post : List Block} {B q hdr c n : Nat} {fl : List Nat} {r : Reposition}

theorem settle_split (g : Merged h pre B post q fl)
    (hst : hdr = h.heapStart + span pre ∨ h.heapStart + span pre + 12 ≤ hdr)
    (hc : wdmActualSize h.mem hdr = c) (hend : hdr + 12 + c ≤ h.heapStart + span pre + 12 + B)
    (hcn : c < n) (hn : n + 16 ≤ B) (hrs : r.start = h.heapStart + span pre)
    (hrb : r.bytesAvail = B) :
    ∃ h', settle h r hdr (hdr + 12) n = (h.heapStart + span pre + 12, h') ∧
      Regrown h (h.heapStart + span pre) B hdr c h'
        ⟨pre ++ ⟨n, true⟩ :: ⟨B - n - 12, false⟩ :: post,
          (h.heapStart + span pre + 12 + n) :: fl⟩ := by
  have hb := g.arena.bound
  have hsm := g.arena.small
  have ht := g.total
  have hhead := g.head_lt
  generalize hx : h.heapStart + span pre = x at *
  let m2 := setLom (setSz h.mem x (n ||| wdmAllocBit)) x wdmMagic
  obtain ⟨s2, hprev2, hsz2, hlom2⟩ := used_header (m := h.mem) (x := x) (n := n) (by omega) (by omega)
  have hact : hdr ≠ x → wdmActualSize m2 hdr = c := by
    intro hne
    rw [← hc, wdmActualSize, wdmActualSize, (s2.fields (q := hdr) (by omega) (by omega)).2.1]
  obtain ⟨s3, hcopy⟩ := settle_copy (m := m2) hst hact hend (by omega)
  generalize hm3 : memmove m2 (x + 12) (hdr + 12) (wdmActualSize m2 hdr) = m3 at s3 hcopy
  obtain ⟨s6, hprev6, hsz6, hlom6⟩ := free_header (m := m3) (y := x + 12 + n) (s := B - n - 12)
    (p := n) (v := h.freelistHead) (by omega) (by omega) (by omega) (by omega)
  let m6 := setLom (setPrevSz (setSz m3 (x + 12 + n) (B - n - 12)) (x + 12 + n) n) (x + 12 + n)
    h.freelistHead
  have so : SameOutside x (x + 12 + B) h.mem m6 := by
    intro a ha hr
    rw [s6 a ha (by omega), s3 a ha (by omega), s2 a ha (by omega)]
  obtain ⟨f1, f2, f3⟩ := s6.fields (q := x) (by omega) (by omega)
  obtain ⟨e1, e2, e3⟩ := s3.fields (q := x) (by omega) (by omega)
  have rough := g.rough_split hx hn so ⟨by rw [f1, e1, hprev2], by rw [f2, e2, hsz2],
    by rw [f3, e3, hlom2]⟩ ⟨hprev6, hsz6, hlom6⟩
  have hlast : B - n - 12 = lastSize 0 (pre ++ [⟨n, true⟩, ⟨B - n - 12, false⟩]) := by
    rw [lastSize_append_cons]
    rfl
  have hat : h.heapStart + span (pre ++ [⟨n, true⟩, ⟨B - n - 12, false⟩]) = x + 12 + B := by
    simp only [span_append, span]
    omega
  obtain ⟨rep, fr⟩ := rough.fix hlast (by omega)
  simp only [hat, List.append_assoc, List.cons_append, List.nil_append] at rep fr
  refine ⟨_, ?_, rep, rfl, rfl, ?_, ?_⟩
  · have hsplit : 12 + 4 ≤ (B + 2 ^ 64 - n) % 2 ^ 64 := by omega
    simp only [settle, hrs, hrb, if_pos hsplit]
    rw [Nat.mod_eq_of_lt (show x + 12 < 2 ^ 64 by omega),
      Nat.mod_eq_of_lt (show x + 12 + n < 2 ^ 64 by omega),
      show (B + 2 ^ 64 - n - 12) % 2 ^ 64 = B - n - 12 by omega]
    rw [show memmove (setLom (setSz h.mem x (n ||| wdmAllocBit)) x wdmMagic) (x + 12) (hdr + 12)
      (wdmActualSize (setLom (setSz h.mem x (n ||| wdmAllocBit)) x wdmMagic) hdr) = m3 from hm3]
    rw [show sz (setLom (setPrevSz (setSz m3 (x + 12 + n) (B - n - 12)) (x + 12 + n) n) (x + 12 + n)
      h.freelistHead) (x + 12 + n) = B - n - 12 from hsz6]
    rw [show x + 12 + n + 12 + (B - n - 12) = x + 12 + B by omega,
      Nat.mod_eq_of_lt (show x + 12 + B < 2 ^ 64 by omega)]
    rfl
  · intro i hi
    have hmx := mem_placed_mid h.heapStart pre (⟨B - n - 12, false⟩ :: post) ⟨n, true⟩
    rw [hx] at hmx
    refine (fr _ (by omega) (payload_clear hmx (by simp only; omega))).trans ?_
    refine (s6 _ (by omega) (by omega)).trans ((hcopy i hi).trans ?_)
    exact s2 _ (by omega) (by omega)
  · intro a ha hr hclear
    exact (fr a ha hclear).trans (so a ha hr)

theorem settle_whole (g : Merged h pre B post q fl)
    (hst : hdr = h.heapStart + span pre ∨ h.heapStart + span pre + 12 ≤ hdr)
    (hc : wdmActualSize h.mem hdr = c) (hend : hdr + 12 + c ≤ h.heapStart + span pre + 12 + B)
    (hn : n ≤ B) (htight : B < n + 16) (hrs : r.start = h.heapStart + span pre)
    (hrb : r.bytesAvail = B) :
    ∃ h', settle h r hdr (hdr + 12) n = (h.heapStart + span pre + 12, h') ∧
      Regrown h (h.heapStart + span pre) B hdr c h' ⟨pre ++ ⟨B, true⟩ :: post, fl⟩ := by
  have hb := g.arena.bound
  have hsm := g.arena.small
  have ht := g.total
  generalize hx : h.heapStart + span pre = x at *
  let m2 := setLom (setSz h.mem x (B ||| wdmAllocBit)) x wdmMagic
  obtain ⟨s2, hprev2, hsz2, hlom2⟩ := used_header (m := h.mem) (x := x) (n := B) (by omega) (by omega)
  have hact2 : wdmActualSize m2 x = B := actualSize_of_raw hsz2 (by simp only; omega)
  have so : SameOutside x (x + 12 + B) h.mem m2 := fun a ha hr => s2 a ha (by omega)
  have rough := g.rough_whole hx so ⟨hprev2, hsz2, hlom2⟩
  obtain ⟨rep, fr⟩ := rough.fix_behind (a := x + 12 + B) (by simp only; omega)
  simp only at rep fr
  generalize hm3 : setPrevSzIn { h with mem := m2 } m2 (x + 12 + B) B = m3 at rep fr
  have hmx := mem_placed_mid h.heapStart pre post ⟨B, true⟩
  rw [hx] at hmx
  have s3 : ∀ a, a < 2 ^ 64 → x + 12 ≤ a → a < x + 12 + B → m3.get a = h.mem.get a := by
    intro a ha hlo hhi
    have hclear := payload_clear hmx (i := a - (x + 12)) (by simp only; omega)
    rw [show x + 12 + (a - (x + 12)) = a by omega] at hclear
    exact (fr a ha hclear).trans (s2 a ha (by omega))
  have hact : hdr ≠ x → wdmActualSize m3 hdr = c := by
    intro hne
    rw [← hc, wdmActualSize, wdmActualSize,
      (fields_congr fun i hi => s3 (hdr + i) (by omega) (by omega) (by omega)).2.1]
  obtain ⟨s4, hcopy⟩ := settle_copy (m := m3) hst hact hend (by omega)
  generalize hm4 : memmove m3 (x + 12) (hdr + 12) (wdmActualSize m3 hdr) = m4 at s4 hcopy
  refine ⟨{ h with mem := m4 }, ?_, ?_, rfl, rfl, ?_, ?_⟩
  · have hno : ¬ 12 + 4 ≤ (B + 2 ^ 64 - n) % 2 ^ 64 := by omega
    simp only [settle, hrs, hrb, if_neg hno]
    rw [show wdmActualSize (setLom (setSz h.mem x (B ||| wdmAllocBit)) x wdmMagic) x = B from hact2,
      Nat.mod_eq_of_lt (show x + 12 < 2 ^ 64 by omega),
      Nat.mod_eq_of_lt (show x + 12 + B < 2 ^ 64 by omega)]
    rw [show setPrevSzIn h (setLom (setSz h.mem x (B ||| wdmAllocBit)) x wdmMagic) (x + 12 + B) B =
      m3 from hm3, hm4]
  · exact rep.payload hmx s4
  · intro i hi
    rw [hcopy i hi]
    exact s3 _ (by omega) (by omega) (by omega)
  · intro a ha hr hclear
    rw [s4 a ha (by omega)]
    exact (fr a ha hclear).trans (so a ha hr)

theorem settle_spec (g : Merged h pre B post q fl)
    (hst : hdr = h.heapStart + span pre ∨ h.heapStart + span pre + 12 ≤ hdr)
    (hc : wdmActualSize h.mem hdr = c) (hend : hdr + 12 + c ≤ h.heapStart + span pre + 12 + B)
    (hcn : c < n) (hn : n ≤ B) (hrs : r.start = h.heapStart + span pre)
    (hrb : r.bytesAvail = B) :
    ∃ h', settle h r hdr (hdr + 12) n = (h.heapStart + span pre + 12, h') ∧
      Regrown h (h.heapStart + span pre) B hdr c h' (regrown h.heapStart pre B n post fl) := by
  unfold regrown
  by_cases hsplit : n + 16 ≤ B
  · rw [if_pos hsplit]
    exact settle_split g hst hc hend hcn hsplit hrs hrb
  · rw [if_neg hsplit]
    exact settle_whole g hst hc hend hn (by omega) hrs hrb

end Settle

/-- The region of a growth: the blocks `mid`, one of them the used block at
`hdr`, the free ones the two that the loop removes. -/
structure Region (start : Nat) (pre mid : List Block) (r : Reposition) (hdr c : Nat) : Prop where
  at_start : r.start = start + span pre
  avail : span mid = 12 + r.bytesAvail
  own : UsedAt (start + span pre) mid hdr c
  only : ∀ y s, UsedAt (start + span pre) mid y s → y = hdr
  free : ∀ t, FreeAt (start + span pre) mid t → t = r.remove0 ∨ t = r.remove1
  within0 : r.remove0 = 0 ∨ start + span pre ≤ r.remove0 ∧ r.remove0 < start + span pre + span mid
  within1 : r.remove1 = 0 ∨ start + span pre ≤ r.remove1 ∧ r.remove1 < start + span pre + span mid

section Growth
variable {h : Heap} {pre mid post : List Block} {fl : List Nat} {r : Reposition} {hdr c n fuel : Nat}

theorem Region.mem_free (g : Region h.heapStart pre mid r hdr c)
    (rep : Rep h ⟨pre ++ (mid ++ post), fl⟩) (t : Nat) :
    t ∈ without r.remove0 r.remove1 fl ↔
      FreeAt h.heapStart (pre ++ ⟨r.bytesAvail, true⟩ :: post) t := by
  have hav := g.avail
  have hnn := rep.arena.nonnull
  have w0 := g.within0
  have w1 := g.within1
  rw [mem_without, rep.mem_free t]
  simp only [freeAt_append, freeAt_cons, Bool.true_eq_false, false_and, false_or]
  rw [show h.heapStart + span pre + 12 + r.bytesAvail = h.heapStart + span pre + span mid by omega]
  constructor
  · rintro ⟨hf | hf | hf, h0, h1⟩
    · exact Or.inl hf
    · rcases g.free t hf with e | e
      · exact absurd e h0
      · exact absurd e h1
    · exact Or.inr hf
  · rintro (hf | hf)
    · have := hf.bounds
      exact ⟨Or.inl hf, by omega, by omega⟩
    · have := hf.bounds
      exact ⟨Or.inr (Or.inr hf), by omega, by omega⟩

/-- The removal loop leaves the region in hand. -/
theorem unlink_merged (rep : Rep h ⟨pre ++ (mid ++ post), fl⟩)
    (g : Region h.heapStart pre mid r hdr c) (hfuel : fl.length < fuel) :
    ∃ h1, unlink r fuel h h.freelistHead 0 = .ok h1 ∧ LinkEdit fl h h1 ∧
      Merged h1 pre r.bytesAvail post (lastSize 0 (pre ++ mid)) (without r.remove0 r.remove1 fl) := by
  have hb := rep.arena.bound
  have ht : span pre + (span mid + span post) = h.heapSize := by simpa using rep.total
  have hav := g.avail
  obtain ⟨h1, hcall, hseg, edit⟩ := unlink_spec (r := r) [] fuel rep.nodes rfl rep.chain hfuel
  have hlay := edit.layout rep.layout (by simp only [span_append]; omega)
    fun y hy x b hx => ((rep.mem_free y).mp hy).apart hx
  rw [← edit.start] at hlay
  obtain ⟨hpre, hlay⟩ := layout_append.mp hlay
  obtain ⟨hmid, hpost⟩ := layout_append.mp hlay
  refine ⟨h1, hcall, edit, ?_, ?_, hpre, ?_, ?_, hseg, rep.nodup.filter _, ?_⟩
  · rw [edit.start, edit.size]
    exact rep.arena
  · rw [edit.size]
    omega
  · cases mid with
    | nil =>
      simp only [span] at hav
      omega
    | cons b bs => exact hmid.1.1
  · rw [lastSize_append]
    rwa [show h1.heapStart + span pre + 12 + r.bytesAvail = h1.heapStart + span pre + span mid by
      omega]
  · rw [edit.start]
    exact g.mem_free rep

/-- The blocks around the region stay. -/
theorem Region.stay (g : Region h.heapStart pre mid r hdr c) {y s : Nat} (gl : List Nat)
    (hy : UsedAt h.heapStart (pre ++ (mid ++ post)) y s) (hne : y ≠ hdr) :
    (y + 12 + s ≤ h.heapStart + span pre ∨ h.heapStart + span pre + 12 + r.bytesAvail ≤ y) ∧
      UsedAt h.heapStart (regrown h.heapStart pre r.bytesAvail n post gl).blocks y s := by
  have hav := g.avail
  have hrow : UsedAt h.heapStart pre y s ∨
      UsedAt (h.heapStart + span pre + 12 + r.bytesAvail) post y s := by
    rcases usedAt_append.mp hy with hy | hy
    · exact Or.inl hy
    rcases usedAt_append.mp hy with hy | hy
    · exact absurd (g.only y s hy) hne
    · rw [show h.heapStart + span pre + 12 + r.bytesAvail =
        h.heapStart + span pre + span mid by omega]
      exact Or.inr hy
  constructor
  · rcases hrow with hy | hy
    · exact Or.inl hy.bounds.2
    · exact Or.inr hy.bounds.1
  · unfold regrown
    split
    · simp only [usedAt_append, usedAt_cons_used, usedAt_cons_free]
      rw [show h.heapStart + span pre + 12 + n + 12 + (r.bytesAvail - n - 12) =
        h.heapStart + span pre + 12 + r.bytesAvail by omega]
      exact hrow.imp_right Or.inr
    · simp only [usedAt_append, usedAt_cons_used]
      exact hrow.imp_right Or.inr

/-- After a growth a block with room for `n` bytes stands at the start of the
region, where the old block or no used block was. The old block is gone. -/
theorem Region.used {start : Nat} (g : Region start pre mid r hdr c) (post : List Block)
    (gl : List Nat) (hn : n ≤ r.bytesAvail) :
    ∃ s, n ≤ s ∧ UsedAt start (regrown start pre r.bytesAvail n post gl).blocks (start + span pre) s ∧
      (start + span pre = hdr ∨ ∀ t, ¬ UsedAt start (pre ++ (mid ++ post)) (start + span pre) t) ∧
      ∀ y t, UsedAt start (regrown start pre r.bytesAvail n post gl).blocks y t →
        (UsedAt start (pre ++ (mid ++ post)) y t ∧ y ≠ hdr) ∨ y = start + span pre := by
  have hav := g.avail
  have hown := g.own.bounds
  have hrow : ∃ s, n ≤ s ∧ ∀ y t,
      UsedAt start (regrown start pre r.bytesAvail n post gl).blocks y t ↔
        UsedAt start pre y t ∨ (y = start + span pre ∧ t = s) ∨
          UsedAt (start + span pre + span mid) post y t := by
    rw [show start + span pre + span mid = start + span pre + 12 + r.bytesAvail by omega]
    unfold regrown
    by_cases hb : n + 16 ≤ r.bytesAvail
    · rw [if_pos hb]
      refine ⟨n, Nat.le_refl n, fun y t => ?_⟩
      simp only [usedAt_append, usedAt_cons_used, usedAt_cons_free]
      rw [show start + span pre + 12 + n + 12 + (r.bytesAvail - n - 12) =
        start + span pre + 12 + r.bytesAvail by omega]
    · rw [if_neg hb]
      refine ⟨r.bytesAvail, hn, fun y t => ?_⟩
      simp only [usedAt_append, usedAt_cons_used]
  obtain ⟨s, hs, hu⟩ := hrow
  refine ⟨s, hs, (hu _ _).mpr (Or.inr (Or.inl ⟨rfl, rfl⟩)), ?_, fun y t hy => ?_⟩
  · by_cases e : start + span pre = hdr
    · exact Or.inl e
    refine Or.inr fun t ht => ?_
    simp only [usedAt_append] at ht
    rcases ht with ht | ht | ht
    · have := ht.bounds
      omega
    · exact e (g.only _ _ ht)
    · have := ht.bounds
      omega
  · simp only [usedAt_append]
    rcases (hu y t).mp hy with hy | hy | hy
    · have := hy.bounds
      exact Or.inl ⟨Or.inl hy, by omega⟩
    · exact Or.inr hy.1
    · have := hy.bounds
      exact Or.inl ⟨Or.inr (Or.inr hy), by omega⟩

/-- A growth in place: the new row, the payload carried over and every other
used block untouched. -/
theorem grow_spec (rep : Rep h ⟨pre ++ (mid ++ post), fl⟩)
    (g : Region h.heapStart pre mid r hdr c) (hcn : c < n) (hn : n ≤ r.bytesAvail)
    (hfuel : fl.length < fuel) :
    ∃ h', (do
        let h ← unlink r fuel h h.freelistHead 0
        return settle h r hdr (hdr + 12) n) = .ok (h.heapStart + span pre + 12, h') ∧
      Effect h ⟨pre ++ (mid ++ post), fl⟩ hdr h'
        (regrown h.heapStart pre r.bytesAvail n post (without r.remove0 r.remove1 fl)) ∧
      ∀ i, i < c → h'.mem.get (h.heapStart + span pre + 12 + i) = h.mem.get (hdr + 12 + i) := by
  have hb := rep.arena.bound
  have ht : span pre + (span mid + span post) = h.heapSize := by simpa using rep.total
  have hav := g.avail
  have hown : UsedAt h.heapStart (pre ++ (mid ++ post)) hdr c :=
    usedAt_append.mpr (Or.inr (usedAt_append.mpr (Or.inl g.own)))
  have hbd := g.own.bounds
  obtain ⟨h1, hcall, edit, gm⟩ := unlink_merged rep g hfuel
  have hframe : ∀ y s, UsedAt h.heapStart (pre ++ (mid ++ post)) y s → ∀ i, i < s →
      h1.mem.get (y + 12 + i) = h.mem.get (y + 12 + i) := by
    intro y s hy i hi
    have hyb := rep.bound hy
    apply edit.frame _ (by simp only at hyb; omega)
    exact fun p hp => payload_clear hy hi p ((rep.mem_free p).mp hp).mem_headers
  have hact : wdmActualSize h1.mem hdr = c := by
    have hf := edit.fields hdr (by omega) fun y hy => (((rep.mem_free y).mp hy).apart hown).1
    rw [wdmActualSize, hf.2.1]
    exact rep.actualSize hown
  obtain ⟨h', hset, rg⟩ := settle_spec (r := r) (n := n) gm
    (by rw [edit.start]; exact placed_head g.own) hact (by rw [edit.start]; omega) hcn hn
    (by rw [edit.start]; exact g.at_start) rfl
  rw [edit.start] at hset rg
  refine ⟨h', ?_, ⟨rg.rep, rg.start.trans edit.start, rg.size.trans edit.size, ?_⟩, ?_⟩
  · rw [hcall]
    exact congrArg Except.ok hset
  · intro y s hy hne
    obtain ⟨hout, hstay⟩ := g.stay (without r.remove0 r.remove1 fl) hy hne
    have hyb := rep.bound hy
    refine ⟨hstay, fun i hi => ?_⟩
    simp only at hyb
    have hclear := payload_clear hstay hi
    refine (rg.outside _ (by omega) (by omega) ?_).trans (hframe y s hy i hi)
    rwa [edit.start]
  · intro i hi
    exact (rg.carried i hi).trans (hframe hdr c hown i hi)

end Growth

end WaddleOS
