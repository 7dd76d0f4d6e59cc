import WaddleOS.Heap.Layout

/-!
# Edits of the heap's headers

Every operation writes a few headers of a row, relinks the freelist in at
most one place, and last tells the block behind the edit its new `prev_sz`.
`Rough` is the state before that last write, and `Rough.fix` the write.
-/

namespace WaddleOS

/-- Freelist nodes: no repetition, none null, any two the same or apart. -/
structure Nodes (fl : List Nat) : Prop where
  nodup : fl.Nodup
  pos : ∀ x ∈ fl, x ≠ 0
  bound : ∀ x ∈ fl, x + 12 ≤ 2 ^ 64
  apart : ∀ x ∈ fl, ∀ y ∈ fl, SameOrApart x y

theorem Nodes.of_placed {a : Nat} (bs : List Block) {fl : List Nat} (nodup : fl.Nodup)
    (ha : 0 < a) (hb : a + span bs ≤ 2 ^ 64) (sub : ∀ x ∈ fl, ∃ b, (x, b) ∈ placed a bs) :
    Nodes fl := by
  refine ⟨nodup, fun x hx => ?_, fun x hx => ?_, fun x hx y hy => ?_⟩
  · obtain ⟨b, hx⟩ := sub x hx
    have := placed_bounds hx
    omega
  · obtain ⟨b, hx⟩ := sub x hx
    have := placed_bounds hx
    omega
  · obtain ⟨b, hx⟩ := sub x hx
    obtain ⟨c, hy⟩ := sub y hy
    exact placed_sameOrApart hx hy

theorem Nodes.left {xs ys : List Nat} (h : Nodes (xs ++ ys)) : Nodes xs :=
  ⟨(List.nodup_append.mp h.nodup).1, fun x hx => h.pos x (List.mem_append_left ys hx),
    fun x hx => h.bound x (List.mem_append_left ys hx),
    fun x hx y hy => h.apart x (List.mem_append_left ys hx) y (List.mem_append_left ys hy)⟩

theorem Nodes.unlinked {xs ys : List Nat} {x : Nat} (h : Nodes (xs ++ x :: ys)) :
    Nodes (xs ++ ys) := by
  have sub : ∀ y ∈ xs ++ ys, y ∈ xs ++ x :: ys :=
    fun y hy => (List.Sublist.append_left (List.sublist_cons_self x ys) xs).mem hy
  exact ⟨h.nodup.sublist (List.Sublist.append_left (List.sublist_cons_self x ys) xs),
    fun y hy => h.pos y (sub y hy), fun y hy => h.bound y (sub y hy),
    fun y hy z hz => h.apart y (sub y hy) z (sub z hz)⟩

theorem mem_unlinked {before after : List Nat} {x t : Nat} (nodup : (before ++ x :: after).Nodup) :
    t ∈ before ++ after ↔ t ∈ before ++ x :: after ∧ t ≠ x := by
  have hx : x ∉ before ++ after := (List.nodup_cons.mp (List.nodup_middle.mp nodup)).1
  simp only [List.mem_append, List.mem_cons] at hx ⊢
  constructor
  · intro h
    exact ⟨by tauto, fun e => hx (e ▸ h)⟩
  · tauto

theorem mem_replaced {before after : List Nat} {x y t : Nat}
    (nodup : (before ++ x :: after).Nodup) :
    t ∈ before ++ y :: after ↔ t = y ∨ (t ∈ before ++ x :: after ∧ t ≠ x) := by
  rw [← mem_unlinked nodup, List.mem_append, List.mem_append, List.mem_cons]
  exact or_left_comm

theorem nodup_replaced {before after : List Nat} {x y : Nat} (nodup : (before ++ x :: after).Nodup)
    (hy : y ∉ before ++ x :: after) : (before ++ y :: after).Nodup := by
  have h := (List.nodup_cons.mp (List.nodup_middle.mp nodup)).2
  exact List.nodup_middle.mpr
    (List.nodup_cons.mpr ⟨fun hm => hy ((mem_unlinked nodup).mp hm).1, h⟩)

@[simp] theorem relink_start (h : Heap) (p v : Nat) : (relink h p v).heapStart = h.heapStart := by
  unfold relink; split <;> rfl

@[simp] theorem relink_size (h : Heap) (p v : Nat) : (relink h p v).heapSize = h.heapSize := by
  unfold relink; split <;> rfl

theorem lastOr_ne_zero {xs : List Nat} (hne : xs ≠ []) (pos : ∀ x ∈ xs, x ≠ 0) :
    lastOr 0 xs ≠ 0 := pos _ (lastOr_mem hne)

/-- Relinking past a chain prefix writes only the link of its last node. -/
theorem relink_fields {h : Heap} {before : List Nat} {v z : Nat} (ns : Nodes before)
    (hz : z + 12 ≤ 2 ^ 64) (apart : ∀ y ∈ before, SameOrApart y z) :
    prevSz (relink h (lastOr 0 before) v).mem z = prevSz h.mem z ∧
    sz (relink h (lastOr 0 before) v).mem z = sz h.mem z ∧
    ((before ≠ [] → z ≠ lastOr 0 before) → lom (relink h (lastOr 0 before) v).mem z = lom h.mem z) := by
  cases before with
  | nil => exact ⟨rfl, rfl, fun _ => rfl⟩
  | cons x xs =>
    have hmem : lastOr 0 (x :: xs) ∈ x :: xs := lastOr_mem (by simp)
    have hb := ns.bound _ hmem
    have ha := apart _ hmem
    rw [relink, if_pos (ns.pos _ hmem)]
    refine ⟨prevSz_setLom _ _ hb hz ha, sz_setLom _ _ hb hz ha, fun hne => ?_⟩
    exact lom_setLom_apart _ _ hb hz (ha.resolve_left (fun e => hne (by simp) e.symm))

theorem relink_seg {h : Heap} {before : List Nat} {c v : Nat} (ns : Nodes before)
    (hseg : Seg (lom h.mem) h.freelistHead before c) (hv : v < 2 ^ 64) :
    Seg (lom (relink h (lastOr 0 before) v).mem) (relink h (lastOr 0 before) v).freelistHead
      before v := by
  have hlast : before ≠ [] → lom (relink h (lastOr 0 before) v).mem (lastOr 0 before) = v := by
    intro hne
    have hmem : lastOr 0 before ∈ before := lastOr_mem hne
    rw [relink, if_pos (ns.pos _ hmem), lom_setLom _ _ (ns.bound _ hmem), Nat.mod_eq_of_lt hv]
  have hs := hseg.redirect ns.nodup hlast (fun y hy hne =>
    (relink_fields ns (ns.bound y hy) (fun w hw => ns.apart w hw y hy)).2.2 (fun _ => hne))
  cases before with
  | nil => simp [relink, lastOr, Seg]
  | cons x xs =>
    have hne : lastOr 0 (x :: xs) ≠ 0 := lastOr_ne_zero (by simp) ns.pos
    rw [if_neg (by simp)] at hs
    rwa [show (relink h (lastOr 0 (x :: xs)) v).freelistHead = h.freelistHead by
      rw [relink, if_pos hne]]

theorem relink_layout {h : Heap} {before : List Nat} {v a p : Nat} {bs : List Block}
    (ns : Nodes before) (hl : Layout h.mem a p bs) (hb : a + span bs ≤ 2 ^ 64)
    (free : ∀ y ∈ before, ∀ x b, (x, b) ∈ placed a bs →
      SameOrApart y x ∧ (b.used = true → y ≠ x)) :
    Layout (relink h (lastOr 0 before) v).mem a p bs := by
  apply hl.congr
  intro x b hx
  have hxb := placed_bounds hx
  obtain ⟨e1, e2, e3⟩ := relink_fields ns (v := v) (z := x) (by omega)
    (fun y hy => (free y hy x b hx).1)
  exact ⟨e1, e2, fun hu => e3 (fun hne e => (free _ (lastOr_mem hne) x b hx).2 hu e.symm)⟩

theorem relink_frame {h : Heap} {before hs : List Nat} {m : Mem} {v : Nat} (ns : Nodes before)
    (fr : HdrFrame hs m h.mem) (sub : ∀ y ∈ before, y ∈ hs) :
    HdrFrame hs m (relink h (lastOr 0 before) v).mem := by
  cases before with
  | nil => exact fr
  | cons x xs =>
    have hmem : lastOr 0 (x :: xs) ∈ x :: xs := lastOr_mem (by simp)
    rw [relink, if_pos (ns.pos _ hmem)]
    exact fr.setLom (sub _ hmem) (ns.bound _ hmem)

/-- The nodes behind the edit keep their links. -/
theorem relink_after {h : Heap} {before after : List Nat} {a v : Nat}
    (ns : Nodes (before ++ after)) (hseg : Seg (lom h.mem) a after 0) :
    Seg (lom (relink h (lastOr 0 before) v).mem) a after 0 := by
  apply hseg.congr
  intro y hy
  have hy' := List.mem_append_right before hy
  apply (relink_fields ns.left (ns.bound y hy')
    (fun w hw => ns.apart w (List.mem_append_left after hw) y hy')).2.2
  intro hne e
  exact (List.nodup_append.mp ns.nodup).2.2 y (e ▸ lastOr_mem hne) y hy rfl

/-- Take the node `x` out of the chain. -/
theorem chain_unlink {h : Heap} {before after : List Nat} {x : Nat}
    (ns : Nodes (before ++ x :: after))
    (hseg : Seg (lom h.mem) h.freelistHead (before ++ x :: after) 0) :
    Seg (lom (relink h (lastOr 0 before) (lom h.mem x)).mem)
      (relink h (lastOr 0 before) (lom h.mem x)).freelistHead (before ++ after) 0 := by
  obtain ⟨c, h1, -, h2⟩ := seg_append.mp hseg
  exact seg_append.mpr ⟨_, relink_seg ns.left h1 (lom_lt h.mem x), relink_after ns.unlinked h2⟩

/-- Put `y`, which already leads where `x` leads, in the place of `x`. -/
theorem chain_replace {h : Heap} {before after : List Nat} {x y : Nat}
    (ns : Nodes (before ++ x :: after)) (ny : Nodes (before ++ y :: after))
    (hy : lom h.mem y = lom h.mem x)
    (hseg : Seg (lom h.mem) h.freelistHead (before ++ x :: after) 0) :
    Seg (lom (relink h (lastOr 0 before) y).mem)
      (relink h (lastOr 0 before) y).freelistHead (before ++ y :: after) 0 := by
  obtain ⟨c, h1, -, h2⟩ := seg_append.mp hseg
  have hb := ny.bound y (by simp)
  refine seg_append.mpr ⟨y, relink_seg ns.left h1 (by omega), ?_⟩
  apply relink_after ny
  rw [← hy] at h2
  exact ⟨rfl, h2⟩

/-- The heap between its other writes and the last one: `xs` stands as it
should, and so does `post` but for the `prev_sz` of its first block. -/
structure Rough (h : Heap) (xs post : List Block) (q : Nat) (fl : List Nat) : Prop where
  arena : Arena h.heapStart h.heapSize
  total : span xs + span post = h.heapSize
  layout : Layout h.mem h.heapStart 0 xs
  rest : Layout h.mem (h.heapStart + span xs) q post
  chain : Seg (lom h.mem) h.freelistHead fl 0
  nodup : fl.Nodup
  mem_free : ∀ x, x ∈ fl ↔ FreeAt h.heapStart (xs ++ post) x

theorem Rep.rough {h : Heap} {xs post : List Block} {fl : List Nat} (r : Rep h ⟨xs ++ post, fl⟩) :
    Rough h xs post (lastSize 0 xs) fl := by
  have hl := layout_append.mp r.layout
  exact ⟨r.arena, by simpa using r.total, hl.1, hl.2, r.chain, r.nodup, r.mem_free⟩

theorem Rough.rep {h : Heap} {xs post : List Block} {fl : List Nat}
    (r : Rough h xs post (lastSize 0 xs) fl) : Rep h ⟨xs ++ post, fl⟩ :=
  ⟨r.arena, by simpa using r.total, layout_append.mpr ⟨r.layout, r.rest⟩, r.chain, r.nodup,
    r.mem_free⟩

theorem Rough.nodes {h : Heap} {xs post : List Block} {q : Nat} {fl : List Nat}
    (r : Rough h xs post q fl) : Nodes fl := by
  have hb := r.arena.bound
  have hs := r.total
  apply Nodes.of_placed (xs ++ post) r.nodup r.arena.nonnull (by simp; omega)
  intro x hx
  obtain ⟨b, hb, _⟩ := (r.mem_free x).mp hx
  exact ⟨b, hb⟩

theorem Rep.nodes {h : Heap} {A : Abs} (r : Rep h A) : Nodes A.free := by
  have hb := r.arena.bound
  have hs := r.total
  apply Nodes.of_placed A.blocks r.nodup r.arena.nonnull (by omega)
  intro x hx
  obtain ⟨b, hb, _⟩ := (r.mem_free x).mp hx
  exact ⟨b, hb⟩

/-- Writing inside a payload keeps the heap. -/
theorem Rep.payload {h : Heap} {A : Abs} {x : Nat} {b : Block} {m : Mem} (r : Rep h A)
    (hx : (x, b) ∈ placed h.heapStart A.blocks)
    (so : SameOutside (x + 12) (x + 12 + b.size) h.mem m) : Rep { h with mem := m } A := by
  have hb := r.arena.bound
  have fields : ∀ y c, (y, c) ∈ placed h.heapStart A.blocks →
      prevSz m y = prevSz h.mem y ∧ sz m y = sz h.mem y ∧ lom m y = lom h.mem y := by
    intro y c hy
    have hyb := r.bound hy
    have hap := placed_apart hx hy
    exact so.fields (by omega) (by omega)
  refine ⟨r.arena, r.total, r.layout.congr ?_, r.chain.congr ?_, r.nodup, r.mem_free⟩
  · intro y c hy
    obtain ⟨e1, e2, e3⟩ := fields y c hy
    exact ⟨e1, e2, fun _ => e3⟩
  · intro y hy
    obtain ⟨c, hc, -⟩ := (r.mem_free y).mp hy
    exact (fields y c hc).2.2

section Relinked
variable {h : Heap} {xs post : List Block} {q : Nat} {before after : List Nat}
variable (arena : Arena h.heapStart h.heapSize) (total : span xs + span post = h.heapSize)
variable (layout : Layout h.mem h.heapStart 0 xs)
variable (rest : Layout h.mem (h.heapStart + span xs) q post)
include arena total layout rest

/-- Relinking behind nodes that are free headers of the row keeps the row. -/
theorem relink_row {v : Nat} (ns : Nodes before)
    (free : ∀ t ∈ before, FreeAt h.heapStart (xs ++ post) t) :
    Layout (relink h (lastOr 0 before) v).mem h.heapStart 0 xs ∧
    Layout (relink h (lastOr 0 before) v).mem (h.heapStart + span xs) q post ∧
    HdrFrame (headers h.heapStart (xs ++ post)) h.mem (relink h (lastOr 0 before) v).mem := by
  have hb := arena.bound
  refine ⟨relink_layout ns layout (by omega) ?_, relink_layout ns rest (by omega) ?_,
    relink_frame ns (HdrFrame.refl _ _) fun t ht => (free t ht).mem_headers⟩
  · exact fun t ht x b hx => (free t ht).apart (mem_placed_append.mpr (Or.inl hx))
  · exact fun t ht x b hx => (free t ht).apart (mem_placed_append.mpr (Or.inr hx))

theorem rough_unlink {x : Nat} (ns : Nodes (before ++ x :: after))
    (chain : Seg (lom h.mem) h.freelistHead (before ++ x :: after) 0)
    (mem_free : ∀ t, t ∈ before ++ after ↔ FreeAt h.heapStart (xs ++ post) t) :
    Rough (relink h (lastOr 0 before) (lom h.mem x)) xs post q (before ++ after) ∧
    HdrFrame (headers h.heapStart (xs ++ post)) h.mem
      (relink h (lastOr 0 before) (lom h.mem x)).mem := by
  obtain ⟨h1, h2, h3⟩ := relink_row arena total layout rest (v := lom h.mem x) ns.left
    (fun t ht => (mem_free t).mp (List.mem_append_left _ ht))
  refine ⟨⟨?_, ?_, ?_, ?_, chain_unlink ns chain, ?_, ?_⟩, h3⟩
  · rwa [relink_start, relink_size]
  · rwa [relink_size]
  · rwa [relink_start]
  · rwa [relink_start]
  · exact ns.unlinked.nodup
  · rwa [relink_start]

theorem rough_replace {x y : Nat} (ns : Nodes (before ++ x :: after)) (ny : Nodes (before ++ y :: after))
    (chain : Seg (lom h.mem) h.freelistHead (before ++ x :: after) 0)
    (same : lom h.mem y = lom h.mem x)
    (mem_free : ∀ t, t ∈ before ++ y :: after ↔ FreeAt h.heapStart (xs ++ post) t) :
    Rough (relink h (lastOr 0 before) y) xs post q (before ++ y :: after) ∧
    HdrFrame (headers h.heapStart (xs ++ post)) h.mem (relink h (lastOr 0 before) y).mem := by
  obtain ⟨h1, h2, h3⟩ := relink_row arena total layout rest (v := y) ns.left
    (fun t ht => (mem_free t).mp (List.mem_append_left _ ht))
  refine ⟨⟨?_, ?_, ?_, ?_, chain_replace ns ny same chain, ny.nodup, ?_⟩, h3⟩
  · rwa [relink_start, relink_size]
  · rw [relink_size]
    exact total
  · rwa [relink_start]
  · rwa [relink_start]
  · rwa [relink_start]

end Relinked

/-- Behind `xs` there is a header exactly when `post` is not empty, so the
guarded update always makes its `prev_sz` right and writes nothing else. -/
theorem Rough.fix {h : Heap} {xs post : List Block} {q v : Nat} {fl : List Nat}
    (r : Rough h xs post q fl) (hv : v = lastSize 0 xs) (hlt : v < 2 ^ 16) :
    Rep { h with mem := setPrevSzIn h h.mem (h.heapStart + span xs) v } ⟨xs ++ post, fl⟩ ∧
    HdrFrame (headers h.heapStart (xs ++ post)) h.mem
      (setPrevSzIn h h.mem (h.heapStart + span xs) v) := by
  have hb := r.arena.bound
  have hs := r.total
  cases post with
  | nil =>
    have hout : wdmInHeap h (h.heapStart + span xs) = false := by
      cases hin : wdmInHeap h (h.heapStart + span xs)
      · rfl
      · have := (r.arena.inHeap _).mp hin
        simp only [span] at hs
        omega
    rw [setPrevSzIn, hout]
    have r' : Rough h xs [] (lastSize 0 xs) fl :=
      ⟨r.arena, r.total, r.layout, trivial, r.chain, r.nodup, r.mem_free⟩
    exact ⟨r'.rep, HdrFrame.refl _ _⟩
  | cons b bs =>
    simp only [span] at hs
    generalize ha : h.heapStart + span xs = a
    have hin : wdmInHeap h a = true := (r.arena.inHeap a).mpr (by omega)
    rw [setPrevSzIn, if_pos hin]
    have mem : a ∈ headers h.heapStart (xs ++ b :: bs) := by
      rw [mem_headers]
      exact ⟨b, ha ▸ mem_placed_mid h.heapStart xs bs b⟩
    have fr : HdrFrame [a] h.mem (setPrevSz h.mem a v) :=
      (HdrFrame.refl [a] h.mem).setPrevSz (by simp) (by omega)
    obtain ⟨⟨-, hsz, hm⟩, hrest⟩ := ha ▸ r.rest
    refine ⟨⟨r.arena, by simpa using r.total, ?_, ?_, r.nodup, r.mem_free⟩, fr.mono (by simpa using mem)⟩
    · refine layout_append.mpr ⟨r.layout.frame fr (by omega) (by simp [ha]), ?_⟩
      simp only [ha]
      refine ⟨⟨?_, ?_, fun hu => ?_⟩, hrest.frame fr (by omega) (by simp)⟩
      · rw [prevSz_setPrevSz _ _ (by omega), Nat.mod_eq_of_lt hlt, hv]
      · rw [sz_setPrevSz _ _ (by omega) (by omega) (Or.inl rfl), hsz]
      · rw [lom_setPrevSz _ _ (by omega) (by omega) (Or.inl rfl), hm hu]
    · apply r.chain.congr
      intro x hx
      obtain ⟨c, hc, _⟩ := (r.mem_free x).mp hx
      have hcb := placed_bounds hc
      simp only [span_append, span] at hcb
      exact lom_setPrevSz _ _ (by omega) (by omega)
        (placed_sameOrApart (ha ▸ mem_placed_mid h.heapStart xs bs b) hc)

/-- The same behind a block that ends at `a`. -/
theorem Rough.fix_behind {h : Heap} {pre post : List Block} {b : Block} {q a : Nat} {fl : List Nat}
    (r : Rough h (pre ++ [b]) post q fl) (ha : h.heapStart + span pre + 12 + b.size = a) :
    Rep { h with mem := setPrevSzIn h h.mem a b.size } ⟨pre ++ b :: post, fl⟩ ∧
    HdrFrame (headers h.heapStart (pre ++ b :: post)) h.mem (setPrevSzIn h h.mem a b.size) := by
  have hs := r.total
  have hsm := r.arena.small
  have hlast : b.size = lastSize 0 (pre ++ [b]) := by
    rw [lastSize_append_cons]
    rfl
  have hat : h.heapStart + span (pre ++ [b]) = a := by
    simp only [span_append, span]
    omega
  simp only [span_append, span] at hs
  have hfix := r.fix hlast (by omega)
  rwa [hat, List.append_assoc] at hfix

end WaddleOS
