import WaddleOS.Heap.Safety

/-!
# What `wdrealloc` owes its caller

A result that is not null is a used block with room for the request that
starts with the bytes of the old one. Null is the answer when nothing else
would do: the block is too small, its free neighbours do not make up for it,
and no free block is large enough. An empty freelist makes `wdrealloc` return
null before it looks at the request.
-/

namespace WaddleOS

/-- What merging with a neighbour gains: its bytes and its header, if it is there and free. -/
def gain (m : Mem) : Option Nat → Nat
  | some y => if wdmIsFree m y then sz m y + 12 else 0
  | none => 0

/-- The size of the block at `x` merged with those of its neighbours that are free. -/
def mergedSize (m : Mem) (before : List Nat) (x : Nat) (after : List Nat) : Nat :=
  gain m before.getLast? + wdmActualSize m x + gain m after.head?

/-- No way to serve a request for `n` bytes: not in place, not over the free
neighbours, and in no free block. -/
def MustFail (h : Heap) (p n : Nat) : Prop :=
  ∃ before after, Walk h (before ++ (p - 12) :: after) ∧
    wdmActualSize h.mem (p - 12) < n ∧ mergedSize h.mem before (p - 12) after < n ∧
    ∀ y ∈ before ++ after, wdmIsFree h.mem y = true → sz h.mem y < n

section Walk

variable {next : Nat → Nat} {a b : Nat} {xs ys : List Nat}

theorem Seg.le_of_increasing (up : ∀ x, x < next x) (h : Seg next a xs b) : a ≤ b := by
  induction xs generalizing a with
  | nil => exact Nat.le_of_eq h
  | cons x xs ih =>
    obtain ⟨rfl, hrest⟩ := h
    have := ih hrest
    have := up a
    omega

/-- A walk that only goes up visits the same nodes whenever it ends at the same place. -/
theorem Seg.unique (up : ∀ x, x < next x) (h : Seg next a xs b) (h' : Seg next a ys b) :
    xs = ys := by
  induction xs generalizing a ys with
  | nil =>
    obtain rfl : a = b := h
    cases ys with
    | nil => rfl
    | cons y ys =>
      obtain ⟨rfl, hrest⟩ := h'
      have := hrest.le_of_increasing up
      have := up a
      omega
  | cons x xs ih =>
    obtain ⟨rfl, hrest⟩ := h
    cases ys with
    | nil =>
      obtain rfl : a = b := h'
      have := hrest.le_of_increasing up
      have := up a
      omega
    | cons y ys =>
      obtain ⟨rfl, hrest'⟩ := h'
      rw [ih hrest hrest']

end Walk

theorem walkNext_lt (m : Mem) (x : Nat) : x < walkNext m x := by
  unfold walkNext
  omega

section Row

variable {h : Heap} {pre post : List Block} {c n : Nat} {fl : List Nat}

theorem headers_append (a : Nat) (xs ys : List Block) :
    headers a (xs ++ ys) = headers a xs ++ headers (a + span xs) ys := by
  simp [headers, placed_append]

theorem headers_cons (a : Nat) (b : Block) (bs : List Block) :
    headers a (b :: bs) = a :: headers (a + 12 + b.size) bs := rfl

/-- The walk around a block of the row. -/
theorem Rep.walk_around (r : Rep h ⟨pre ++ ⟨c, true⟩ :: post, fl⟩) :
    Walk h (headers h.heapStart pre ++ (h.heapStart + span pre) ::
      headers (h.heapStart + span pre + 12 + c) post) := by
  have hw := r.walk
  rwa [headers_append, headers_cons] at hw

/-- A free neighbour behind. -/
theorem Rep.gain_next (r : Rep h ⟨pre ++ ⟨c, true⟩ :: post, fl⟩) :
    gain h.mem (headers (h.heapStart + span pre + 12 + c) post).head? =
      match post with
      | ⟨s, false⟩ :: _ => s + 12
      | _ => 0 := by
  cases post with
  | nil => rfl
  | cons b post =>
    have hat : (h.heapStart + span pre + 12 + c, b) ∈
        placed h.heapStart (pre ++ ⟨c, true⟩ :: b :: post) := by
      rw [placed_append]
      simp [placed]
    have hfree := r.isFree hat
    have hsz := r.layout.sz_eq hat
    obtain ⟨s, u⟩ := b
    cases u with
    | true => simp [headers_cons, gain, hfree]
    | false => simpa [headers_cons, gain, hfree, raw_free] using hsz

/-- A free neighbour before. -/
theorem Rep.gain_prev (r : Rep h ⟨pre ++ ⟨c, true⟩ :: post, fl⟩) :
    (EndsFree pre → ∃ p pre', pre = pre' ++ [⟨p, false⟩] ∧
      gain h.mem (headers h.heapStart pre).getLast? = p + 12) ∧
    (¬ EndsFree pre → gain h.mem (headers h.heapStart pre).getLast? = 0) := by
  rcases List.eq_nil_or_concat' pre with rfl | ⟨pre', b, rfl⟩
  · exact ⟨fun hf => absurd hf not_endsFree_nil, fun _ => rfl⟩
  · have hat : (h.heapStart + span pre', b) ∈
        placed h.heapStart ((pre' ++ [b]) ++ ⟨c, true⟩ :: post) := by
      rw [List.append_assoc]
      exact mem_placed_mid _ _ _ _
    have hfree := r.isFree hat
    have hsz := r.layout.sz_eq hat
    have hlast : (headers h.heapStart (pre' ++ [b])).getLast? = some (h.heapStart + span pre') := by
      rw [headers_append, headers_cons]
      simp [headers, placed]
    obtain ⟨s, u⟩ := b
    rw [hlast]
    cases u with
    | true =>
      refine ⟨fun hf => absurd hf (not_endsFree_used pre' s), fun _ => ?_⟩
      simp [gain, hfree]
    | false =>
      refine ⟨fun _ => ⟨s, pre', rfl, ?_⟩, fun hf => absurd ⟨pre', s, rfl⟩ hf⟩
      simpa [gain, hfree, raw_free] using hsz

/-- Neither neighbour nor both together make up for the missing bytes. -/
theorem Rep.mergedSize_lt_iff (r : Rep h ⟨pre ++ ⟨c, true⟩ :: post, fl⟩) (larger : c < n) :
    mergedSize h.mem (headers h.heapStart pre) (h.heapStart + span pre)
      (headers (h.heapStart + span pre + 12 + c) post) < n ↔
      ¬ NextFits n c post ∧ ¬ PrevFits n c pre ∧ ¬ BothFit n c pre post := by
  have hact := r.actualSize (mem_placed_mid h.heapStart pre post ⟨c, true⟩)
  have hnext := r.gain_next
  obtain ⟨hprev, hnone⟩ := r.gain_prev
  simp only at hact
  rw [mergedSize, hact]
  constructor
  · intro hlt
    refine ⟨?_, ?_, ?_⟩
    · rintro ⟨s, post', rfl, hn⟩
      simp only at hnext
      omega
    · rintro ⟨p, pre', rfl, hn⟩
      obtain ⟨q, pre2, he, hg⟩ := hprev ⟨pre', p, rfl⟩
      obtain ⟨-, hq⟩ := List.append_inj' he rfl
      simp only [List.cons.injEq, Block.mk.injEq, and_true] at hq
      omega
    · rintro ⟨p, pre', s, post', rfl, rfl, hn⟩
      obtain ⟨q, pre2, he, hg⟩ := hprev ⟨pre', p, rfl⟩
      obtain ⟨-, hq⟩ := List.append_inj' he rfl
      simp only [List.cons.injEq, Block.mk.injEq, and_true] at hq
      simp only at hnext
      omega
  · rintro ⟨noNext, noPrev, noBoth⟩
    by_contra hge
    by_cases hp : EndsFree pre
    · obtain ⟨p, pre', rfl, hg⟩ := hprev hp
      rw [hg] at hge
      split at hnext
      · exact noBoth ⟨p, pre', _, _, rfl, rfl, by omega⟩
      · exact noPrev ⟨p, pre', rfl, by omega⟩
    · rw [hnone hp] at hge
      split at hnext
      · exact noNext ⟨_, _, rfl, by omega⟩
      · omega

/-- The headers other than the block's own whose block is free. -/
theorem Rep.free_lt_iff (r : Rep h ⟨pre ++ ⟨c, true⟩ :: post, fl⟩) :
    (∀ y ∈ headers h.heapStart pre ++ headers (h.heapStart + span pre + 12 + c) post,
      wdmIsFree h.mem y = true → sz h.mem y < n) ↔
      ∀ x s, (x, ⟨s, false⟩) ∈ placed h.heapStart (pre ++ ⟨c, true⟩ :: post) → s < n := by
  have hrow : ∀ y b, (y, b) ∈ placed h.heapStart (pre ++ ⟨c, true⟩ :: post) ↔
      (y, b) ∈ placed h.heapStart pre ∨ (y, b) = (h.heapStart + span pre, ⟨c, true⟩) ∨
        (y, b) ∈ placed (h.heapStart + span pre + 12 + c) post := by
    intro y b
    rw [placed_append, List.mem_append, placed, List.mem_cons]
  constructor
  · intro hlt x s hx
    have hsz := r.layout.sz_eq hx
    have hfree := r.isFree hx
    rw [raw_free] at hsz
    rw [← hsz]
    refine hlt x (List.mem_append.mpr ?_) hfree
    rcases (hrow x _).mp hx with hx | hx | hx
    · exact Or.inl (mem_headers.mpr ⟨_, hx⟩)
    · simp at hx
    · exact Or.inr (mem_headers.mpr ⟨_, hx⟩)
  · intro hlt y hy hfree
    have hb : ∃ b, (y, b) ∈ placed h.heapStart (pre ++ ⟨c, true⟩ :: post) := by
      rcases List.mem_append.mp hy with hy | hy
      · obtain ⟨b, hb⟩ := mem_headers.mp hy
        exact ⟨b, (hrow y b).mpr (Or.inl hb)⟩
      · obtain ⟨b, hb⟩ := mem_headers.mp hy
        exact ⟨b, (hrow y b).mpr (Or.inr (Or.inr hb))⟩
    obtain ⟨⟨s, u⟩, hb⟩ := hb
    rw [r.isFree hb] at hfree
    cases u with
    | true => cases hfree
    | false =>
      rw [r.layout.sz_eq hb, raw_free]
      exact hlt y s hb

/-- `MustFail`, read on the row. -/
theorem Rep.mustFail_iff (r : Rep h ⟨pre ++ ⟨c, true⟩ :: post, fl⟩) :
    MustFail h (h.heapStart + span pre + 12) n ↔
      c < n ∧ (¬ NextFits n c post ∧ ¬ PrevFits n c pre ∧ ¬ BothFit n c pre post) ∧
        ∀ x s, (x, ⟨s, false⟩) ∈ placed h.heapStart (pre ++ ⟨c, true⟩ :: post) → s < n := by
  have hact := r.actualSize (mem_placed_mid h.heapStart pre post ⟨c, true⟩)
  simp only at hact
  rw [MustFail, Nat.add_sub_cancel, hact]
  constructor
  · rintro ⟨before, after, hw, larger, hmerged, hfree⟩
    -- the walk is the row's, and the header cuts it in one place only
    have hsame := Seg.unique (walkNext_lt h.mem) hw r.walk_around
    have hnodup : (headers h.heapStart pre ++ (h.heapStart + span pre) ::
        headers (h.heapStart + span pre + 12 + c) post).Nodup := by
      have hn := @headers_nodup h.heapStart (pre ++ ⟨c, true⟩ :: post)
      rwa [headers_append, headers_cons] at hn
    rw [← hsame] at hnodup
    have hnot := (List.nodup_middle.mp hnodup).notMem
    rw [List.mem_append, not_or] at hnot
    obtain ⟨rfl, -, rfl⟩ := (List.append_cons_inj_of_notMem hnot.1 hnot.2).mp hsame
    exact ⟨larger, (r.mergedSize_lt_iff larger).mp hmerged, r.free_lt_iff.mp hfree⟩
  · rintro ⟨larger, hfits, hfree⟩
    exact ⟨_, _, r.walk_around, larger, (r.mergedSize_lt_iff larger).mpr hfits,
      r.free_lt_iff.mpr hfree⟩

end Row

/-- With an empty freelist no block is free, and only a larger size must fail. -/
theorem Rep.mustFail_full {h : Heap} {pre post : List Block} {c n : Nat}
    (r : Rep h ⟨pre ++ ⟨c, true⟩ :: post, []⟩) :
    MustFail h (h.heapStart + span pre + 12) n ↔ c < n := by
  have full : ∀ x s, (x, ⟨s, false⟩) ∉ placed h.heapStart (pre ++ ⟨c, true⟩ :: post) := by
    intro x s hx
    have := (r.mem_free x).mpr ⟨_, hx, rfl⟩
    cases this
  have noNext : ¬ StartsFree post := by
    rintro ⟨s, post', rfl⟩
    apply full (h.heapStart + span pre + 12 + c) s
    simp [placed_append, placed]
  have noPrev : ¬ EndsFree pre := by
    rintro ⟨pre', s, rfl⟩
    apply full (h.heapStart + span pre') s
    rw [List.append_assoc]
    exact mem_placed_mid _ _ _ _
  rw [r.mustFail_iff]
  refine ⟨fun hmust => hmust.1, fun larger => ⟨larger, ⟨?_, ?_, ?_⟩, ?_⟩⟩
  · rintro ⟨s, post', rfl, -⟩
    exact noNext ⟨s, post', rfl⟩
  · rintro ⟨s, pre', rfl, -⟩
    exact noPrev ⟨pre', s, rfl⟩
  · rintro ⟨s, pre', t, post', rfl, -⟩
    exact noPrev ⟨pre', s, rfl⟩
  · exact fun x s hx => absurd hx (full x s)

/-- With a freelist that is not empty, a call for at least one byte returns
null only when the block is too small and there is nothing to serve it with. -/
theorem Realloc.null_iff {start n c r : Nat} {pre post : List Block} {fl : List Nat} {A' : Abs}
    (hr : Realloc start n c pre post fl r A') (ready : fl ≠ []) (hn : 0 < n) :
    r = 0 ↔ c < n ∧ (¬ NextFits n c post ∧ ¬ PrevFits n c pre ∧ ¬ BothFit n c pre post) ∧
      ∀ x s, (x, ⟨s, false⟩) ∈ placed start (pre ++ ⟨c, true⟩ :: post) → s < n := by
  cases hr with
  | full empty => exact absurd empty ready
  | same ready eq => exact iff_of_false (by omega) fun hmust => by omega
  | growNext larger next fits =>
    exact iff_of_false (by omega) fun hmust => hmust.2.1.1 ⟨_, _, next, fits⟩
  | growPrev larger noNext prev fits =>
    exact iff_of_false (by omega) fun hmust => hmust.2.1.2.1 ⟨_, _, prev, fits⟩
  | growBoth larger noNext noPrev prev next fits =>
    exact iff_of_false (by omega) fun hmust => hmust.2.1.2.2 ⟨_, _, _, _, prev, next, fits⟩
  | fail larger noNext noPrev noBoth none =>
    exact iff_of_true rfl ⟨larger, ⟨noNext, noPrev, noBoth⟩, none⟩
  | moved larger noNext noPrev noBoth malloc found place release =>
    obtain ⟨x, s, -, hx, hs⟩ := malloc.found found
    exact iff_of_false found fun hmust => Nat.not_lt.mpr hs (hmust.2.2 x s hx)
  | leaked larger noNext noPrev noBoth malloc found stuck =>
    obtain ⟨x, s, -, hx, hs⟩ := malloc.found found
    exact iff_of_false found fun hmust => Nat.not_lt.mpr hs (hmust.2.2 x s hx)
  | release zero larger gone => omega
  | keep ready nonzero smaller tight => exact iff_of_false (by omega) fun hmust => by omega
  | shrink nonzero room rest => exact iff_of_false (by omega) fun hmust => by omega

/-- What a result `r` of `wdrealloc(p, n)` in `h` owes the caller: a used block
of the heap with room for `n` bytes that starts with those of the old block. -/
structure Delivers (h : Heap) (p n r : Nat) (h' : Heap) : Prop where
  header : 12 ≤ r
  walked : ∃ hs, Walk h' hs ∧ r - 12 ∈ hs
  used : wdmIsFree h'.mem (r - 12) = false
  room : n ≤ wdmActualSize h'.mem (r - 12)
  inside : h.heapStart ≤ r - 12 ∧
    r + wdmActualSize h'.mem (r - 12) ≤ h.heapStart + h.heapSize
  bytes : ∀ i, i < min (wdmActualSize h.mem (p - 12)) n →
    h'.mem.get (r + i) = h.mem.get (p + i)

theorem Reallocated.delivers {h h' : Heap} {pre post : List Block} {c n r : Nat} {fl : List Nat}
    {A' : Abs} (R : Rep h ⟨pre ++ ⟨c, true⟩ :: post, fl⟩)
    (hr : Realloc h.heapStart n c pre post fl r A')
    (done : Reallocated h ⟨pre ++ ⟨c, true⟩ :: post, fl⟩ (h.heapStart + span pre) c n r h' A')
    (found : r ≠ 0) : Delivers h (h.heapStart + span pre + 12) n r h' := by
  obtain ⟨x, s, rfl, hns, hu, -⟩ := hr.used found
  have hact := R.actualSize (mem_placed_mid h.heapStart pre post ⟨c, true⟩)
  have R' := done.effect.rep
  rw [← done.effect.start] at hu
  have hact' := R'.actualSize hu
  have hb := R'.bound hu
  rw [done.effect.start, done.effect.size] at hb
  simp only at hact hact' hb
  refine ⟨by omega, ⟨_, R'.walk, ?_⟩, ?_, ?_, ?_, ?_⟩
  · exact mem_headers.mpr ⟨_, hu⟩
  · rw [Nat.add_sub_cancel, R'.isFree hu]
    rfl
  · rwa [Nat.add_sub_cancel, hact']
  · rw [Nat.add_sub_cancel, hact']
    omega
  · intro i hi
    rw [Nat.add_sub_cancel, hact] at hi
    exact done.carried found i (by omega) (by omega)

section Run
variable {start size fuel : Nat} {w : World} {p : Nat}

/-- A held pointer of a run is the payload of a used block in a row. -/
theorem held_in_row (hwrap : start + size < 2 ^ 64) (hlarge : 12 < size) (hsmall : size ≤ 32779)
    (hfuel : 2732 ≤ fuel) (run : Reach (Booted start size) Admissible (World.step fuel) w)
    (hp : p ∈ w.ptrs) :
    ∃ pre c post fl, Rep w.heap ⟨pre ++ ⟨c, true⟩ :: post, fl⟩ ∧
      p = w.heap.heapStart + span pre + 12 ∧ fl.length < fuel := by
  rcases live_in_run hwrap hlarge hsmall hfuel run with ⟨⟨blocks, fl⟩, H, hlen⟩ | ⟨-, d⟩
  · obtain ⟨pre, c, post, hrow, rfl⟩ := H.locate hp
    simp only at hrow
    subst hrow
    exact ⟨pre, c, post, fl, H.rep, rfl, hlen⟩
  · rw [World.ptrs, d.empty] at hp
    cases hp

/-- In every run a `wdrealloc` of a held block ends, and a result that is not
null is a block of the wanted size with the old contents. -/
theorem realloc_delivers (hwrap : start + size < 2 ^ 64) (hlarge : 12 < size)
    (hsmall : size ≤ 32779) (hfuel : 2732 ≤ fuel)
    (run : Reach (Booted start size) Admissible (World.step fuel) w) (hp : p ∈ w.ptrs)
    (n : UInt16) :
    ∃ r h', wdrealloc fuel w.heap p n.toNat = .ok (r, h') ∧
      (r ≠ 0 → Delivers w.heap p n.toNat r h') := by
  obtain ⟨pre, c, post, fl, R, rfl, hlen⟩ := held_in_row hwrap hlarge hsmall hfuel run hp
  obtain ⟨r, h', A', hcall, hr, done⟩ := wdrealloc_spec R n.toNat hlen
  exact ⟨r, h', hcall, done.delivers R hr⟩

theorem realloc_delivers_over_prev :
    ∃ w, Reach (Booted 4096 200) Admissible (World.step 2732) w ∧
      ∃ r h', wdrealloc 2732 w.heap 4212 60 = .ok (r, h') ∧ (r ≠ 0 → Delivers w.heap 4212 60 r h') := by
  obtain ⟨w, run, hlast⟩ := reach_played 4096 (show 12 < 200 by decide)
    (fun w c => decide (Admissible w c)) (fun w => decide (4212 ∈ w.ptrs))
    [.malloc 20, .malloc 20, .malloc 20, .write 4212 3 7, .free 4244]
    (fun _ _ h => of_decide_eq_true h) (by decide +kernel)
  exact ⟨w, run, realloc_delivers (by decide) (by decide) (by decide) (by decide) run
    (of_decide_eq_true hlast) 60⟩

/-- In every run a `wdrealloc` of a held block for at least one byte returns
null only when it must, unless the freelist is empty: then it must as well if
the block is too small, and need not otherwise. -/
theorem realloc_fails_iff (hwrap : start + size < 2 ^ 64) (hlarge : 12 < size)
    (hsmall : size ≤ 32779) (hfuel : 2732 ≤ fuel)
    (run : Reach (Booted start size) Admissible (World.step fuel) w) (hp : p ∈ w.ptrs)
    (n : UInt16) (hn : 0 < n.toNat) :
    ∃ r h', wdrealloc fuel w.heap p n.toNat = .ok (r, h') ∧
      ((r = 0 ↔ MustFail w.heap p n.toNat) ↔
        w.heap.freelistHead ≠ 0 ∨ wdmActualSize w.heap.mem (p - 12) < n.toNat) := by
  obtain ⟨pre, c, post, fl, R, rfl, hlen⟩ := held_in_row hwrap hlarge hsmall hfuel run hp
  obtain ⟨r, h', A', hcall, hr, done⟩ := wdrealloc_spec R n.toNat hlen
  refine ⟨r, h', hcall, ?_⟩
  have hact := R.actualSize (mem_placed_mid w.heap.heapStart pre post ⟨c, true⟩)
  have hhead := R.head_zero
  simp only at hact hhead
  rw [Nat.add_sub_cancel, hact, Ne, hhead]
  by_cases hfl : fl = []
  · have hnull : r = 0 := by
      rw [wdrealloc, if_pos (R.notReady_iff.mpr hfl)] at hcall
      cases hcall
      rfl
    subst hfl
    rw [R.mustFail_full]
    exact ⟨fun hsame => Or.inr (hsame.mp hnull),
      fun hc => iff_of_true hnull (hc.resolve_left fun hne => hne rfl)⟩
  · rw [R.mustFail_iff]
    exact iff_of_true (hr.null_iff hfl hn) (Or.inl hfl)

theorem realloc_fails_when_small :
    ∃ w, Reach (Booted 4096 200) Admissible (World.step 2732) w ∧
      ∃ r h', wdrealloc 2732 w.heap 4212 300 = .ok (r, h') ∧
        ((r = 0 ↔ MustFail w.heap 4212 300) ↔
          w.heap.freelistHead ≠ 0 ∨ wdmActualSize w.heap.mem 4200 < 300) := by
  obtain ⟨w, run, hlast⟩ := reach_played 4096 (show 12 < 200 by decide)
    (fun w c => decide (Admissible w c)) (fun w => decide (4212 ∈ w.ptrs))
    [.malloc 20, .malloc 20, .malloc 20, .free 4244]
    (fun _ _ h => of_decide_eq_true h) (by decide +kernel)
  exact ⟨w, run, realloc_fails_iff (by decide) (by decide) (by decide) (by decide) run
    (of_decide_eq_true hlast) 300 (by decide)⟩

/-- The one block of a full heap cannot even keep its size. -/
theorem full_heap_refuses_same_size :
    ¬ ∀ (start size fuel : Nat) (w : World) (p : Nat) (n : UInt16), start + size < 2 ^ 64 →
      12 < size → size ≤ 32779 → 2732 ≤ fuel →
      Reach (Booted start size) Admissible (World.step fuel) w → p ∈ w.ptrs → 0 < n.toNat →
      ∃ r h', wdrealloc fuel w.heap p n.toNat = .ok (r, h') ∧
        (r = 0 ↔ MustFail w.heap p n.toNat) := by
  intro nullIff
  obtain ⟨w, run, hlast⟩ := reach_played 4096 (show 12 < 24 by decide)
    (fun w c => decide (Admissible w c))
    (fun w => decide (4108 ∈ w.ptrs ∧ w.heap.freelistHead = 0 ∧
      wdmActualSize w.heap.mem 4096 = 12))
    [.malloc 12] (fun _ _ h => of_decide_eq_true h) (by decide +kernel)
  obtain ⟨hp, hhead, hact⟩ := of_decide_eq_true hlast
  obtain ⟨r, h', hcall, hnull⟩ := nullIff 4096 24 2732 w 4108 12 (by decide) (by decide) (by decide)
    (by decide) run hp (by decide)
  have hready : notReady w.heap = true := by simp [notReady, hhead]
  rw [wdrealloc, if_pos hready] at hcall
  cases hcall
  obtain ⟨before, after, -, larger, -⟩ := hnull.mp rfl
  rw [show (4108 : Nat) - 12 = 4096 by rfl, hact] at larger
  exact absurd larger (by decide)

end Run

end WaddleOS
