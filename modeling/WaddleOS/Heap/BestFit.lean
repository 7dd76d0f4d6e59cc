import WaddleOS.Heap.Resize

/-!
# Best fit, header by header

A row of blocks and its freelist determine every header in memory, so two
memories for nearly the same row agree on nearly all of them (`Layout.agree`,
`Seg.agree`). `Allocates` reads `Malloc` that way: which free block
`wdmalloc` picks and what it leaves in each header of the heap.
-/

namespace WaddleOS

/-- `struct wdmalloc_hdr`. -/
structure WdmallocHdr where
  prevSz : Nat
  sz : Nat
  lom : Nat

def hdrAt (m : Mem) (p : Nat) : WdmallocHdr := ⟨prevSz m p, sz m p, lom m p⟩

/-- On a freelist `before ++ x :: after` the block `x` is the best fit for `n`
bytes: the smallest with room, and of several that small the first. -/
structure BestFit (m : Mem) (n : Nat) (before : List Nat) (x : Nat) (after : List Nat) : Prop where
  fits : n ≤ sz m x
  first : ∀ y ∈ before, n ≤ sz m y → sz m x < sz m y
  least : ∀ y ∈ after, n ≤ sz m y → sz m x ≤ sz m y

/-- What `wdmalloc(n)` returns and leaves behind on a heap with the blocks `hs`
and the freelist `fl`: the new heap, its blocks and its freelist. -/
inductive Allocates (h : Heap) (n : Nat) (hs fl : List Nat) :
    Nat → Heap → List Nat → List Nat → Prop
  | fails (none : ∀ x ∈ hs, wdmIsFree h.mem x = true → sz h.mem x < n) :
      Allocates h n hs fl 0 h hs fl
  | carves {lo hi before after : List Nat} {x y : Nat} {h' : Heap} (row : hs = lo ++ x :: hi)
      (list : fl = before ++ x :: after) (best : BestFit h.mem n before x after)
      (room : n + 12 ≤ sz h.mem x) (high : y + 12 + n = x + 12 + sz h.mem x)
      (rest : hdrAt h'.mem x = { hdrAt h.mem x with sz := sz h.mem x - n - 12 })
      (made : hdrAt h'.mem y = ⟨sz h.mem x - n - 12, n ||| wdmAllocBit, wdmMagic⟩)
      (behind : ∀ z ∈ hs, z = walkNext h.mem x →
        hdrAt h'.mem z = { hdrAt h.mem z with prevSz := n })
      (others : ∀ z ∈ hs, z ≠ x → z ≠ walkNext h.mem x → hdrAt h'.mem z = hdrAt h.mem z)
      (head : h'.freelistHead = h.freelistHead) :
      Allocates h n hs fl (y + 12) h' (lo ++ x :: y :: hi) fl
  | takes {before after : List Nat} {x : Nat} {h' : Heap} (row : x ∈ hs)
      (list : fl = before ++ x :: after) (best : BestFit h.mem n before x after)
      (tight : sz h.mem x < n + 12)
      (made : hdrAt h'.mem x =
        { hdrAt h.mem x with sz := sz h.mem x ||| wdmAllocBit, lom := wdmMagic })
      (link : before ≠ [] → h'.freelistHead = h.freelistHead ∧
        hdrAt h'.mem (lastOr 0 before) =
          { hdrAt h.mem (lastOr 0 before) with lom := lom h.mem x })
      (head : before = [] → h'.freelistHead = lom h.mem x)
      (others : ∀ z ∈ hs, z ≠ x → (before ≠ [] → z ≠ lastOr 0 before) →
        hdrAt h'.mem z = hdrAt h.mem z) :
      Allocates h n hs fl (x + 12) h' hs (before ++ after)

/-- Two memories that hold the same row agree on its headers, but for the
first `prev_sz` and the links of free blocks. -/
theorem Layout.agree {m m' : Mem} {a p p' : Nat} {bs : List Block} (h : Layout m a p bs)
    (h' : Layout m' a p' bs) {z : Nat} {b : Block} (hz : (z, b) ∈ placed a bs) :
    (z = a → p' = p) → prevSz m' z = prevSz m z ∧ sz m' z = sz m z ∧
      (b.used = true → lom m' z = lom m z) := by
  intro hp
  induction bs generalizing a p p' with
  | nil => cases hz
  | cons c cs ih =>
    simp only [placed, List.mem_cons, Prod.mk.injEq] at hz
    rcases hz with ⟨rfl, rfl⟩ | hz
    · obtain ⟨⟨hp1, hs1, hl1⟩, -⟩ := h
      obtain ⟨⟨hp2, hs2, hl2⟩, -⟩ := h'
      exact ⟨by rw [hp1, hp2, hp rfl], by rw [hs1, hs2], fun hu => by rw [hl1 hu, hl2 hu]⟩
    · exact ih h.2 h'.2 hz fun _ => rfl

/-- Off the header `x` of one block, two memories agree that hold the same row
before and behind it. -/
theorem Layout.agree_off {m m' : Mem} {a p q q' x z : Nat} {b c : Block} {pre post : List Block}
    (before : Layout m a p pre) (before' : Layout m' a p pre)
    (behind : Layout m (x + 12 + c.size) q post) (behind' : Layout m' (x + 12 + c.size) q' post)
    (hx : a + span pre = x) (hz : (z, b) ∈ placed a (pre ++ c :: post)) (hne : z ≠ x)
    (hq : z = x + 12 + c.size → q' = q) :
    prevSz m' z = prevSz m z ∧ sz m' z = sz m z ∧ (b.used = true → lom m' z = lom m z) := by
  rcases placed_mid hz with ⟨-, hz⟩ | ⟨hz, -⟩ | ⟨-, hz⟩
  · exact before.agree before' hz fun _ => rfl
  · exact absurd (hz.trans hx) hne
  · rw [hx] at hz
    exact behind.agree behind' hz hq

namespace Rep
variable {h : Heap} {A : Abs}

/-- A freelist node is a free block of the size its header says. -/
theorem free_placed (r : Rep h A) {x : Nat} (hx : x ∈ A.free) :
    (x, ⟨sz h.mem x, false⟩) ∈ placed h.heapStart A.blocks := by
  obtain ⟨⟨s, u⟩, hb, hu⟩ := (r.mem_free x).mp hx
  simp only at hu
  subst hu
  rwa [show sz h.mem x = s from r.layout.sz_eq hb]

/-- Where a block is used, the two heaps agree on `lom`; where it is free, the
freelists decide. -/
theorem hdrAt_eq (r : Rep h A) {h' : Heap} {z : Nat} {b : Block} (hz : (z, b) ∈ placed h.heapStart A.blocks)
    (same : prevSz h'.mem z = prevSz h.mem z ∧ sz h'.mem z = sz h.mem z ∧
      (b.used = true → lom h'.mem z = lom h.mem z))
    (link : z ∈ A.free → lom h'.mem z = lom h.mem z) : hdrAt h'.mem z = hdrAt h.mem z := by
  obtain ⟨h1, h2, h3⟩ := same
  have h4 : lom h'.mem z = lom h.mem z := by
    cases hu : b.used with
    | true => exact h3 hu
    | false => exact link ((r.mem_free z).mpr ⟨b, hz, hu⟩)
  rw [hdrAt, hdrAt, h1, h2, h4]

/-- Whether a free block has room shows in the headers. -/
theorem none_fits_iff (r : Rep h A) {n : Nat} :
    (∀ x ∈ headers h.heapStart A.blocks, wdmIsFree h.mem x = true → sz h.mem x < n) ↔
      ∀ x s, (x, ⟨s, false⟩) ∈ placed h.heapStart A.blocks → s < n := by
  constructor
  · intro none x s hx
    have := none x (mem_headers.mpr ⟨_, hx⟩) (by rw [r.isFree hx]; rfl)
    rwa [r.layout.sz_eq hx] at this
  · intro none x hx hf
    obtain ⟨⟨s, u⟩, hb⟩ := mem_headers.mp hx
    rw [r.isFree hb, Bool.not_eq_true'] at hf
    simp only at hf
    subst hf
    rw [r.layout.sz_eq hb]
    exact none x s hb

end Rep

/-- The choice of the scan, on the sizes in memory. -/
theorem Rep.bestFit {h : Heap} {pre post : List Block} {s n : Nat} {before after : List Nat}
    (r : Rep h ⟨pre ++ ⟨s, false⟩ :: post, before ++ (h.heapStart + span pre) :: after⟩)
    (fits : n ≤ s)
    (first : ∀ y ∈ before, ∀ t, (y, ⟨t, false⟩) ∈ placed h.heapStart (pre ++ ⟨s, false⟩ :: post) →
      n ≤ t → s < t)
    (least : ∀ y ∈ after, ∀ t, (y, ⟨t, false⟩) ∈ placed h.heapStart (pre ++ ⟨s, false⟩ :: post) →
      n ≤ t → s ≤ t) :
    sz h.mem (h.heapStart + span pre) = s ∧
      BestFit h.mem n before (h.heapStart + span pre) after := by
  have hs : sz h.mem (h.heapStart + span pre) = s :=
    r.layout.sz_eq (mem_placed_mid h.heapStart pre post ⟨s, false⟩)
  refine ⟨hs, by rw [hs]; exact fits, fun y hy hn => ?_, fun y hy hn => ?_⟩
  · rw [hs]
    exact first y hy _ (r.free_placed (List.mem_append_left _ hy)) hn
  · rw [hs]
    exact least y hy _ (r.free_placed (List.mem_append_right _ (List.mem_cons_of_mem _ hy))) hn

section Headers
variable {h h' : Heap} {pre post : List Block} {s n : Nat}

/-- The headers of a row before and after its block `⟨s, false⟩` was carved. -/
theorem carved_headers {fl : List Nat} (r : Rep h ⟨pre ++ ⟨s, false⟩ :: post, fl⟩)
    (r' : Rep h' ⟨pre ++ ⟨s - n - 12, false⟩ :: ⟨n, true⟩ :: post, fl⟩)
    (hst : h'.heapStart = h.heapStart) (room : n + 12 ≤ s) {x y : Nat}
    (hx : h.heapStart + span pre = x) (hy : y + 12 + n = x + 12 + s) :
    hdrAt h'.mem x = { hdrAt h.mem x with sz := s - n - 12 } ∧
    hdrAt h'.mem y = ⟨s - n - 12, n ||| wdmAllocBit, wdmMagic⟩ ∧
    (∀ z ∈ headers h.heapStart (pre ++ ⟨s, false⟩ :: post), z = x + 12 + s →
      hdrAt h'.mem z = { hdrAt h.mem z with prevSz := n }) ∧
    ∀ z ∈ headers h.heapStart (pre ++ ⟨s, false⟩ :: post), z ≠ x → z ≠ x + 12 + s →
      hdrAt h'.mem z = hdrAt h.mem z := by
  have hs15 := r.size_lt (mem_placed_mid h.heapStart pre post ⟨s, false⟩)
  have links : ∀ z ∈ fl, lom h'.mem z = lom h.mem z :=
    fun z hz => r.chain.agree 0 r'.chain hz fun _ => rfl
  have hxfl : x ∈ fl := (r.mem_free x).mpr ⟨_, hx ▸ mem_placed_mid _ _ _ _, rfl⟩
  obtain ⟨l1, ⟨p1, s1, -⟩, l2⟩ := layout_append.mp r.layout
  have l' := r'.layout
  rw [hst] at l'
  obtain ⟨l1', ⟨p1', s1', -⟩, ⟨p2', s2', m2'⟩, l2'⟩ := layout_append.mp l'
  simp only [hx] at p1 s1 l2 p1' s1' p2' s2' m2' l2'
  rw [show x + 12 + (s - n - 12) = y by omega] at p2' s2' m2' l2'
  rw [hy] at l2'
  simp only at hs15
  have hpost : ∀ z b, (z, b) ∈ placed (x + 12 + s) post →
      (z, b) ∈ placed h.heapStart (pre ++ ⟨s, false⟩ :: post) := by
    intro z b hz
    rw [mem_placed_append, hx]
    exact Or.inr (List.mem_cons_of_mem _ hz)
  refine ⟨?_, ?_, ?_, ?_⟩
  · rw [hdrAt, hdrAt, p1', p1, s1', links x hxfl]
    rfl
  · rw [hdrAt, p2', s2', m2' trivial, raw_used, or_wdmAllocBit (by omega)]
  · rintro z hz rfl
    obtain ⟨b, hb⟩ := mem_headers.mp hz
    -- the carved block ends where `post` starts
    cases post with
    | nil =>
      have := placed_bounds hb
      simp only [span_append, span] at this
      omega
    | cons c cs =>
      have hc := hpost _ c List.mem_cons_self
      obtain ⟨⟨q1, q2, q3⟩, -⟩ := l2
      obtain ⟨⟨q1', q2', q3'⟩, -⟩ := l2'
      have hl : lom h'.mem (x + 12 + s) = lom h.mem (x + 12 + s) := by
        cases hu : c.used with
        | true => rw [q3 hu, q3' hu]
        | false => exact links _ ((r.mem_free _).mpr ⟨c, hc, hu⟩)
      rw [hdrAt, hdrAt, q1', q2', q2, hl]
  · intro z hz hne hne'
    obtain ⟨b, hb⟩ := mem_headers.mp hz
    exact r.hdrAt_eq hb (l1.agree_off l1' l2 l2' hx hb hne fun e => absurd e hne') (links z)

/-- The same where the block was taken whole. -/
theorem taken_headers {before after : List Nat}
    (r : Rep h ⟨pre ++ ⟨s, false⟩ :: post, before ++ (h.heapStart + span pre) :: after⟩)
    (r' : Rep h' ⟨pre ++ ⟨s, true⟩ :: post, before ++ after⟩)
    (hst : h'.heapStart = h.heapStart) {x : Nat} (hx : h.heapStart + span pre = x) :
    hdrAt h'.mem x = ⟨prevSz h.mem x, s ||| wdmAllocBit, wdmMagic⟩ ∧
    (before ≠ [] → h'.freelistHead = h.freelistHead ∧
      hdrAt h'.mem (lastOr 0 before) =
        { hdrAt h.mem (lastOr 0 before) with lom := lom h.mem x }) ∧
    (before = [] → h'.freelistHead = lom h.mem x) ∧
    ∀ z ∈ headers h.heapStart (pre ++ ⟨s, false⟩ :: post), z ≠ x →
      (before ≠ [] → z ≠ lastOr 0 before) → hdrAt h'.mem z = hdrAt h.mem z := by
  have hs15 := r.size_lt (mem_placed_mid h.heapStart pre post ⟨s, false⟩)
  obtain ⟨c, c1, hc, c2⟩ := seg_append.mp r.chain
  obtain ⟨c', c1', c2'⟩ := seg_append.mp r'.chain
  have hcx : c' = lom h.mem x := by
    rw [← hx]
    exact c2.start_eq c2' fun _ => rfl
  obtain ⟨l1, ⟨p1, s1, -⟩, l2⟩ := layout_append.mp r.layout
  have l' := r'.layout
  rw [hst] at l'
  obtain ⟨l1', ⟨p1', s1', m1'⟩, l2'⟩ := layout_append.mp l'
  simp only [hx] at p1 s1 l2 p1' s1' m1' l2'
  simp only at hs15
  -- every header but `x` keeps its sizes, and its magic if it has one
  have rest : ∀ z b, (z, b) ∈ placed h.heapStart (pre ++ ⟨s, false⟩ :: post) → z ≠ x →
      prevSz h'.mem z = prevSz h.mem z ∧ sz h'.mem z = sz h.mem z ∧
        (b.used = true → lom h'.mem z = lom h.mem z) :=
    fun z b hb hne => l1.agree_off l1' l2 l2' hx hb hne fun _ => rfl
  refine ⟨?_, fun hne => ?_, fun he => ?_, fun z hz hne hlast => ?_⟩
  · rw [hdrAt, p1', p1, s1', m1' trivial, raw_used, or_wdmAllocBit hs15]
  · have hmem : lastOr 0 before ∈ before := lastOr_mem hne
    obtain ⟨b, hb, -⟩ := (r.mem_free _).mp (List.mem_append_left _ hmem)
    have hnx : lastOr 0 before ≠ x := by
      intro e
      exact (List.nodup_append.mp r.nodup).2.2 _ hmem _ List.mem_cons_self (e.trans hx.symm)
    obtain ⟨h1, h2, -⟩ := rest _ b hb hnx
    exact ⟨c1.start_eq c1' fun e => absurd e hne,
      by rw [hdrAt, hdrAt, h1, h2, c1'.last hne, hcx]⟩
  · subst he
    exact (show h'.freelistHead = c' from c1').trans hcx
  · obtain ⟨b, hb⟩ := mem_headers.mp hz
    apply r.hdrAt_eq hb (rest z b hb hne)
    intro hfl
    rcases List.mem_append.mp hfl with hm | hm
    · exact c1.agree 0 c1' hm fun e => absurd e (hlast (List.ne_nil_of_mem hm))
    · rcases List.mem_cons.mp hm with rfl | hm
      · exact absurd hx hne
      · exact c2.agree 0 c2' hm fun _ => rfl

end Headers

/-- Every block `wdmalloc` may leave behind, read off the two rows. -/
theorem Malloc.allocates {h h' : Heap} {A A' : Abs} {n p : Nat} (hm : Malloc h.heapStart n A p A')
    (r : Rep h A) (b : Becomes h A h' A') (hnull : p = 0 → h' = h) :
    Allocates h n (headers h.heapStart A.blocks) A.free p h'
      (headers h'.heapStart A'.blocks) A'.free := by
  have hst := b.start
  cases hm with
  | fail none =>
    obtain rfl := hnull rfl
    exact .fails (r.none_fits_iff.mpr none)
  | @carve pre post s before after room first least =>
    obtain ⟨hs, best⟩ := r.bestFit (by omega) first least
    have hwalk : walkNext h.mem (h.heapStart + span pre) = h.heapStart + span pre + 12 + s := by
      rw [walkNext, r.actualSize (mem_placed_mid h.heapStart pre post ⟨s, false⟩)]
    obtain ⟨c1, c2, c3, c4⟩ := carved_headers r b.rep hst room rfl
      (show h.heapStart + span pre + 12 + (s - n - 12) + 12 + n = h.heapStart + span pre + 12 + s by omega)
    have hrow : headers h'.heapStart (pre ++ ⟨s - n - 12, false⟩ :: ⟨n, true⟩ :: post) =
        headers h.heapStart pre ++ (h.heapStart + span pre) ::
          (h.heapStart + span pre + 12 + (s - n - 12)) ::
          headers (h.heapStart + span pre + 12 + s) post := by
      rw [hst, headers_append, headers_cons, headers_cons]
      simp only
      rw [show h.heapStart + span pre + 12 + (s - n - 12) + 12 + n =
        h.heapStart + span pre + 12 + s by omega]
    rw [hrow]
    refine .carves (by rw [headers_append, headers_cons]) rfl best (by omega) (by omega) ?_ ?_ ?_ ?_ ?_
    · rw [hs]
      exact c1
    · rw [hs]
      exact c2
    · rw [hwalk]
      exact c3
    · rw [hwalk]
      exact c4
    · exact r.chain.start_eq b.rep.chain fun _ => rfl
  | @whole pre post s before after room tight first least =>
    obtain ⟨hs, best⟩ := r.bestFit room first least
    obtain ⟨c1, c2, c3, c4⟩ := taken_headers r b.rep hst rfl
    rw [hst, headers_mark _ s true false]
    refine .takes (mem_headers_mid _ _ _ _) rfl best (by omega) ?_ c2 c3 c4
    rw [hs]
    exact c1

section Run
variable {start size fuel : Nat} {w : World}

/-- In every run `wdmalloc` is exact best fit: null when no free block has
room, else the block that best fit picks, carved or taken whole. -/
theorem wdmalloc_best_fit (hstart : 0 < start) (hwrap : start + size < 2 ^ 64)
    (hlarge : 12 < size) (hsmall : size ≤ 32779) (hfuel : 2732 ≤ fuel)
    (run : Reach (Booted start size) Admissible (World.step fuel) w) (n : UInt16) :
    ∃ hs fl p h' hs' fl', WellFormed w.heap hs fl ∧
      wdmalloc fuel w.heap n.toNat = .ok (p, h') ∧ WellFormed h' hs' fl' ∧
      Allocates w.heap n.toNat hs fl p h' hs' fl' ∧
      (p = 0 ↔ ∀ x ∈ hs, wdmIsFree w.heap.mem x = true → sz w.heap.mem x < n.toNat) := by
  rcases live_in_run hwrap hlarge hsmall hfuel run with ⟨A, H, hlen⟩ | ⟨h0, -⟩
  · obtain ⟨p, h', A', hcall, hm, b, hnull⟩ := wdmalloc_spec H.rep n.toNat hlen
    refine ⟨_, _, p, h', _, _, H.rep.wellFormed, hcall, b.rep.wellFormed,
      hm.allocates H.rep b hnull, fun hp x hx hf => ?_, fun hno => ?_⟩
    · exact H.rep.none_fits_iff.mpr (hm.null hp).2 x hx hf
    · by_contra hp
      obtain ⟨x, s, -, hx, hn⟩ := hm.found hp
      have := H.rep.none_fits_iff.mp hno x s hx
      omega
  · omega

theorem wdmalloc_best_fit_between_blocks :
    ∃ w, Reach (Booted 4096 200) Admissible (World.step 2732) w ∧
      ∃ hs fl p h' hs' fl', WellFormed w.heap hs fl ∧ wdmalloc 2732 w.heap 8 = .ok (p, h') ∧
        WellFormed h' hs' fl' ∧ Allocates w.heap 8 hs fl p h' hs' fl' ∧
        (p = 0 ↔ ∀ x ∈ hs, wdmIsFree w.heap.mem x = true → sz w.heap.mem x < 8) := by
  obtain ⟨w, run, -⟩ := reach_played 4096 (show 12 < 200 by decide)
    (fun w c => decide (Admissible w c)) (fun _ => true)
    [.malloc 20, .malloc 20, .malloc 20, .free 4212] (fun _ _ h => of_decide_eq_true h)
    (by decide +kernel)
  exact ⟨w, run, wdmalloc_best_fit (by decide) (by decide) (by decide) (by decide) (by decide) run 8⟩

end Run

end WaddleOS
