import WaddleOS.Heap.Client

/-!
# Every move of the client

Each kind of call has one lemma that says it is a `Stepped` move, and
`World.step_spec` joins them: from a state in which the book and the row
agree, every admissible move ends, without a failed assertion, in such a state.
-/

namespace WaddleOS

section Resize
variable {w : World} {A A' : Abs} {h' : Heap} {x p r n : Nat} {d : Nat → Option UInt8}

/-- The block `p` leaves the book and the block `r`, if any, enters it. -/
theorem exchange_holds (H : Holds w A) (eff : Effect w.heap A x h' A') (hp : p = x + 12)
    (new : r ≠ 0 → ∃ y s, r = y + 12 ∧ n ≤ s ∧ UsedAt w.heap.heapStart A'.blocks y s ∧
      (y = x ∨ ∀ t, ¬ UsedAt w.heap.heapStart A.blocks y t))
    (there : r ≠ 0 → ∀ i v, d i = some v → i < n ∧ h'.mem.get (r + i) = v) :
    Holds ⟨h', hold (drop w.held p) r n d⟩ A' := by
  refine ⟨eff.rep, ?_, ?_⟩
  · apply nodup_hold (nodup_drop p H.nodup)
    intro hr hmem
    obtain ⟨y, s, hy, -, -, hplace⟩ := new hr
    obtain ⟨e, he, hep⟩ := List.mem_map.mp hmem
    obtain ⟨he, hne⟩ := mem_drop.mp he
    obtain ⟨z, t, hz, hu, -⟩ := H.stands e he
    rcases hplace with rfl | hfresh
    · omega
    · exact hfresh t (by rwa [show y = z by omega])
  · intro e he
    rcases mem_hold.mp he with he | ⟨hr, rfl⟩
    · obtain ⟨he, hne⟩ := mem_drop.mp he
      exact (H.stands e he).kept eff (by omega)
    · obtain ⟨y, s, hy, hns, hu, -⟩ := new hr
      refine ⟨y, s, hy, by rw [eff.start]; exact hu, fun i v hv => ?_⟩
      obtain ⟨hi, hg⟩ := there hr i v hv
      exact ⟨by omega, hg⟩

theorem exchange_fits (eff : Effect w.heap A x h' A') (hp : p = x + 12)
    (new : r ≠ 0 → ∃ y s, r = y + 12 ∧ n ≤ s ∧ UsedAt w.heap.heapStart A'.blocks y s ∧
      (y = x ∨ ∀ t, ¬ UsedAt w.heap.heapStart A.blocks y t))
    (hfits : ∀ e ∈ w.held, e.Fits w.heap A) :
    ∀ e ∈ hold (drop w.held p) r n d, e.Fits h' A' := by
  intro e he
  rcases mem_hold.mp he with he | ⟨hr, rfl⟩
  · obtain ⟨he, hne⟩ := mem_drop.mp he
    exact (hfits e he).kept eff (by omega)
  · obtain ⟨y, s, hy, hns, hu, -⟩ := new hr
    exact ⟨y, s, hy, by rw [eff.start]; exact hu, hns⟩

theorem exchange_exact (eff : Effect w.heap A x h' A') (hp : p = x + 12)
    (gone : ∀ y t, UsedAt w.heap.heapStart A'.blocks y t →
      (UsedAt w.heap.heapStart A.blocks y t ∧ y ≠ x) ∨ (r ≠ 0 ∧ r = y + 12))
    (hex : Exact w A) : Exact ⟨h', hold (drop w.held p) r n d⟩ A' := by
  intro y t hu
  simp only [eff.start] at hu
  rcases gone y t hu with ⟨hu, hne⟩ | ⟨hr, hy⟩
  · obtain ⟨e, he, hep⟩ := List.mem_map.mp (hex y t hu)
    refine List.mem_map.mpr ⟨e, mem_hold.mpr (Or.inl (mem_drop.mpr ⟨he, ?_⟩)), hep⟩
    omega
  · exact List.mem_map.mpr ⟨_, mem_hold.mpr (Or.inr ⟨hr, rfl⟩), hy⟩

/-- The block `p` leaves the book. -/
theorem leave_holds (H : Holds w A) (eff : Effect w.heap A x h' A') (hp : p = x + 12) :
    Holds ⟨h', drop w.held p⟩ A' :=
  exchange_holds (r := 0) (n := 0) (d := fun _ => none) H eff hp (fun h0 => absurd rfl h0)
    fun h0 => absurd rfl h0

theorem leave_fits (eff : Effect w.heap A x h' A') (hp : p = x + 12)
    (hfits : ∀ e ∈ w.held, e.Fits w.heap A) : ∀ e ∈ drop w.held p, e.Fits h' A' :=
  exchange_fits (r := 0) (n := 0) (d := fun _ => none) eff hp (fun h0 => absurd rfl h0) hfits

theorem leave_exact (eff : Effect w.heap A x h' A') (hp : p = x + 12)
    (gone : ∀ y t, UsedAt w.heap.heapStart A'.blocks y t →
      UsedAt w.heap.heapStart A.blocks y t ∧ y ≠ x) (hex : Exact w A) :
    Exact ⟨h', drop w.held p⟩ A' :=
  exchange_exact (r := 0) (n := 0) (d := fun _ => none) eff hp
    (fun y t hu => Or.inl (gone y t hu)) hex

theorem effect_frame (eff : Effect w.heap A x h' A') (hp : p = x + 12) :
    ∀ e ∈ w.held, e.ptr ≠ p → ∀ y s, e.ptr = y + 12 → UsedAt w.heap.heapStart A.blocks y s →
      ∀ i, i < s → h'.mem.get (e.ptr + i) = w.heap.mem.get (e.ptr + i) := by
  intro e _ hne y s hy hu i hi
  rw [hy]
  exact (eff.kept y s hu (by omega)).2 i hi

end Resize

section Free
variable {w : World} {A : Abs} {p fuel : Nat}

/-- Nothing happens to the heap and `p`, null, is not in the book. -/
theorem stepped_null (H : Holds w A) (c : Call) : Stepped w A c w A :=
  ⟨H, rfl, rfl, fun _ _ _ _ _ _ _ _ _ => rfl, fun _ hf => hf, fun _ hex => hex, fun _ hs => hs⟩

theorem wdfree_null (H : Holds w A) : wdfree fuel w.heap 0 = .ok w.heap := by
  have hnn := H.rep.arena.nonnull
  unfold wdfree
  by_cases hr : notReady w.heap = true
  · rw [if_pos hr]
  · rw [if_neg hr, if_pos (H.rep.arena.notInHeap (Or.inl hnn))]

theorem free_stepped (H : Holds w A) (hp : p = 0 ∨ p ∈ w.ptrs) (hfuel : A.free.length < fuel) :
    ∃ w' A', w.step fuel (.free p) = .ok w' ∧ Stepped w A (.free p) w' A' := by
  rcases hp with rfl | hp
  · refine ⟨w, A, ?_, stepped_null H _⟩
    simp only [World.step, wdfree_null H, drop_eq_self H.null_not_held]
    rfl
  obtain ⟨pre, s, post, hrow, hat⟩ := H.locate hp
  obtain ⟨blocks, fl⟩ := A
  simp only at hrow hfuel
  subst hrow
  have hspec := wdfree_spec H.rep hfuel
  rw [← hat] at hspec
  rcases hspec with ⟨hstuck, hcall⟩ | ⟨-, h', A', hcall, hrel, hbec⟩
  · have eff := Effect.refl (w.heap.heapStart + span pre) H.rep
    refine ⟨⟨w.heap, drop w.held p⟩, _, ?_, leave_holds H eff hat, rfl, rfl, effect_frame eff hat,
      fun _ => leave_fits eff hat, fun hok => ?_, fun _ hs => hs⟩
    · simp only [World.step, hcall]
      rfl
    · have hpos := H.rep.arena.nonnull
      have hh := H.rep.head_zero
      simp only at hh
      simp only [Releases, ne_eq, hh] at hok
      rcases hok with h0 | ⟨hfl, hend⟩
      · omega
      · rcases hstuck with hs | hs
        · exact absurd hs hfl
        · omega
  · have eff := Release.effect H.rep hrel hbec
    refine ⟨⟨h', drop w.held p⟩, A', ?_, leave_holds H eff hat, hbec.start, hbec.size,
      effect_frame eff hat, fun _ => leave_fits eff hat,
      fun _ => leave_exact eff hat fun y t => (hrel.used y t).mp, fun _ => hrel.spread⟩
    simp only [World.step, hcall]
    rfl

end Free

section Realloc
variable {w : World} {A : Abs} {p fuel : Nat}

/-- A move that the state before it allows to be completed does not leak. -/
theorem not_leaks {h : Heap} {pre post : List Block} {c : Nat} {n : UInt16} {fl : List Nat}
    (r : Rep h ⟨pre ++ ⟨c, true⟩ :: post, fl⟩)
    (ok : Releases h (.realloc (h.heapStart + span pre + 12) n)) :
    ¬ Leaks h.heapStart n.toNat c pre post fl := by
  rintro ⟨larger, ⟨noNext, noPrev, noBoth⟩, q, A1, hm, hq, hstuck⟩
  have hact := r.actualSize (mem_placed_mid h.heapStart pre post ⟨c, true⟩)
  have ht : span pre + (12 + c + span post) = h.heapSize := by simpa [span] using r.total
  simp only at hact
  have hx : h.heapStart + span pre + 12 - 12 = h.heapStart + span pre := by omega
  simp only [Releases, hx, hact] at ok
  rcases ok with h0 | ⟨-, ok⟩
  · omega
  have fit : Fitting h n.toNat := by
    obtain ⟨x, s, hx, hs, hns⟩ := hm.found hq
    have hsz : sz h.mem x = s := r.layout.sz_eq hs
    exact ⟨fl, r.chain, x, hx, by rwa [hsz]⟩
  obtain ⟨hend, hlast⟩ := ok larger (reposition_none r noNext noPrev noBoth) fit
  rcases hstuck with hempty | ⟨rfl, rfl⟩
  · obtain ⟨x, s, hfl, hs, hsn⟩ := hm.emptied hq hempty
    have hsz : sz h.mem x = s := r.layout.sz_eq hs
    have hchain := r.chain
    simp only at hfl
    subst hfl
    have hhead : h.freelistHead = x := hchain.1
    have hnext : lom h.mem x = 0 := hchain.2
    rw [hhead] at hlast
    omega
  · simp only [span] at ht
    omega

theorem not_strands {h : Heap} {pre post : List Block} {c : Nat} {n : UInt16} {fl : List Nat}
    (r : Rep h ⟨pre ++ ⟨c, true⟩ :: post, fl⟩)
    (ok : Merges h (.realloc (h.heapStart + span pre + 12) n)) :
    ¬ Strands n.toNat c pre post := by
  rintro ⟨larger, noNext, hstart, pre', p, rfl, hroom⟩
  have hact := r.actualSize (mem_placed_mid h.heapStart (pre' ++ [⟨p, false⟩]) post ⟨c, true⟩)
  simp only at hact
  have hx : h.heapStart + span (pre' ++ [⟨p, false⟩]) + 12 - 12 =
      h.heapStart + span (pre' ++ [⟨p, false⟩]) := by omega
  simp only [Merges, hx, hact] at ok
  rcases ok with h0 | ok
  · omega
  obtain ⟨h1, h2⟩ := r.next_free_iff.mpr hstart
  obtain ⟨h3, h4⟩ := r.prev_free_iff.mpr ⟨pre', p, rfl⟩
  refine ok ⟨larger, h1, h2, ?_, h3, h4, ?_⟩
  · by_contra hfit
    exact noNext (r.fits_next.mp ⟨h1, h2, by omega⟩)
  · rw [r.prev_value.1, r.prev_value.2]
    exact hroom

/-- A resize that is completed leaves used what was used, but for its own block,
and the new block. -/
theorem realloc_left {h : Heap} {pre post : List Block} {c r : Nat} {n : UInt16} {fl : List Nat}
    {A' : Abs} (rep : Rep h ⟨pre ++ ⟨c, true⟩ :: post, fl⟩)
    (hr : Realloc h.heapStart n.toNat c pre post fl r A') (hdone : ¬ (r = 0 ∧ n.toNat ≠ 0))
    (ok : Releases h (.realloc (h.heapStart + span pre + 12) n)) (y t : Nat)
    (hy : UsedAt h.heapStart A'.blocks y t) :
    (UsedAt h.heapStart (pre ++ ⟨c, true⟩ :: post) y t ∧ y ≠ h.heapStart + span pre) ∨
      (r ≠ 0 ∧ r = y + 12) := by
  by_cases h0 : r = 0
  · have hn : n.toNat = 0 := by
      by_contra hn
      exact hdone ⟨h0, hn⟩
    have hready : fl ≠ [] := by
      rcases ok with h0' | ⟨hzero, -⟩
      · omega
      · exact fun he => (hzero hn).1 (rep.head_zero.mpr he)
    rcases hr.null h0 with ⟨-, hno⟩ | ⟨-, -, hrel⟩
    · rcases hno with hno | hno
      · exact absurd hno hready
      · omega
    · exact Or.inl ((hrel.used y t).mp hy)
  · obtain ⟨z, s, hz, -, -, -, hgone⟩ := hr.used h0
    rcases (hgone.resolve_left (not_leaks rep ok)) y t hy with hy | rfl
    · exact Or.inl hy
    · exact Or.inr ⟨h0, hz⟩

/-- A `wdrealloc` of a held block. -/
theorem realloc_stepped (H : Holds w A) {p : Nat} (n : UInt16) (hp : p ∈ w.ptrs)
    (hfuel : A.free.length < fuel) :
    ∃ w' A', w.step fuel (.realloc p n) = .ok w' ∧ Stepped w A (.realloc p n) w' A' := by
  obtain ⟨pre, c, post, hrow, rfl⟩ := H.locate hp
  obtain ⟨blocks, fl⟩ := A
  simp only at hrow hfuel
  subst hrow
  obtain ⟨r, h', A', hcall, hr, hre⟩ := wdrealloc_spec H.rep n.toNat hfuel
  have eff := hre.effect
  by_cases hfail : r = 0 ∧ n.toNat ≠ 0
  · obtain ⟨rfl, hn⟩ := hfail
    have hsame := hre.failed rfl (by omega)
    subst hsame
    refine ⟨w, ⟨pre ++ ⟨c, true⟩ :: post, fl⟩, ?_, stepped_null H _⟩
    simp only [World.step, hcall]
    change (if 0 = 0 ∧ n.toNat ≠ 0 then _ else _) = _
    rw [if_pos ⟨rfl, hn⟩]
    rfl
  obtain ⟨e, he, hep⟩ := List.mem_map.mp hp
  have hdata : dataOf w.held (w.heap.heapStart + span pre + 12) = e.data := by
    rw [← hep]
    exact dataOf_eq H.nodup he
  obtain ⟨x, s, hx, hu, hd⟩ := H.stands e he
  have hown : UsedAt w.heap.heapStart (pre ++ ⟨c, true⟩ :: post) (w.heap.heapStart + span pre) c :=
    mem_placed_mid _ _ _ _
  have hxp : x = w.heap.heapStart + span pre := by omega
  have hs : s = c := by
    rw [hxp] at hu
    exact hu.size_eq hown
  have new : r ≠ 0 → ∃ y s, r = y + 12 ∧ n.toNat ≤ s ∧ UsedAt w.heap.heapStart A'.blocks y s ∧
      (y = w.heap.heapStart + span pre ∨
        ∀ t, ¬ UsedAt w.heap.heapStart (pre ++ ⟨c, true⟩ :: post) y t) := by
    intro h0
    obtain ⟨y, s, hy, hns, hu, hplace, -⟩ := hr.used h0
    exact ⟨y, s, hy, hns, hu, hplace⟩
  have there : r ≠ 0 → ∀ i v, carry e.data n.toNat i = some v →
      i < n.toNat ∧ h'.mem.get (r + i) = v := by
    intro h0 i v hv
    unfold carry at hv
    by_cases hi : i < n.toNat
    · rw [if_pos hi] at hv
      obtain ⟨hic, hg⟩ := hd i v hv
      refine ⟨hi, ?_⟩
      rw [hre.carried h0 i (by omega) hi, ← hep]
      exact hg
    · rw [if_neg hi] at hv
      cases hv
  refine ⟨⟨h', hold (drop w.held (w.heap.heapStart + span pre + 12)) r n.toNat
      (carry e.data n.toNat)⟩, A', ?_, exchange_holds H eff rfl new there, eff.start, eff.size,
    effect_frame eff rfl, fun _ => exchange_fits eff rfl new, fun hok => ?_, fun hok hsp => ?_⟩
  · simp only [World.step, hcall, hdata]
    change (if r = 0 ∧ n.toNat ≠ 0 then _ else _) = _
    rw [if_neg hfail]
    rfl
  · exact exchange_exact eff rfl (realloc_left H.rep hr hfail hok)
  · exact hr.spread hsp (not_strands H.rep hok)

end Realloc

theorem ptrs_put (held : List Held) (p i : Nat) (v : UInt8) :
    (put held p i v).map Held.ptr = held.map Held.ptr := by
  unfold put
  rw [List.map_map]
  apply List.map_congr_left
  intro e _
  simp only [Function.comp]
  split <;> rfl

section Write
variable {w : World} {A : Abs} {p i : Nat}

/-- Each held block stands after a byte of the one at `x` was written in memory
and in the book, if no other block saw it. -/
theorem stands_put {h : Heap} {A : Abs} {m : Mem} {x c : Nat} {v : UInt8} {e : Held}
    (hown : UsedAt h.heapStart A.blocks x c) (hi : i < c)
    (hset : ∀ j, j < c → m.get (x + 12 + j) = if j = i then v else h.mem.get (x + 12 + j))
    (hother : ∀ y s, y ≠ x → UsedAt h.heapStart A.blocks y s → ∀ j, j < s →
      m.get (y + 12 + j) = h.mem.get (y + 12 + j)) (he : e.Stands h A) :
    (if e.ptr = x + 12 then { e with data := fun j => if j = i then some v else e.data j }
      else e).Stands { h with mem := m } A := by
  obtain ⟨y, s, hy, hu, hd⟩ := he
  by_cases hep : e.ptr = x + 12
  · obtain rfl : y = x := by omega
    obtain rfl := hu.size_eq hown
    rw [if_pos hep]
    refine ⟨y, s, hep, hu, fun j u hj => ?_⟩
    simp only at hj ⊢
    rw [hep]
    by_cases hji : j = i
    · rw [if_pos hji] at hj
      have hjs : j < s := by omega
      rw [hset j hjs, if_pos hji]
      exact ⟨hjs, Option.some.inj hj⟩
    · rw [if_neg hji] at hj
      obtain ⟨hjs, hg⟩ := hd j u hj
      rw [hset j hjs, if_neg hji, ← hep]
      exact ⟨hjs, hg⟩
  · rw [if_neg hep]
    refine ⟨y, s, hy, hu, fun j u hj => ?_⟩
    obtain ⟨hjs, hg⟩ := hd j u hj
    refine ⟨hjs, ?_⟩
    rw [hy] at hg ⊢
    exact (hother y s (by omega) hu j hjs).trans hg

/-- A write inside a held block: no header and no other block sees it. -/
theorem write_stepped (H : Holds w A) (v : UInt8) (hp : p ∈ w.ptrs)
    (hi : i < wdmActualSize w.heap.mem (p - 12)) :
    Stepped w A (.write p i v)
      ⟨{ w.heap with mem := w.heap.mem.set (p + i) v }, put w.held p i v⟩ A := by
  have hb := H.rep.arena.bound
  obtain ⟨pre, c, post, hrow, rfl⟩ := H.locate hp
  have hown : UsedAt w.heap.heapStart A.blocks (w.heap.heapStart + span pre) c := by
    rw [hrow]
    exact mem_placed_mid _ _ _ _
  have hact := H.rep.actualSize hown
  have hbd := H.rep.bound hown
  simp only [Nat.add_sub_cancel] at hact hi hbd
  rw [hact] at hi
  generalize hx : w.heap.heapStart + span pre = x at *
  have get_at : ∀ a, a < 2 ^ 64 → (w.heap.mem.set (x + 12 + i) v).get a =
      if a = x + 12 + i then v else w.heap.mem.get a :=
    fun a ha => get_set_at w.heap.mem v (by omega) ha
  have so : SameOutside (x + 12) (x + 12 + c) w.heap.mem (w.heap.mem.set (x + 12 + i) v) := by
    intro a ha hout
    rw [get_at a ha, if_neg (by omega)]
  have rep := H.rep.payload hown so
  have hother : ∀ y s, y ≠ x → UsedAt w.heap.heapStart A.blocks y s → ∀ j, j < s →
      (w.heap.mem.set (x + 12 + i) v).get (y + 12 + j) = w.heap.mem.get (y + 12 + j) := by
    intro y s hne hy j hj
    have hap := placed_apart hown hy
    have hyb := H.rep.bound hy
    simp only at hap hyb
    rw [get_at _ (by omega), if_neg (by omega)]
  refine ⟨⟨rep, ?_, ?_⟩, rfl, rfl, ?_, ?_, ?_, fun _ hs => hs⟩
  · have := H.nodup
    rwa [World.ptrs, ptrs_put]
  · intro e' he'
    obtain ⟨e, he, rfl⟩ := List.mem_map.mp he'
    refine stands_put hown hi (fun j hj => ?_) hother (H.stands e he)
    rw [get_at _ (by omega)]
    simp only [Nat.add_left_cancel_iff]
  · intro e _ hne y s hy hu j hj
    simp only [Call.ptr] at hne
    rw [hy]
    exact hother y s (by omega) hu j hj
  · intro _ hf e' he'
    obtain ⟨e, he, rfl⟩ := List.mem_map.mp he'
    obtain ⟨y, s, hy, hu, hr⟩ := hf e he
    by_cases hep : e.ptr = x + 12
    · rw [if_pos hep]
      exact ⟨y, s, hy, hu, hr⟩
    · rw [if_neg hep]
      exact ⟨y, s, hy, hu, hr⟩
  · intro _ hex y s hu
    have := hex y s hu
    rwa [World.ptrs, ptrs_put]

end Write

theorem calloc_stepped {w : World} {A : Abs} {fuel : Nat} (H : Holds w A) (num : UInt64)
    (n : UInt16) (hfuel : A.free.length < fuel) :
    ∃ w' A', w.step fuel (.calloc num n) = .ok w' ∧ Stepped w A (.calloc num n) w' A' := by
  by_cases hfail : notReady w.heap = true ∨ 2 ^ 16 - 1 < num.toNat * n.toNat % 2 ^ 64
  · refine ⟨w, A, ?_, stepped_null H _⟩
    simp only [World.step, wdcalloc_eq, if_pos hfail]
    rfl
  · obtain ⟨p, h', A', hcall, hm, hbec, -⟩ :=
      wdmalloc_spec H.rep (num.toNat * n.toNat % 2 ^ 64) hfuel
    refine ⟨_, A', ?_, malloc_stepped H _ (num.toNat * n.toNat) hm hbec fun hw => ?_⟩
    · simp only [World.step, wdcalloc_eq, if_neg hfail, hcall]
      rfl
    · have hw' : num.toNat * n.toNat < 2 ^ 64 := hw
      rw [Nat.mod_eq_of_lt hw']

/-- A null pointer makes `wdrealloc` an allocation. -/
theorem wdrealloc_null (fuel : Nat) (h : Heap) (n : Nat) :
    wdrealloc fuel h 0 n = wdmalloc fuel h n := by
  unfold wdrealloc
  by_cases hr : notReady h = true
  · rw [if_pos hr, wdmalloc, if_pos hr]
  · rw [if_neg hr, if_pos rfl]

/-- Every admissible move ends and keeps the book and the row in step. -/
theorem World.step_spec {w : World} {A : Abs} {fuel : Nat} (H : Holds w A) (c : Call)
    (adm : Admissible w c) (hfuel : A.free.length < fuel) :
    ∃ w' A', w.step fuel c = .ok w' ∧ Stepped w A c w' A' := by
  cases c with
  | malloc n =>
    obtain ⟨p, h', A', hcall, hm, hbec, -⟩ := wdmalloc_spec H.rep n.toNat hfuel
    refine ⟨_, A', ?_, malloc_stepped H (.malloc n) n.toNat hm hbec fun _ => Nat.le_refl _⟩
    simp only [World.step, hcall]
    rfl
  | calloc num n => exact calloc_stepped H num n hfuel
  | realloc p n =>
    rcases adm with rfl | hp
    · obtain ⟨p, h', A', hcall, hm, hbec, hnull⟩ := wdmalloc_spec H.rep n.toNat hfuel
      have hs := malloc_stepped H (.realloc 0 n) n.toNat hm hbec fun _ => Nat.le_refl _
      refine ⟨_, A', ?_, hs⟩
      simp only [World.step, wdrealloc_null, hcall, drop_eq_self H.null_not_held,
        dataOf_none H.null_not_held]
      change (if p = 0 ∧ n.toNat ≠ 0 then _ else _) = _
      by_cases hf : p = 0 ∧ n.toNat ≠ 0
      · rw [if_pos hf, hf.1]
        rfl
      · rw [if_neg hf]
        have : (carry (fun _ => none) n.toNat) = fun _ => none := by
          funext i
          unfold carry
          split <;> rfl
        rw [this]
        rfl
    · exact realloc_stepped H n hp hfuel
  | free p => exact free_stepped H adm hfuel
  | write p i v => exact ⟨_, A, rfl, write_stepped H v adm.1 adm.2⟩

end WaddleOS
