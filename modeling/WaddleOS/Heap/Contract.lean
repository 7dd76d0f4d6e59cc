import WaddleOS.Heap.BestFit

/-!
# What a caller may rely on

A call that asks for memory and is answered with null has changed nothing.
`wdcalloc` does not write to the block it returns, so whether that block reads
as zero is decided by what best fit finds there.
-/

namespace WaddleOS

/-- The call asks for memory and is answered with null. -/
def Call.Fails (fuel : Nat) (w : World) (h' : Heap) : Call → Prop
  | .malloc n => wdmalloc fuel w.heap n.toNat = .ok (0, h')
  | .calloc num n => wdcalloc fuel w.heap num.toNat n.toNat = .ok (0, h')
  | .realloc p n => (p = 0 ∨ (p ∈ w.ptrs ∧ 0 < n.toNat)) ∧
      wdrealloc fuel w.heap p n.toNat = .ok (0, h')
  | _ => False

/-- A refused call leaves the client where it was. -/
theorem Call.Fails.step {fuel : Nat} {w : World} {c : Call} (hf : c.Fails fuel w w.heap)
    (hnull : 0 ∉ w.ptrs) : w.step fuel c = .ok w := by
  cases c with
  | malloc n =>
    simp only [Call.Fails] at hf
    simp only [World.step, hf]
    rfl
  | calloc num n =>
    simp only [Call.Fails] at hf
    simp only [World.step, hf]
    rfl
  | realloc p n =>
    obtain ⟨hp, hf⟩ := hf
    simp only [World.step, hf]
    change (if 0 = 0 ∧ n.toNat ≠ 0 then Except.ok w else _) = _
    by_cases hn : n.toNat = 0
    · rw [if_neg fun hc => hc.2 hn, hp.resolve_right fun hc => absurd hn (by omega),
        drop_eq_self hnull]
      rfl
    · rw [if_pos ⟨rfl, hn⟩]
  | free p => exact hf.elim
  | write p i v => exact hf.elim

/-- A refused call leaves a live heap as it was. -/
theorem Call.Fails.unchanged {fuel : Nat} {w : World} {A : Abs} {h' : Heap} {c : Call}
    (H : Holds w A) (hfuel : A.free.length < fuel) (hf : c.Fails fuel w h') : h' = w.heap := by
  have malloc : ∀ n, wdmalloc fuel w.heap n = .ok (0, h') → h' = w.heap := by
    intro n hcall
    obtain ⟨p, k, A', hcall', -, -, hnull⟩ := wdmalloc_spec H.rep n hfuel
    rw [hcall] at hcall'
    cases hcall'
    exact hnull rfl
  cases c with
  | malloc n => exact malloc _ hf
  | calloc num n =>
    simp only [Call.Fails, wdcalloc_eq] at hf
    split at hf
    · cases hf
      rfl
    · exact malloc _ hf
  | realloc p n =>
    obtain ⟨rfl | ⟨hp, hn⟩, hcall⟩ := hf
    · rw [wdrealloc_null] at hcall
      exact malloc _ hcall
    · obtain ⟨pre, c, post, hrow, rfl⟩ := H.locate hp
      obtain ⟨blocks, fl⟩ := A
      simp only at hrow hfuel
      subst hrow
      obtain ⟨r, k, A', hcall', -, done⟩ := wdrealloc_spec H.rep n.toNat hfuel
      rw [hcall] at hcall'
      cases hcall'
      exact done.failed rfl hn
  | free p => exact hf.elim
  | write p i v => exact hf.elim

section Run
variable {start size fuel : Nat} {w : World}

/-- In every run a call that asks for memory and is answered with null changes
neither the heap nor what the client holds. -/
theorem failed_call_changes_nothing (hwrap : start + size < 2 ^ 64) (hlarge : 12 < size)
    (hsmall : size ≤ 32779) (hfuel : 2732 ≤ fuel)
    (run : Reach (Booted start size) Admissible (World.step fuel) w) (c : Call) (h' : Heap)
    (hf : c.Fails fuel w h') : h' = w.heap ∧ w.step fuel c = .ok w := by
  rcases live_in_run hwrap hlarge hsmall hfuel run with ⟨A, H, hlen⟩ | ⟨-, d⟩
  · have he := hf.unchanged H hlen
    subst he
    exact ⟨rfl, hf.step H.null_not_held⟩
  · have hr : notReady w.heap = true := by simp [notReady, d.start]
    have hptrs : w.ptrs = [] := by
      rw [World.ptrs, d.empty]
      rfl
    have he : h' = w.heap := by
      cases c with
      | malloc n =>
        simp only [Call.Fails, wdmalloc, if_pos hr] at hf
        cases hf
        rfl
      | calloc num n =>
        simp only [Call.Fails, wdcalloc, if_pos hr] at hf
        cases hf
        rfl
      | realloc p n =>
        simp only [Call.Fails, wdrealloc, if_pos hr] at hf
        cases hf.2
        rfl
      | free p => exact hf.elim
      | write p i v => exact hf.elim
    subst he
    exact ⟨rfl, hf.step (by rw [hptrs]; exact List.not_mem_nil)⟩

theorem failed_realloc_changes_nothing :
    ∃ w, Reach (Booted 4096 200) Admissible (World.step 2732) w ∧
      ∃ h', wdrealloc 2732 w.heap 4212 300 = .ok (0, h') ∧
        h' = w.heap ∧ w.step 2732 (.realloc 4212 300) = .ok w := by
  obtain ⟨w, run, hlast⟩ := reach_played 4096 (show 12 < 200 by decide)
    (fun w c => decide (Admissible w c))
    (fun w => decide (4212 ∈ w.ptrs) && (match wdrealloc 2732 w.heap 4212 300 with
      | .ok (r, _) => decide (r = 0)
      | .error _ => false))
    [.malloc 20, .malloc 20, .malloc 20, .write 4212 3 7, .free 4244]
    (fun _ _ h => of_decide_eq_true h) (by decide +kernel)
  rw [Bool.and_eq_true] at hlast
  obtain ⟨hp, hnull⟩ := hlast
  split at hnull
  · next r h' hcall =>
    rw [of_decide_eq_true hnull] at hcall
    exact ⟨w, run, h', hcall, failed_call_changes_nothing (by decide) (by decide) (by decide)
      (by decide) run (.realloc 4212 300) h' ⟨Or.inr ⟨of_decide_eq_true hp, by decide⟩, hcall⟩⟩
  · cases hnull

end Run

/-- The contract of `calloc` for `total` bytes at `p`. -/
def MeetsCalloc (p total : Nat) (h' : Heap) : Prop :=
  p ≠ 0 → total ≤ wdmActualSize h'.mem (p - 12) ∧ ∀ i, i < total → h'.mem.get (p + i) = 0

/-- Where best fit puts `n` bytes in the free block at `x`: at its high end
when a header is to spare, else at its start. -/
def placeIn (m : Mem) (x n : Nat) : Nat :=
  if n + 12 ≤ sz m x then x + 12 + (sz m x - n) else x + 12

/-- The state before `wdcalloc(num, n)` in which it meets its contract: it
will be refused, or the product does not wrap and the bytes that best fit will
hand out are 0 already. -/
def CallocSafe (h : Heap) (num n : Nat) : Prop :=
  notReady h = true ∨ 2 ^ 16 - 1 < num * n % 2 ^ 64 ∨
    ∃ fl, Seg (lom h.mem) h.freelistHead fl 0 ∧ 0 ∉ fl ∧
      ((∀ x ∈ fl, sz h.mem x < num * n % 2 ^ 64) ∨
        (num * n < 2 ^ 64 ∧ ∃ before x after, fl = before ++ x :: after ∧
          BestFit h.mem (num * n) before x after ∧
          ∀ i, i < num * n → h.mem.get (placeIn h.mem x (num * n) + i) = 0))

theorem BestFit.unique {m : Mem} {n x y : Nat} {before after before' after' : List Nat}
    (b : BestFit m n before x after) (b' : BestFit m n before' y after')
    (he : before ++ x :: after = before' ++ y :: after') : x = y := by
  rcases List.append_eq_append_iff.mp he with ⟨l, rfl, hl⟩ | ⟨l, rfl, hl⟩
  · cases l with
    | nil => exact (List.cons.inj hl).1
    | cons z l =>
      obtain ⟨rfl, rfl⟩ := List.cons.inj hl
      have h1 := b'.first x (by simp) b.fits
      have h2 := b.least y (by simp) b'.fits
      omega
  · cases l with
    | nil => exact (List.cons.inj hl).1.symm
    | cons z l =>
      obtain ⟨rfl, rfl⟩ := List.cons.inj hl
      have h1 := b.first y (by simp) b'.fits
      have h2 := b'.least x (by simp) b.fits
      omega

/-- What a block handed out by `wdmalloc(n)` is: `n` bytes of the best fit,
with the contents they had. -/
theorem Malloc.handed {h h' : Heap} {A A' : Abs} {n p : Nat} (hm : Malloc h.heapStart n A p A')
    (r : Rep h A) (b : Becomes h A h' A') (hp : p ≠ 0) :
    ∃ before x after, A.free = before ++ x :: after ∧ BestFit h.mem n before x after ∧
      p = placeIn h.mem x n ∧ n ≤ wdmActualSize h'.mem (p - 12) ∧
      ∀ i, i < n → h'.mem.get (p + i) = h.mem.get (p + i) := by
  have hst := b.start
  have hbd := b.rep.arena.bound
  -- the payload of the new block is clear of the headers before and after
  have clear : ∀ y c, (y, c) ∈ placed h'.heapStart A'.blocks → n ≤ c.size →
      (∀ z ∈ headers h.heapStart A.blocks, z ∈ headers h'.heapStart A'.blocks) →
      ∀ i, i < n → h'.mem.get (y + 12 + i) = h.mem.get (y + 12 + i) := by
    intro y c hy hn sub i hi
    have hyb := b.rep.bound hy
    apply b.frame _ (by omega)
    intro z hz
    apply payload_clear hy (by omega)
    rcases List.mem_append.mp hz with hz | hz
    · exact sub z hz
    · rwa [hst]
  cases hm with
  | fail none => exact absurd rfl hp
  | @carve pre post s before after room first least =>
    obtain ⟨hs, best⟩ := r.bestFit (by omega) first least
    have hrow : pre ++ ⟨s - n - 12, false⟩ :: ⟨n, true⟩ :: post =
        (pre ++ [⟨s - n - 12, false⟩]) ++ ⟨n, true⟩ :: post := by
      rw [List.append_assoc, List.singleton_append]
    have hy := mem_placed_mid h'.heapStart (pre ++ [⟨s - n - 12, false⟩]) post ⟨n, true⟩
    rw [← hrow, show h'.heapStart + span (pre ++ [⟨s - n - 12, false⟩]) =
      h.heapStart + span pre + 12 + (s - n - 12) by simp only [span_append, span]; omega] at hy
    refine ⟨before, _, after, rfl, best, ?_, ?_, clear _ _ hy (Nat.le_refl n) ?_⟩
    · rw [placeIn, hs, if_pos room]
      omega
    · rw [Nat.add_sub_cancel, b.rep.actualSize hy]
    · intro z hz
      rw [hst]
      rw [headers_append, headers_cons] at hz ⊢
      rw [headers_cons, show ∀ a, a + 12 + (s - n - 12) + 12 + n = a + 12 + s by omega]
      simp only [List.mem_append, List.mem_cons] at hz ⊢
      tauto
  | @whole pre post s before after room tight first least =>
    obtain ⟨hs, best⟩ := r.bestFit room first least
    have hy := mem_placed_mid h'.heapStart pre post ⟨s, true⟩
    rw [show h'.heapStart + span pre = h.heapStart + span pre by rw [hst]] at hy
    refine ⟨before, _, after, rfl, best, ?_, ?_, clear _ _ hy room ?_⟩
    · rw [placeIn, hs, if_neg (by omega)]
    · rw [Nat.add_sub_cancel, b.rep.actualSize hy]
      exact room
    · intro z hz
      rwa [hst, headers_mark _ s true false]

/-- On a live heap `wdcalloc` ends, and meets its contract just when it is safe. -/
theorem wdcalloc_spec {h : Heap} {A : Abs} (r : Rep h A) (num n : Nat) {fuel : Nat}
    (hfuel : A.free.length < fuel) :
    ∃ p h', wdcalloc fuel h num n = .ok (p, h') ∧
      (MeetsCalloc p (num * n) h' ↔ CallocSafe h num n) := by
  rw [wdcalloc_eq]
  by_cases hfail : notReady h = true ∨ 2 ^ 16 - 1 < num * n % 2 ^ 64
  · refine ⟨0, h, if_pos hfail, iff_of_true (fun h0 => absurd rfl h0) ?_⟩
    rcases hfail with h1 | h1
    · exact Or.inl h1
    · exact Or.inr (Or.inl h1)
  · rw [if_neg hfail]
    obtain ⟨p, h', A', hcall, hm, b, -⟩ := wdmalloc_spec r (num * n % 2 ^ 64) hfuel
    refine ⟨p, h', hcall, ?_⟩
    have hnull : 0 ∉ A.free := fun h0 => r.free_pos h0 rfl
    by_cases hp : p = 0
    · refine iff_of_true (fun h0 => absurd hp h0) ?_
      refine Or.inr (Or.inr ⟨A.free, r.chain, hnull, Or.inl fun x hx => ?_⟩)
      exact (hm.null hp).2 x _ (r.free_placed hx)
    · obtain ⟨before, x, after, hfl, best, hplace, hroom, hsame⟩ := hm.handed r b hp
      rw [CallocSafe, or_iff_right fun h0 => hfail (Or.inl h0),
        or_iff_right fun h0 => hfail (Or.inr h0)]
      constructor
      · intro hmeets
        obtain ⟨hsize, hzero⟩ := hmeets hp
        have hact : wdmActualSize h'.mem (p - 12) < 2 ^ 15 := by
          rw [wdmActualSize_eq]
          exact Nat.mod_lt _ (by decide)
        have hw : num * n < 2 ^ 64 := by omega
        rw [Nat.mod_eq_of_lt hw] at best hplace hsame
        refine ⟨A.free, r.chain, hnull, Or.inr ⟨hw, before, x, after, hfl, best, fun i hi => ?_⟩⟩
        rw [← hplace, ← hsame i hi]
        exact hzero i hi
      · rintro ⟨fl, hseg, h0, hcase⟩
        obtain rfl := r.chain.unique_to hseg hnull h0
        rcases hcase with hnone | ⟨hw, before', x', after', hfl', best', hzero⟩
        · have := hnone x (by rw [hfl]; simp)
          exact absurd best.fits (by omega)
        · rw [Nat.mod_eq_of_lt hw] at best hplace hsame hroom
          obtain rfl := best.unique best' (hfl.symm.trans hfl')
          refine fun _ => ⟨hroom, fun i hi => ?_⟩
          rw [hsame i hi, hplace]
          exact hzero i hi

section Run
variable {start size fuel : Nat} {w : World}

/-- In every run `wdcalloc` meets its contract exactly when it is safe to call. -/
theorem wdcalloc_meets_iff (hwrap : start + size < 2 ^ 64) (hlarge : 12 < size)
    (hsmall : size ≤ 32779) (hfuel : 2732 ≤ fuel)
    (run : Reach (Booted start size) Admissible (World.step fuel) w) (num : UInt64) (n : UInt16) :
    ∃ p h', wdcalloc fuel w.heap num.toNat n.toNat = .ok (p, h') ∧
      (MeetsCalloc p (num.toNat * n.toNat) h' ↔ CallocSafe w.heap num.toNat n.toNat) := by
  rcases live_in_run hwrap hlarge hsmall hfuel run with ⟨A, H, hlen⟩ | ⟨-, d⟩
  · exact wdcalloc_spec H.rep _ _ hlen
  · have hr : notReady w.heap = true := by simp [notReady, d.start]
    exact ⟨0, w.heap, by rw [wdcalloc, if_pos hr],
      iff_of_true (fun h0 => absurd rfl h0) (Or.inl hr)⟩

theorem wdcalloc_meets_iff_after_use :
    ∃ w, Reach (Booted 4096 64) Admissible (World.step 2732) w ∧
      ∃ p h', wdcalloc 2732 w.heap 4 4 = .ok (p, h') ∧
        (MeetsCalloc p 16 h' ↔ CallocSafe w.heap 4 4) := by
  obtain ⟨w, run, -⟩ := reach_played 4096 (show 12 < 64 by decide)
    (fun w c => decide (Admissible w c)) (fun _ => true)
    [.malloc 16, .write 4144 3 7, .free 4144] (fun _ _ h => of_decide_eq_true h)
    (by decide +kernel)
  exact ⟨w, run, wdcalloc_meets_iff (by decide) (by decide) (by decide) (by decide) run 4 4⟩

/-- The 16 bytes that a block was freed with are handed out again as they are. -/
theorem calloc_returns_old_bytes :
    ¬ ∀ (start size fuel : Nat) (w : World) (num : UInt64) (n : UInt16) (p : Nat) (h' : Heap),
      start + size < 2 ^ 64 → 12 < size → size ≤ 32779 → 2732 ≤ fuel →
      Reach (Booted start size) Admissible (World.step fuel) w →
      wdcalloc fuel w.heap num.toNat n.toNat = .ok (p, h') →
        MeetsCalloc p (num.toNat * n.toNat) h' := by
  intro meets
  obtain ⟨w, run, hlast⟩ := reach_played 4096 (show 12 < 64 by decide)
    (fun w c => decide (Admissible w c))
    (fun w => match wdcalloc 2732 w.heap 4 4 with
      | .ok (p, h') => decide (p = 4144 ∧ h'.mem.get 4147 = 7)
      | .error _ => false)
    [.malloc 16, .write 4144 3 7, .free 4144] (fun _ _ h => of_decide_eq_true h)
    (by decide +kernel)
  split at hlast
  · next p h' hcall =>
    obtain ⟨hp, hdirty⟩ := of_decide_eq_true hlast
    subst hp
    have hzero := (meets 4096 64 2732 w 4 4 4144 h' (by decide) (by decide) (by decide) (by decide)
      run hcall (by decide)).2 3 (by decide)
    rw [show 4144 + 3 = 4147 from rfl, hdirty] at hzero
    exact absurd hzero (by decide)
  · cases hlast

end Run

end WaddleOS
