import WaddleOS.Heap.Safety

/-!
# The first allocation

What `wdmalloc` answers right after `wdmalloc_init`, for every start address
and every size that the assertion admits. The single free block covers the
heap but for its header. Its size must stay below the alloc bit, or the block
is taken for an allocated one and nothing is ever found.
-/

namespace WaddleOS

/-- Every request that leaves room for the header is met, by bytes of the
heap that have addresses. -/
def Usable (fuel : Nat) (m : Mem) (start size : Nat) : Prop :=
  ∀ n, 1 ≤ n → n ≤ size - 12 → ∃ h p h', wdmallocInit m start size = .ok h ∧
    wdmalloc fuel h n = .ok (p, h') ∧ p ≠ 0 ∧ start ≤ p ∧ p + n ≤ start + size ∧ p + n ≤ 2 ^ 64

section First
variable {fuel start size n : Nat} {m : Mem}

/-- The initial header reads back as written, also when it wraps around the
end of the address space. -/
theorem initHeap_fields (m : Mem) (start : Nat) (hsize : size < 2 ^ 16) :
    sz (initHeap m start size).mem start = size - 12 ∧ lom (initHeap m start size).mem start = 0 := by
  constructor
  · have h1 := load_store_outside (setSz (setPrevSz m start 0) start (size - 12)) 0 (b := start)
      (o := 4) (n := 8) (p := 2) (k := 2) (by decide) (by decide) (by decide)
    have h2 := load_store_same (setPrevSz m start 0) (size - 12) (b := start) (o := 2) (n := 2)
      (by decide)
    refine h1.trans (h2.trans (Nat.mod_eq_of_lt ?_))
    omega
  · have h1 := load_store_same (setSz (setPrevSz m start 0) start (size - 12)) 0 (b := start)
      (o := 4) (n := 8) (by decide)
    exact h1.trans (Nat.zero_mod _)

theorem initHeap_ready (hstart : start ≠ 0) (hlarge : 12 < size) :
    notReady (initHeap m start size) = false := by
  have : size ≠ 0 := by omega
  simp [notReady, initHeap, hstart, this]

/-- A size of at least `2^15` in the field reads as allocated. -/
theorem wdmalloc_oversized (hstart : start ≠ 0) (hbig : 32779 < size) (hsize : size < 2 ^ 16)
    (hfuel : 2 ≤ fuel) : wdmalloc fuel (initHeap m start size) n = .ok (0, initHeap m start size) := by
  obtain ⟨hsz, hlom⟩ := initHeap_fields m start hsize
  have hfree : wdmIsFree (initHeap m start size).mem start = false := by
    cases hf : wdmIsFree (initHeap m start size).mem start
    · rfl
    · have := (wdmIsFree_iff _ _).mp hf
      omega
  obtain ⟨k, rfl⟩ : ∃ k, fuel = k + 2 := ⟨fuel - 2, by omega⟩
  have hscan : bestFit (initHeap m start size).mem n (k + 2) start 0 0 0 (2 ^ 16 - 1) =
      .ok (0, 0, 2 ^ 16 - 1) := by
    rw [bestFit, if_neg hstart, hfree, hlom, bestFit]
    rfl
  unfold wdmalloc
  rw [initHeap_ready hstart (by omega)]
  change (bestFit (initHeap m start size).mem n (k + 2) start 0 0 0 (2 ^ 16 - 1) >>= _) = _
  rw [hscan]
  rfl

/-- The whole initial block or its high end, as `n` leaves room for a header. -/
theorem wdmalloc_first (hstart : start ≠ 0) (hlarge : 12 < size) (hsmall : size ≤ 32779)
    (hn : n ≤ size - 12) (hfuel : 2 ≤ fuel) :
    ∃ h', wdmalloc fuel (initHeap m start size) n =
      .ok (if n + 24 ≤ size then (start + size - n) % 2 ^ 64 else (start + 12) % 2 ^ 64, h') := by
  obtain ⟨hsz, hlom⟩ := initHeap_fields m start (show size < 2 ^ 16 by omega)
  have hfree : wdmIsFree (initHeap m start size).mem start = true :=
    (wdmIsFree_iff _ _).mpr (by omega)
  obtain ⟨k, rfl⟩ : ∃ k, fuel = k + 2 := ⟨fuel - 2, by omega⟩
  have hscan : bestFit (initHeap m start size).mem n (k + 2) start 0 0 0 (2 ^ 16 - 1) =
      .ok (start, 0, size - 12) := by
    rw [bestFit, if_neg hstart, hfree, hsz, if_pos (by simp; omega), hlom, bestFit]
    rfl
  unfold wdmalloc
  rw [initHeap_ready hstart hlarge]
  change ∃ h', (bestFit (initHeap m start size).mem n (k + 2) start 0 0 0 (2 ^ 16 - 1) >>= _) = _
  rw [hscan]
  change ∃ h', (if start = 0 ∨ size - 12 = 2 ^ 16 - 1 then _ else _) = _
  rw [if_neg (by omega), hsz]
  by_cases hroom : n + 24 ≤ size
  · rw [if_pos (by omega), if_pos hroom]
    refine ⟨(carve (initHeap m start size) start n).2, congrArg Except.ok (Prod.ext ?_ rfl)⟩
    have h1 := load_store_same (initHeap m start size).mem (size - 12 - n - 12) (b := start)
      (o := 2) (n := 2) (by decide)
    have h2 : sz (setSz (initHeap m start size).mem start (size - 12 - n - 12)) start =
        size - 12 - n - 12 := h1.trans (Nat.mod_eq_of_lt (by omega))
    simp only [carve, hsz, h2]
    omega
  · rw [if_neg (by omega), if_neg hroom]
    exact ⟨(takeWhole (initHeap m start size) start 0).2, rfl⟩

end First

/-- Every size admitted by the assertion is usable exactly when the heap has a
non-null address, does not wrap and its block fits below the alloc bit. -/
theorem usable_iff {fuel start size : Nat} (m : Mem) (hstart : start < 2 ^ 64) (hlarge : 12 < size)
    (hsize : size < 2 ^ 16) (hfuel : 2 ≤ fuel) :
    Usable fuel m start size ↔ start ≠ 0 ∧ start + size ≤ 2 ^ 64 ∧ size ≤ 32779 := by
  have hinit := wdmallocInit_eq m start hlarge
  constructor
  · intro hu
    have hnonnull : start ≠ 0 := by
      rintro rfl
      obtain ⟨h, p, h', hi, hp, hne, -⟩ := hu 1 (by omega) (by omega)
      rw [hinit] at hi
      cases hi
      cases hp
      exact hne rfl
    have hsmall : size ≤ 32779 := by
      by_contra hbig
      obtain ⟨h, p, h', hi, hp, hne, -⟩ := hu 1 (by omega) (by omega)
      rw [hinit] at hi
      cases hi
      rw [wdmalloc_oversized hnonnull (by omega) hsize hfuel] at hp
      cases hp
      exact hne rfl
    refine ⟨hnonnull, ?_, hsmall⟩
    obtain ⟨h, p, h', hi, hp, -, hlo, hhi, htop⟩ := hu (size - 12) (by omega) (by omega)
    rw [hinit] at hi
    cases hi
    obtain ⟨h1, hfirst⟩ := wdmalloc_first (m := m) (n := size - 12) hnonnull hlarge hsmall
      (Nat.le_refl _) hfuel
    rw [if_neg (by omega)] at hfirst
    rw [hfirst] at hp
    cases hp
    omega
  · rintro ⟨hnonnull, hwrap, hsmall⟩ n h1 hn
    obtain ⟨h', hfirst⟩ := wdmalloc_first (m := m) hnonnull hlarge hsmall hn hfuel
    refine ⟨initHeap m start size, _, h', hinit, hfirst, ?_⟩
    split <;> omega

theorem usable_page : Usable 2 ⟨fun _ => 0⟩ 0x200000 4096 :=
  (usable_iff ⟨fun _ => 0⟩ (by decide) (by decide) (by decide) (by decide)).mpr
    ⟨by decide, by decide, by decide⟩

/-- The heap that the kernel sets up, ten pages, cannot give one byte. -/
theorem kernel_heap_not_usable :
    ¬ ∀ (m : Mem) (start size : Nat), start < 2 ^ 64 → 12 < size → size < 2 ^ 16 →
      Usable 2 m start size := by
  intro allUsable
  obtain ⟨h, p, h', hi, hp, hne, -⟩ := allUsable ⟨fun _ => 0⟩ 0xFFFFFFFF80200000 (10 * 4096)
    (by decide) (by decide) (by decide) 1 (by decide) (by decide)
  rw [wdmallocInit_eq _ _ (by decide)] at hi
  cases hi
  rw [wdmalloc_oversized (by decide) (by decide) (by decide) (by decide)] at hp
  cases hp
  exact hne rfl

end WaddleOS
