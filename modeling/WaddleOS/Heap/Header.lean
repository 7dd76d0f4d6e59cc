import WaddleOS.Base.Memory

/-!
# Block headers of the kernel heap

A header is 12 packed bytes: `prev_sz` and `sz` (16 bits each) and `lom`, the
freelist link of a free block or the magic of an allocated one (64 bits).
Reading a field after writing one depends only on whether the two headers are
the same or apart, so every such pair has one lemma under `SameOrApart`.
-/

namespace WaddleOS

def wdmAllocBit : Nat := 1 <<< 15

def wdmMagic : Nat := 0xDEADBEEFBABECAFE

def prevSz (m : Mem) (p : Nat) : Nat := load m p 2

def sz (m : Mem) (p : Nat) : Nat := load m (p + 2) 2

/-- The union `lom`: `next` of a free block, `magic` of an allocated one. -/
def lom (m : Mem) (p : Nat) : Nat := load m (p + 4) 8

def setPrevSz (m : Mem) (p v : Nat) : Mem := store m p 2 v

def setSz (m : Mem) (p v : Nat) : Mem := store m (p + 2) 2 v

def setLom (m : Mem) (p v : Nat) : Mem := store m (p + 4) 8 v

/-- `WDM_IS_FREE(HDR)`. -/
def wdmIsFree (m : Mem) (p : Nat) : Bool := sz m p &&& wdmAllocBit == 0

/-- `WDM_ACTUAL_SIZE(HDR)`: on a 16-bit field `& ~WDM_ALLOC_BIT` keeps the low 15 bits. -/
def wdmActualSize (m : Mem) (p : Nat) : Nat := sz m p &&& (wdmAllocBit - 1)

theorem wdmAllocBit_eq : wdmAllocBit = 2 ^ 15 := rfl

theorem sz_lt (m : Mem) (p : Nat) : sz m p < 2 ^ 16 := load_lt m (p + 2) 2

theorem lom_lt (m : Mem) (p : Nat) : lom m p < 2 ^ 64 := by
  have h := load_lt m (p + 4) 8
  rwa [show 256 ^ 8 = 2 ^ 64 by norm_num] at h

theorem wdmIsFree_iff (m : Mem) (p : Nat) : wdmIsFree m p = true ↔ sz m p < 2 ^ 15 := by
  have hlt := sz_lt m p
  rw [wdmIsFree, wdmAllocBit_eq, Nat.and_two_pow, beq_iff_eq]
  constructor
  · intro h
    have hb : (sz m p).testBit 15 = false := by
      cases hb : (sz m p).testBit 15
      · rfl
      · simp [hb] at h
    apply Nat.lt_pow_two_of_testBit
    intro i hi
    by_cases h15 : i = 15
    · rw [h15, hb]
    · exact Nat.testBit_eq_false_of_lt
        (Nat.lt_of_lt_of_le hlt (Nat.pow_le_pow_right (by decide) (by omega)))
  · intro h
    simp [Nat.testBit_eq_false_of_lt h]

theorem wdmActualSize_eq (m : Mem) (p : Nat) : wdmActualSize m p = sz m p % 2 ^ 15 := by
  rw [wdmActualSize, wdmAllocBit_eq, Nat.and_two_pow_sub_one_eq_mod]

theorem or_wdmAllocBit {n : Nat} (h : n < 2 ^ 15) : n ||| wdmAllocBit = n + 2 ^ 15 := by
  have h' := Nat.two_pow_add_eq_or_of_lt h 1
  rw [Nat.mul_one] at h'
  rw [wdmAllocBit_eq, Nat.or_comm, ← h', Nat.add_comm]

/-- Two headers that coincide or do not overlap. -/
abbrev SameOrApart (p q : Nat) : Prop := p = q ∨ p + 12 ≤ q ∨ q + 12 ≤ p

section Fields
variable (m : Mem) (v : Nat) {p q : Nat}

theorem prevSz_setPrevSz (hp : p + 12 ≤ 2 ^ 64) : prevSz (setPrevSz m p v) p = v % 2 ^ 16 :=
  load_store_at m v (by omega)

theorem sz_setSz (hp : p + 12 ≤ 2 ^ 64) : sz (setSz m p v) p = v % 2 ^ 16 :=
  load_store_at m v (by omega)

theorem lom_setLom (hp : p + 12 ≤ 2 ^ 64) : lom (setLom m p v) p = v % 2 ^ 64 :=
  load_store_at m v (by omega)

variable (hp : p + 12 ≤ 2 ^ 64) (hq : q + 12 ≤ 2 ^ 64)
include hp hq

theorem prevSz_setSz (h : SameOrApart p q) : prevSz (setSz m p v) q = prevSz m q := by
  exact load_store_apart m v (by omega) (by omega) (by omega)

theorem prevSz_setLom (h : SameOrApart p q) : prevSz (setLom m p v) q = prevSz m q := by
  exact load_store_apart m v (by omega) (by omega) (by omega)

theorem sz_setPrevSz (h : SameOrApart p q) : sz (setPrevSz m p v) q = sz m q := by
  exact load_store_apart m v (by omega) (by omega) (by omega)

theorem sz_setLom (h : SameOrApart p q) : sz (setLom m p v) q = sz m q := by
  exact load_store_apart m v (by omega) (by omega) (by omega)

theorem lom_setPrevSz (h : SameOrApart p q) : lom (setPrevSz m p v) q = lom m q := by
  exact load_store_apart m v (by omega) (by omega) (by omega)

theorem lom_setSz (h : SameOrApart p q) : lom (setSz m p v) q = lom m q := by
  exact load_store_apart m v (by omega) (by omega) (by omega)

theorem prevSz_setPrevSz_apart (h : p + 12 ≤ q ∨ q + 12 ≤ p) :
    prevSz (setPrevSz m p v) q = prevSz m q :=
  load_store_apart m v (by omega) (by omega) (by omega)

theorem sz_setSz_apart (h : p + 12 ≤ q ∨ q + 12 ≤ p) : sz (setSz m p v) q = sz m q :=
  load_store_apart m v (by omega) (by omega) (by omega)

theorem lom_setLom_apart (h : p + 12 ≤ q ∨ q + 12 ≤ p) : lom (setLom m p v) q = lom m q :=
  load_store_apart m v (by omega) (by omega) (by omega)

end Fields

/-- Every byte outside the headers `hs` is as it was. -/
def HdrFrame (hs : List Nat) (m m' : Mem) : Prop :=
  ∀ x, x < 2 ^ 64 → (∀ p ∈ hs, x < p ∨ p + 12 ≤ x) → m'.get x = m.get x

theorem HdrFrame.refl (hs : List Nat) (m : Mem) : HdrFrame hs m m := fun _ _ _ => rfl

theorem HdrFrame.trans {hs : List Nat} {m m' m'' : Mem} (h : HdrFrame hs m m')
    (h' : HdrFrame hs m' m'') : HdrFrame hs m m'' :=
  fun x hx hout => (h' x hx hout).trans (h x hx hout)

theorem HdrFrame.mono {hs ks : List Nat} {m m' : Mem} (h : HdrFrame hs m m')
    (sub : ∀ p ∈ hs, p ∈ ks) : HdrFrame ks m m' :=
  fun x hx hout => h x hx (fun p hp => hout p (sub p hp))

theorem hdrFrame_store {hs : List Nat} {m m' : Mem} {p o n v : Nat} (h : HdrFrame hs m m')
    (mem : p ∈ hs) (hp : p + 12 ≤ 2 ^ 64) (hlo : p ≤ o) (hhi : o + n ≤ p + 12) :
    HdrFrame hs m (store m' o n v) := by
  intro x hx hout
  have hs := hout p mem
  have hin : ¬ (o ≤ x ∧ x < o + n) := by omega
  rw [get_store_at m' v (by omega) hx, if_neg hin, h x hx hout]

/-- A header whose bytes are as they were keeps its fields. -/
theorem fields_congr {m m' : Mem} {q : Nat}
    (same : ∀ i, i < 12 → m'.get (q + i) = m.get (q + i)) :
    prevSz m' q = prevSz m q ∧ sz m' q = sz m q ∧ lom m' q = lom m q := by
  refine ⟨load_congr fun i hi => same i (by omega), load_congr fun i hi => ?_,
    load_congr fun i hi => ?_⟩
  · rw [Nat.add_assoc]
    exact same (2 + i) (by omega)
  · rw [Nat.add_assoc]
    exact same (4 + i) (by omega)

/-- A header apart from all written ones keeps its fields. -/
theorem HdrFrame.fields {hs : List Nat} {m m' : Mem} {q : Nat} (h : HdrFrame hs m m')
    (hq : q + 12 ≤ 2 ^ 64) (apart : ∀ p ∈ hs, p + 12 ≤ q ∨ q + 12 ≤ p) :
    prevSz m' q = prevSz m q ∧ sz m' q = sz m q ∧ lom m' q = lom m q := by
  apply fields_congr
  intro i hi
  apply h _ (by omega)
  intro p hp
  have := apart p hp
  omega

theorem SameOutside.fields {lo hi q : Nat} {m m' : Mem} (h : SameOutside lo hi m m')
    (hq : q + 12 ≤ 2 ^ 64) (apart : q + 12 ≤ lo ∨ hi ≤ q) :
    prevSz m' q = prevSz m q ∧ sz m' q = sz m q ∧ lom m' q = lom m q :=
  fields_congr fun i hi => h (q + i) (by omega) (by omega)

section Frames
variable {hs : List Nat} {m m' : Mem} {p v : Nat}

theorem HdrFrame.setPrevSz (h : HdrFrame hs m m') (mem : p ∈ hs) (hp : p + 12 ≤ 2 ^ 64) :
    HdrFrame hs m (setPrevSz m' p v) :=
  hdrFrame_store h mem hp (by omega) (by omega)

theorem HdrFrame.setSz (h : HdrFrame hs m m') (mem : p ∈ hs) (hp : p + 12 ≤ 2 ^ 64) :
    HdrFrame hs m (setSz m' p v) :=
  hdrFrame_store h mem hp (by omega) (by omega)

theorem HdrFrame.setLom (h : HdrFrame hs m m') (mem : p ∈ hs) (hp : p + 12 ≤ 2 ^ 64) :
    HdrFrame hs m (setLom m' p v) :=
  hdrFrame_store h mem hp (by omega) (by omega)

end Frames

end WaddleOS
