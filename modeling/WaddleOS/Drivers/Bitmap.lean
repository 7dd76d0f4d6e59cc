import WaddleOS.Base.Bits
import WaddleOS.Base.FirstFit

/-!
# `kernel/drivers/bitmap.c`

A bitmap is a buffer address and a number of bits; the bits live in 64-bit
little-endian words, which need not be aligned and whose last one may reach
past the buffer. The result `-1` of the searches is `none`.
-/

namespace WaddleOS

structure Bitmap where
  buf : Nat
  size : Nat
  deriving DecidableEq, Repr

/-- Only whole bytes are cleared. -/
def bitmapInitBuf (m : Mem) (buf numIdx : Nat) : Except Fault (Bitmap × Mem) := do
  assert (buf ≠ 0)
  return (⟨buf, numIdx⟩, memset m buf 0 (numIdx / 8))

/-- `(value & 0x1) << ofs`. The left operand is an `int`: the count is taken
modulo 32 and the result is sign-extended when it meets the 64-bit word. -/
def shiftedValue (value : Bool) (ofs : Nat) : BitVec 64 :=
  (((BitVec.ofBool value).setWidth 32) <<< (ofs % 32)).signExtend 64

def bitmapSet (m : Mem) (bmp : Bitmap) (bitIndex : Nat) (value : Bool) : Except Fault Mem := do
  assert (bitIndex < bmp.size)
  let a := bmp.buf + 8 * (bitIndex / 64)
  let ofs := bitIndex % 64
  let m := storeWord m a (loadWord m a &&& ~~~(1#64 <<< ofs))
  return storeWord m a (loadWord m a ||| shiftedValue value ofs)

def bitmapGet (m : Mem) (bmp : Bitmap) (bitIndex : Nat) : Except Fault Bool := do
  assert (bitIndex < bmp.size)
  let a := bmp.buf + 8 * (bitIndex / 64)
  return loadWord m a &&& (1#64 <<< (bitIndex % 64)) != 0#64

/-- `bmp_arr[idx] ^= mask`. -/
def xorWord (m : Mem) (bmp : Bitmap) (idx : Nat) (mask : BitVec 64) : Mem :=
  let a := bmp.buf + 8 * idx
  storeWord m a (loadWord m a ^^^ mask)

/-- The loop over the intermediate words, `n` of them from `idx` on. -/
def flipWords (m : Mem) (bmp : Bitmap) (idx : Nat) : Nat → Mem
  | 0 => m
  | n + 1 => xorWord (flipWords m bmp idx n) bmp (idx + n) (BitVec.allOnes 64)

/-- Flip all bits from `startIdx` to `endIdx`, both included. -/
def bitmapFlip (m : Mem) (bmp : Bitmap) (startIdx endIdx : Nat) : Except Fault Mem := do
  assert (startIdx ≤ bmp.size)
  assert (endIdx ≤ bmp.size)
  assert (startIdx ≤ endIdx)
  let startWord := startIdx / 64
  let endWord := endIdx / 64
  if startWord = endWord then
    let numBits := endIdx - startIdx + 1
    let mask := if numBits = 64 then BitVec.allOnes 64
      else ((1#64 <<< numBits) - 1#64) <<< (startIdx % 64)
    return xorWord m bmp startWord mask
  else
    let m := xorWord m bmp startWord (BitVec.allOnes 64 <<< (startIdx % 64))
    let m := flipWords m bmp (startWord + 1) (endWord - (startWord + 1))
    let mask := if endIdx % 64 = 63 then BitVec.allOnes 64
      else (1#64 <<< (endIdx % 64 + 1)) - 1#64
    return xorWord m bmp endWord mask

/-- The loop of `bitmap_test` with `n` positions left; returns `num_bits_iter`
and `candidate_idx`. -/
def bitmapTestLoop (m : Mem) (bmp : Bitmap) (value : Bool) (numBits : Nat) :
    Nat → (i numBitsIter candidateIdx : Nat) → Except Fault (Nat × Nat)
  | 0, _, numBitsIter, candidateIdx => .ok (numBitsIter, candidateIdx)
  | n + 1, i, numBitsIter, candidateIdx =>
    if numBitsIter < numBits then do
      if (← bitmapGet m bmp i) = value then
        bitmapTestLoop m bmp value numBits n (i + 1) (numBitsIter + 1)
          (if numBitsIter = 0 then i else candidateIdx)
      else bitmapTestLoop m bmp value numBits n (i + 1) 0 candidateIdx
    else .ok (numBitsIter, candidateIdx)

/-- The assertions that open both searches; `start_idx + num_bits - 1` is
taken in 64 bits. -/
def assertSearch (bmp : Bitmap) (startIdx endIdx numBits : Nat) : Except Fault Unit := do
  assert (startIdx < bmp.size)
  assert (endIdx < bmp.size)
  assert (startIdx ≤ endIdx)
  assert ((startIdx + numBits + (2 ^ 64 - 1)) % 2 ^ 64 ≤ endIdx)
  assert (numBits > 0)

def bitmapTest (m : Mem) (bmp : Bitmap) (value : Bool) (startIdx endIdx numBits : Nat) :
    Except Fault (Option Nat) := do
  assertSearch bmp startIdx endIdx numBits
  let (numBitsIter, candidateIdx) ←
    bitmapTestLoop m bmp value numBits (endIdx + 1 - startIdx) startIdx 0 startIdx
  return if numBitsIter = numBits then some candidateIdx else none

def bitmapTestAndFlip (m : Mem) (bmp : Bitmap) (value : Bool) (startIdx endIdx numBits : Nat) :
    Except Fault (Option Nat × Mem) := do
  assertSearch bmp startIdx endIdx numBits
  match ← bitmapTest m bmp value startIdx endIdx numBits with
  | some ret =>
    let m ← bitmapFlip m bmp ret ((ret + numBits + (2 ^ 64 - 1)) % 2 ^ 64)
    return (some ret, m)
  | none => return (none, m)

def bitmapClear (m : Mem) (bmp : Bitmap) : Mem := memset m bmp.buf 0 (bmp.size / 8)

/-! ## Masks -/

theorem getLsbD_one_shiftLeft (k i : Nat) (hi : i < 64) :
    (1#64 <<< k).getLsbD i = decide (i = k) := by
  rw [← BitVec.twoPow_eq, BitVec.getLsbD_twoPow]
  by_cases h : i = k
  · subst h
    simp [hi]
  · have h' : ¬ k = i := fun e => h e.symm
    simp [h, h']

theorem getLsbD_lowMask (n i : Nat) (hn : n ≤ 64) (hi : i < 64) :
    ((1#64 <<< n) - 1#64).getLsbD i = decide (i < n) := by
  have hmask : (1#64 <<< n) - 1#64 = BitVec.ofNat 64 (2 ^ n - 1) := by
    apply BitVec.eq_of_toNat_eq
    have hp : 2 ^ n ≤ 2 ^ 64 := Nat.pow_le_pow_right (by omega) hn
    have hpos : 0 < 2 ^ n := Nat.two_pow_pos n
    simp only [BitVec.toNat_sub, BitVec.toNat_shiftLeft, BitVec.toNat_ofNat, Nat.one_mod,
      Nat.shiftLeft_eq]
    omega
  rw [hmask, BitVec.getLsbD_ofNat, Nat.testBit_two_pow_sub_one]
  simp [hi]

theorem getLsbD_intShift (value : Bool) (k i : Nat) (hi : i < 32) :
    (((BitVec.ofBool value).setWidth 32) <<< k).getLsbD i = (value && decide (i = k)) := by
  rw [BitVec.getLsbD_shiftLeft, BitVec.getLsbD_setWidth]
  rcases Nat.lt_trichotomy i k with h | h | h
  · simp [h, Nat.ne_of_lt h]
  · subst h
    simp [hi]
  · have hk : i - k ≠ 0 := by omega
    have hne : i ≠ k := by omega
    have hb : (BitVec.ofBool value).getLsbD (i - k) = false :=
      BitVec.getLsbD_of_ge _ _ (by omega)
    simp [hb, hne]

theorem getLsbD_shiftedValue (value : Bool) (ofs i : Nat) (hi : i < 64) :
    (shiftedValue value ofs).getLsbD i =
      (value && (decide (i = ofs % 32) || decide (ofs % 32 = 31 ∧ 32 ≤ i))) := by
  have hofs : ofs % 32 < 32 := Nat.mod_lt _ (by omega)
  rw [shiftedValue, BitVec.getLsbD_signExtend, BitVec.msb_eq_getLsbD_last,
    getLsbD_intShift _ _ 31 (by omega)]
  by_cases hlow : i < 32
  · have hge : ¬ 32 ≤ i := by omega
    rw [if_pos hlow, getLsbD_intShift _ _ _ hlow]
    simp [hi, hge]
  · have hge : 32 ≤ i := by omega
    have hne : ¬ i = ofs % 32 := by omega
    rw [if_neg hlow]
    simp [hi, hge, hne, eq_comm]

/-! ## The bits each operation writes

A buffer that starts at `b + o` holds bit `i` at position `8 * o + i` seen
from `b`. -/

/-- What `bitmap_set(i, v)` makes of bit `j` of the word, `ofs` being the place
of `i` in it. -/
def setEffect (v : Bool) (ofs j : Nat) (old : Bool) : Bool :=
  (old && decide (j ≠ ofs)) || (v && (decide (j = ofs % 32) || decide (ofs % 32 = 31 ∧ 32 ≤ j)))

theorem bitmapSet_ok {m m' : Mem} {bmp : Bitmap} {i : Nat} {v : Bool}
    (h : bitmapSet m bmp i v = .ok m') : i < bmp.size :=
  (assert_bind_eq_ok.mp h).1

theorem bitAt_bitmapSet {m m' : Mem} {bmp : Bitmap} {i : Nat} {v : Bool}
    (h : bitmapSet m bmp i v = .ok m') {b o : Nat} (hb : bmp.buf % 2 ^ 64 = (b + o) % 2 ^ 64)
    (ho : o + 8 * (i / 64) + 8 ≤ 2 ^ 64) (g : Nat) (hg : g < 2 ^ 67) :
    bitAt m' b g =
      if 8 * o + 64 * (i / 64) ≤ g ∧ g < 8 * o + 64 * (i / 64) + 64 then
        setEffect v (i % 64) (g - (8 * o + 64 * (i / 64))) (bitAt m b g)
      else bitAt m b g := by
  have hi := bitmapSet_ok h
  have ha : (bmp.buf + 8 * (i / 64)) % 2 ^ 64 = (b + (o + 8 * (i / 64))) % 2 ^ 64 := by omega
  simp only [bitmapSet, assert_ok hi, bind, Except.bind, pure, Except.pure, Except.ok.injEq] at h
  subst h
  rw [storeWord_of_mod_eq _ _ ha, storeWord_of_mod_eq _ _ ha, loadWord_of_mod_eq m ha,
    loadWord_of_mod_eq _ ha, loadWord_storeWord, bitAt_storeWord _ _ ho hg,
    bitAt_storeWord _ _ ho hg]
  have hpos : 8 * (o + 8 * (i / 64)) = 8 * o + 64 * (i / 64) := by omega
  rw [hpos]
  by_cases hin : 8 * o + 64 * (i / 64) ≤ g ∧ g < 8 * o + 64 * (i / 64) + 64
  · have hj : g - (8 * o + 64 * (i / 64)) < 64 := by omega
    have hword : bitAt m (b + (o + 8 * (i / 64))) (g - (8 * o + 64 * (i / 64))) = bitAt m b g := by
      rw [bitAt_add, hpos, Nat.add_sub_cancel' hin.1]
    rw [if_pos hin, if_pos hin, BitVec.getLsbD_or, BitVec.getLsbD_and, BitVec.getLsbD_not,
      getLsbD_one_shiftLeft _ _ hj, getLsbD_shiftedValue _ _ _ hj, getLsbD_loadWord, hword]
    simp [setEffect, hj]
  · rw [if_neg hin, if_neg hin, if_neg hin]

theorem bitmapGet_eq (m : Mem) {bmp : Bitmap} {i : Nat} (hi : i < bmp.size) :
    bitmapGet m bmp i = .ok (bitAt m bmp.buf i) := by
  have hword : loadWord m (bmp.buf + 8 * (i / 64)) &&& 1#64 <<< (i % 64) ≠ 0#64 ↔
      bitAt m bmp.buf i = true := by
    have hofs : i % 64 < 64 := Nat.mod_lt _ (by omega)
    have hbit : (loadWord m (bmp.buf + 8 * (i / 64))).getLsbD (i % 64) = bitAt m bmp.buf i := by
      rw [getLsbD_loadWord, bitAt_add, show 8 * (8 * (i / 64)) + i % 64 = i by omega]
      simp [hofs]
    constructor
    · intro hne
      by_contra hoff
      apply hne
      apply BitVec.eq_of_getLsbD_eq
      intro j hj
      rw [BitVec.getLsbD_and, getLsbD_one_shiftLeft _ _ hj]
      by_cases hji : j = i % 64
      · subst hji
        rw [hbit, Bool.eq_false_iff.mpr hoff]
        simp
      · simp [hji]
    · intro hon heq
      have hj := congrArg (fun w => w.getLsbD (i % 64)) heq
      simp only [BitVec.getLsbD_and, getLsbD_one_shiftLeft _ _ hofs, hbit, hon] at hj
      simp at hj
  simp only [bitmapGet, assert_ok hi, bind, Except.bind, pure, Except.pure, Except.ok.injEq]
  rw [Bool.eq_iff_iff, bne_iff_ne, hword]

theorem bitAt_xorWord (m : Mem) (bmp : Bitmap) (idx : Nat) (mask : BitVec 64) {b o : Nat}
    (hb : bmp.buf % 2 ^ 64 = (b + o) % 2 ^ 64) (ho : o + 8 * idx + 8 ≤ 2 ^ 64) (g : Nat)
    (hg : g < 2 ^ 67) :
    bitAt (xorWord m bmp idx mask) b g =
      (bitAt m b g ^^ (decide (8 * o + 64 * idx ≤ g ∧ g < 8 * o + 64 * idx + 64) &&
        mask.getLsbD (g - (8 * o + 64 * idx)))) := by
  have ha : (bmp.buf + 8 * idx) % 2 ^ 64 = (b + (o + 8 * idx)) % 2 ^ 64 := by omega
  have hpos : 8 * (o + 8 * idx) = 8 * o + 64 * idx := by omega
  rw [xorWord, storeWord_of_mod_eq _ _ ha, loadWord_of_mod_eq m ha, bitAt_storeWord _ _ ho hg, hpos]
  by_cases hin : 8 * o + 64 * idx ≤ g ∧ g < 8 * o + 64 * idx + 64
  · have hj : g - (8 * o + 64 * idx) < 64 := by omega
    rw [if_pos hin, BitVec.getLsbD_xor, getLsbD_loadWord, bitAt_add, hpos,
      Nat.add_sub_cancel' hin.1]
    simp [hin, hj]
  · rw [if_neg hin]
    simp [hin]

theorem decide_xor_decide {P Q R : Prop} [Decidable P] [Decidable Q] [Decidable R]
    (disjoint : ¬ (P ∧ Q)) (union : R ↔ P ∨ Q) : (decide P ^^ decide Q) = decide R := by
  by_cases hP : P <;> by_cases hQ : Q <;> simp_all

theorem bitAt_flipWords (m : Mem) (bmp : Bitmap) (idx n : Nat) {b o : Nat}
    (hb : bmp.buf % 2 ^ 64 = (b + o) % 2 ^ 64) (ho : o + 8 * (idx + n) ≤ 2 ^ 64) (g : Nat)
    (hg : g < 2 ^ 67) :
    bitAt (flipWords m bmp idx n) b g =
      (bitAt m b g ^^ decide (8 * o + 64 * idx ≤ g ∧ g < 8 * o + 64 * (idx + n))) := by
  induction n with
  | zero =>
    have hno : ¬ (8 * o + 64 * idx ≤ g ∧ g < 8 * o + 64 * (idx + 0)) := by omega
    simp only [flipWords, hno, decide_false, Bool.xor_false]
  | succ n ih =>
    rw [flipWords, bitAt_xorWord _ _ _ _ hb (by omega) g hg, ih (by omega), Bool.xor_assoc,
      BitVec.getLsbD_allOnes, ← Bool.decide_and]
    congr 1
    apply decide_xor_decide <;> omega

theorem getLsbD_flipMask (s n j : Nat) (hn : 0 < n) (hs : s + n ≤ 64) (hj : j < 64) :
    (if n = 64 then BitVec.allOnes 64 else ((1#64 <<< n) - 1#64) <<< s).getLsbD j =
      decide (s ≤ j ∧ j < s + n) := by
  split
  · have hin : s ≤ j ∧ j < s + n := by omega
    rw [BitVec.getLsbD_allOnes]
    simp [hj, hin]
  · rw [BitVec.getLsbD_shiftLeft]
    by_cases hjs : j < s
    · have hno : ¬ (s ≤ j ∧ j < s + n) := by omega
      simp [hjs, hno]
    · have hin : (s ≤ j ∧ j < s + n) ↔ j - s < n := by omega
      rw [getLsbD_lowMask _ _ (by omega) (by omega)]
      simp [hj, hjs, hin]

theorem getLsbD_endMask (e j : Nat) (he : e < 64) (hj : j < 64) :
    (if e = 63 then BitVec.allOnes 64 else (1#64 <<< (e + 1)) - 1#64).getLsbD j =
      decide (j ≤ e) := by
  split
  · have hin : j ≤ e := by omega
    rw [BitVec.getLsbD_allOnes]
    simp [hj, hin]
  · rw [getLsbD_lowMask _ _ (by omega) hj]
    simp only [Nat.lt_succ_iff]

theorem bitmapFlip_ok {m m' : Mem} {bmp : Bitmap} {s e : Nat} (h : bitmapFlip m bmp s e = .ok m') :
    s ≤ e ∧ e ≤ bmp.size := by
  unfold bitmapFlip at h
  rw [assert_bind_eq_ok, assert_bind_eq_ok, assert_bind_eq_ok] at h
  exact ⟨h.2.2.1, h.2.1⟩

theorem bitmapFlip_returns (m : Mem) {bmp : Bitmap} {s e : Nat} (hse : s ≤ e) (he : e ≤ bmp.size) :
    ∃ m', bitmapFlip m bmp s e = .ok m' := by
  have hs : s ≤ bmp.size := by omega
  unfold bitmapFlip
  simp only [assert_ok hs, assert_ok he, assert_ok hse, bind, Except.bind]
  split <;> exact ⟨_, rfl⟩

theorem bitAt_bitmapFlip {m m' : Mem} {bmp : Bitmap} {s e : Nat}
    (h : bitmapFlip m bmp s e = .ok m') {b o : Nat} (hb : bmp.buf % 2 ^ 64 = (b + o) % 2 ^ 64)
    (ho : o + 8 * (e / 64) + 8 ≤ 2 ^ 64) (g : Nat) (hg : g < 2 ^ 67) :
    bitAt m' b g = (bitAt m b g ^^ decide (8 * o + s ≤ g ∧ g ≤ 8 * o + e)) := by
  obtain ⟨hse, he⟩ := bitmapFlip_ok h
  have hs : s ≤ bmp.size := by omega
  simp only [bitmapFlip, assert_ok hs, assert_ok he, assert_ok hse, bind, Except.bind, pure,
    Except.pure] at h
  split at h <;> rename_i hword
  · cases h
    rw [bitAt_xorWord _ _ _ _ hb (by omega) g hg]
    congr 1
    by_cases hin : 8 * o + 64 * (s / 64) ≤ g ∧ g < 8 * o + 64 * (s / 64) + 64
    · rw [getLsbD_flipMask _ _ _ (by omega) (by omega) (by omega), ← Bool.decide_and]
      apply decide_eq_decide.mpr
      omega
    · have hno : ¬ (8 * o + s ≤ g ∧ g ≤ 8 * o + e) := by omega
      simp [hin, hno]
  · cases h
    rw [bitAt_xorWord _ _ _ _ hb (by omega) g hg, bitAt_flipWords _ _ _ _ hb (by omega) g hg,
      bitAt_xorWord _ _ _ _ hb (by omega) g hg, Bool.xor_assoc, Bool.xor_assoc]
    congr 1
    have hfirst : (decide (8 * o + 64 * (s / 64) ≤ g ∧ g < 8 * o + 64 * (s / 64) + 64) &&
        (BitVec.allOnes 64 <<< (s % 64)).getLsbD (g - (8 * o + 64 * (s / 64)))) =
        decide (8 * o + s ≤ g ∧ g < 8 * o + 64 * (s / 64 + 1)) := by
      rw [BitVec.getLsbD_shiftLeft, BitVec.getLsbD_allOnes, ← decide_not, ← Bool.decide_and,
        ← Bool.decide_and, ← Bool.decide_and]
      apply decide_eq_decide.mpr
      omega
    have hlast : (decide (8 * o + 64 * (e / 64) ≤ g ∧ g < 8 * o + 64 * (e / 64) + 64) &&
        (if e % 64 = 63 then BitVec.allOnes 64
          else (1#64 <<< (e % 64 + 1)) - 1#64).getLsbD (g - (8 * o + 64 * (e / 64)))) =
        decide (8 * o + 64 * (e / 64) ≤ g ∧ g ≤ 8 * o + e) := by
      by_cases hin : 8 * o + 64 * (e / 64) ≤ g ∧ g < 8 * o + 64 * (e / 64) + 64
      · rw [getLsbD_endMask _ _ (by omega) (by omega), ← Bool.decide_and]
        apply decide_eq_decide.mpr
        omega
      · have hno : ¬ (8 * o + 64 * (e / 64) ≤ g ∧ g ≤ 8 * o + e) := by omega
        simp [hin, hno]
    rw [hfirst, hlast]
    rw [decide_xor_decide (R := 8 * o + 64 * (s / 64 + 1) ≤ g ∧ g ≤ 8 * o + e) (by omega) (by omega)]
    apply decide_xor_decide <;> omega

/-! ## The searches -/

/-- Position `j` of the bitmap holds `value`. -/
def HasBit (m : Mem) (bmp : Bitmap) (value : Bool) (j : Nat) : Prop :=
  bitAt m bmp.buf j = value

/-- The loop keeps the streak: it stops with the count full, or at the end of
the range with no window in it. -/
theorem bitmapTestLoop_spec (m : Mem) (bmp : Bitmap) (value : Bool) (numBits start stop : Nat)
    (hstop : stop ≤ bmp.size) {n i iter cand : Nat} (hn : i + n = stop)
    (hs : Streak (HasBit m bmp value) start numBits i iter cand) :
    ∃ iter' cand' i', bitmapTestLoop m bmp value numBits n i iter cand = .ok (iter', cand') ∧
      Streak (HasBit m bmp value) start numBits i' iter' cand' ∧ i' ≤ stop ∧
      (iter' < numBits → i' = stop) := by
  induction n generalizing i iter cand with
  | zero => exact ⟨iter, cand, i, rfl, hs, by omega, by omega⟩
  | succ n ih =>
    rw [bitmapTestLoop]
    by_cases hfull : iter < numBits
    · rw [if_pos hfull, bitmapGet_eq m (by omega)]
      by_cases hbit : bitAt m bmp.buf i = value
      · obtain ⟨iter', cand', i', hrun, hrest⟩ := ih (by omega) (hs.extend hfull hbit)
        exact ⟨iter', cand', i', by simpa [bind, Except.bind, hbit] using hrun, hrest⟩
      · obtain ⟨iter', cand', i', hrun, hrest⟩ := ih (by omega) (hs.reset hfull hbit)
        exact ⟨iter', cand', i', by simpa [bind, Except.bind, hbit] using hrun, hrest⟩
    · rw [if_neg hfull]
      exact ⟨iter, cand, i, rfl, hs, by omega, fun h => absurd h hfull⟩

theorem assertSearch_ok {bmp : Bitmap} {s e n : Nat} {u : Unit}
    (h : assertSearch bmp s e n = .ok u) :
    s < bmp.size ∧ e < bmp.size ∧ s ≤ e ∧ (s + n + (2 ^ 64 - 1)) % 2 ^ 64 ≤ e ∧ 0 < n := by
  unfold assertSearch at h
  simpa only [assert_bind_eq_ok, assert_eq_ok] using h

theorem assertSearch_returns {bmp : Bitmap} {s e n : Nat} (hn : 0 < n) (hsize : bmp.size ≤ 2 ^ 64)
    (he : e < bmp.size) (hfit : s + n ≤ e + 1) : assertSearch bmp s e n = .ok () := by
  have h₁ : s < bmp.size := by omega
  have h₂ : s ≤ e := by omega
  have h₃ : (s + n + (2 ^ 64 - 1)) % 2 ^ 64 ≤ e := by omega
  unfold assertSearch
  rw [assert_bind_eq_ok, assert_bind_eq_ok, assert_bind_eq_ok, assert_bind_eq_ok]
  exact ⟨h₁, he, h₂, h₃, assert_ok hn⟩

/-- A search that passed its assertions is a first fit over `[s, e]`. -/
theorem bitmapTest_spec (m : Mem) {bmp : Bitmap} (value : Bool) {s e n : Nat}
    (hok : assertSearch bmp s e n = .ok ()) :
    ∃ r, bitmapTest m bmp value s e n = .ok r ∧
      (∀ i, r = some i → FirstFit (HasBit m bmp value) s (e + 1) n i) ∧
      (r = none → NoFit (HasBit m bmp value) s (e + 1) n) := by
  obtain ⟨-, he, hse, -, hn⟩ := assertSearch_ok hok
  obtain ⟨iter, cand, i, hrun, hstreak, hi, hend⟩ :=
    bitmapTestLoop_spec m bmp value n s (e + 1) (by omega) (n := e + 1 - s) (by omega)
      (Streak.first s)
  refine ⟨if iter = n then some cand else none, ?_, ?_, ?_⟩
  · simp [bitmapTest, hok, hrun, bind, Except.bind, pure, Except.pure]
  · intro r hr
    by_cases hfull : iter = n
    · subst hfull
      rw [if_pos rfl, Option.some.injEq] at hr
      exact hr ▸ hstreak.firstFit hn hi
    · rw [if_neg hfull] at hr
      cases hr
  · intro hr
    by_cases hfull : iter = n
    · rw [if_pos hfull] at hr
      cases hr
    · have hlt : iter < n := Nat.lt_of_le_of_ne hstreak.le_num hfull
      have hstop := hend hlt
      subst hstop
      exact hstreak.noFit hlt

/-- What a search that flips did. -/
theorem bitmapTestAndFlip_spec (m : Mem) {bmp : Bitmap} (value : Bool) {s e n : Nat}
    (hsize : bmp.size ≤ 2 ^ 64) (hok : assertSearch bmp s e n = .ok ()) :
    (bitmapTestAndFlip m bmp value s e n = .ok (none, m) ∧
      NoFit (HasBit m bmp value) s (e + 1) n) ∨
    ∃ r m', bitmapTestAndFlip m bmp value s e n = .ok (some r, m') ∧
      FirstFit (HasBit m bmp value) s (e + 1) n r ∧
      bitmapFlip m bmp r (r + n - 1) = .ok m' := by
  obtain ⟨-, he, hse, -, hn⟩ := assertSearch_ok hok
  obtain ⟨r, hrun, hsome, hnone⟩ := bitmapTest_spec m value hok
  cases r with
  | none =>
    refine .inl ⟨?_, hnone rfl⟩
    simp [bitmapTestAndFlip, hok, hrun, bind, Except.bind, pure, Except.pure]
  | some r =>
    have hfit := hsome r rfl
    have hle := hfit.le_stop
    have hlast : (r + n + (2 ^ 64 - 1)) % 2 ^ 64 = r + n - 1 := by omega
    obtain ⟨m', hflip⟩ : ∃ m', bitmapFlip m bmp r (r + n - 1) = .ok m' :=
      bitmapFlip_returns m (by omega) (by omega)
    refine .inr ⟨r, m', ?_, hfit, hflip⟩
    simp only [bitmapTestAndFlip, hok, hrun, hlast, hflip, bind, Except.bind, pure, Except.pure]

theorem bitmapTestAndFlip_ok {m m' : Mem} {bmp : Bitmap} {value : Bool} {s e n : Nat}
    {r : Option Nat} (h : bitmapTestAndFlip m bmp value s e n = .ok (r, m')) :
    assertSearch bmp s e n = .ok () := by
  obtain ⟨_, hok, -⟩ := bind_eq_ok.mp h
  exact hok

end WaddleOS
