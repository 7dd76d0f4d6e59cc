import Mathlib.Data.Nat.Bitwise
import WaddleOS.Lib.String

/-!
# Memory as a row of bits

`bitAt m a g` is bit `g` counted from address `a`, least significant bit of a
byte first. In this view an unaligned 64-bit access at `a + o` is an access to
the 64 bits from `8 * o` on, so the words of neighbouring structures may
overlap and every effect is still a set of bit positions relative to one base.
-/

namespace WaddleOS

def bitAt (m : Mem) (a g : Nat) : Bool := (m.get (a + g / 8)).toNat.testBit (g % 8)

/-- The 64-bit word at `a`. -/
def loadWord (m : Mem) (a : Nat) : BitVec 64 := BitVec.ofNat 64 (load m a 8)

def storeWord (m : Mem) (a : Nat) (w : BitVec 64) : Mem := store m a 8 w.toNat

/-! ## One address under two names -/

theorem get_of_mod_eq (m : Mem) {a b : Nat} (h : a % 2 ^ 64 = b % 2 ^ 64) : m.get a = m.get b := by
  rw [Mem.get, Mem.get, h]

theorem load_of_mod_eq (m : Mem) {a b : Nat} (n : Nat) (h : a % 2 ^ 64 = b % 2 ^ 64) :
    load m a n = load m b n := by
  induction n generalizing a b with
  | zero => rfl
  | succ n ih =>
    have hr : load m (a + 1) n = load m (b + 1) n := ih (by omega)
    rw [load, load, get_of_mod_eq m h, hr]

theorem store_of_mod_eq (m : Mem) {a b : Nat} (n v : Nat) (h : a % 2 ^ 64 = b % 2 ^ 64) :
    store m a n v = store m b n v := by
  induction n generalizing a b v with
  | zero => rfl
  | succ n ih => rw [store, store, ih (a := a + 1) (b := b + 1) _ (by omega), Mem.set, Mem.set, h]

theorem fillBytes_of_mod_eq (m : Mem) (v : UInt8) {a b : Nat} (n : Nat)
    (h : a % 2 ^ 64 = b % 2 ^ 64) : fillBytes m a v n = fillBytes m b v n := by
  induction n with
  | zero => rfl
  | succ n ih =>
    have hn : (a + n) % 2 ^ 64 = (b + n) % 2 ^ 64 := by omega
    rw [fillBytes, fillBytes, ih, Mem.set, Mem.set, hn]

theorem memset_of_mod_eq (m : Mem) {a b : Nat} (x n : Nat) (h : a % 2 ^ 64 = b % 2 ^ 64) :
    memset m a x n = memset m b x n := fillBytes_of_mod_eq m _ n h

theorem loadWord_of_mod_eq (m : Mem) {a b : Nat} (h : a % 2 ^ 64 = b % 2 ^ 64) :
    loadWord m a = loadWord m b := by
  rw [loadWord, loadWord, load_of_mod_eq m 8 h]

theorem storeWord_of_mod_eq (m : Mem) (w : BitVec 64) {a b : Nat} (h : a % 2 ^ 64 = b % 2 ^ 64) :
    storeWord m a w = storeWord m b w := store_of_mod_eq m 8 _ h

theorem bitAt_of_mod_eq (m : Mem) {a b : Nat} (g : Nat) (h : a % 2 ^ 64 = b % 2 ^ 64) :
    bitAt m a g = bitAt m b g := by
  rw [bitAt, bitAt, get_of_mod_eq m (a := a + g / 8) (b := b + g / 8) (by omega)]

theorem bitAt_add (m : Mem) (a o g : Nat) : bitAt m (a + o) g = bitAt m a (8 * o + g) := by
  have hd : a + (8 * o + g) / 8 = a + o + g / 8 := by omega
  have hm : (8 * o + g) % 8 = g % 8 := by omega
  rw [bitAt, bitAt, hd, hm]

/-! ## Equal bits -/

/-- Bytes with the same bits are the same. -/
theorem get_eq_of_bits {m m' : Mem} {x : Nat}
    (h : ∀ t, t < 8 → bitAt m' x t = bitAt m x t) : m'.get x = m.get x := by
  apply UInt8.toNat_inj.mp
  apply Nat.eq_of_testBit_eq
  intro t
  by_cases ht : t < 8
  · have hb := h t ht
    rwa [bitAt, bitAt, Nat.div_eq_of_lt ht, Nat.mod_eq_of_lt ht] at hb
  · have hlt : ∀ b : UInt8, b.toNat < 2 ^ t := fun b =>
      Nat.lt_of_lt_of_le (UInt8.toNat_lt b) (Nat.pow_le_pow_right (by omega) (by omega))
    rw [Nat.testBit_eq_false_of_lt (hlt _), Nat.testBit_eq_false_of_lt (hlt _)]

theorem bitAt_congr {m m' : Mem} {a g : Nat} (h : m'.get (a + g / 8) = m.get (a + g / 8)) :
    bitAt m' a g = bitAt m a g := by
  rw [bitAt, bitAt, h]

/-- The bits seen from one base are all of the memory that a machine can see. -/
theorem eq_of_bits {m m' : Mem} {b : Nat} (h : ∀ g, g < 2 ^ 67 → bitAt m' b g = bitAt m b g)
    (hunseen : ∀ x, 2 ^ 64 ≤ x → m'.byte x = m.byte x) : m' = m := by
  have hbyte : ∀ x, m'.byte x = m.byte x := by
    intro x
    by_cases hx : x < 2 ^ 64
    · have ho : (b + (x + 2 ^ 64 - b % 2 ^ 64) % 2 ^ 64) % 2 ^ 64 = x := by omega
      have hget : m'.get (b + (x + 2 ^ 64 - b % 2 ^ 64) % 2 ^ 64) =
          m.get (b + (x + 2 ^ 64 - b % 2 ^ 64) % 2 ^ 64) := by
        apply get_eq_of_bits
        intro t ht
        rw [bitAt_add, bitAt_add, h _ (by omega)]
      rwa [Mem.get, Mem.get, ho] at hget
    · exact hunseen x (Nat.le_of_not_lt hx)
  cases m
  cases m'
  exact congrArg Mem.mk (funext hbyte)

theorem byte_store (m : Mem) (a n v : Nat) {x : Nat} (hx : 2 ^ 64 ≤ x) :
    (store m a n v).byte x = m.byte x := by
  induction n generalizing a v with
  | zero => rfl
  | succ n ih =>
    have hne : x ≠ a % 2 ^ 64 := by omega
    rw [store, ← ih (a + 1) (v / 256)]
    exact if_neg hne

/-! ## Words -/

theorem testBit_load (m : Mem) (a n g : Nat) :
    (load m a n).testBit g = (decide (g < 8 * n) && bitAt m a g) := by
  induction n generalizing a g with
  | zero => simp [load]
  | succ n ih =>
    have hb : (m.get a).toNat < 2 ^ 8 := UInt8.toNat_lt _
    have hload : load m a (n + 1) = 2 ^ 8 * load m (a + 1) n + (m.get a).toNat := by
      rw [load]
      omega
    rw [hload, Nat.testBit_two_pow_mul_add _ hb]
    by_cases hg : g < 8
    · have hd : g / 8 = 0 := by omega
      have hm : g % 8 = g := by omega
      have hlt : g < 8 * (n + 1) := by omega
      simp [hg, hlt, bitAt, hd, hm]
    · obtain ⟨k, rfl⟩ : ∃ k, g = 8 + k := ⟨g - 8, by omega⟩
      have hin : (8 + k < 8 * (n + 1)) ↔ k < 8 * n := by omega
      rw [if_neg hg, Nat.add_sub_cancel_left, ih, bitAt_add]
      simp only [hin, Nat.mul_one]

theorem getLsbD_loadWord (m : Mem) (a i : Nat) :
    (loadWord m a).getLsbD i = (decide (i < 64) && bitAt m a i) := by
  rw [loadWord, BitVec.getLsbD_ofNat, testBit_load]
  by_cases h : i < 64 <;> simp [h]

theorem loadWord_congr {m m' : Mem} {a : Nat} (h : ∀ i, i < 64 → bitAt m' a i = bitAt m a i) :
    loadWord m' a = loadWord m a := by
  apply BitVec.eq_of_getLsbD_eq
  intro i hi
  rw [getLsbD_loadWord, getLsbD_loadWord, h i hi]

theorem bitAt_store (m : Mem) {b o n g : Nat} (v : Nat) (ho : o + n ≤ 2 ^ 64) (hg : g < 2 ^ 67) :
    bitAt (store m (b + o) n v) b g =
      if 8 * o ≤ g ∧ g < 8 * (o + n) then v.testBit (g - 8 * o) else bitAt m b g := by
  rw [bitAt, get_store m v ho (by omega)]
  by_cases hin : 8 * o ≤ g ∧ g < 8 * (o + n)
  · have hpow : 256 ^ (g / 8 - o) = 2 ^ (8 * (g / 8 - o)) := by
      rw [show 256 = 2 ^ 8 from rfl, ← pow_mul]
    have hsum : g % 8 + 8 * (g / 8 - o) = g - 8 * o := by omega
    have hbyte : g % 8 < 8 := by omega
    rw [if_pos hin, if_pos (by omega), UInt8.toNat_ofNat', Nat.testBit_mod_two_pow, hpow,
      Nat.testBit_div_two_pow, hsum]
    simp [hbyte]
  · rw [if_neg hin, if_neg (by omega), bitAt]

theorem bitAt_storeWord (m : Mem) {b o g : Nat} (w : BitVec 64) (ho : o + 8 ≤ 2 ^ 64)
    (hg : g < 2 ^ 67) :
    bitAt (storeWord m (b + o) w) b g =
      if 8 * o ≤ g ∧ g < 8 * o + 64 then w.getLsbD (g - 8 * o) else bitAt m b g := by
  rw [storeWord, bitAt_store m _ ho hg, BitVec.testBit_toNat, Nat.mul_add]

theorem loadWord_storeWord (m : Mem) (a : Nat) (w : BitVec 64) :
    loadWord (storeWord m a w) a = w := by
  apply BitVec.eq_of_getLsbD_eq
  intro i hi
  have h := bitAt_storeWord m (b := a) (o := 0) w (by omega) (g := i) (by omega)
  rw [Nat.add_zero, if_pos (by omega)] at h
  rw [getLsbD_loadWord, h]
  simp [hi]

theorem bitAt_memset_zero (m : Mem) {b o n g : Nat} (ho : o + n ≤ 2 ^ 64) (hg : g < 2 ^ 67) :
    bitAt (memset m (b + o) 0 n) b g =
      (bitAt m b g && !decide (8 * o ≤ g ∧ g < 8 * (o + n))) := by
  rw [bitAt, get_memset m 0 ho (by omega)]
  by_cases hin : 8 * o ≤ g ∧ g < 8 * (o + n)
  · rw [if_pos (by omega)]
    simp [hin]
  · rw [if_neg (by omega)]
    simp [hin, bitAt]

end WaddleOS
