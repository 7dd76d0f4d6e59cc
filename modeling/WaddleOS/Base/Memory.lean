import Mathlib.Tactic.Ring
import Mathlib.Data.Nat.Bitwise

/-!
# Byte memory of a 64-bit machine

A memory gives a byte for every address. An access at `a` reaches address
`a mod 2^64`, so a word that starts below the top of the address space wraps
to address 0 as it does on the machine. `load` and `store` are little endian.

The read-over-write lemmas are stated relative to a base `b`: two offsets
below `2^64` from one base name the same byte only if they are equal. With
`b = 0` they speak about addresses.
-/

namespace WaddleOS

structure Mem where
  byte : Nat → UInt8

def Mem.get (m : Mem) (a : Nat) : UInt8 := m.byte (a % 2 ^ 64)

def Mem.set (m : Mem) (a : Nat) (v : UInt8) : Mem :=
  ⟨fun x => if x = a % 2 ^ 64 then v else m.byte x⟩

/-- The `n`-byte little-endian number at `a`. -/
def load (m : Mem) (a : Nat) : Nat → Nat
  | 0 => 0
  | n + 1 => (m.get a).toNat + 256 * load m (a + 1) n

/-- Write the low `n` bytes of `v` at `a`, little endian. -/
def store (m : Mem) (a : Nat) : Nat → Nat → Mem
  | 0, _ => m
  | n + 1, v => (store m (a + 1) n (v / 256)).set a (UInt8.ofNat v)

theorem get_set (m : Mem) (v : UInt8) {b o x : Nat} (ho : o < 2 ^ 64) (hx : x < 2 ^ 64) :
    (m.set (b + o) v).get (b + x) = if x = o then v else m.get (b + x) := by
  have h : (b + x) % 2 ^ 64 = (b + o) % 2 ^ 64 ↔ x = o := by omega
  simp only [Mem.get, Mem.set, h]

theorem get_store (m : Mem) {b o x n : Nat} (v : Nat) (ho : o + n ≤ 2 ^ 64) (hx : x < 2 ^ 64) :
    (store m (b + o) n v).get (b + x) =
      if o ≤ x ∧ x < o + n then UInt8.ofNat (v / 256 ^ (x - o)) else m.get (b + x) := by
  induction n generalizing o v with
  | zero =>
    have h : ¬ (o ≤ x ∧ x < o + 0) := by omega
    simp only [store, h, ite_false]
  | succ n ih =>
    rw [store, get_set _ _ (by omega) hx]
    by_cases hxo : x = o
    · subst hxo
      simp
    · have ih' := ih (o := o + 1) (v / 256) (by omega)
      rw [← Nat.add_assoc] at ih'
      rw [ite_eq_right_iff.mpr (fun h => absurd h hxo), ih']
      by_cases hin : o + 1 ≤ x ∧ x < o + 1 + n
      · have hin' : o ≤ x ∧ x < o + (n + 1) := by omega
        have hp : x - o = (x - (o + 1)) + 1 := by omega
        rw [ite_eq_left_iff.mpr (fun h => absurd hin h),
          ite_eq_left_iff.mpr (fun h => absurd hin' h), Nat.div_div_eq_div_mul, hp, pow_succ']
      · have hin' : ¬ (o ≤ x ∧ x < o + (n + 1)) := by omega
        simp only [hin, hin', ite_false]

theorem get_store_outside (m : Mem) {b o x n : Nat} (v : Nat) (ho : o + n ≤ 2 ^ 64)
    (hx : x < 2 ^ 64) (hout : x < o ∨ o + n ≤ x) :
    (store m (b + o) n v).get (b + x) = m.get (b + x) := by
  rw [get_store m v ho hx]
  exact ite_eq_right_iff.mpr (fun h => by omega)

theorem load_lt (m : Mem) (a n : Nat) : load m a n < 256 ^ n := by
  induction n generalizing a with
  | zero => simp [load]
  | succ n ih =>
    have hb : (m.get a).toNat < 256 := UInt8.toNat_lt _
    have hr := ih (a + 1)
    rw [load, pow_succ]
    omega

/-- Two numbers are equal when all their bytes are. -/
theorem load_eq_iff {m m' : Mem} {p q n : Nat} :
    load m p n = load m' q n ↔ ∀ i, i < n → m.get (p + i) = m'.get (q + i) := by
  induction n generalizing p q with
  | zero => simp [load]
  | succ n ih =>
    have hp : (m.get p).toNat < 256 := UInt8.toNat_lt _
    have hq : (m'.get q).toNat < 256 := UInt8.toNat_lt _
    have hsplit : load m p (n + 1) = load m' q (n + 1) ↔
        m.get p = m'.get q ∧ load m (p + 1) n = load m' (q + 1) n := by
      rw [load, load, ← UInt8.toNat_inj]
      omega
    rw [hsplit, ih]
    constructor
    · rintro ⟨hfirst, hrest⟩ i hi
      cases i with
      | zero => exact hfirst
      | succ i =>
        have hi' := hrest i (by omega)
        rwa [Nat.add_right_comm, Nat.add_right_comm q] at hi'
    · intro h
      refine ⟨h 0 (by omega), fun i hi => ?_⟩
      have hi' := h (i + 1) (by omega)
      rwa [Nat.add_right_comm, Nat.add_right_comm q]

/-- A load reads only its own bytes. -/
theorem load_congr {m m' : Mem} {a n : Nat}
    (h : ∀ i, i < n → m'.get (a + i) = m.get (a + i)) : load m' a n = load m a n :=
  load_eq_iff.mpr h

theorem load_set_below (m : Mem) (v : UInt8) {b o n : Nat} (hn : o + 1 + n ≤ 2 ^ 64) :
    load (m.set (b + o) v) (b + (o + 1)) n = load m (b + (o + 1)) n := by
  apply load_congr
  intro i hi
  rw [Nat.add_assoc, get_set m v (by omega) (by omega)]
  exact ite_eq_right_iff.mpr (fun h => by omega)

theorem load_store_same (m : Mem) (v : Nat) {b o n : Nat} (ho : o + n ≤ 2 ^ 64) :
    load (store m (b + o) n v) (b + o) n = v % 256 ^ n := by
  induction n generalizing o v with
  | zero => simp [load, Nat.mod_one]
  | succ n ih =>
    have hr := ih (o := o + 1) (v / 256) (by omega)
    have hhead := get_set (store m (b + (o + 1)) n (v / 256)) (UInt8.ofNat v)
      (b := b) (o := o) (x := o) (by omega) (by omega)
    have htail := load_set_below (store m (b + (o + 1)) n (v / 256)) (UInt8.ofNat v)
      (b := b) (o := o) (n := n) (by omega)
    have byte : (UInt8.ofNat v).toNat = v % 256 := by simp
    rw [load, store, Nat.add_assoc b o 1, hhead, htail, hr, if_pos rfl, byte, pow_succ',
      Nat.mod_mul]

theorem load_store_outside (m : Mem) (v : Nat) {b o n p k : Nat} (ho : o + n ≤ 2 ^ 64)
    (hp : p + k ≤ 2 ^ 64) (hout : p + k ≤ o ∨ o + n ≤ p) :
    load (store m (b + o) n v) (b + p) k = load m (b + p) k := by
  apply load_congr
  intro i hi
  rw [Nat.add_assoc]
  exact get_store_outside m v ho (by omega) (by omega)

/-- Writing back what is there changes nothing. -/
theorem store_eq_self {m : Mem} {a n v : Nat} (h : load m a n = v % 256 ^ n) :
    store m a n v = m := by
  induction n generalizing a v with
  | zero => rfl
  | succ n ih =>
    have byte : (m.get a).toNat < 256 := UInt8.toNat_lt _
    rw [load, pow_succ', Nat.mod_mul] at h
    have low : UInt8.ofNat v = m.get a := by
      apply UInt8.toNat_inj.mp
      simp only [UInt8.toNat_ofNat']
      omega
    rw [store, ih (by omega), low]
    apply congrArg Mem.mk
    funext x
    split
    next at_ => rw [at_]; rfl
    next => rfl

/-! The same at an address, without a base. -/

theorem get_set_at (m : Mem) (v : UInt8) {a x : Nat} (ha : a < 2 ^ 64) (hx : x < 2 ^ 64) :
    (m.set a v).get x = if x = a then v else m.get x := by
  have h := get_set m v (b := 0) ha hx
  rwa [Nat.zero_add, Nat.zero_add] at h

theorem get_store_at (m : Mem) (v : Nat) {a n x : Nat} (ha : a + n ≤ 2 ^ 64) (hx : x < 2 ^ 64) :
    (store m a n v).get x =
      if a ≤ x ∧ x < a + n then UInt8.ofNat (v / 256 ^ (x - a)) else m.get x := by
  have h := get_store m v (b := 0) ha hx
  rwa [Nat.zero_add, Nat.zero_add] at h

theorem load_store_at (m : Mem) (v : Nat) {a n : Nat} (ha : a + n ≤ 2 ^ 64) :
    load (store m a n v) a n = v % 256 ^ n := by
  have h := load_store_same m v (b := 0) ha
  rwa [Nat.zero_add] at h

theorem load_store_apart (m : Mem) (v : Nat) {a n p k : Nat} (ha : a + n ≤ 2 ^ 64)
    (hp : p + k ≤ 2 ^ 64) (hout : p + k ≤ a ∨ a + n ≤ p) :
    load (store m a n v) p k = load m p k := by
  have h := load_store_outside m v (b := 0) ha hp hout
  rwa [Nat.zero_add, Nat.zero_add] at h

/-- Every byte outside `[lo, hi)` is as it was. -/
def SameOutside (lo hi : Nat) (m m' : Mem) : Prop :=
  ∀ x, x < 2 ^ 64 → x < lo ∨ hi ≤ x → m'.get x = m.get x

theorem SameOutside.refl (lo hi : Nat) (m : Mem) : SameOutside lo hi m m := fun _ _ _ => rfl

theorem SameOutside.trans {lo hi : Nat} {m m' m'' : Mem} (h : SameOutside lo hi m m')
    (h' : SameOutside lo hi m' m'') : SameOutside lo hi m m'' :=
  fun x hx hout => (h' x hx hout).trans (h x hx hout)

theorem SameOutside.mono {lo hi lo' hi' : Nat} {m m' : Mem} (h : SameOutside lo hi m m')
    (hlo : lo' ≤ lo) (hhi : hi ≤ hi') : SameOutside lo' hi' m m' :=
  fun x hx hout => h x hx (by omega)

theorem SameOutside.store {lo hi o n : Nat} {m m' : Mem} (h : SameOutside lo hi m m') (v : Nat)
    (hlo : lo ≤ o) (hhi : o + n ≤ hi) (hb : hi ≤ 2 ^ 64) : SameOutside lo hi m (store m' o n v) := by
  intro x hx hout
  have hin : ¬ (o ≤ x ∧ x < o + n) := by omega
  rw [get_store_at m' v (by omega) hx, if_neg hin, h x hx hout]

/-- What a kernel call can end in besides returning: an `ASSERT` that fails
halts the machine for good, a loop may not end within the steps given, and a
signed sum may leave its type. -/
inductive Fault where
  | assertFailed
  | outOfFuel
  | overflow
  deriving DecidableEq, Repr

/-- `ASSERT(x)` of utils.h: `hlt` for ever unless the condition holds. -/
def assert (p : Prop) [Decidable p] : Except Fault Unit :=
  if p then .ok () else .error .assertFailed

@[simp] theorem assert_ok {p : Prop} [Decidable p] (h : p) : assert p = .ok () := by
  simp [assert, h]

theorem assert_eq_ok {p : Prop} [Decidable p] {u : Unit} : assert p = .ok u ↔ p := by
  unfold assert
  split <;> simp_all

/-- A sequence returns when its first part returned and the rest did. -/
theorem bind_eq_ok {ε α β : Type} {x : Except ε α} {f : α → Except ε β} {r : β} :
    (x >>= f) = .ok r ↔ ∃ a, x = .ok a ∧ f a = .ok r := by
  cases x <;> simp [bind, Except.bind]

theorem assert_bind_eq_ok {α : Type} {p : Prop} [Decidable p] {f : Unit → Except Fault α} {r : α} :
    (assert p >>= f) = .ok r ↔ p ∧ f () = .ok r := by
  rw [bind_eq_ok]
  constructor
  · rintro ⟨u, hp, hf⟩
    exact ⟨assert_eq_ok.mp hp, hf⟩
  · rintro ⟨hp, hf⟩
    exact ⟨(), assert_ok hp, hf⟩

end WaddleOS
