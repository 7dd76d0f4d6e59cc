import WaddleOS.Base.Memory

/-!
# `lib/string.c`: memmove and memset

Both are single forward byte loops, so `memmove` copies what it reads at that
moment. The copy is exact when the destination does not start inside the
source, above its first byte.
-/

namespace WaddleOS

/-- The loop of `memmove` after `n` iterations: `d[i] = s[i]`, upwards. -/
def copyBytes (m : Mem) (d s : Nat) : Nat → Mem
  | 0 => m
  | n + 1 =>
    let m' := copyBytes m d s n
    m'.set (d + n) (m'.get (s + n))

def memmove (m : Mem) (dst src numBytes : Nat) : Mem :=
  if dst = src ∨ numBytes = 0 then m else copyBytes m dst src numBytes

/-- The loop of `memset` after `n` iterations. -/
def fillBytes (m : Mem) (a : Nat) (v : UInt8) : Nat → Mem
  | 0 => m
  | n + 1 => (fillBytes m a v n).set (a + n) v

/-- `memset(a, x, n)`; only the low byte of the `int` argument is stored. -/
def memset (m : Mem) (a x n : Nat) : Mem := fillBytes m a (UInt8.ofNat (x &&& 0xFF)) n

theorem copyBytes_outside (m : Mem) (s : Nat) {b d x n : Nat} (hd : d + n ≤ 2 ^ 64)
    (hx : x < 2 ^ 64) (hout : x < d ∨ d + n ≤ x) :
    (copyBytes m (b + d) s n).get (b + x) = m.get (b + x) := by
  induction n with
  | zero => rfl
  | succ n ih =>
    rw [copyBytes, Nat.add_assoc, get_set _ _ (by omega) hx, if_neg (by omega)]
    exact ih (by omega) (by omega)

/-- A forward copy whose destination starts at or below its source, or past
the source's end, delivers the bytes the source held before it began. -/
theorem copyBytes_inside (m : Mem) {b d s x n : Nat} (hd : d + n ≤ 2 ^ 64)
    (hs : s + n ≤ 2 ^ 64) (hover : d ≤ s ∨ s + n ≤ d) (hx : x < n) :
    (copyBytes m (b + d) (b + s) n).get (b + (d + x)) = m.get (b + (s + x)) := by
  induction n with
  | zero => omega
  | succ n ih =>
    rw [copyBytes, Nat.add_assoc, get_set _ _ (by omega) (by omega)]
    by_cases hxn : x = n
    · subst hxn
      rw [if_pos rfl, Nat.add_assoc]
      exact copyBytes_outside m (b + s) (by omega) (by omega) (by omega)
    · rw [if_neg (by omega)]
      exact ih (by omega) (by omega) (by omega) (by omega)

theorem memmove_outside (m : Mem) {d s x n : Nat} (hd : d + n ≤ 2 ^ 64)
    (hx : x < 2 ^ 64) (hout : x < d ∨ d + n ≤ x) : (memmove m d s n).get x = m.get x := by
  unfold memmove
  split
  · rfl
  · have h := copyBytes_outside m s (b := 0) hd hx hout
    simpa only [Nat.zero_add] using h

theorem memmove_inside (m : Mem) {d s x n : Nat} (hd : d + n ≤ 2 ^ 64)
    (hs : s + n ≤ 2 ^ 64) (hover : d ≤ s ∨ s + n ≤ d) (hx : x < n) :
    (memmove m d s n).get (d + x) = m.get (s + x) := by
  unfold memmove
  split
  · rename_i h
    rcases h with rfl | h
    · rfl
    · omega
  · have h := copyBytes_inside m (b := 0) hd hs hover hx
    simpa only [Nat.zero_add] using h

/-- A word of an exact copy is the word it was copied from. -/
theorem load_memmove (m : Mem) {d s x n k : Nat} (hd : d + n ≤ 2 ^ 64) (hs : s + n ≤ 2 ^ 64)
    (hover : d ≤ s ∨ s + n ≤ d) (hx : x + k ≤ n) :
    load (memmove m d s n) (d + x) k = load m (s + x) k := by
  induction k generalizing x with
  | zero => rfl
  | succ k ih =>
    rw [load, load, memmove_inside m hd hs hover (by omega), Nat.add_assoc, Nat.add_assoc,
      ih (by omega)]

theorem SameOutside.memmove {lo hi d n : Nat} {m m' : Mem} (h : SameOutside lo hi m m') (s : Nat)
    (hlo : lo ≤ d) (hhi : d + n ≤ hi) (hb : hi ≤ 2 ^ 64) : SameOutside lo hi m (memmove m' d s n) := by
  intro x hx hout
  rw [memmove_outside m' (by omega) hx (by omega), h x hx hout]

theorem get_memset (m : Mem) (v : Nat) {b o x n : Nat} (ho : o + n ≤ 2 ^ 64) (hx : x < 2 ^ 64) :
    (memset m (b + o) v n).get (b + x) =
      if o ≤ x ∧ x < o + n then UInt8.ofNat (v &&& 0xFF) else m.get (b + x) := by
  unfold memset
  induction n with
  | zero => rw [if_neg (by omega)]; rfl
  | succ n ih =>
    rw [fillBytes, Nat.add_assoc, get_set _ _ (by omega) hx, ih (by omega)]
    by_cases hxn : x = o + n
    · rw [if_pos hxn, if_pos (by omega)]
    · rw [if_neg hxn]
      by_cases hin : o ≤ x ∧ x < o + n
      · rw [if_pos hin, if_pos (by omega)]
      · rw [if_neg hin, if_neg (by omega)]

end WaddleOS
