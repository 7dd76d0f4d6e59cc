import WaddleOS.Lib.String

/-!
# `memmove` and `memcpy` on ranges that overlap

The loop copies upwards whatever the two ranges are. A destination that starts
inside its source gets the bytes in front of it over and over: the copy is
right there only if the source repeats itself at that distance.
-/

namespace WaddleOS

/-- `memcpy` calls `memmove`. -/
def memcpy (m : Mem) (dst src numBytes : Nat) : Mem := memmove m dst src numBytes

/-- `m'` has at `d` the `n` bytes that `m` has at `s`, and is `m` elsewhere. -/
structure CopiesOriginal (m m' : Mem) (d s n : Nat) : Prop where
  inside : ∀ i, i < n → m'.get (d + i) = m.get (s + i)
  outside : SameOutside d (d + n) m m'

/-- The `n` bytes at `s` repeat with the period `p`. -/
def Repeats (m : Mem) (s n p : Nat) : Prop := ∀ i, i + p < n → m.get (s + i + p) = m.get (s + i)

section Copy

variable {m : Mem} {d s n x : Nat}

theorem repeats_iff {p : Nat} (hp : 0 < p) :
    Repeats m s n p ↔ ∀ i, i < n → m.get (s + i % p) = m.get (s + i) := by
  constructor
  · intro h i
    induction i using Nat.strongRecOn with
    | ind i ih =>
      intro hi
      by_cases hip : i < p
      · rw [Nat.mod_eq_of_lt hip]
      · have hold := ih (i - p) (by omega) (by omega)
        have hstep := h (i - p) (by omega)
        have hsum : s + (i - p) + p = s + i := by omega
        rw [Nat.mod_eq_sub_mod (by omega), hold, ← hstep, hsum]
  · intro h i hi
    have hlow := h i (by omega)
    have hhigh := h (i + p) hi
    rw [Nat.add_mod_right] at hhigh
    rw [Nat.add_assoc, ← hhigh, hlow]

/-- Above the source's first byte the copy reads what it has written: the bytes
between the two starts come round again. -/
theorem copyBytes_overlap (hd : d + n ≤ 2 ^ 64) (hsd : s < d) (hx : x < n) :
    (copyBytes m d s n).get (d + x) = m.get (s + x % (d - s)) := by
  induction n generalizing x with
  | zero => omega
  | succ n ih =>
    rw [copyBytes, get_set_at _ _ (by omega) (by omega)]
    by_cases hxn : x = n
    · subst hxn
      rw [if_pos rfl]
      by_cases hfresh : x < d - s
      · have hold := copyBytes_outside m s (b := 0) (d := d) (x := s + x) (n := x) (by omega)
          (by omega) (by omega)
        rw [Nat.zero_add, Nat.zero_add] at hold
        rw [Nat.mod_eq_of_lt hfresh, hold]
      · -- the byte read is one written `d - s` rounds ago
        have hread : s + x = d + (x - (d - s)) := by omega
        have hmod : x % (d - s) = (x - (d - s)) % (d - s) := Nat.mod_eq_sub_mod (by omega)
        rw [hread, ih (by omega) (by omega), hmod]
    · rw [if_neg (by omega)]
      exact ih (by omega) (by omega)

theorem memmove_sameOutside (hd : d + n ≤ 2 ^ 64) : SameOutside d (d + n) m (memmove m d s n) :=
  (SameOutside.refl d (d + n) m).memmove s (Nat.le_refl d) (Nat.le_refl _) hd

/-- `memmove` and `memcpy` copy the bytes that were there before exactly when
the destination does not start inside the source, or the source repeats with
the distance between them. -/
theorem memmove_copies_iff (m : Mem) (d s n : Nat) (hd : d + n ≤ 2 ^ 64) (hs : s + n ≤ 2 ^ 64) :
    (CopiesOriginal m (memmove m d s n) d s n ∧ CopiesOriginal m (memcpy m d s n) d s n) ↔
      d ≤ s ∨ s + n ≤ d ∨ Repeats m s n (d - s) := by
  have hboth : (CopiesOriginal m (memmove m d s n) d s n ∧
      CopiesOriginal m (memcpy m d s n) d s n) ↔ CopiesOriginal m (memmove m d s n) d s n :=
    and_self_iff
  rw [hboth]
  by_cases hover : d ≤ s ∨ s + n ≤ d
  · have hcopy : CopiesOriginal m (memmove m d s n) d s n :=
      ⟨fun i hi => memmove_inside m hd hs hover hi, memmove_sameOutside hd⟩
    exact iff_of_true hcopy (hover.elim .inl fun h => .inr (.inl h))
  · have hsd : s < d := by omega
    have hmove : memmove m d s n = copyBytes m d s n := by
      rw [memmove, if_neg (by omega)]
    have hrepeat : CopiesOriginal m (memmove m d s n) d s n ↔ Repeats m s n (d - s) := by
      rw [repeats_iff (by omega)]
      constructor
      · intro hcopy i hi
        rw [← copyBytes_overlap (m := m) hd hsd hi, ← hmove]
        exact hcopy.inside i hi
      · intro h
        refine ⟨fun i hi => ?_, memmove_sameOutside hd⟩
        rw [hmove, copyBytes_overlap hd hsd hi]
        exact h i hi
    rw [hrepeat, ← or_assoc, or_iff_right hover]

end Copy

/-- Memory whose bytes count the addresses. -/
def counting : Mem := ⟨fun a => UInt8.ofNat a⟩

/-- Four bytes moved down by two, over the first half of themselves. -/
theorem memmove_copies_down :
    CopiesOriginal counting (memmove counting 4096 4098 4) 4096 4098 4 ∧
      CopiesOriginal counting (memcpy counting 4096 4098 4) 4096 4098 4 :=
  (memmove_copies_iff counting 4096 4098 4 (by decide) (by decide)).mpr (.inl (by decide))

/-- Two bytes moved up by one: the first arrives twice. -/
theorem memmove_up_by_one :
    ¬ ∀ (m : Mem) (d s n : Nat), d + n ≤ 2 ^ 64 → s + n ≤ 2 ^ 64 →
      CopiesOriginal m (memmove m d s n) d s n ∧ CopiesOriginal m (memcpy m d s n) d s n := by
  intro copies
  have hcopy := (copies counting 4097 4096 2 (by decide) (by decide)).1
  exact absurd (hcopy.inside 1 (by decide)) (by decide +kernel)

end WaddleOS
