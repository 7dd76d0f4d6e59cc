import WaddleOS.Base.Memory

/-!
# `lib/string.c`: memcmp

The comparison goes word by word while more than a word is left and the words
agree, and then over at most a word byte by byte. The same file is built with
the words of the loader and with those of the kernel.
-/

namespace WaddleOS

/-- What the file is compiled for. -/
inductive Target where
  | loader
  | kernel
  deriving DecidableEq, Repr

/-- `sizeof(uintptr_t)` -/
def Target.wordSize : Target → Nat
  | .loader => 4
  | .kernel => 8

theorem Target.wordSize_pos (t : Target) : 0 < t.wordSize := by
  cases t <;> decide

/-- Where the word loop stops: the offset of the pointers and the bytes left.
`reads` are the offsets of the bytes read from both buffers. -/
structure WordStop where
  ofs : Nat
  left : Nat
  reads : List Nat

def memcmpWords (t : Target) (m : Mem) (a b ofs n : Nat) : WordStop :=
  if t.wordSize < n then
    if load m (a + ofs) t.wordSize = load m (b + ofs) t.wordSize then
      let stop := memcmpWords t m a b (ofs + t.wordSize) (n - t.wordSize)
      { stop with reads := List.range' ofs t.wordSize ++ stop.reads }
    else ⟨ofs, n, List.range' ofs t.wordSize⟩
  else ⟨ofs, n, []⟩
termination_by n
decreasing_by
  have := t.wordSize_pos
  omega

/-- The value of `memcmp` and the offsets of the bytes it has read. -/
structure Compared where
  result : Int
  reads : List Nat

/-- The byte loop with `k` rounds to go, at offset `i` and `n` bytes left. -/
def memcmpBytes (m : Mem) (a b : Nat) : (k i n : Nat) → Compared
  | 0, _, _ => ⟨0, []⟩
  | k + 1, i, n =>
    if n > 0 then
      if m.get (a + i) ≠ m.get (b + i) then
        ⟨(m.get (a + i)).toNat - (m.get (b + i)).toNat, [i]⟩
      else
        let rest := memcmpBytes m a b k (i + 1) (n - 1)
        { rest with reads := i :: rest.reads }
    else ⟨0, []⟩

def memcmp (t : Target) (m : Mem) (a b n : Nat) : Compared :=
  if n = 0 then ⟨0, []⟩
  else
    let stop := memcmpWords t m a b 0 n
    let rest := memcmpBytes m a b t.wordSize stop.ofs stop.left
    { rest with reads := stop.reads ++ rest.reads }

section Spec

variable {m : Mem} {a b ofs n : Nat}

/-- The buffers hold the same byte at offset `i`. -/
def Agree (m : Mem) (a b i : Nat) : Prop := m.get (a + i) = m.get (b + i)

/-- `r` is what comparing the `n` bytes from `ofs` on one after the other gives. -/
def BytewiseFrom (m : Mem) (a b ofs n : Nat) (r : Int) : Prop :=
  (r = 0 ∧ ∀ i, ofs ≤ i → i < ofs + n → Agree m a b i) ∨
  ∃ i, ofs ≤ i ∧ i < ofs + n ∧ (∀ j, ofs ≤ j → j < i → Agree m a b j) ∧ ¬ Agree m a b i ∧
    r = (m.get (a + i)).toNat - (m.get (b + i)).toNat

/-- Agreement in front of the compared bytes does not change the outcome. -/
theorem BytewiseFrom.extend {k : Nat} {r : Int} (h : BytewiseFrom m a b (ofs + k) n r)
    (hagree : ∀ i, ofs ≤ i → i < ofs + k → Agree m a b i) :
    BytewiseFrom m a b ofs (k + n) r := by
  have hbefore : ∀ j e, (∀ i, ofs + k ≤ i → i < e → Agree m a b i) → ofs ≤ j → j < e →
      Agree m a b j := by
    intro j e hrest hlo hhi
    by_cases hj : j < ofs + k
    · exact hagree j hlo hj
    · exact hrest j (by omega) hhi
  rcases h with ⟨hr, hall⟩ | ⟨i, hlo, hhi, hall, hdiff, hr⟩
  · exact .inl ⟨hr, fun j hj hjn => hbefore j _ hall hj (by omega)⟩
  · exact .inr ⟨i, by omega, by omega, fun j hj hji => hbefore j _ hall hj hji, hdiff, hr⟩

theorem words_eq_iff (t : Target) :
    load m (a + ofs) t.wordSize = load m (b + ofs) t.wordSize ↔
      ∀ i, i < t.wordSize → Agree m a b (ofs + i) := by
  simp only [load_eq_iff, Agree, Nat.add_assoc]

/-- The word loop over `n` bytes from `ofs` on has passed `k` of them, which
agree, and has stopped with at most a word left or in front of one that differs. -/
structure WordStop.Passed (t : Target) (m : Mem) (a b ofs n k : Nat) (stop : WordStop) : Prop where
  at_ofs : stop.ofs = ofs + k
  rest : k + stop.left = n
  agree : ∀ i, ofs ≤ i → i < ofs + k → Agree m a b i
  decided : stop.left ≤ t.wordSize ∨ t.wordSize < stop.left ∧
    ∃ i, stop.ofs ≤ i ∧ i < stop.ofs + t.wordSize ∧ ¬ Agree m a b i
  inside : ∀ o ∈ stop.reads, o < ofs + n

/-- One more word that agrees, in front. -/
theorem WordStop.Passed.word {t : Target} {k : Nat} {stop : WordStop}
    (h : stop.Passed t m a b (ofs + t.wordSize) (n - t.wordSize) k) (hlong : t.wordSize < n)
    (hword : ∀ i, i < t.wordSize → Agree m a b (ofs + i)) :
    { stop with reads := List.range' ofs t.wordSize ++ stop.reads : WordStop }.Passed t m a b ofs n
      (t.wordSize + k) := by
  have hrest := h.rest
  refine ⟨h.at_ofs.trans (Nat.add_assoc ..), by dsimp only; omega, fun i hlo hhi => ?_, h.decided,
    fun o ho => ?_⟩
  · by_cases hin : i < ofs + t.wordSize
    · have hbyte := hword (i - ofs) (by omega)
      rwa [Nat.add_sub_cancel' hlo] at hbyte
    · exact h.agree i (by omega) (by omega)
  · rcases List.mem_append.mp ho with ho | ho
    · have := (List.mem_range'_1.mp ho).2
      omega
    · have := h.inside o ho
      omega

theorem memcmpWords_passed (t : Target) (m : Mem) (a b ofs n : Nat) :
    ∃ k, (memcmpWords t m a b ofs n).Passed t m a b ofs n k := by
  have hpos := t.wordSize_pos
  induction n using Nat.strongRecOn generalizing ofs with
  | ind n ih =>
    rw [memcmpWords]
    by_cases hlong : t.wordSize < n
    · rw [if_pos hlong]
      by_cases hword : load m (a + ofs) t.wordSize = load m (b + ofs) t.wordSize
      · rw [if_pos hword]
        obtain ⟨k, hk⟩ := ih (n - t.wordSize) (by omega) (ofs + t.wordSize)
        exact ⟨t.wordSize + k, hk.word hlong ((words_eq_iff t).mp hword)⟩
      · rw [if_neg hword]
        obtain ⟨i, hi⟩ := not_forall.mp (mt (words_eq_iff t).mpr hword)
        obtain ⟨hin, hdiff⟩ := Classical.not_imp.mp hi
        refine ⟨0, rfl, Nat.zero_add n, by omega,
          .inr ⟨hlong, ofs + i, Nat.le_add_right .., by dsimp only; omega, hdiff⟩, fun o ho => ?_⟩
        have := (List.mem_range'_1.mp ho).2
        omega
    · rw [if_neg hlong]
      exact ⟨0, rfl, Nat.zero_add n, by omega, .inl (Nat.le_of_not_lt hlong), by simp⟩

/-- The byte loop decides the rest if its rounds reach the end of the buffers
or a difference. -/
theorem memcmpBytes_spec {k i : Nat}
    (henough : n ≤ k ∨ k < n ∧ ∃ j, i ≤ j ∧ j < i + k ∧ ¬ Agree m a b j) :
    BytewiseFrom m a b i n (memcmpBytes m a b k i n).result ∧
      ∀ o ∈ (memcmpBytes m a b k i n).reads, o < i + n := by
  induction k generalizing i n with
  | zero =>
    have hn : n = 0 := by
      rcases henough with h | ⟨-, j, hlo, hhi, -⟩ <;> omega
    subst hn
    exact ⟨.inl ⟨rfl, by omega⟩, by simp [memcmpBytes]⟩
  | succ k ih =>
    rw [memcmpBytes]
    by_cases hn : n > 0
    · rw [if_pos hn]
      by_cases hdiff : m.get (a + i) ≠ m.get (b + i)
      · rw [if_pos hdiff]
        refine ⟨.inr ⟨i, Nat.le_refl i, by omega, by omega, hdiff, rfl⟩, ?_⟩
        simp only [List.mem_singleton]
        omega
      · rw [if_neg hdiff]
        have hsame : Agree m a b i := not_not.mp hdiff
        have hrest : n - 1 ≤ k ∨ k < n - 1 ∧ ∃ j, i + 1 ≤ j ∧ j < i + 1 + k ∧ ¬ Agree m a b j := by
          rcases henough with h | ⟨hk, j, hlo, hhi, hj⟩
          · exact .inl (by omega)
          · have hne : j ≠ i := fun e => hj (e ▸ hsame)
            exact .inr ⟨by omega, j, by omega, by omega, hj⟩
        obtain ⟨hresult, hreads⟩ := ih hrest
        have hone : 1 + (n - 1) = n := by omega
        have hfirst : ∀ j, i ≤ j → j < i + 1 → Agree m a b j := by
          intro j hlo hhi
          obtain rfl : j = i := by omega
          exact hsame
        have hall := hresult.extend hfirst
        rw [hone] at hall
        refine ⟨hall, fun o ho => ?_⟩
        rcases List.mem_cons.mp ho with rfl | ho
        · omega
        · have := hreads o ho
          omega
    · rw [if_neg hn]
      exact ⟨.inl ⟨rfl, by omega⟩, by simp⟩

theorem memcmp_bytewise (t : Target) (m : Mem) (a b n : Nat) :
    BytewiseFrom m a b 0 n (memcmp t m a b n).result ∧ ∀ o ∈ (memcmp t m a b n).reads, o < n := by
  rw [memcmp]
  by_cases hn : n = 0
  · rw [if_pos hn]
    exact ⟨.inl ⟨rfl, by omega⟩, by simp⟩
  · rw [if_neg hn]
    obtain ⟨k, hk⟩ := memcmpWords_passed t m a b 0 n
    obtain ⟨hresult, hbytes⟩ := memcmpBytes_spec hk.decided
    have hrest := hk.rest
    have hofs := hk.at_ofs
    refine ⟨?_, fun o ho => ?_⟩
    · rw [hofs] at hresult
      have hall := hresult.extend hk.agree
      rw [hrest, ← hofs] at hall
      exact hall
    · rcases List.mem_append.mp ho with ho | ho
      · have := hk.inside o ho
        omega
      · have := hbytes o ho
        omega

/-- With either word size `memcmp` is zero exactly when the bytes agree, else
the difference of the first ones that do not, and it reads none from offset
`n` on. -/
theorem memcmp_eq_bytewise (t : Target) (m : Mem) (a b n : Nat) :
    ((memcmp t m a b n).result = 0 ↔ ∀ i, i < n → m.get (a + i) = m.get (b + i)) ∧
    (∀ i, i < n → (∀ j, j < i → m.get (a + j) = m.get (b + j)) → m.get (a + i) ≠ m.get (b + i) →
      (memcmp t m a b n).result = (m.get (a + i)).toNat - (m.get (b + i)).toNat) ∧
    ∀ o ∈ (memcmp t m a b n).reads, o < n := by
  obtain ⟨hresult, hreads⟩ := memcmp_bytewise t m a b n
  rw [BytewiseFrom, Nat.zero_add] at hresult
  refine ⟨?_, ?_, hreads⟩
  · rcases hresult with ⟨hr, hall⟩ | ⟨i, -, hi, -, hdiff, hr⟩
    · exact iff_of_true hr fun i hi => hall i (Nat.zero_le i) hi
    · refine iff_of_false (fun hzero => hdiff ?_) fun hall => hdiff (hall i hi)
      rw [Agree, ← UInt8.toNat_inj]
      omega
  · intro i hi hbefore hdiff
    rcases hresult with ⟨-, hall⟩ | ⟨j, -, -, hall, hj, hr⟩
    · exact absurd (hall i (Nat.zero_le i) hi) hdiff
    · have hij : i = j := by
        rcases Nat.lt_trichotomy i j with hlt | heq | hlt
        · exact absurd (hall i (Nat.zero_le i) hlt) hdiff
        · exact heq
        · exact absurd (hbefore j hlt) hj
      rw [hij, hr]

end Spec

end WaddleOS
