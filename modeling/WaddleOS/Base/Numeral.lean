import Mathlib.Data.Nat.Digits.Lemmas

/-!
# Numerals in ASCII

`numeral` is the decimal text of an integer and `readInt` reads such a text,
`digitsOf` is a number in a fixed count of digits of any base. What the texts
look like is said without either, by `CanonicalDecimal`.
-/

namespace WaddleOS

/-- The characters `0` to `9` and `a` to `f`. -/
def digitChar (d : Nat) : UInt8 := if d < 10 then UInt8.ofNat (48 + d) else UInt8.ofNat (87 + d)

/-- The digit that a character stands for in base `b`. -/
def digitValue (b : Nat) (c : UInt8) : Option Nat := (List.range b).find? fun d => digitChar d = c

/-- Read digits behind the number `acc`. -/
def readDigits (b : Nat) : (acc : Nat) → List UInt8 → Option Nat
  | acc, [] => some acc
  | acc, c :: cs => (digitValue b c).bind fun d => readDigits b (b * acc + d) cs

/-- The number that a text without a sign denotes. -/
def readNat (b : Nat) (cs : List UInt8) : Option Nat :=
  if cs = [] then none else readDigits b 0 cs

def minusChar : UInt8 := 45

/-- The integer that a decimal text denotes. -/
def readInt (cs : List UInt8) : Option Int :=
  if cs.head? = some minusChar then (readNat 10 cs.tail).map fun n : Nat => -(n : Int)
  else (readNat 10 cs).map fun n : Nat => (n : Int)

/-- Decimal digits behind an optional minus sign. Zero has one digit and no
sign, and no other number begins with it. -/
def CanonicalDecimal (cs : List UInt8) : Prop :=
  ∃ sign ds, cs = sign ++ ds ∧ (sign = [] ∨ sign = [minusChar]) ∧ ds ≠ [] ∧
    (∀ c ∈ ds, ∃ d, d < 10 ∧ c = digitChar d) ∧ (ds.head? = some (digitChar 0) → cs = [digitChar 0])

def numeralNat (n : Nat) : List UInt8 :=
  if n = 0 then [digitChar 0] else (Nat.digits 10 n).reverse.map digitChar

def numeral (a : Int) : List UInt8 :=
  if a < 0 then minusChar :: numeralNat a.natAbs else numeralNat a.natAbs

/-- `n` digits of `v` in base `b`, the most significant first. -/
def digitsOf (b n v : Nat) : List Nat := (List.range n).map fun k => v / b ^ (n - 1 - k) % b

section Digits

variable {b d n v : Nat}

theorem digitChar_inj {e : Nat} (hd : d < 16) (he : e < 16) (h : digitChar d = digitChar e) :
    d = e := by
  have hall : ∀ d, d < 16 → ∀ e, e < 16 → digitChar d = digitChar e → d = e := by decide
  exact hall d hd e he h

theorem digitChar_ne_minus (hd : d < 16) : digitChar d ≠ minusChar := by
  have hall : ∀ d, d < 16 → digitChar d ≠ minusChar := by decide
  exact hall d hd

theorem digitValue_digitChar (hb : b ≤ 16) (hd : d < b) : digitValue b (digitChar d) = some d := by
  rw [digitValue, List.find?_range_eq_some]
  refine ⟨by simp, List.mem_range.mpr hd, fun e he => ?_⟩
  have hne : digitChar e ≠ digitChar d :=
    fun h => Nat.ne_of_lt he (digitChar_inj (by omega) (by omega) h)
  simpa using hne

/-- Reading digits is the positional sum. -/
theorem readDigits_map (hb : b ≤ 16) {ds : List Nat} (hds : ∀ d ∈ ds, d < b) (acc : Nat) :
    readDigits b acc (ds.map digitChar) = some (ds.foldl (fun a d => b * a + d) acc) := by
  induction ds generalizing acc with
  | nil => rfl
  | cons d ds ih =>
    have hd := hds d List.mem_cons_self
    have hrest : ∀ e ∈ ds, e < b := fun e he => hds e (List.mem_cons_of_mem d he)
    rw [List.map_cons, readDigits, digitValue_digitChar hb hd, Option.bind_some, ih hrest,
      List.foldl_cons]

theorem foldl_digits (b n : Nat) : (Nat.digits b n).reverse.foldl (fun a d => b * a + d) 0 = n := by
  have hsum := Nat.ofDigits_digits b n
  rw [Nat.ofDigits_eq_foldr] at hsum
  rw [List.foldl_reverse]
  simpa only [Nat.cast_id, Nat.add_comm] using hsum

theorem digitsOf_succ (b n v : Nat) : digitsOf b (n + 1) v = digitsOf b n (v / b) ++ [v % b] := by
  have hlast : v / b ^ (n - n) % b = v % b := by simp
  rw [digitsOf, digitsOf, List.range_succ, List.map_append, List.map_singleton,
    Nat.add_sub_cancel, hlast]
  congr 1
  refine List.map_congr_left fun k hk => ?_
  have hpow : n - k = n - 1 - k + 1 := by
    rw [List.mem_range] at hk
    omega
  rw [hpow, pow_succ', Nat.div_div_eq_div_mul]

theorem digitsOf_lt (hb : 0 < b) : ∀ d ∈ digitsOf b n v, d < b := by
  intro d hd
  obtain ⟨k, -, rfl⟩ := List.mem_map.mp hd
  exact Nat.mod_lt _ hb

theorem length_digitsOf : (digitsOf b n v).length = n := by
  rw [digitsOf, List.length_map, List.length_range]

/-- `n` digits hold the number modulo the base to the `n`. -/
theorem foldl_digitsOf (b n v : Nat) :
    (digitsOf b n v).foldl (fun a d => b * a + d) 0 = v % b ^ n := by
  induction n generalizing v with
  | zero => simp [digitsOf, Nat.mod_one]
  | succ n ih =>
    rw [digitsOf_succ, List.foldl_append, ih, List.foldl_cons, List.foldl_nil, pow_succ',
      Nat.mod_mul, Nat.add_comm]

theorem readNat_digitsOf (hb : b ≤ 16) (hpos : 0 < b) (hn : 0 < n) :
    readNat b ((digitsOf b n v).map digitChar) = some (v % b ^ n) := by
  have hne : (digitsOf b n v).map digitChar ≠ [] := by
    rw [← List.length_pos_iff, List.length_map, length_digitsOf]
    exact hn
  rw [readNat, if_neg hne, readDigits_map hb (digitsOf_lt hpos), foldl_digitsOf]

end Digits

section Decimal

variable {n : Nat}

theorem numeralNat_ne_nil (n : Nat) : numeralNat n ≠ [] := by
  unfold numeralNat
  split
  · exact List.cons_ne_nil _ _
  next hn => simpa [Nat.digits_eq_nil_iff_eq_zero] using hn

theorem digits_ten_lt {d : Nat} (hd : d ∈ (Nat.digits 10 n).reverse) : d < 10 :=
  Nat.digits_lt_base (by decide) (List.mem_reverse.mp hd)

theorem readNat_numeralNat (n : Nat) : readNat 10 (numeralNat n) = some n := by
  rw [readNat, if_neg (numeralNat_ne_nil n), numeralNat]
  split
  next hn =>
    rw [hn]
    decide
  next => rw [readDigits_map (by decide) fun d hd => digits_ten_lt hd, foldl_digits]

theorem numeralNat_digit {c : UInt8} (hc : c ∈ numeralNat n) : ∃ d, d < 10 ∧ c = digitChar d := by
  unfold numeralNat at hc
  split at hc
  · exact ⟨0, by decide, List.mem_singleton.mp hc⟩
  · obtain ⟨d, hd, rfl⟩ := List.mem_map.mp hc
    exact ⟨d, digits_ten_lt hd, rfl⟩

theorem head_numeralNat (h : (numeralNat n).head? = some (digitChar 0)) : n = 0 := by
  by_contra hn
  have hlast := Nat.getLast_digit_ne_zero 10 hn
  have hne : Nat.digits 10 n ≠ [] := Nat.digits_ne_nil_iff_ne_zero.mpr hn
  rw [numeralNat, if_neg hn, List.head?_map, List.head?_reverse, List.getLast?_eq_some_getLast hne,
    Option.map_some, Option.some.injEq] at h
  have hlt : (Nat.digits 10 n).getLast hne < 10 :=
    Nat.digits_lt_base (by decide) (List.getLast_mem hne)
  exact hlast (digitChar_inj (by omega) (by decide) h)

theorem head_numeralNat_ne_minus (n : Nat) : (numeralNat n).head? ≠ some minusChar := by
  intro h
  obtain ⟨d, hd, hc⟩ := numeralNat_digit (List.mem_of_mem_head? h)
  exact digitChar_ne_minus (by omega) hc.symm

theorem numeral_canonical (a : Int) : CanonicalDecimal (numeral a) := by
  refine ⟨if a < 0 then [minusChar] else [], numeralNat a.natAbs, ?_, ?_, numeralNat_ne_nil _,
    fun c hc => numeralNat_digit hc, fun hhead => ?_⟩
  · unfold numeral
    split <;> rfl
  · split
    · exact .inr rfl
    · exact .inl rfl
  · have hzero : a = 0 := Int.natAbs_eq_zero.mp (head_numeralNat hhead)
    rw [hzero]
    rfl

/-- The numeral of an integer is read back as that integer. -/
theorem readInt_numeral (a : Int) : readInt (numeral a) = some a := by
  unfold numeral readInt
  split
  next hneg =>
    rw [List.head?_cons, if_pos rfl, List.tail_cons, readNat_numeralNat, Option.map_some]
    congr 1
    omega
  next hpos =>
    rw [if_neg (head_numeralNat_ne_minus _), readNat_numeralNat, Option.map_some]
    congr 1
    omega

end Decimal

end WaddleOS
