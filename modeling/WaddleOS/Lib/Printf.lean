import WaddleOS.Base.Memory
import WaddleOS.Base.Numeral

/-!
# `lib/printf.c`

`vprintfToDevice` gives the characters that are sent to `putc`, whichever
device that is. A string is known by its characters from its start on; the
format string's own reads are kept. An `int` is negated before its digits are
taken, so the smallest one has none.
-/

namespace WaddleOS

/-- What `va_arg` may be asked for: a `char *`, an `int` or a `uint64_t`. -/
inductive VaArg where
  | str (p : Nat)
  | int (a : BitVec 32)
  | uint64 (v : BitVec 64)
  deriving DecidableEq, Repr

/-- A call that does not return within the steps given, or asks for an
argument that is not there. -/
inductive PrintFault where
  | outOfFuel
  | badArgument
  deriving DecidableEq, Repr

/-- `print`, from index `i` on. -/
def print (str : Nat → UInt8) : (fuel i : Nat) → Except PrintFault (List UInt8)
  | 0, _ => .error .outOfFuel
  | fuel + 1, i =>
    if str i ≠ 0 then do
      let rest ← print str fuel (i + 1)
      return str i :: rest
    else return []

/-- The loop that fills `buf` from behind, with `room` bytes left in it. -/
def decimalBuf : (room : Nat) → (a : Int) → List Int
  | 0, _ => []
  | room + 1, a => if a > 0 then a.tmod 10 :: decimalBuf room (a.tdiv 10) else []

/-- `case 'd'`; `-a` wraps. -/
def putDecimal (a : BitVec 32) : List UInt8 :=
  if a = 0 then [48]
  else
    let sign := if a.toInt < 0 then [45] else []
    let a := if a.toInt < 0 then -a else a
    sign ++ (decimalBuf 20 a.toInt).reverse.map fun d => UInt8.ofInt (48 + d)

/-- `hex[k]` -/
def hexChar (val : BitVec 64) (k : Nat) : UInt8 :=
  let nibble := (val >>> ((15 - k) * 4) &&& 0xF).toNat
  if nibble < 10 then UInt8.ofNat (48 + nibble) else UInt8.ofNat (97 + (nibble - 10))

/-- An array that ends in NUL. -/
def literal (cs : List UInt8) (i : Nat) : UInt8 := cs.getD i 0

/-- `case 'x'` -/
def putHex (val : BitVec 64) : Except PrintFault (List UInt8) := do
  let sign ← print (literal [48, 120]) 3 0
  let hex ← print (literal ((List.range 16).map (hexChar val))) 17 0
  return sign ++ hex

/-- The `switch` on the character behind a `%`. -/
def putDirective (m : Mem) (fuel : Nat) (c : UInt8) (args : List VaArg) :
    Except PrintFault (List UInt8 × List VaArg) :=
  if c = 115 then
    match args with
    | .str p :: args => do
      let out ← print (fun i => m.get (p + i)) fuel 0
      return (out, args)
    | _ => .error .badArgument
  else if c = 100 then
    match args with
    | .int a :: args => return (putDecimal a, args)
    | _ => .error .badArgument
  else if c = 120 then
    match args with
    | .uint64 val :: args => do
      let out ← putHex val
      return (out, args)
    | _ => .error .badArgument
  else return ([88], args)

/-- The characters sent to `putc`, and the indices at which the format string
has been read. -/
structure Printed where
  sent : List UInt8
  reads : List Nat
  deriving DecidableEq, Repr

def percent : UInt8 := 37

def maxPrintfLen : Nat := 0xFFFFFFFF

/-- The loop over the format string at `str`; `i` is an `unsigned int`. -/
def vprintfLoop (m : Mem) (str : Nat) : (fuel i : Nat) → List VaArg → Except PrintFault Printed
  | 0, _, _ => .error .outOfFuel
  | fuel + 1, i, args =>
    let c := m.get (str + i)
    if c ≠ 0 ∧ i < maxPrintfLen then
      if c = percent then do
        let next := (i + 1) % 2 ^ 32
        let (out, args) ← putDirective m fuel (m.get (str + next)) args
        let rest ← vprintfLoop m str fuel ((next + 1) % 2 ^ 32) args
        return ⟨out ++ rest.sent, i :: next :: rest.reads⟩
      else do
        let rest ← vprintfLoop m str fuel ((i + 1) % 2 ^ 32) args
        return ⟨c :: rest.sent, i :: rest.reads⟩
    else return ⟨[], [i]⟩

def vprintfToDevice (fuel : Nat) (m : Mem) (str : Nat) (args : List VaArg) :
    Except PrintFault Printed :=
  vprintfLoop m str fuel 0 args

/-- `str` is the string `cs` with the NUL behind it. -/
structure CString (str : Nat → UInt8) (cs : List UInt8) : Prop where
  chars : ∀ i, i ≤ cs.length → str i = cs.getD i 0
  nonzero : 0 ∉ cs

section Strings

variable {str : Nat → UInt8} {cs : List UInt8}

theorem CString.head {c : UInt8} (h : CString str (c :: cs)) : str 0 = c ∧ c ≠ 0 :=
  ⟨h.chars 0 (Nat.zero_le _), fun hc => h.nonzero (hc ▸ List.mem_cons_self)⟩

theorem CString.start {s : Nat → UInt8} (h : CString s cs) : CString (fun k => s (0 + k)) cs := by
  simpa only [Nat.zero_add] using h

/-- The string behind its first characters. -/
theorem CString.drop {s : Nat → UInt8} {i : Nat} {l : List UInt8}
    (h : CString (fun k => s (i + k)) (l ++ cs)) : CString (fun k => s (i + l.length + k)) cs := by
  refine ⟨fun k hk => ?_, fun hc => h.nonzero (List.mem_append_right l hc)⟩
  have hchar := h.chars (l.length + k) (by rw [List.length_append]; omega)
  rwa [← Nat.add_assoc, List.getD_append_right _ _ _ _ (Nat.le_add_right ..),
    Nat.add_sub_cancel_left] at hchar

theorem CString.next {s : Nat → UInt8} {i : Nat} {c : UInt8}
    (h : CString (fun k => s (i + k)) (c :: cs)) : CString (fun k => s (i + 1 + k)) cs :=
  CString.drop (l := [c]) h

theorem cString_literal (h : 0 ∉ cs) : CString (literal cs) cs := ⟨fun _ _ => rfl, h⟩

/-- `print` sends a string up to its NUL. -/
theorem print_eq {i fuel : Nat} (h : CString (fun k => str (i + k)) cs) (hfuel : cs.length < fuel) :
    print str fuel i = .ok cs := by
  induction cs generalizing i fuel with
  | nil =>
    have hnul : str i = 0 := h.chars 0 (Nat.le_refl _)
    cases fuel with
    | zero => exact absurd hfuel (Nat.not_lt_zero _)
    | succ fuel =>
      rw [print, if_neg (not_not.mpr hnul)]
      rfl
  | cons c cs ih =>
    obtain ⟨hc, hne⟩ := h.head
    rw [Nat.add_zero] at hc
    cases fuel with
    | zero => exact absurd hfuel (Nat.not_lt_zero _)
    | succ fuel =>
      have hrest := ih h.next (Nat.lt_of_succ_lt_succ hfuel)
      rw [print, if_pos (hc ▸ hne), hrest, hc]
      rfl

end Strings

/-! ## Integers -/

section Integers

variable {a : BitVec 32} {v : BitVec 64} {k n : Nat}

/-- With room for all of them the buffer takes the decimal digits. -/
theorem decimalBuf_eq (room : Nat) (hn : n < 10 ^ room) :
    decimalBuf room n = (Nat.digits 10 n).map fun d : Nat => (d : Int) := by
  induction room generalizing n with
  | zero =>
    have hzero : n = 0 := by simpa using hn
    rw [hzero, Nat.digits_zero]
    rfl
  | succ room ih =>
    rw [decimalBuf]
    by_cases hpos : 0 < n
    · have hdiv : n / 10 < 10 ^ room := by
        rw [pow_succ] at hn
        omega
      have hmod : (n : Int).tmod 10 = ((n % 10 : Nat) : Int) := rfl
      have hrest : (n : Int).tdiv 10 = ((n / 10 : Nat) : Int) := rfl
      rw [if_pos (by omega), Nat.digits_def' (by decide) hpos, List.map_cons, hmod, hrest, ih hdiv]
    · have hzero : n = 0 := by omega
      rw [if_neg (by omega), hzero, Nat.digits_zero]
      rfl

theorem putc_digit {d : Nat} (hd : d < 10) : UInt8.ofInt (48 + (d : Int)) = digitChar d := by
  have hall : ∀ d, d < 10 → UInt8.ofInt (48 + ((d : Nat) : Int)) = digitChar d := by decide
  exact hall d hd

theorem decimalBuf_text (hpos : 0 < n) (hn : n < 10 ^ 20) :
    ((decimalBuf 20 n).reverse.map fun d => UInt8.ofInt (48 + d)) = numeralNat n := by
  rw [decimalBuf_eq 20 hn, numeralNat, if_neg (by omega), ← List.map_reverse, List.map_map]
  exact List.map_congr_left fun d hd => putc_digit (digits_ten_lt hd)

/-- All integers but the smallest one are printed as their numerals. -/
theorem putDecimal_eq (h : a.toInt ≠ -2 ^ 31) : putDecimal a = numeral a.toInt := by
  have hlt : a.toInt < 2 ^ 31 := BitVec.toInt_lt
  have hle : -2 ^ 31 ≤ a.toInt := BitVec.le_toInt a
  unfold putDecimal
  by_cases hzero : a = 0
  · rw [if_pos hzero, hzero]
    decide
  · have hne : a.toInt ≠ 0 := fun h0 => hzero (BitVec.eq_of_toInt_eq h0)
    have habs : (if a.toInt < 0 then -a else a).toInt = a.toInt.natAbs := by
      split
      · have hmin : a ≠ BitVec.intMin 32 := fun hm => h (by rw [hm]; decide)
        rw [BitVec.toInt_neg_of_ne_intMin hmin]
        omega
      · omega
    rw [if_neg hzero]
    dsimp only
    rw [habs, decimalBuf_text (by omega) (by omega), numeral]
    split <;> rfl

/-- The smallest integer stays negative, and only its sign is printed. -/
theorem putDecimal_min (h : a.toInt = -2 ^ 31) : putDecimal a = [minusChar] := by
  have hmin : a = BitVec.intMin 32 := BitVec.eq_of_toInt_eq (h.trans (by decide))
  rw [hmin]
  decide

theorem hexChar_eq (v : BitVec 64) (k : Nat) :
    hexChar v k = digitChar (v.toNat / 16 ^ (16 - 1 - k) % 16) := by
  have hnibble : (v >>> ((15 - k) * 4) &&& 0xF).toNat = v.toNat / 16 ^ (16 - 1 - k) % 16 := by
    have hmask : (0xF : BitVec 64).toNat = 2 ^ 4 - 1 := rfl
    rw [BitVec.toNat_and, BitVec.toNat_ushiftRight, hmask, Nat.and_two_pow_sub_one_eq_mod,
      Nat.shiftRight_eq_div_pow, Nat.mul_comm, pow_mul]
    rfl
  have hletter : ∀ d, 10 ≤ d → 97 + (d - 10) = 87 + d := by omega
  rw [hexChar, hnibble, digitChar]
  split
  · rfl
  next hten => rw [hletter _ (Nat.le_of_not_lt hten)]

theorem hexChars_eq (v : BitVec 64) :
    (List.range 16).map (hexChar v) = (digitsOf 16 16 v.toNat).map digitChar := by
  rw [digitsOf, List.map_map]
  exact List.map_congr_left fun k _ => hexChar_eq v k

theorem putHex_eq (v : BitVec 64) :
    putHex v = .ok ([48, 120] ++ (digitsOf 16 16 v.toNat).map digitChar) := by
  have hnul : ∀ d, d < 16 → digitChar d ≠ 0 := by decide
  have hdigits : (0 : UInt8) ∉ (digitsOf 16 16 v.toNat).map digitChar := by
    intro hmem
    obtain ⟨d, hd, hc⟩ := List.mem_map.mp hmem
    exact hnul d (digitsOf_lt (by decide) d hd) hc
  have hlen : ((digitsOf 16 16 v.toNat).map digitChar).length < 17 := by
    rw [List.length_map, length_digitsOf]
    decide
  have hsign : print (literal [48, 120]) 3 0 = .ok [48, 120] := rfl
  have hhex := print_eq (cString_literal hdigits).start hlen
  rw [putHex, hexChars_eq, hsign, hhex]
  rfl

/-- What `%d` prints for `a` and `%x` for `v` reads back as `a` and `v`. -/
structure Decodes (a : BitVec 32) (v : BitVec 64) : Prop where
  decimal : CanonicalDecimal (putDecimal a) ∧ readInt (putDecimal a) = some a.toInt
  hex : ∃ ds, putHex v = .ok ([48, 120] ++ ds) ∧ ds.length = 16 ∧
    (∀ c ∈ ds, ∃ d, d < 16 ∧ c = digitChar d) ∧ readNat 16 ds = some v.toNat

theorem putHex_decodes (v : BitVec 64) :
    ∃ ds, putHex v = .ok ([48, 120] ++ ds) ∧ ds.length = 16 ∧
      (∀ c ∈ ds, ∃ d, d < 16 ∧ c = digitChar d) ∧ readNat 16 ds = some v.toNat := by
  refine ⟨(digitsOf 16 16 v.toNat).map digitChar, putHex_eq v, ?_, fun c hc => ?_, ?_⟩
  · rw [List.length_map, length_digitsOf]
  · obtain ⟨d, hd, rfl⟩ := List.mem_map.mp hc
    exact ⟨d, digitsOf_lt (by decide) d hd, rfl⟩
  · have hv : v.toNat < 16 ^ 16 := v.isLt
    rw [readNat_digitsOf (by decide) (by decide) (by decide), Nat.mod_eq_of_lt hv]

/-- Every integer but the smallest `int` is printed in a way that reads back
as itself. -/
theorem printed_decodes_iff (a : BitVec 32) (v : BitVec 64) : Decodes a v ↔ a.toInt ≠ -2 ^ 31 := by
  constructor
  · intro h hmin
    have hread := h.decimal.2
    rw [putDecimal_min hmin] at hread
    cases hread
  · intro h
    refine ⟨?_, putHex_decodes v⟩
    rw [putDecimal_eq h]
    exact ⟨numeral_canonical a.toInt, readInt_numeral a.toInt⟩

/-- The smallest `int` comes out as a minus sign. -/
theorem smallest_int_not_decoded : ¬ ∀ (a : BitVec 32) (v : BitVec 64), Decodes a v := by
  intro decodes
  have hread := (decodes (BitVec.intMin 32) 0).decimal.2
  rw [putDecimal_min (by decide)] at hread
  cases hread

end Integers

end WaddleOS
