import WaddleOS.Drivers.Bitmap

/-!
# A bitmap as an array of bits

What each function of `bitmap.c` owes a caller who thinks of independent bits,
and the exact inputs on which it delivers. `bitmap_set` shifts an `int`, and
clearing stops at the last whole byte; the searches are exact first fit.
-/

namespace WaddleOS

variable {m m' : Mem} {bmp : Bitmap}

/-! ## Setting one bit -/

/-- `m'` is `m` with bit `i` of the bitmap set to `v`, read back through
`bitmap_get`, and no word changed but the one that holds it. -/
structure SetsBit (m m' : Mem) (bmp : Bitmap) (i : Nat) (v : Bool) : Prop where
  bits : ∀ j, j < bmp.size → bitmapGet m' bmp j = if j = i then .ok v else bitmapGet m bmp j
  words : ∀ w, w < 2 ^ 61 → w ≠ i / 64 →
    loadWord m' (bmp.buf + 8 * w) = loadWord m (bmp.buf + 8 * w)

/-- The state before `bitmap_set(i, v)` in which it sets just that bit. A true
value arrives unless its place in the word is one of 32 to 62; from place 31 or
63 the sign reaches all places from 31 on, which must have been set before. -/
def SetSafe (m : Mem) (bmp : Bitmap) (i : Nat) (v : Bool) : Prop :=
  v = false ∨ i % 64 < 31 ∨ (i % 32 = 31 ∧
    ∀ j, j < bmp.size → j / 64 = i / 64 → 31 ≤ j % 64 → j ≠ i → HasBit m bmp true j)

theorem bitmapSet_returns (m : Mem) {i : Nat} (hi : i < bmp.size) (v : Bool) :
    ∃ m', bitmapSet m bmp i v = .ok m' := by
  simp only [bitmapSet, assert_ok hi, bind, Except.bind]
  exact ⟨_, rfl⟩

/-- The effect on the bits seen from the buffer. -/
theorem bitAt_bitmapSet_buf {i : Nat} {v : Bool} (hsize : bmp.size < 2 ^ 64)
    (h : bitmapSet m bmp i v = .ok m') {j : Nat} (hj : j < 2 ^ 67) :
    bitAt m' bmp.buf j =
      if j / 64 = i / 64 then setEffect v (i % 64) (j % 64) (bitAt m bmp.buf j)
      else bitAt m bmp.buf j := by
  have hi := bitmapSet_ok h
  rw [bitAt_bitmapSet h (b := bmp.buf) (o := 0) rfl (by omega) j hj]
  by_cases hw : j / 64 = i / 64
  · rw [if_pos (by omega), if_pos hw, show j - (8 * 0 + 64 * (i / 64)) = j % 64 by omega]
  · rw [if_neg (by omega), if_neg hw]

theorem bitmapSet_words {i : Nat} {v : Bool} (hsize : bmp.size < 2 ^ 64)
    (h : bitmapSet m bmp i v = .ok m') {w : Nat} (hw : w < 2 ^ 61) (hne : w ≠ i / 64) :
    loadWord m' (bmp.buf + 8 * w) = loadWord m (bmp.buf + 8 * w) := by
  apply loadWord_congr
  intro k hk
  rw [bitAt_add, bitAt_add, bitAt_bitmapSet_buf hsize h (by omega), if_neg (by omega)]

/-- Places that a shifted true value reaches. -/
def Reaches (ofs j : Nat) : Prop := j = ofs % 32 ∨ (ofs % 32 = 31 ∧ 32 ≤ j)

theorem setEffect_own_iff {v old : Bool} {ofs : Nat} :
    setEffect v ofs ofs old = v ↔ (v = true → Reaches ofs ofs) := by
  cases v <;> simp [setEffect, Reaches]

theorem setEffect_other_iff {v old : Bool} {ofs j : Nat} (hne : j ≠ ofs) :
    setEffect v ofs j old = old ↔ (v = true → Reaches ofs j → old = true) := by
  cases v <;> cases old <;> simp [setEffect, Reaches, hne]

/-- In terms of the bits in memory; the words take care of themselves. -/
theorem setsBit_iff {i : Nat} {v : Bool} (hsize : bmp.size < 2 ^ 64)
    (h : bitmapSet m bmp i v = .ok m') :
    SetsBit m m' bmp i v ↔
      ∀ j, j < bmp.size → bitAt m' bmp.buf j = if j = i then v else bitAt m bmp.buf j := by
  constructor
  · intro sets j hj
    have hb := sets.bits j hj
    rw [bitmapGet_eq _ hj, bitmapGet_eq _ hj] at hb
    split at hb
    · next hji => rw [if_pos hji, Except.ok.inj hb]
    · next hji => rw [if_neg hji, Except.ok.inj hb]
  · intro bits
    refine ⟨fun j hj => ?_, fun w hw hne => bitmapSet_words hsize h hw hne⟩
    rw [bitmapGet_eq _ hj, bitmapGet_eq _ hj, bits j hj]
    split <;> rfl

/-- `bitmap_set` sets its bit and nothing else exactly when that is safe. -/
theorem bitmapSet_sets_iff (m : Mem) (bmp : Bitmap) (hsize : bmp.size < 2 ^ 64) (i : Nat)
    (hi : i < bmp.size) (v : Bool) :
    ∃ m', bitmapSet m bmp i v = .ok m' ∧ (SetsBit m m' bmp i v ↔ SetSafe m bmp i v) := by
  obtain ⟨m', hset⟩ := bitmapSet_returns m hi v
  refine ⟨m', hset, ?_⟩
  rw [setsBit_iff hsize hset]
  constructor
  · intro bits
    by_cases hlow : v = false ∨ i % 64 < 31
    · exact hlow.elim Or.inl fun h => Or.inr (Or.inl h)
    · rw [not_or, Bool.not_eq_false] at hlow
      obtain ⟨rfl, hlow⟩ := hlow
      have hown := bits i hi
      rw [bitAt_bitmapSet_buf hsize hset (by omega), if_pos rfl, if_pos rfl] at hown
      have hplace := setEffect_own_iff.mp hown rfl
      unfold Reaches at hplace
      refine Or.inr (Or.inr ⟨by omega, fun j hj hword hhigh hne => ?_⟩)
      have hother := bits j hj
      rw [bitAt_bitmapSet_buf hsize hset (by omega), if_pos hword, if_neg hne] at hother
      exact (setEffect_other_iff (by omega)).mp hother rfl (by unfold Reaches; omega)
  · intro safe j hj
    rw [bitAt_bitmapSet_buf hsize hset (by omega)]
    by_cases hword : j / 64 = i / 64
    · rw [if_pos hword]
      by_cases hji : j = i
      · subst hji
        rw [if_pos rfl]
        refine setEffect_own_iff.mpr fun hv => ?_
        unfold Reaches
        rcases safe with hf | hlow | ⟨hplace, -⟩
        · exact absurd (hv.symm.trans hf) (by decide)
        · omega
        · omega
      · rw [if_neg hji]
        refine (setEffect_other_iff (by omega)).mpr fun hv hreach => ?_
        unfold Reaches at hreach
        rcases safe with hf | hlow | ⟨hplace, hothers⟩
        · exact absurd (hv.symm.trans hf) (by decide)
        · omega
        · exact hothers j hj hword (by omega) hji
    · rw [if_neg hword, if_neg fun hji => hword (by rw [hji])]

theorem bitmapSet_sets_low :
    ∃ m', bitmapSet ⟨fun _ => 0⟩ ⟨4096, 100⟩ 70 true = .ok m' ∧
      (SetsBit ⟨fun _ => 0⟩ m' ⟨4096, 100⟩ 70 true ↔ SetSafe ⟨fun _ => 0⟩ ⟨4096, 100⟩ 70 true) :=
  bitmapSet_sets_iff ⟨fun _ => 0⟩ ⟨4096, 100⟩ (by decide) 70 (by decide) true

/-- `true << 32` of an `int` lands on bit 0: bit 32 stays clear. -/
theorem set_bit_32_lost :
    ¬ ∀ (m m' : Mem) (bmp : Bitmap) (i : Nat) (v : Bool), bmp.size < 2 ^ 64 → i < bmp.size →
      bitmapSet m bmp i v = .ok m' → SetsBit m m' bmp i v := by
  intro setsAll
  have sets := setsAll ⟨fun _ => 0⟩ _ ⟨4096, 64⟩ 32 true (by decide) (by decide) rfl
  exact absurd (sets.bits 32 (by decide)) (by decide +kernel)

/-! ## Clearing -/

/-- Every bit of the bitmap reads as false. -/
def AllClear (m : Mem) (bmp : Bitmap) : Prop :=
  ∀ i, i < bmp.size → bitmapGet m bmp i = .ok false

/-- The bits behind the last whole byte are clear. -/
def TailClear (m : Mem) (bmp : Bitmap) : Prop :=
  ∀ i, 8 * (bmp.size / 8) ≤ i → i < bmp.size → HasBit m bmp false i

theorem allClear_memset_iff (m : Mem) (bmp : Bitmap) (hsize : bmp.size < 2 ^ 64) :
    AllClear (memset m bmp.buf 0 (bmp.size / 8)) bmp ↔ TailClear m bmp := by
  have hbit : ∀ i, i < bmp.size → bitmapGet (memset m bmp.buf 0 (bmp.size / 8)) bmp i =
      .ok (bitAt m bmp.buf i && decide (8 * (bmp.size / 8) ≤ i)) := by
    intro i hi
    rw [bitmapGet_eq _ hi]
    have h := bitAt_memset_zero m (b := bmp.buf) (o := 0) (n := bmp.size / 8) (g := i) (by omega)
      (by omega)
    rw [Nat.add_zero] at h
    rw [h, ← decide_not, decide_eq_decide.mpr (show ¬ (8 * 0 ≤ i ∧ i < 8 * (0 + bmp.size / 8)) ↔
      8 * (bmp.size / 8) ≤ i by omega)]
  constructor
  · intro clear i hle hi
    have h := Except.ok.inj ((hbit i hi).symm.trans (clear i hi))
    rwa [decide_eq_true hle, Bool.and_true] at h
  · intro tail i hi
    rw [hbit i hi]
    by_cases hle : 8 * (bmp.size / 8) ≤ i
    · rw [show bitAt m bmp.buf i = false from tail i hle hi, Bool.false_and]
    · rw [decide_eq_false hle, Bool.and_false]

/-- `bitmap_init_buf` on any buffer, and `bitmap_clear` on any bitmap, leave
every bit clear exactly when those behind the last whole byte were. -/
theorem bitmap_clears_iff (m : Mem) (buf numIdx : Nat) (hbuf : buf ≠ 0) (hsize : numIdx < 2 ^ 64) :
    (∃ m', bitmapInitBuf m buf numIdx = .ok (⟨buf, numIdx⟩, m') ∧
      (AllClear m' ⟨buf, numIdx⟩ ↔ TailClear m ⟨buf, numIdx⟩)) ∧
    (AllClear (bitmapClear m ⟨buf, numIdx⟩) ⟨buf, numIdx⟩ ↔ TailClear m ⟨buf, numIdx⟩) := by
  have hclear := allClear_memset_iff m ⟨buf, numIdx⟩ hsize
  refine ⟨⟨memset m buf 0 (numIdx / 8), ?_, hclear⟩, hclear⟩
  unfold bitmapInitBuf
  rw [assert_ok hbuf]
  rfl

theorem bitmap_clears_whole_bytes :
    (∃ m', bitmapInitBuf ⟨fun _ => 255⟩ 4096 160 = .ok (⟨4096, 160⟩, m') ∧
      (AllClear m' ⟨4096, 160⟩ ↔ TailClear ⟨fun _ => 255⟩ ⟨4096, 160⟩)) ∧
    (AllClear (bitmapClear ⟨fun _ => 255⟩ ⟨4096, 160⟩) ⟨4096, 160⟩ ↔
      TailClear ⟨fun _ => 255⟩ ⟨4096, 160⟩) :=
  bitmap_clears_iff ⟨fun _ => 255⟩ 4096 160 (by decide) (by decide)

/-- Of 12 bits over memory full of ones the last four stay set. -/
theorem tail_bits_not_cleared :
    ¬ ∀ (m m' : Mem) (buf numIdx : Nat) (bmp : Bitmap), numIdx < 2 ^ 64 →
      bitmapInitBuf m buf numIdx = .ok (bmp, m') →
      AllClear m' bmp ∧ AllClear (bitmapClear m bmp) bmp := by
  intro clears
  have clear := (clears ⟨fun _ => 255⟩ _ 4096 12 _ (by decide) rfl).1
  exact absurd (clear 11 (by decide)) (by decide +kernel)

/-! ## Flipping -/

/-- `m'` is `m` with the bits from `s` to `e` inverted and all others kept, in
the backing words and beyond them. -/
def FlipsRange (m m' : Mem) (bmp : Bitmap) (s e : Nat) : Prop :=
  ∀ j, j < 2 ^ 67 → bitAt m' bmp.buf j = (bitAt m bmp.buf j ^^ decide (s ≤ j ∧ j ≤ e))

section Flip

variable {s e : Nat}

theorem flipsRange_of_ok (hsize : bmp.size < 2 ^ 64) (h : bitmapFlip m bmp s e = .ok m') :
    FlipsRange m m' bmp s e := by
  intro j hj
  have he := (bitmapFlip_ok h).2
  rw [bitAt_bitmapFlip h (b := bmp.buf) (o := 0) rfl (by omega) j hj]
  simp only [Nat.mul_zero, Nat.zero_add]

/-- Twice the same range. -/
theorem FlipsRange.back {m'' : Mem} (h : FlipsRange m m' bmp s e)
    (h' : FlipsRange m' m'' bmp s e) :
    ∀ j, j < 2 ^ 67 → bitAt m'' bmp.buf j = bitAt m bmp.buf j := by
  intro j hj
  rw [h' j hj, h j hj, Bool.xor_assoc, Bool.xor_self, Bool.xor_false]

/-- Two ranges side by side. -/
theorem FlipsRange.join {m'' : Mem} {c : Nat} (h : FlipsRange m m' bmp s e)
    (h' : FlipsRange m' m'' bmp (e + 1) c) (hse : s ≤ e) (hec : e < c) :
    FlipsRange m m'' bmp s c := by
  intro j hj
  rw [h' j hj, h j hj, Bool.xor_assoc]
  congr 1
  apply decide_xor_decide <;> omega

theorem byte_flipWords (m : Mem) (bmp : Bitmap) (idx n : Nat) {x : Nat} (hx : 2 ^ 64 ≤ x) :
    (flipWords m bmp idx n).byte x = m.byte x := by
  induction n with
  | zero => rfl
  | succ n ih =>
    rw [← ih]
    exact byte_store _ _ _ _ hx

theorem byte_bitmapFlip (h : bitmapFlip m bmp s e = .ok m') {x : Nat} (hx : 2 ^ 64 ≤ x) :
    m'.byte x = m.byte x := by
  unfold bitmapFlip at h
  rw [assert_bind_eq_ok, assert_bind_eq_ok, assert_bind_eq_ok] at h
  obtain ⟨-, -, -, h⟩ := h
  dsimp only at h
  split at h
  · cases h
    exact byte_store _ _ _ _ hx
  · cases h
    exact (byte_store _ _ _ _ hx).trans
      ((byte_flipWords _ _ _ _ hx).trans (byte_store _ _ _ _ hx))

/-- `bitmap_flip` inverts exactly its range. So it undoes itself, and flips of
neighbouring ranges are the flip of both. -/
theorem bitmapFlip_flips (m : Mem) (bmp : Bitmap) (hsize : bmp.size < 2 ^ 64) (s e : Nat)
    (hse : s ≤ e) (he : e < bmp.size) :
    ∃ m', bitmapFlip m bmp s e = .ok m' ∧ FlipsRange m m' bmp s e ∧
      bitmapFlip m' bmp s e = .ok m ∧
      ∀ c, e < c → c < bmp.size →
        ∃ m'', bitmapFlip m' bmp (e + 1) c = .ok m'' ∧ bitmapFlip m bmp s c = .ok m'' := by
  obtain ⟨m', hflip⟩ := bitmapFlip_returns m hse (Nat.le_of_lt he)
  have hrange := flipsRange_of_ok hsize hflip
  refine ⟨m', hflip, hrange, ?_, fun c hec hc => ?_⟩
  · obtain ⟨m₁, hagain⟩ := bitmapFlip_returns m' hse (Nat.le_of_lt he)
    have hback := hrange.back (flipsRange_of_ok hsize hagain)
    have hsame : m₁ = m := eq_of_bits hback fun x hx =>
      (byte_bitmapFlip hagain hx).trans (byte_bitmapFlip hflip hx)
    rw [hagain, hsame]
  · obtain ⟨m₁, hnext⟩ := bitmapFlip_returns m' hec (Nat.le_of_lt hc)
    obtain ⟨m₂, hboth⟩ := bitmapFlip_returns m (s := s) (by omega : s ≤ c) (Nat.le_of_lt hc)
    have hjoin := hrange.join (flipsRange_of_ok hsize hnext) hse hec
    have hsame : m₂ = m₁ := by
      refine eq_of_bits (b := bmp.buf) (fun j hj => ?_) fun x hx => ?_
      · rw [flipsRange_of_ok hsize hboth j hj, hjoin j hj]
      · rw [byte_bitmapFlip hboth hx, byte_bitmapFlip hnext hx, byte_bitmapFlip hflip hx]
    exact ⟨m₁, hnext, hsame ▸ hboth⟩

/-- From the middle of one word over a full one into a third. -/
theorem bitmapFlip_flips_three_words :
    ∃ m', bitmapFlip ⟨fun _ => 0⟩ ⟨4096, 200⟩ 60 130 = .ok m' ∧
      FlipsRange ⟨fun _ => 0⟩ m' ⟨4096, 200⟩ 60 130 ∧
      bitmapFlip m' ⟨4096, 200⟩ 60 130 = .ok ⟨fun _ => 0⟩ ∧
      ∀ c, 130 < c → c < 200 → ∃ m'', bitmapFlip m' ⟨4096, 200⟩ (130 + 1) c = .ok m'' ∧
        bitmapFlip ⟨fun _ => 0⟩ ⟨4096, 200⟩ 60 c = .ok m'' :=
  bitmapFlip_flips ⟨fun _ => 0⟩ ⟨4096, 200⟩ (by decide) 60 130 (by decide) (by decide)

end Flip

/-! ## First fit -/

/-- The two searches over `[start, stop]` are first fit, and the one that
flips inverts exactly the bits that it found. -/
theorem bitmap_searches_first_fit (m : Mem) (bmp : Bitmap) (value : Bool) (start stop num : Nat)
    (hsize : bmp.size < 2 ^ 63) (hstop : stop < bmp.size) (hnum : 1 ≤ num)
    (hfit : start + num - 1 ≤ stop) :
    ∃ r m', bitmapTestAndFlip m bmp value start stop num = .ok (r, m') ∧
      bitmapTest m bmp value start stop num = .ok r ∧
      (∀ i, r = some i ↔ FirstFit (HasBit m bmp value) start (stop + 1) num i) ∧
      (r = none ↔ NoFit (HasBit m bmp value) start (stop + 1) num) ∧
      (r = none → m' = m) ∧
      ∀ i, r = some i → ∀ g, g < 2 ^ 67 →
        bitAt m' bmp.buf g = (bitAt m bmp.buf g ^^ decide (i ≤ g ∧ g < i + num)) := by
  have hok : assertSearch bmp start stop num = .ok () :=
    assertSearch_returns hnum (by omega) hstop (by omega)
  obtain ⟨q, htest, hsome, hnone⟩ := bitmapTest_spec m value hok
  rcases bitmapTestAndFlip_spec m value (by omega) hok with ⟨hrun, hno⟩ | ⟨i, m', hrun, hff, hflip⟩
  · have hq : q = none := by
      cases q with
      | none => rfl
      | some i => exact absurd hno (hsome i rfl).not_noFit
    subst hq
    refine ⟨none, m, hrun, htest, fun i => ?_, iff_of_true rfl hno, fun _ => rfl, fun i hi => ?_⟩
    · exact iff_of_false (by simp) fun hff => hff.not_noFit hno
    · cases hi
  · have hq : q = some i := by
      cases q with
      | none => exact absurd (hnone rfl) hff.not_noFit
      | some j => rw [(hsome j rfl).unique hff]
    subst hq
    have hle := hff.le_stop
    refine ⟨some i, m', hrun, htest, fun j => ⟨hsome j, fun hff' => ?_⟩,
      iff_of_false (Option.some_ne_none i) hff.not_noFit, fun h => absurd h (Option.some_ne_none i),
      fun j hj g hg => ?_⟩
    · rw [hff.unique hff']
    · cases hj
      rw [flipsRange_of_ok (by omega) hflip g hg]
      congr 1
      apply decide_eq_decide.mpr
      omega

theorem bitmap_searches_first_fit_across_words :
    ∃ r m', bitmapTestAndFlip ⟨fun _ => 0⟩ ⟨4096, 200⟩ false 60 199 70 = .ok (r, m') ∧
      bitmapTest ⟨fun _ => 0⟩ ⟨4096, 200⟩ false 60 199 70 = .ok r ∧
      (∀ i, r = some i ↔ FirstFit (HasBit ⟨fun _ => 0⟩ ⟨4096, 200⟩ false) 60 200 70 i) ∧
      (r = none ↔ NoFit (HasBit ⟨fun _ => 0⟩ ⟨4096, 200⟩ false) 60 200 70) ∧
      (r = none → m' = ⟨fun _ => 0⟩) ∧
      ∀ i, r = some i → ∀ g, g < 2 ^ 67 →
        bitAt m' 4096 g = (bitAt ⟨fun _ => 0⟩ 4096 g ^^ decide (i ≤ g ∧ g < i + 70)) :=
  bitmap_searches_first_fit ⟨fun _ => 0⟩ ⟨4096, 200⟩ false 60 199 70 (by decide) (by decide)
    (by decide) (by decide)

end WaddleOS
