import WaddleOS.Drivers.BitArray

/-!
# The bits that the calls on a bitmap touch

A call that passes its own assertions reads, through `bitmap_get`, and changes
only bits of the bitmap, with two exceptions: `bitmap_flip` lets its range end
at the size itself, and the `int` that `bitmap_set` shifts to place 31 is
widened over the upper half of the word, which may lie behind the bitmap.
-/

namespace WaddleOS

inductive BitmapCall where
  | set (bitIndex : Nat) (value : Bool)
  | get (bitIndex : Nat)
  | flip (startIdx endIdx : Nat)
  | test (value : Bool) (startIdx endIdx numBits : Nat)
  | testAndFlip (value : Bool) (startIdx endIdx numBits : Nat)
  deriving DecidableEq, Repr

/-- The indices that the loop of `bitmap_test` passes to `bitmap_get`. -/
def bitmapTestReads (m : Mem) (bmp : Bitmap) (value : Bool) (numBits : Nat) :
    Nat → (i numBitsIter : Nat) → List Nat
  | 0, _, _ => []
  | n + 1, i, numBitsIter =>
    if numBitsIter < numBits then
      i :: match bitmapGet m bmp i with
        | .ok b =>
          bitmapTestReads m bmp value numBits n (i + 1) (if b = value then numBitsIter + 1 else 0)
        | .error _ => []
    else []

namespace BitmapCall

/-- The assertions that the function opens with. -/
def asserts (bmp : Bitmap) : BitmapCall → Except Fault Unit
  | set i _ | get i => assert (i < bmp.size)
  | flip s e => do
    assert (s ≤ bmp.size)
    assert (e ≤ bmp.size)
    assert (s ≤ e)
  | test _ s e n | testAndFlip _ s e n => assertSearch bmp s e n

/-- The memory behind the call. -/
def after (m : Mem) (bmp : Bitmap) : BitmapCall → Except Fault Mem
  | set i v => bitmapSet m bmp i v
  | get i => do
    let _ ← bitmapGet m bmp i
    return m
  | flip s e => bitmapFlip m bmp s e
  | test value s e n => do
    let _ ← bitmapTest m bmp value s e n
    return m
  | testAndFlip value s e n => do
    let (_, m') ← bitmapTestAndFlip m bmp value s e n
    return m'

/-- The bits whose values the call asks for. A word that is loaded to be
written back is not looked at. -/
def reads (m : Mem) (bmp : Bitmap) : BitmapCall → List Nat
  | set _ _ | flip _ _ => []
  | get i => [i]
  | test value s e n | testAndFlip value s e n =>
    bitmapTestReads m bmp value n (e + 1 - s) s 0

/-- The call keeps to the bitmap: its range ends before the size, and a true
value at place 31 finds the bits behind the bitmap in its word set. -/
def Contained (m : Mem) (bmp : Bitmap) : BitmapCall → Prop
  | set i v => v = true → i % 64 = 31 → ∀ j, bmp.size ≤ j → j / 64 = i / 64 → HasBit m bmp true j
  | flip _ e => e < bmp.size
  | get _ | test _ _ _ _ | testAndFlip _ _ _ _ => True

end BitmapCall

/-- The call returns, and every bit that it reads or changes is one of the
bitmap's. -/
structure AccessesInRange (m : Mem) (bmp : Bitmap) (call : BitmapCall) : Prop where
  reads : ∀ j ∈ call.reads m bmp, j < bmp.size
  changes : ∃ m', call.after m bmp = .ok m' ∧
    ∀ j, j < 2 ^ 67 → bitAt m' bmp.buf j ≠ bitAt m bmp.buf j → j < bmp.size

section Access

variable {m m' : Mem} {bmp : Bitmap} {value : Bool} {numBits n i iter cand : Nat}

theorem mem_bitmapTestReads {j : Nat} (h : j ∈ bitmapTestReads m bmp value numBits n i iter) :
    i ≤ j ∧ j < i + n := by
  induction n generalizing i iter with
  | zero => cases h
  | succ n ih =>
    rw [bitmapTestReads] at h
    split at h
    · rcases List.mem_cons.mp h with rfl | h
      · omega
      · split at h
        · have hrest := ih h
          omega
        · cases h
    · cases h

/-- The search depends on no other bits. -/
theorem bitmapTestLoop_congr
    (h : ∀ j ∈ bitmapTestReads m bmp value numBits n i iter,
      bitmapGet m' bmp j = bitmapGet m bmp j) :
    bitmapTestLoop m' bmp value numBits n i iter cand =
      bitmapTestLoop m bmp value numBits n i iter cand := by
  induction n generalizing i iter cand with
  | zero => rfl
  | succ n ih =>
    rw [bitmapTestReads] at h
    rw [bitmapTestLoop, bitmapTestLoop]
    by_cases hmore : iter < numBits
    · rw [if_pos hmore] at h
      rw [if_pos hmore, if_pos hmore, h i List.mem_cons_self]
      cases hget : bitmapGet m bmp i with
      | error f => rfl
      | ok b =>
        rw [hget] at h
        have hrest := fun j hj => h j (List.mem_cons_of_mem i hj)
        by_cases hb : b = value
        · simp only [if_pos hb] at hrest
          simp only [bind, Except.bind, if_pos hb]
          exact ih hrest
        · simp only [if_neg hb] at hrest
          simp only [bind, Except.bind, if_neg hb]
          exact ih hrest
    · rw [if_neg hmore, if_neg hmore]

/-- What `bitmap_test` returns depends on no bits but those it reads. -/
theorem bitmapTest_congr {s e : Nat}
    (h : ∀ j ∈ (BitmapCall.test value s e n).reads m bmp, bitmapGet m' bmp j = bitmapGet m bmp j) :
    bitmapTest m' bmp value s e n = bitmapTest m bmp value s e n := by
  rw [bitmapTest, bitmapTest, bitmapTestLoop_congr h]

theorem reads_inRange (call : BitmapCall) (hok : call.asserts bmp = .ok ()) :
    ∀ j ∈ call.reads m bmp, j < bmp.size := by
  intro j hj
  cases call with
  | set | flip => cases hj
  | get i =>
    rw [List.mem_singleton.mp hj]
    exact assert_eq_ok.mp hok
  | test value s e n | testAndFlip value s e n =>
    have hrange := mem_bitmapTestReads hj
    have he := (assertSearch_ok hok).2.1
    omega

/-! ## Changes -/

/-- A change of bit `j` by `bitmap_set` behind bit `i` in the same word. -/
theorem setEffect_behind {v old : Bool} {ofs j : Nat} (hlt : ofs < j) (hj : j < 64) :
    setEffect v ofs j old ≠ old ↔ v = true ∧ ofs = 31 ∧ old = false := by
  have hreach : Reaches ofs j ↔ ofs = 31 := by
    unfold Reaches
    omega
  rw [Ne, setEffect_other_iff (Nat.ne_of_gt hlt), hreach]
  cases v <;> cases old <;> simp

theorem bitmapSet_changes_iff {i : Nat} {v : Bool} (hsize : bmp.size < 2 ^ 64)
    (h : bitmapSet m bmp i v = .ok m') :
    (∀ j, j < 2 ^ 67 → bitAt m' bmp.buf j ≠ bitAt m bmp.buf j → j < bmp.size) ↔
      (BitmapCall.set i v).Contained m bmp := by
  have hi := bitmapSet_ok h
  constructor
  · intro hrange hv hplace j hj hword
    by_contra hclear
    have hold : bitAt m bmp.buf j = false := Bool.eq_false_iff.mpr hclear
    have hin := hrange j (by omega) (by
      rw [bitAt_bitmapSet_buf hsize h (by omega), if_pos hword]
      exact (setEffect_behind (by omega) (by omega)).mpr ⟨hv, hplace, hold⟩)
    omega
  · intro hcontained j hj hchange
    by_contra hout
    rw [bitAt_bitmapSet_buf hsize h hj] at hchange
    by_cases hword : j / 64 = i / 64
    · rw [if_pos hword] at hchange
      obtain ⟨hv, hplace, hold⟩ := (setEffect_behind (by omega) (by omega)).mp hchange
      have hset : bitAt m bmp.buf j = true := hcontained hv hplace j (Nat.le_of_not_lt hout) hword
      rw [hold] at hset
      cases hset
    · rw [if_neg hword] at hchange
      exact hchange rfl

theorem FlipsRange.changed_iff {s e j : Nat} (h : FlipsRange m m' bmp s e) (hj : j < 2 ^ 67) :
    bitAt m' bmp.buf j ≠ bitAt m bmp.buf j ↔ s ≤ j ∧ j ≤ e := by
  rw [h j hj]
  cases bitAt m bmp.buf j <;> simp

/-- A call that passes its assertions touches bits of the bitmap alone, if and
only if it keeps to the bitmap. -/
theorem accesses_inRange_iff (m : Mem) (bmp : Bitmap) (hsize : bmp.size < 2 ^ 64)
    (call : BitmapCall) (hok : call.asserts bmp = .ok ()) :
    AccessesInRange m bmp call ↔ call.Contained m bmp := by
  have hsame : ∀ j, j < 2 ^ 67 → bitAt m bmp.buf j ≠ bitAt m bmp.buf j → j < bmp.size :=
    fun j _ hne => absurd rfl hne
  have hreads := reads_inRange (m := m) call hok
  -- the calls differ in what memory they leave
  have hafter {m' : Mem} (h : call.after m bmp = .ok m') : AccessesInRange m bmp call ↔
      ∀ j, j < 2 ^ 67 → bitAt m' bmp.buf j ≠ bitAt m bmp.buf j → j < bmp.size := by
    constructor
    · rintro ⟨-, m₁, h₁, hrange⟩
      cases h.symm.trans h₁
      exact hrange
    · exact fun hrange => ⟨hreads, m', h, hrange⟩
  cases call with
  | set i v =>
    obtain ⟨m', hset⟩ := bitmapSet_returns m (assert_eq_ok.mp hok) v
    exact (hafter hset).trans (bitmapSet_changes_iff hsize hset)
  | get i =>
    have hget := bitmapGet_eq m (assert_eq_ok.mp hok)
    exact (hafter (bind_eq_ok.mpr ⟨_, hget, rfl⟩)).trans (iff_of_true hsame trivial)
  | flip s e =>
    have hasserts : s ≤ bmp.size ∧ e ≤ bmp.size ∧ s ≤ e := by
      simpa only [BitmapCall.asserts, assert_bind_eq_ok, assert_eq_ok] using hok
    obtain ⟨-, he, hse⟩ := hasserts
    obtain ⟨m', hflip⟩ := bitmapFlip_returns m hse he
    have hrange := flipsRange_of_ok hsize hflip
    rw [hafter hflip]
    constructor
    · exact fun hall => hall e (by omega) ((hrange.changed_iff (by omega)).mpr ⟨hse, Nat.le_refl e⟩)
    · intro hlast j hj hchange
      exact Nat.lt_of_le_of_lt ((hrange.changed_iff hj).mp hchange).2 hlast
  | test value s e n =>
    obtain ⟨r, htest, -⟩ := bitmapTest_spec m value hok
    exact (hafter (bind_eq_ok.mpr ⟨r, htest, rfl⟩)).trans (iff_of_true hsame trivial)
  | testAndFlip value s e n =>
    have he := (assertSearch_ok hok).2.1
    rcases bitmapTestAndFlip_spec m value (by omega) hok with ⟨hrun, -⟩ | ⟨r, m', hrun, hfit, hflip⟩
    · exact (hafter (bind_eq_ok.mpr ⟨_, hrun, rfl⟩)).trans (iff_of_true hsame trivial)
    · have hle := hfit.le_stop
      have hrange := flipsRange_of_ok hsize hflip
      rw [hafter (bind_eq_ok.mpr ⟨_, hrun, rfl⟩)]
      refine iff_of_true (fun j hj hchange => ?_) trivial
      have hj := (hrange.changed_iff hj).mp hchange
      omega

/-- A search over the last bits of a bitmap that ends inside a word. -/
theorem accesses_inRange_search :
    AccessesInRange ⟨fun _ => 0⟩ ⟨4096, 100⟩ (.testAndFlip false 60 99 40) :=
  (accesses_inRange_iff ⟨fun _ => 0⟩ ⟨4096, 100⟩ (by decide) (.testAndFlip false 60 99 40) rfl).mpr
    trivial

/-- `bitmap_flip(bmp, 0, 8)` on eight bits inverts the ninth. -/
theorem flip_at_size_admitted :
    ¬ ∀ (m : Mem) (bmp : Bitmap), bmp.size < 2 ^ 64 → ∀ call : BitmapCall,
      call.asserts bmp = .ok () → AccessesInRange m bmp call := by
  intro inRange
  obtain ⟨m', hflip, hrange⟩ :=
    (inRange ⟨fun _ => 0⟩ ⟨4096, 8⟩ (by decide) (.flip 0 8) rfl).changes
  cases hflip
  exact absurd (hrange 8 (by decide) (by decide +kernel)) (by decide)

end Access

end WaddleOS
