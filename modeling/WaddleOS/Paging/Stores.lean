import WaddleOS.Paging.Pools

/-!
# Stores for the bitmaps of the pools

What `bitmap.c` owes the pools, as laws of a store: bits that can be told
apart, and bits that lie in memory, where zeroing a page or writing to it may
reach them. Two stores keep these laws.

* `SpecMem`: the kernel's memory, with a `bitmap_set` that meets its specification;
* `BitTable`: bits apart from everything else.
-/

namespace WaddleOS

/-- The buffers share no byte. -/
def Bitmap.Apart (a b : Bitmap) : Prop :=
  ∀ x y, x < (a.size + 7) / 8 → y < (b.size + 7) / 8 → (a.buf + x) % 2 ^ 64 ≠ (b.buf + y) % 2 ^ 64

theorem Bitmap.Apart.symm {a b : Bitmap} (h : a.Apart b) : b.Apart a :=
  fun x y hx hy e => h y x hy hx e.symm

theorem Bitmap.Apart.ne {a c : Bitmap} (h : a.Apart c) (hc : 0 < c.size) : c ≠ a := by
  rintro rfl
  exact h 0 0 (by omega) (by omega) rfl

/-- A store whose bitmaps are rows of independent bits: `set` writes one of
them and `testAndFlip` is first fit. -/
class LawfulBitmapStore (σ : Type) extends BitmapStore σ where
  bit : σ → Bitmap → Nat → Bool
  initBuf_apart : ∀ {st st' : σ} {buf numIdx : Nat} {bmp : Bitmap},
    initBuf st buf numIdx = .ok (bmp, st') → ∀ c : Bitmap, Bitmap.Apart ⟨buf, numIdx⟩ c →
      ∀ j, j < c.size → bit st' c j = bit st c j
  set_bit : ∀ {st st' : σ} {bmp : Bitmap} {i : Nat} {v : Bool}, bmp.size ≤ 2 ^ 64 →
    set st bmp i v = .ok st' →
      i < bmp.size ∧ ∀ j, j < bmp.size → bit st' bmp j = if j = i then v else bit st bmp j
  set_apart : ∀ {st st' : σ} {bmp : Bitmap} {i : Nat} {v : Bool}, bmp.size ≤ 2 ^ 64 →
    set st bmp i v = .ok st' →
      ∀ c : Bitmap, bmp.Apart c → ∀ j, j < c.size → bit st' c j = bit st c j
  testAndFlip_none : ∀ {st st' : σ} {bmp : Bitmap} {v : Bool} {start stop num : Nat},
    bmp.size ≤ 2 ^ 64 → testAndFlip st bmp v start stop num = .ok (none, st') →
      st' = st ∧ NoFit (fun j => bit st bmp j = v) start (stop + 1) num
  testAndFlip_some : ∀ {st st' : σ} {bmp : Bitmap} {v : Bool} {start stop num r : Nat},
    bmp.size ≤ 2 ^ 64 → testAndFlip st bmp v start stop num = .ok (some r, st') →
      stop < bmp.size ∧ FirstFit (fun j => bit st bmp j = v) start (stop + 1) num r ∧
      ∀ j, j < bmp.size → bit st' bmp j = (bit st bmp j ^^ decide (r ≤ j ∧ j < r + num))
  testAndFlip_apart : ∀ {st st' : σ} {bmp : Bitmap} {v : Bool} {start stop num : Nat}
    {r : Option Nat}, bmp.size ≤ 2 ^ 64 → testAndFlip st bmp v start stop num = .ok (r, st') →
      ∀ c : Bitmap, bmp.Apart c → ∀ j, j < c.size → bit st' c j = bit st c j

/-- A store whose bits lie in memory: bit `j` of a bitmap is in byte `j / 8` of
its buffer. `zero` clears the bits whose bytes it covers, and `write`, the store
of a byte by whoever holds it, replaces those of its byte. -/
class MemoryBitmapStore (σ : Type) extends LawfulBitmapStore σ where
  write : σ → (addr : Nat) → UInt8 → σ
  zero_bit : ∀ (st : σ) (addr len : Nat) (c : Bitmap) (j : Nat), j < c.size →
    (bit (zero st addr len) c j = true ↔
      bit st c j = true ∧ ∀ y, y < len → (c.buf + j / 8) % 2 ^ 64 ≠ (addr + y) % 2 ^ 64)
  write_bit : ∀ (st : σ) (addr : Nat) (v : UInt8) (c : Bitmap) (j : Nat), j < c.size →
    bit (write st addr v) c j =
      if (c.buf + j / 8) % 2 ^ 64 = addr % 2 ^ 64 then v.toNat.testBit (j % 8) else bit st c j

/-- A store whose operations return on arguments in range. `clears n j` tells
whether the initialisation of `n` bits clears bit `j`. -/
class TotalBitmapStore (σ : Type) extends LawfulBitmapStore σ where
  clears : (numIdx j : Nat) → Bool
  initBuf_returns : ∀ (st : σ) {buf : Nat} (numIdx : Nat), buf ≠ 0 →
    ∃ st', initBuf st buf numIdx = .ok (⟨buf, numIdx⟩, st')
  initBuf_bit : ∀ {st st' : σ} {buf numIdx : Nat} {bmp : Bitmap},
    numIdx ≤ 2 ^ 64 → initBuf st buf numIdx = .ok (bmp, st') → ∀ j, j < numIdx →
      bit st' bmp j = (bit st bmp j && !clears numIdx j)
  set_returns : ∀ (st : σ) (bmp : Bitmap) (i : Nat) (v : Bool), i < bmp.size →
    ∃ st', set st bmp i v = .ok st'

/-- Both, with a search that returns. -/
class TotalMemoryStore (σ : Type) extends TotalBitmapStore σ, MemoryBitmapStore σ where
  testAndFlip_returns : ∀ (st : σ) (bmp : Bitmap) (v : Bool) {start stop num : Nat},
    bmp.size ≤ 2 ^ 64 → 0 < num → stop < bmp.size → start + num ≤ stop + 1 →
    ∃ r st', testAndFlip st bmp v start stop num = .ok (r, st')

/-! ## The memory of the kernel -/

section Seen

variable {m m' : Mem}

/-- A bit of one buffer, seen from another address. -/
theorem bit_seen_from (b a g : Nat) : ∃ x, x < 2 ^ 64 ∧ (a + g / 8) % 2 ^ 64 = (b + x) % 2 ^ 64 ∧
    ∀ m, bitAt m a g = bitAt m b (8 * x + g % 8) := by
  have place : (a + g / 8) % 2 ^ 64 =
      (b + (a + g / 8 + (2 ^ 64 - b % 2 ^ 64)) % 2 ^ 64) % 2 ^ 64 := by omega
  refine ⟨_, Nat.mod_lt _ (by decide), place, fun m => ?_⟩
  rw [bitAt, bitAt, get_of_mod_eq m place, Nat.mul_add_div (by decide), Nat.mul_add_mod,
    Nat.mod_mod, Nat.div_eq_of_lt (Nat.mod_lt g (by decide)), Nat.add_zero]

theorem get_memset_apart (m : Mem) {a x n : Nat} (v : Nat)
    (out : ∀ y, y < n → x % 2 ^ 64 ≠ (a + y) % 2 ^ 64) : (memset m a v n).get x = m.get x := by
  unfold memset
  induction n with
  | zero => rfl
  | succ n ih =>
    rw [fillBytes]
    exact (if_neg (out n (by omega))).trans (ih fun y hy => out y (by omega))

theorem get_memset_within (m : Mem) {a x y n : Nat} (v : Nat) (hy : y < n)
    (place : x % 2 ^ 64 = (a + y) % 2 ^ 64) :
    (memset m a v n).get x = UInt8.ofNat (v &&& 0xFF) := by
  unfold memset
  induction n with
  | zero => omega
  | succ n ih =>
    rw [fillBytes]
    by_cases last : x % 2 ^ 64 = (a + n) % 2 ^ 64
    · exact if_pos last
    · refine (if_neg last).trans (ih ?_)
      rcases Nat.lt_succ_iff_lt_or_eq.mp hy with hy | rfl
      · exact hy
      · exact absurd place last

end Seen

/-- Memory under the kernel's own `bitmap.c` and `memset`, but for a
`bitmap_set` that shifts in 64 bits, as its specification asks. -/
def SpecMem : Type := Mem

namespace SpecMem

def set (m : Mem) (bmp : Bitmap) (bitIndex : Nat) (value : Bool) : Except Fault Mem := do
  assert (bitIndex < bmp.size)
  let a := bmp.buf + 8 * (bitIndex / 64)
  let ofs := bitIndex % 64
  return storeWord m a
    ((loadWord m a &&& ~~~(1#64 <<< ofs)) ||| (BitVec.ofBool value).setWidth 64 <<< ofs)

theorem set_ok {m m' : Mem} {bmp : Bitmap} {i : Nat} {v : Bool} (hsize : bmp.size ≤ 2 ^ 64)
    (h : set m bmp i v = .ok m') : i < bmp.size ∧
      ∀ g, g < 2 ^ 67 → bitAt m' bmp.buf g = if g = i then v else bitAt m bmp.buf g := by
  obtain ⟨hi, done⟩ := assert_bind_eq_ok.mp h
  obtain rfl := Except.ok.inj done
  refine ⟨hi, fun g hg => ?_⟩
  rw [bitAt_storeWord _ _ (by omega) hg]
  by_cases word : 8 * (8 * (i / 64)) ≤ g ∧ g < 8 * (8 * (i / 64)) + 64
  · have own : bitAt m (bmp.buf + 8 * (i / 64)) (g - 8 * (8 * (i / 64))) = bitAt m bmp.buf g := by
      rw [bitAt_add, Nat.add_sub_cancel' word.1]
    have inside : g - 8 * (8 * (i / 64)) < 64 := by omega
    rw [if_pos word, BitVec.getLsbD_or, BitVec.getLsbD_and, BitVec.getLsbD_not,
      getLsbD_one_shiftLeft _ _ inside, getLsbD_loadWord, own, BitVec.getLsbD_shiftLeft,
      BitVec.getLsbD_setWidth]
    by_cases at_ : g = i
    · have ofs : g - 8 * (8 * (i / 64)) = i % 64 := by omega
      rw [if_pos at_, ofs]
      have low : i % 64 < 64 := Nat.mod_lt _ (by decide)
      cases v <;> simp [low]
    · have ofs : g - 8 * (8 * (i / 64)) ≠ i % 64 := by omega
      rw [if_neg at_]
      by_cases below : g - 8 * (8 * (i / 64)) < i % 64
      · simp [inside, ofs, below]
      · have high : (BitVec.ofBool v).getLsbD (g - 8 * (8 * (i / 64)) - i % 64) = false :=
          BitVec.getLsbD_of_ge _ _ (by omega)
        simp [inside, ofs, high]
  · rw [if_neg word, if_neg (by omega)]

/-- The bits of a search that found a run. -/
theorem testAndFlip_ok {m m' : Mem} {bmp : Bitmap} {v : Bool} {start stop num : Nat} {r : Option Nat}
    (hsize : bmp.size ≤ 2 ^ 64) (h : bitmapTestAndFlip m bmp v start stop num = .ok (r, m')) :
    stop < bmp.size ∧
    ((r = none ∧ m' = m ∧ NoFit (HasBit m bmp v) start (stop + 1) num) ∨
    ∃ i, r = some i ∧ FirstFit (HasBit m bmp v) start (stop + 1) num i ∧
      ∀ g, g < 2 ^ 67 →
        bitAt m' bmp.buf g = (bitAt m bmp.buf g ^^ decide (i ≤ g ∧ g < i + num))) := by
  have ok := bitmapTestAndFlip_ok h
  obtain ⟨-, inside, -, -, pos⟩ := assertSearch_ok ok
  refine ⟨inside, ?_⟩
  rcases bitmapTestAndFlip_spec m v hsize ok with ⟨run, none⟩ | ⟨i, m₁, run, fit, flip⟩
  · obtain ⟨rfl, rfl⟩ := Prod.mk.inj (Except.ok.inj (run.symm.trans h))
    exact .inl ⟨rfl, rfl, none⟩
  · obtain ⟨rfl, rfl⟩ := Prod.mk.inj (Except.ok.inj (run.symm.trans h))
    have room := fit.le_stop
    refine .inr ⟨i, rfl, fit, fun g hg => ?_⟩
    rw [bitAt_bitmapFlip flip (b := bmp.buf) (o := 0) rfl (by omega) g hg]
    exact congrArg _ (decide_eq_decide.mpr (by omega))

/-- A change of some bits of a bitmap does not reach one that is apart from it. -/
theorem bit_apart {m m' : Mem} {bmp c : Bitmap} {p : Nat → Prop} (apart : bmp.Apart c)
    (only : ∀ g, g < 2 ^ 67 → ¬ p g → bitAt m' bmp.buf g = bitAt m bmp.buf g)
    (inside : ∀ g, p g → g < bmp.size) {j : Nat} (hj : j < c.size) :
    bitAt m' c.buf j = bitAt m c.buf j := by
  obtain ⟨x, hx, place, seen⟩ := bit_seen_from bmp.buf c.buf j
  rw [seen m', seen m]
  refine only _ (by omega) fun hp => ?_
  have hg := inside _ hp
  exact apart x (j / 8) (by omega) (by omega) place.symm

end SpecMem

instance : TotalMemoryStore SpecMem where
  initBuf := bitmapInitBuf
  set := SpecMem.set
  testAndFlip := bitmapTestAndFlip
  zero m addr len := memset m addr 0 len
  initBuf_fields h := (bitmapInitBuf_ok h).1
  bit m bmp j := bitAt m bmp.buf j
  initBuf_apart := by
    intro m m' buf numIdx bmp h c apart j hj
    obtain ⟨rfl, rfl⟩ := bitmapInitBuf_ok h
    apply bitAt_congr
    apply get_memset_apart
    intro y hy place
    exact apart y (j / 8) (by dsimp only; omega) (by omega) place.symm
  set_bit := by
    intro m m' bmp i v hsize h
    obtain ⟨hi, bits⟩ := SpecMem.set_ok hsize h
    exact ⟨hi, fun j hj => bits j (by omega)⟩
  set_apart := by
    intro m m' bmp i v hsize h c apart j hj
    obtain ⟨hi, bits⟩ := SpecMem.set_ok hsize h
    refine SpecMem.bit_apart (p := (· = i)) apart (fun g hg other => ?_) (fun g at_ => ?_) hj
    · rw [bits g hg, if_neg other]
    · exact at_ ▸ hi
  testAndFlip_none := by
    intro m m' bmp v start stop num hsize h
    obtain ⟨-, ⟨-, same, none⟩ | ⟨i, found, -⟩⟩ := SpecMem.testAndFlip_ok hsize h
    · exact ⟨same, none⟩
    · cases found
  testAndFlip_some := by
    intro m m' bmp v start stop num r hsize h
    obtain ⟨inside, ⟨none, -⟩ | ⟨i, found, fit, bits⟩⟩ := SpecMem.testAndFlip_ok hsize h
    · cases none
    · obtain rfl := Option.some.inj found
      exact ⟨inside, fit, fun j hj => bits j (by omega)⟩
  testAndFlip_apart := by
    intro m m' bmp v start stop num r hsize h c apart j hj
    obtain ⟨inside, ⟨-, rfl, -⟩ | ⟨i, -, fit, bits⟩⟩ := SpecMem.testAndFlip_ok hsize h
    · rfl
    · have room := fit.le_stop
      refine SpecMem.bit_apart (p := fun g => i ≤ g ∧ g < i + num) apart (fun g hg other => ?_)
        (fun g at_ => ?_) hj
      · rw [bits g hg, decide_eq_false other, Bool.xor_false]
      · omega
  write m addr v := Mem.set m addr v
  zero_bit := by
    intro m addr len c j _
    by_cases within : ∃ y, y < len ∧ (c.buf + j / 8) % 2 ^ 64 = (addr + y) % 2 ^ 64
    · obtain ⟨y, hy, place⟩ := within
      have cleared : bitAt (memset m addr 0 len) c.buf j = false := by
        rw [bitAt, get_memset_within m 0 hy place]
        simp
      rw [cleared]
      refine iff_of_false Bool.false_ne_true ?_
      rintro ⟨-, out⟩
      exact out y hy place
    · have out : ∀ y, y < len → (c.buf + j / 8) % 2 ^ 64 ≠ (addr + y) % 2 ^ 64 :=
        fun y hy place => within ⟨y, hy, place⟩
      rw [bitAt_congr (get_memset_apart m 0 out)]
      exact ⟨fun h => ⟨h, out⟩, And.left⟩
  write_bit := by
    intro m addr v c j _
    change (if (c.buf + j / 8) % 2 ^ 64 = addr % 2 ^ 64 then v
      else Mem.get m (c.buf + j / 8)).toNat.testBit (j % 8) = _
    split <;> rfl
  clears numIdx j := decide (j < 8 * (numIdx / 8))
  initBuf_returns m buf numIdx hbuf := ⟨_, by
    unfold bitmapInitBuf
    rw [assert_ok hbuf]
    rfl⟩
  initBuf_bit := by
    intro m m' buf numIdx bmp hsize h j hj
    obtain ⟨rfl, rfl⟩ := bitmapInitBuf_ok h
    have cleared := bitAt_memset_zero m (b := buf) (o := 0) (n := numIdx / 8) (g := j) (by omega)
      (by omega)
    rw [Nat.add_zero] at cleared
    refine cleared.trans (congrArg (fun x => bitAt m buf j && !x) (decide_eq_decide.mpr ?_))
    omega
  set_returns m bmp i v hi := ⟨_, by
    unfold SpecMem.set
    rw [assert_ok hi]
    rfl⟩
  testAndFlip_returns := by
    intro m bmp v start stop num hsize pos inside fits
    have ok := assertSearch_returns pos hsize inside fits
    rcases bitmapTestAndFlip_spec m v hsize ok with ⟨run, -⟩ | ⟨i, m', run, -⟩
    · exact ⟨_, _, run⟩
    · exact ⟨_, _, run⟩

/-! ## An ideal store -/

/-- Rows of bits, one for each buffer address; nothing else reaches them. -/
structure BitTable where
  bits : Nat → Nat → Bool

namespace BitTable

def update (st : BitTable) (buf : Nat) (row : Nat → Bool) : BitTable :=
  ⟨fun a => if a = buf then row else st.bits a⟩

def allEqual (st : BitTable) (buf r num : Nat) (v : Bool) : Bool :=
  (List.range num).all (fun j => st.bits buf (r + j) == v)

def find (st : BitTable) (buf start stop num : Nat) (v : Bool) : Option Nat :=
  (List.range' start (stop + 2 - num - start)).find? (fun r => st.allEqual buf r num v)

def flip (st : BitTable) (buf r num : Nat) : BitTable :=
  st.update buf (fun j => st.bits buf j ^^ decide (r ≤ j ∧ j < r + num))

def testAndFlip (st : BitTable) (bmp : Bitmap) (v : Bool) (start stop num : Nat) :
    Except Fault (Option Nat × BitTable) := do
  assertSearch bmp start stop num
  match st.find bmp.buf start stop num v with
  | some r => return (some r, st.flip bmp.buf r num)
  | none => return (none, st)

theorem allEqual_iff (st : BitTable) (buf r num : Nat) (v : Bool) :
    st.allEqual buf r num v = true ↔ ∀ j, r ≤ j → j < r + num → st.bits buf j = v := by
  simp only [allEqual, List.all_eq_true, List.mem_range, beq_iff_eq]
  constructor
  · intro h j hrj hj
    have := h (j - r) (by omega)
    rwa [Nat.add_sub_cancel' hrj] at this
  · intro h j hj
    exact h (r + j) (by omega) (by omega)

theorem not_allEqual {st : BitTable} {buf r num : Nat} {v : Bool}
    (h : st.allEqual buf r num v = false) : ∃ j, r ≤ j ∧ j < r + num ∧ ¬ st.bits buf j = v := by
  by_contra hno
  have hall : st.allEqual buf r num v = true := by
    rw [allEqual_iff]
    intro j hrj hj
    by_contra hne
    exact hno ⟨j, hrj, hj, hne⟩
  rw [h] at hall
  cases hall

theorem find_some {st : BitTable} {buf start stop num r : Nat} {v : Bool}
    (h : st.find buf start stop num v = some r) :
    FirstFit (fun j => st.bits buf j = v) start (stop + 1) num r := by
  obtain ⟨hall, hmem, hleast⟩ := List.find?_range'_eq_some.mp h
  rw [List.mem_range'_1] at hmem
  refine ⟨hmem.1, by omega, (allEqual_iff _ _ _ _ _).mp hall, fun q hq hqr => ?_⟩
  exact not_allEqual (by simpa using hleast q hq hqr)

theorem find_none {st : BitTable} {buf start stop num : Nat} {v : Bool}
    (h : st.find buf start stop num v = none) :
    NoFit (fun j => st.bits buf j = v) start (stop + 1) num := by
  intro q hq hqs
  rw [find, List.find?_eq_none] at h
  exact not_allEqual (by simpa using h q (by rw [List.mem_range'_1]; omega))

/-- The row of a buffer that shares no byte with the one written. -/
theorem update_apart (st : BitTable) {a c : Bitmap} (row : Nat → Bool) (ha : 0 < a.size)
    (h : a.Apart c) (j : Nat) (hj : j < c.size) : (st.update a.buf row).bits c.buf j = st.bits c.buf j := by
  have hne : c.buf ≠ a.buf := by
    intro heq
    exact h 0 0 (by omega) (by omega) (by rw [heq])
  simp [update, hne]

def initBuf (st : BitTable) (buf numIdx : Nat) : Except Fault (Bitmap × BitTable) := do
  assert (buf ≠ 0)
  return (⟨buf, numIdx⟩, if numIdx = 0 then st else st.update buf (fun _ => false))

def set (st : BitTable) (bmp : Bitmap) (i : Nat) (v : Bool) : Except Fault BitTable := do
  assert (i < bmp.size)
  return st.update bmp.buf (fun j => if j = i then v else st.bits bmp.buf j)

theorem initBuf_ok {st st' : BitTable} {buf numIdx : Nat} {bmp : Bitmap}
    (h : st.initBuf buf numIdx = .ok (bmp, st')) :
    bmp = ⟨buf, numIdx⟩ ∧ st' = if numIdx = 0 then st else st.update buf (fun _ => false) := by
  obtain ⟨-, hr⟩ := assert_bind_eq_ok.mp h
  obtain ⟨rfl, rfl⟩ := Prod.mk.inj (Except.ok.inj hr)
  exact ⟨rfl, rfl⟩

theorem set_ok {st st' : BitTable} {bmp : Bitmap} {i : Nat} {v : Bool}
    (h : st.set bmp i v = .ok st') :
    i < bmp.size ∧ st' = st.update bmp.buf (fun j => if j = i then v else st.bits bmp.buf j) := by
  obtain ⟨hi, hr⟩ := assert_bind_eq_ok.mp h
  exact ⟨hi, (Except.ok.inj hr).symm⟩

theorem testAndFlip_ok {st st' : BitTable} {bmp : Bitmap} {v : Bool} {start stop num : Nat}
    {r : Option Nat} (h : st.testAndFlip bmp v start stop num = .ok (r, st')) :
    stop < bmp.size ∧ st.find bmp.buf start stop num v = r ∧
      st' = r.elim st (fun i => st.flip bmp.buf i num) := by
  obtain ⟨u, hok, hr⟩ := bind_eq_ok.mp h
  refine ⟨(assertSearch_ok hok).2.1, ?_⟩
  cases hfind : st.find bmp.buf start stop num v with
  | none =>
    rw [hfind] at hr
    obtain ⟨rfl, rfl⟩ := Prod.mk.inj (Except.ok.inj hr)
    exact ⟨rfl, rfl⟩
  | some i =>
    rw [hfind] at hr
    obtain ⟨rfl, rfl⟩ := Prod.mk.inj (Except.ok.inj hr)
    exact ⟨rfl, rfl⟩

instance : LawfulBitmapStore BitTable where
  initBuf := initBuf
  set := set
  testAndFlip := testAndFlip
  zero st _ _ := st
  initBuf_fields h := (initBuf_ok h).1
  bit st bmp j := st.bits bmp.buf j
  initBuf_apart := by
    intro st st' buf numIdx bmp h c hc j hj
    rw [(initBuf_ok h).2]
    split
    · rfl
    · exact update_apart st (a := ⟨buf, numIdx⟩) _ (by dsimp only; omega) hc j hj
  set_bit := by
    intro st st' bmp i v _ h
    obtain ⟨hi, rfl⟩ := set_ok h
    refine ⟨hi, fun j _ => ?_⟩
    simp [update]
  set_apart := by
    intro st st' bmp i v _ h c hc j hj
    obtain ⟨hi, rfl⟩ := set_ok h
    exact update_apart st _ (by omega) hc j hj
  testAndFlip_none := by
    intro st st' bmp v start stop num _ h
    obtain ⟨-, hfind, rfl⟩ := testAndFlip_ok h
    exact ⟨rfl, find_none hfind⟩
  testAndFlip_some := by
    intro st st' bmp v start stop num r _ h
    obtain ⟨hstop, hfind, rfl⟩ := testAndFlip_ok h
    refine ⟨hstop, find_some hfind, fun j _ => ?_⟩
    simp [flip, update]
  testAndFlip_apart := by
    intro st st' bmp v start stop num r _ h c hc j hj
    obtain ⟨hstop, -, rfl⟩ := testAndFlip_ok h
    cases r with
    | none => rfl
    | some r => exact update_apart st _ (by omega) hc j hj

end BitTable

instance : TotalBitmapStore BitTable where
  clears _ _ := true
  initBuf_returns st buf numIdx hbuf := ⟨_, by
    change BitTable.initBuf st buf numIdx = _
    unfold BitTable.initBuf
    rw [assert_bind_eq_ok]
    exact ⟨hbuf, rfl⟩⟩
  initBuf_bit := by
    intro st st' buf numIdx bmp _ h j hj
    obtain ⟨rfl, rfl⟩ := BitTable.initBuf_ok h
    have hne : numIdx ≠ 0 := by omega
    change (if numIdx = 0 then st else st.update buf (fun _ => false)).bits buf j = _
    rw [if_neg hne]
    simp [BitTable.update]
  set_returns st bmp i v hi := ⟨_, by
    change BitTable.set st bmp i v = _
    unfold BitTable.set
    rw [assert_bind_eq_ok]
    exact ⟨hi, rfl⟩⟩

end WaddleOS
