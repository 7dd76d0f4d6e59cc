import Mathlib.Data.Nat.Size
import WaddleOS.Loader.BootInfo

/-!
# What the loader's tag loop writes

With fuel for the BIOS's entries every round of the loop ends, and `afterRound`
is what it leaves. The memory map tag's size stops at its last entry: the
cursor is not moved past the entry that ends the inner loop.
-/

namespace WaddleOS

/-- The entries written one behind the other from `a` on. -/
def storeEntries (m : Mem) (a : Nat) : List MultibootMmapEntry → Mem
  | [] => m
  | e :: es => storeEntries (storeEntry m a e) (a + 24) es

/-- The size that the memory map tag gets. -/
def mmapTagSize (bios : Bios) : Nat := (16 + 24 * (bios.entries.length - 1)) % 2 ^ 32

def afterMmap (bios : Bios) (m : Mem) (t : Nat) : Mem :=
  let m := storeEntries m (t + 16) bios.entries
  let m := store32 m (t + 8) 4 24
  let m := store32 m (t + 4) 4 (mmapTagSize bios)
  store32 m (t + 12) 4 0

def afterTag (bios : Bios) (m : Mem) (type t : Nat) : Mem :=
  let m :=
    if type = multibootTagTypeBasicMeminfo then basicMeminfoCase bios m t
    else if type = multibootTagTypeMmap then afterMmap bios m t
    else m
  store32 m t 4 type

def afterRound (bios : Bios) (s : TagLoop) : TagLoop :=
  let requested := s.requested % 2 = 1
  let m := addTotal (if requested then afterTag bios s.mem s.type s.curr else s.mem) s.curr
  ⟨m, s.requested / 2, (s.type + 1) % 2 ^ 8, advance m s.curr,
    if requested then (s.type, s.curr) :: s.tags else s.tags⟩

section Rounds
variable {bios : Bios} {m : Mem} {s : TagLoop} {t fuel : Nat}

theorem store32_mod (m : Mem) (a n v : Nat) : store32 m (a % 2 ^ 32) n v = store32 m a n v := by
  rw [store32, store32, Nat.mod_mod]

theorem storeEntry_congr {a b : Nat} (e : MultibootMmapEntry) (h : a % 2 ^ 32 = b % 2 ^ 32) :
    storeEntry m a e = storeEntry m b e := by
  simp only [storeEntry, store32, h, show (a + 8) % 2 ^ 32 = (b + 8) % 2 ^ 32 by omega,
    show (a + 16) % 2 ^ 32 = (b + 16) % 2 ^ 32 by omega,
    show (a + 20) % 2 ^ 32 = (b + 20) % 2 ^ 32 by omega]

/-- The inner loop writes every entry from the `call`-th on and leaves the
cursor at the last one. -/
theorem mmapLoop_eq {call a : Nat} (hcall : call < bios.entries.length)
    (hfuel : bios.entries.length ≤ call + fuel) :
    mmapLoop bios fuel m call (a % 2 ^ 32) =
      .ok ((a + 24 * (bios.entries.length - 1 - call)) % 2 ^ 32,
        storeEntries m a (bios.entries.drop call)) := by
  induction fuel generalizing m call a with
  | zero => omega
  | succ fuel ih =>
    rw [mmapLoop, getSingleMmap, List.drop_eq_getElem_cons hcall]
    simp only [Nat.mod_eq_of_lt hcall, List.get_eq_getElem, storeEntries]
    rw [storeEntry_congr _ (Nat.mod_mod a (2 ^ 32))]
    by_cases hlast : call + 1 = bios.entries.length
    · have hnil : bios.entries.drop (call + 1) = [] := List.drop_eq_nil_of_le (by omega)
      rw [if_pos hlast, if_neg (by simp), hnil, storeEntries,
        show a + 24 * (bios.entries.length - 1 - call) = a by omega]
    · rw [if_neg hlast, if_pos (by simp),
        show (a % 2 ^ 32 + 24) % 2 ^ 32 = (a + 24) % 2 ^ 32 by omega,
        ih (by omega) (by omega)]
      congr 3
      omega

theorem mmapCase_eq (ht : t < 2 ^ 32) (hfuel : bios.entries.length ≤ fuel) :
    mmapCase fuel bios m t = .ok (afterMmap bios m t) := by
  have hpos := List.length_pos_iff.mpr bios.reported
  rw [mmapCase, mmapLoop_eq hpos (by omega)]
  have hsize : ((t + 16 + 24 * (bios.entries.length - 1 - 0)) % 2 ^ 32 + 2 ^ 32 - t) % 2 ^ 32 =
      mmapTagSize bios := by
    unfold mmapTagSize
    omega
  change Except.ok (store32 (store32 _ _ _ _) _ _ _) = _
  rw [hsize]
  rfl

theorem writeTag_eq {type : Nat} (ht : t < 2 ^ 32) (hfuel : bios.entries.length ≤ fuel) :
    writeTag fuel bios m type t = .ok (afterTag bios m type t) := by
  unfold writeTag afterTag
  split
  · rfl
  · split
    · rw [mmapCase_eq ht hfuel]
      rfl
    · rfl

theorem tagRound_eq (hcurr : s.curr < 2 ^ 32) (hfuel : bios.entries.length ≤ fuel) :
    tagRound fuel bios s = .ok (afterRound bios s) := by
  unfold tagRound afterRound
  by_cases hreq : s.requested % 2 = 1
  · simp only [hreq, if_true, writeTag_eq hcurr hfuel]
    rfl
  · simp only [hreq, if_false]
    rfl

theorem advance_lt (m : Mem) (c : Nat) : advance m c < 2 ^ 32 := by
  unfold advance
  omega

theorem advance_aligned (m : Mem) (c : Nat) : advance m c % 8 = 0 := Nat.mul_mod_left _ 8

/-- The loop runs for as many rounds as the map of requests has bits. -/
theorem tagLoop_eq {rounds k : Nat} (hcurr : s.curr < 2 ^ 32) (hfuel : bios.entries.length ≤ fuel)
    (going : ∀ j, j < k → s.requested / 2 ^ j ≠ 0) (done : s.requested / 2 ^ k = 0)
    (hrounds : k < rounds) :
    tagLoop fuel bios rounds s = .ok ((afterRound bios)^[k] s) := by
  induction k generalizing s rounds with
  | zero =>
    obtain ⟨rounds, rfl⟩ := Nat.exists_eq_add_of_lt hrounds
    rw [Nat.pow_zero, Nat.div_one] at done
    rw [tagLoop, if_neg (not_not_intro done)]
    rfl
  | succ k ih =>
    cases rounds with
    | zero => omega
    | succ rounds =>
      have hne := going 0 (Nat.succ_pos k)
      rw [Nat.pow_zero, Nat.div_one] at hne
      rw [tagLoop, if_pos hne, tagRound_eq hcurr hfuel, Function.iterate_succ_apply]
      apply ih
      · exact advance_lt _ _
      · intro j hj
        have := going (j + 1) (by omega)
        rwa [Nat.pow_succ', ← Nat.div_div_eq_div_mul] at this
      · rwa [Nat.pow_succ', ← Nat.div_div_eq_div_mul] at done
      · omega

theorem load_store32_outside {a n v b k : Nat} (ha : a + n ≤ 2 ^ 32) (hn : 0 < n)
    (hb : b + k ≤ 2 ^ 64) (hout : b + k ≤ a ∨ a + n ≤ b) :
    load (store32 m a n v) b k = load m b k := by
  rw [store32, Nat.mod_eq_of_lt (by omega), load_store_apart m v (by omega) hb hout]

theorem load_store32_same {a n v : Nat} (ha : a + n ≤ 2 ^ 32) (hn : 0 < n) :
    load (store32 m a n v) a n = v % 256 ^ n := by
  rw [store32, Nat.mod_eq_of_lt (by omega), load_store_at m v (by omega)]

/-- The word at an offset of 4 from an aligned address is not the total. -/
theorem load_addTotal {c a : Nat} (ha : a % 8 = 4) (hlt : a < 2 ^ 32) :
    load (addTotal m c) a 4 = load m a 4 :=
  load_store_apart m _ (by decide) (by omega) (by unfold multibootReturnInfoAddr; omega)

/-- A tag's type does not reach into the word at an offset of 4. -/
theorem load_type {c v a : Nat} (hc : c % 8 = 0) (hlt : c < 2 ^ 32) (ha : a % 8 = 4)
    (hlt' : a < 2 ^ 32) : load (store32 m c 4 v) a 4 = load m a 4 :=
  load_store32_outside (by omega) (by omega) (by omega) (by omega)

/-- The size field of the memory map tag right after its round. -/
theorem tagSize_afterMmap (ht : t % 8 = 0) (hlt : t < 2 ^ 32) :
    tagSize (afterTag bios m multibootTagTypeMmap t) t = mmapTagSize bios := by
  have hne : ¬ multibootTagTypeMmap = multibootTagTypeBasicMeminfo := by decide
  rw [tagSize, afterTag, if_neg hne, if_pos rfl, load_type ht hlt (by omega) (by omega), afterMmap,
    ← store32_mod _ (t + 12)]
  by_cases hlast : t + 12 < 2 ^ 32
  · rw [store32_mod, load_store32_outside (by omega) (by omega) (by omega) (by omega),
      load_store32_same (by omega) (by omega)]
    exact Nat.mod_eq_of_lt (Nat.mod_lt _ (by decide))
  · -- the last eight bytes of the space: the version wraps to address 4
    rw [load_store32_outside (by omega) (by omega) (by omega) (by omega),
      load_store32_same (by omega) (by omega)]
    exact Nat.mod_eq_of_lt (Nat.mod_lt _ (by decide))

end Rounds

/-- The loop's state after `k` rounds over the map `asked`. -/
structure TagsWritten (bios : Bios) (asked k : Nat) (s : TagLoop) : Prop where
  requested : s.requested = asked / 2 ^ k
  type : s.type = k
  aligned : s.curr % 8 = 0
  below : s.curr < 2 ^ 32
  earlier : ∀ i t, (i, t) ∈ s.tags → i < k ∧ t % 8 = 0 ∧ t < 2 ^ 32
  written : ∀ i, i < k → asked.testBit i = true → ∃ t, (i, t) ∈ s.tags
  short : ∀ t, (multibootTagTypeMmap, t) ∈ s.tags → tagSize s.mem t = mmapTagSize bios

section Run
variable {bios : Bios} {m : Mem} {asked k fuel : Nat} {s : TagLoop}

theorem tagsWritten_start (bios : Bios) (m : Mem) (asked : Nat) :
    TagsWritten bios asked 0 (bootInfoStart m asked) := by
  refine ⟨by simp [bootInfoStart], rfl, ?_, ?_, ?_, ?_, ?_⟩
  · simp [bootInfoStart, multibootReturnInfoAddr]
  · simp [bootInfoStart, multibootReturnInfoAddr]
  · intro i t h
    cases h
  · intro i h
    omega
  · intro t h
    cases h

/-- No later round touches the size of a tag that stands at another place or
is of another type. -/
theorem tagSize_afterTag {type c t : Nat} (hc : c % 8 = 0) (hlt : c < 2 ^ 32) (ht : t % 8 = 0)
    (hlt' : t < 2 ^ 32) (hmem : type ≠ multibootTagTypeBasicMeminfo)
    (hmap : type ≠ multibootTagTypeMmap) :
    tagSize (afterTag bios m type c) t = tagSize m t := by
  rw [tagSize, afterTag, if_neg hmem, if_neg hmap, load_type hc hlt (by omega) (by omega), tagSize]

theorem tagSize_addTotal {c t : Nat} (ht : t % 8 = 0) (hlt : t < 2 ^ 32) :
    tagSize (addTotal m c) t = tagSize m t :=
  load_addTotal (by omega) (by omega)

theorem TagsWritten.round (w : TagsWritten bios asked k s) (hk : k < 255) :
    TagsWritten bios asked (k + 1) (afterRound bios s) := by
  have hbit : asked.testBit k = true ↔ s.requested % 2 = 1 := by
    rw [w.requested, Nat.testBit_eq_decide_div_mod_eq, decide_eq_true_iff]
  refine ⟨?_, ?_, advance_aligned _ _, advance_lt _ _, ?_, ?_, ?_⟩
  · change s.requested / 2 = _
    rw [w.requested, Nat.pow_succ, Nat.div_div_eq_div_mul]
  · change (s.type + 1) % 2 ^ 8 = _
    rw [w.type, Nat.mod_eq_of_lt (by omega)]
  · intro i t h
    simp only [afterRound] at h
    split at h
    · rcases List.mem_cons.mp h with he | h
      · obtain ⟨rfl, rfl⟩ := Prod.mk.inj he
        exact ⟨by rw [w.type]; omega, w.aligned, w.below⟩
      · obtain ⟨h1, h2⟩ := w.earlier i t h
        exact ⟨by omega, h2⟩
    · obtain ⟨h1, h2⟩ := w.earlier i t h
      exact ⟨by omega, h2⟩
  · intro i hi ht
    simp only [afterRound]
    by_cases hik : i = k
    · subst hik
      rw [if_pos (hbit.mp ht), w.type]
      exact ⟨_, List.mem_cons_self⟩
    · obtain ⟨t, h⟩ := w.written i (by omega) ht
      refine ⟨t, ?_⟩
      split
      · exact List.mem_cons_of_mem _ h
      · exact h
  · intro t h
    simp only [afterRound] at h ⊢
    by_cases hreq : s.requested % 2 = 1
    · rw [if_pos hreq] at h ⊢
      rcases List.mem_cons.mp h with he | h
      · obtain ⟨htype, rfl⟩ := Prod.mk.inj he
        rw [tagSize_addTotal w.aligned w.below, ← htype]
        exact tagSize_afterMmap w.aligned w.below
      · -- the memory map tag is there already, so the types are past it
        obtain ⟨hlt, ht⟩ := w.earlier _ t h
        rw [tagSize_addTotal ht.1 ht.2, tagSize_afterTag w.aligned w.below ht.1 ht.2 _ _]
        · exact w.short t h
        · rw [w.type]
          exact fun he => by simp [he, multibootTagTypeMmap, multibootTagTypeBasicMeminfo] at hlt
        · rw [w.type]
          exact fun he => by simp [he, multibootTagTypeMmap] at hlt
    · rw [if_neg hreq] at h ⊢
      obtain ⟨-, ht⟩ := w.earlier _ t h
      rw [tagSize_addTotal ht.1 ht.2]
      exact w.short t h

theorem TagsWritten.rounds (bios : Bios) (m : Mem) (asked : Nat) (hk : k ≤ 255) :
    TagsWritten bios asked k ((afterRound bios)^[k] (bootInfoStart m asked)) := by
  induction k with
  | zero => exact tagsWritten_start bios m asked
  | succ k ih =>
    rw [Function.iterate_succ_apply']
    exact (ih (by omega)).round (by omega)

/-- The whole loop, for every map of requests. -/
theorem buildBootInfo_eq (m : Mem) (hasked : asked < 2 ^ 32)
    (hfuel : bios.entries.length ≤ fuel) :
    buildBootInfo fuel bios m asked = .ok ((afterRound bios)^[asked.size] (bootInfoStart m asked)) := by
  apply tagLoop_eq _ hfuel _ _ (Nat.lt_succ_of_le (Nat.size_le.mpr hasked))
  · exact (tagsWritten_start bios m asked).below
  · intro j hj
    have := Nat.lt_size.mp hj
    exact Nat.ne_of_gt (Nat.div_pos this (Nat.two_pow_pos j))
  · exact Nat.div_eq_of_lt (Nat.lt_size_self asked)

/-- Whatever the memory held and whatever else was requested, `main` writes
one memory map tag and its size is never that of all the entries. -/
theorem mmap_tag_never_whole (m : Mem) (hasked : asked < 2 ^ 32)
    (hbit : asked.testBit multibootTagTypeMmap = true) (hfuel : bios.entries.length ≤ fuel) :
    ∃ s, buildBootInfo fuel bios m asked = .ok s ∧ (∃ t, (multibootTagTypeMmap, t) ∈ s.tags) ∧
      ∀ t, (multibootTagTypeMmap, t) ∈ s.tags → ¬ MmapTag s.mem t bios.entries := by
  have w := TagsWritten.rounds bios m asked ((Nat.size_le.mpr hasked).trans (by decide : 32 ≤ 255))
  have hbelow : multibootTagTypeMmap < asked.size :=
    Nat.lt_size.mpr (Nat.ge_two_pow_of_testBit hbit)
  refine ⟨_, buildBootInfo_eq m hasked hfuel, w.written _ hbelow hbit, fun t ht tag => ?_⟩
  have hshort := w.short t ht
  have hpos := List.length_pos_iff.mpr bios.reported
  have hle : mmapTagSize bios ≤ 16 + 24 * (bios.entries.length - 1) := Nat.mod_le _ _
  rw [tag.size] at hshort
  omega

end Run

/-- A machine with 16 MiB at address 0 that reports one entry. -/
def oneEntryBios : Bios := ⟨0x3C00, 0x00F0, [⟨0, 0x1000000, 1, 0⟩], by decide⟩

theorem one_entry_tag_not_whole :
    ∃ s, buildBootInfo 1 oneEntryBios ⟨fun _ => 0⟩ 0x50 = .ok s ∧
      (∃ t, (multibootTagTypeMmap, t) ∈ s.tags) ∧
        ∀ t, (multibootTagTypeMmap, t) ∈ s.tags → ¬ MmapTag s.mem t oneEntryBios.entries :=
  mmap_tag_never_whole _ (by decide) (by decide) (by decide)

/-- The size of a map of one entry is 16, with no room for that entry. -/
theorem one_entry_not_counted :
    ¬ ∀ (bios : Bios) (m : Mem) (asked fuel : Nat), asked < 2 ^ 32 →
      asked.testBit multibootTagTypeMmap = true → bios.entries.length ≤ fuel →
      ∃ s, buildBootInfo fuel bios m asked = .ok s ∧
        ∃ t, (multibootTagTypeMmap, t) ∈ s.tags ∧ MmapTag s.mem t bios.entries := by
  intro leavesMap
  obtain ⟨s, hrun, t, ht, tag⟩ :=
    leavesMap oneEntryBios ⟨fun _ => 0⟩ 0x40 1 (by decide) (by decide) (by decide)
  have hleft : (match buildBootInfo 1 oneEntryBios ⟨fun _ => 0⟩ 0x40 with
      | .ok s => decide (s.tags = [(6, 0xC008)] ∧ tagSize s.mem 0xC008 = 16)
      | .error _ => false) = true := by decide +kernel
  rw [hrun] at hleft
  obtain ⟨htags, hsize⟩ := of_decide_eq_true hleft
  rw [htags, List.mem_singleton] at ht
  obtain ⟨-, rfl⟩ := Prod.mk.inj ht
  have := tag.size
  rw [hsize] at this
  exact absurd this (by decide)

end WaddleOS
