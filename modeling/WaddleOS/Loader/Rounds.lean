import WaddleOS.Loader.BootRun

/-!
# What each round of the tag loop leaves in memory

A round without a request moves the cursor by whatever size the memory holds
there. A round with one writes its tag at the cursor. Sums are taken without
wrapping here, for memory whose sizes keep the cursor below 4 GiB.
-/

namespace WaddleOS

/-- Where the cursor goes from `c`, if that is below 4 GiB. -/
def skipTag (m : Mem) (c : Nat) : Nat := (c + tagSize m c + 7) / 8 * 8

/-- Past the header of the boot information. -/
def firstTag : Nat := multibootReturnInfoAddr + 8

def Bios.last (bios : Bios) : MultibootMmapEntry := bios.entries.getLast bios.reported

section Frames
variable {bios : Bios} {m m' : Mem} {lo hi a n : Nat}

theorem SameOutside.load {b k : Nat} (h : SameOutside lo hi m m') (hb : b + k ≤ 2 ^ 64)
    (hout : b + k ≤ lo ∨ hi ≤ b) : load m' b k = load m b k :=
  load_congr fun i hi => h (b + i) (by omega) (by omega)

theorem SameOutside.store32 (h : SameOutside lo hi m m') (v : Nat) (hlo : lo ≤ a)
    (hhi : a + n ≤ hi) (hb : hi ≤ 2 ^ 32) (hn : 0 < n) : SameOutside lo hi m (store32 m' a n v) := by
  rw [WaddleOS.store32, Nat.mod_eq_of_lt (by omega)]
  exact h.store v hlo hhi (by omega)

theorem SameOutside.storeEntry (h : SameOutside lo hi m m') (e : MultibootMmapEntry) (hlo : lo ≤ a)
    (hhi : a + 24 ≤ hi) (hb : hi ≤ 2 ^ 32) : SameOutside lo hi m (storeEntry m' a e) := by
  unfold WaddleOS.storeEntry
  refine SameOutside.store32 (SameOutside.store32 (SameOutside.store32 (h.store32 _ hlo
    (by omega) hb (by omega)) _ ?_ ?_ hb (by omega)) _ ?_ ?_ hb (by omega)) _ ?_ ?_ hb (by omega)
  all_goals omega

theorem SameOutside.storeEntries (h : SameOutside lo hi m m') (es : List MultibootMmapEntry)
    (hlo : lo ≤ a) (hhi : a + 24 * es.length ≤ hi) (hb : hi ≤ 2 ^ 32) :
    SameOutside lo hi m (storeEntries m' a es) := by
  induction es generalizing m' a with
  | nil => exact h
  | cons e es ih =>
    rw [List.length_cons] at hhi
    exact ih (h.storeEntry e hlo (by omega) hb) (by omega) (by omega)

theorem SameOutside.addTotal (h : SameOutside lo hi m m') (c : Nat)
    (hlo : lo ≤ multibootReturnInfoAddr) (hhi : multibootReturnInfoAddr + 4 ≤ hi)
    (hb : hi ≤ 2 ^ 64) : SameOutside lo hi m (addTotal m' c) :=
  h.store _ hlo hhi hb

/-- The tag for the memory sizes changes its own 16 bytes. -/
theorem SameOutside.afterMeminfo {t : Nat} (h : SameOutside lo hi m m') (hlo : lo ≤ t)
    (hhi : t + 16 ≤ hi) (hb : hi ≤ 2 ^ 32) :
    SameOutside lo hi m (afterTag bios m' multibootTagTypeBasicMeminfo t) := by
  rw [afterTag, if_pos rfl]
  exact (((h.store32 _ (by omega) (by omega) hb (by omega)).store32 _ (by omega) (by omega) hb
    (by omega)).store32 _ (by omega) (by omega) hb (by omega)).store32 _ hlo (by omega) hb (by omega)

/-- The memory map tag changes its header and the places of all its entries. -/
theorem SameOutside.afterMmap {t : Nat} (h : SameOutside lo hi m m') (hlo : lo ≤ t)
    (hhi : t + 16 + 24 * bios.entries.length ≤ hi) (hb : hi ≤ 2 ^ 32) :
    SameOutside lo hi m (afterTag bios m' multibootTagTypeMmap t) := by
  have hne : ¬ multibootTagTypeMmap = multibootTagTypeBasicMeminfo := by decide
  rw [afterTag, if_neg hne, if_pos rfl]
  exact ((((h.storeEntries bios.entries (by omega) hhi hb).store32 _ (by omega) (by omega) hb
    (by omega)).store32 _ (by omega) (by omega) hb (by omega)).store32 _ (by omega) (by omega) hb
    (by omega)).store32 _ hlo (by omega) hb (by omega)

/-- The same bytes written to two memories that differ elsewhere only. -/
theorem SameOutside.store_both {v : Nat} (h : SameOutside lo hi m m') (hb : a + n ≤ 2 ^ 64) :
    SameOutside lo hi (WaddleOS.store m a n v) (WaddleOS.store m' a n v) := by
  intro x hx hout
  rw [get_store_at m v hb hx, get_store_at m' v hb hx, h x hx hout]

theorem SameOutside.storeEntry_both (h : SameOutside lo hi m m') (e : MultibootMmapEntry) :
    SameOutside lo hi (WaddleOS.storeEntry m a e) (WaddleOS.storeEntry m' a e) := by
  unfold WaddleOS.storeEntry WaddleOS.store32
  exact (((h.store_both (by omega)).store_both (by omega)).store_both (by omega)).store_both
    (by omega)

theorem storeEntries_append (m : Mem) (a : Nat) (es es' : List MultibootMmapEntry) :
    storeEntries m a (es ++ es') = storeEntries (storeEntries m a es) (a + 24 * es.length) es' := by
  induction es generalizing m a with
  | nil => rfl
  | cons e es ih =>
    rw [List.cons_append, storeEntries, ih, storeEntries, List.length_cons]
    congr 1
    omega

theorem storeEntries_last (m : Mem) (a : Nat) (bios : Bios) :
    storeEntries m a bios.entries =
      storeEntry (storeEntries m a bios.entries.dropLast) (a + 24 * (bios.entries.length - 1))
        bios.last := by
  conv_lhs => rw [← List.dropLast_concat_getLast bios.reported, storeEntries_append]
  rw [List.length_dropLast]
  rfl

end Frames

section Rounds
variable {bios : Bios} {m : Mem} {s : TagLoop} {asked k lo c : Nat}

theorem skipTag_ge (m : Mem) (c : Nat) (hc : c % 8 = 0) : c ≤ skipTag m c := by
  unfold skipTag
  omega

theorem skipTag_aligned (m : Mem) (c : Nat) : skipTag m c % 8 = 0 := Nat.mul_mod_left _ 8

/-- Only a size of 0 keeps the cursor where it is. -/
theorem skipTag_eq_self (hc : c % 8 = 0) : skipTag m c = c ↔ tagSize m c = 0 := by
  unfold skipTag
  omega

theorem iterate_skipTag_ge (hc : c % 8 = 0) :
    c ≤ (skipTag m)^[k] c ∧ (skipTag m)^[k] c % 8 = 0 := by
  induction k with
  | zero => exact ⟨Nat.le_refl c, hc⟩
  | succ k ih =>
    rw [Function.iterate_succ_apply']
    exact ⟨ih.1.trans (skipTag_ge m _ ih.2), skipTag_aligned m _⟩

/-- The cursor is back after some rounds only if it has not moved. -/
theorem iterate_skipTag_eq_self (hc : c % 8 = 0) (hk : 0 < k) :
    (skipTag m)^[k] c = c ↔ tagSize m c = 0 := by
  rw [← skipTag_eq_self hc]
  constructor
  · intro h
    obtain ⟨k, rfl⟩ := Nat.exists_eq_add_of_lt hk
    rw [Nat.zero_add, Function.iterate_succ_apply] at h
    have := (iterate_skipTag_ge (m := m) (k := k) (skipTag_aligned m c)).1
    have := skipTag_ge m c hc
    omega
  · exact fun h => Function.iterate_fixed h k

theorem currSize_eq (hc : c % 8 = 0) (hlt : c < 2 ^ 32) : currSize m c = tagSize m c := by
  rw [currSize, Nat.mod_eq_of_lt (by omega), tagSize]

theorem advance_eq (hc : c % 8 = 0) (hwrap : skipTag m c < 2 ^ 32) : advance m c = skipTag m c := by
  have hlt := Nat.lt_of_le_of_lt (skipTag_ge m c hc) hwrap
  unfold skipTag at hwrap ⊢
  rw [advance, currSize_eq hc hlt, Nat.mod_eq_of_lt (by omega)]

/-- A round without a request. -/
theorem skip_round (bios : Bios) (hreq : s.requested % 2 = 0) (hlo : firstTag ≤ lo) (hb : lo ≤ 2 ^ 64)
    (same : SameOutside 0 lo m s.mem) (hcurr : lo ≤ s.curr) (hc : s.curr % 8 = 0)
    (hwrap : skipTag m s.curr < 2 ^ 32) :
    (afterRound bios s).curr = skipTag m s.curr ∧ SameOutside 0 lo m (afterRound bios s).mem ∧
      (afterRound bios s).tags = s.tags := by
  have hinfo : firstTag = multibootReturnInfoAddr + 8 := rfl
  have hlt := Nat.lt_of_le_of_lt (skipTag_ge m s.curr hc) hwrap
  have hne : ¬ s.requested % 2 = 1 := by omega
  simp only [afterRound, if_neg hne]
  have same' : SameOutside 0 lo m (addTotal s.mem s.curr) :=
    same.addTotal s.curr (by omega) (by omega) hb
  refine ⟨?_, same', trivial⟩
  have hsize : tagSize (addTotal s.mem s.curr) s.curr = tagSize m s.curr :=
    same'.load (by omega) (by omega)
  have hskip : skipTag (addTotal s.mem s.curr) s.curr = skipTag m s.curr := by
    rw [skipTag, skipTag, hsize]
  rw [advance_eq hc (by rw [hskip]; exact hwrap), hskip]

/-- It leaves the memory behind the header alone. -/
theorem skip_round_load (hreq : s.requested % 2 = 0) {b k : Nat} (hb : firstTag ≤ b)
    (hk : b + k ≤ 2 ^ 64) : load (afterRound bios s).mem b k = load s.mem b k := by
  have hne : ¬ s.requested % 2 = 1 := by omega
  have hinfo : firstTag = multibootReturnInfoAddr + 8 := rfl
  simp only [afterRound, if_neg hne]
  exact ((SameOutside.refl multibootReturnInfoAddr (multibootReturnInfoAddr + 4) s.mem).addTotal
    s.curr (Nat.le_refl _) (Nat.le_refl _) (by decide)).load hk (by omega)

/-- The rounds before the first request. -/
theorem skip_rounds (bios : Bios) (m : Mem) (asked k : Nat)
    (none : ∀ i, i < k → asked.testBit i = false) (hk : k ≤ 255)
    (hwrap : (skipTag m)^[k] firstTag < 2 ^ 32) :
    ((afterRound bios)^[k] (bootInfoStart m asked)).curr = (skipTag m)^[k] firstTag ∧
      SameOutside 0 firstTag m ((afterRound bios)^[k] (bootInfoStart m asked)).mem ∧
      ((afterRound bios)^[k] (bootInfoStart m asked)).tags = [] ∧
      firstTag ≤ (skipTag m)^[k] firstTag := by
  induction k with
  | zero =>
    refine ⟨rfl, ?_, rfl, Nat.le_refl _⟩
    exact ((SameOutside.refl 0 firstTag m).store 2 (by decide) (by decide) (by decide)).store 0
      (by decide) (by decide) (by decide)
  | succ k ih =>
    have w := TagsWritten.rounds bios m asked (k := k) (by omega)
    rw [Function.iterate_succ_apply'] at hwrap ⊢
    have hstay := (iterate_skipTag_ge (m := m) (k := k) (show firstTag % 8 = 0 by decide)).2
    have hge := skipTag_ge m _ hstay
    obtain ⟨hcurr, same, htags, hfirst⟩ := ih (fun i hi => none i (by omega)) (by omega)
      (Nat.lt_of_le_of_lt hge hwrap)
    have hreq : ((afterRound bios)^[k] (bootInfoStart m asked)).requested % 2 = 0 := by
      have := none k (Nat.lt_succ_self k)
      rw [Nat.testBit_eq_decide_div_mod_eq, ← w.requested] at this
      have := of_decide_eq_false this
      omega
    obtain ⟨h1, h2, h3⟩ := skip_round bios hreq (Nat.le_refl _) (by decide) same
      (by rw [hcurr]; exact hfirst) (by rw [hcurr]; exact hstay) (by rw [hcurr]; exact hwrap)
    rw [Function.iterate_succ_apply', h1, hcurr]
    exact ⟨rfl, h2, h3.trans htags, Nat.le_trans hfirst hge⟩

theorem tagType_store32 {t v : Nat} (ht : t % 8 = 0) (hlt : t < 2 ^ 32) (hv : v < 2 ^ 32) :
    tagType (store32 m t 4 v) t = v := by
  rw [tagType, load_store32_same (by omega) (by omega)]
  exact Nat.mod_eq_of_lt hv

/-- The round that writes the memory sizes. -/
structure MeminfoWritten (s s' : TagLoop) : Prop where
  tags : s'.tags = (multibootTagTypeBasicMeminfo, s.curr) :: s.tags
  type : tagType s'.mem s.curr = multibootTagTypeBasicMeminfo
  size : tagSize s'.mem s.curr = 16
  same : SameOutside 0 (s.curr + 16) s.mem s'.mem
  next : s.curr + 16 < 2 ^ 32 → s'.curr = s.curr + 16

theorem meminfo_round (bios : Bios) (hreq : s.requested % 2 = 1)
    (htype : s.type = multibootTagTypeBasicMeminfo) (hc : s.curr % 8 = 0)
    (hfirst : firstTag ≤ s.curr) (hfits : s.curr + 16 ≤ 2 ^ 32) :
    MeminfoWritten s (afterRound bios s) := by
  have hinfo : firstTag = multibootReturnInfoAddr + 8 := rfl
  have hsize : tagSize (addTotal (afterTag bios s.mem multibootTagTypeBasicMeminfo s.curr) s.curr)
      s.curr = 16 := by
    rw [tagSize_addTotal hc (by omega), afterTag, if_pos rfl, tagSize,
      load_type hc (by omega) (by omega) (by omega), basicMeminfoCase,
      load_store32_same (by omega) (by omega)]
    rfl
  have htot : SameOutside multibootReturnInfoAddr (multibootReturnInfoAddr + 4)
      (afterTag bios s.mem multibootTagTypeBasicMeminfo s.curr)
      (addTotal (afterTag bios s.mem multibootTagTypeBasicMeminfo s.curr) s.curr) :=
    (SameOutside.refl _ _ _).addTotal s.curr (Nat.le_refl _) (Nat.le_refl _) (by decide)
  refine ⟨?_, ?_, ?_, ?_, ?_⟩
  · simp only [afterRound, if_pos hreq, htype]
  · simp only [afterRound, if_pos hreq, htype]
    rw [tagType, htot.load (by omega) (by omega), ← tagType]
    exact tagType_store32 hc (by omega) (by decide)
  · simp only [afterRound, if_pos hreq, htype]
    exact hsize
  · simp only [afterRound, if_pos hreq, htype]
    exact ((SameOutside.refl 0 _ s.mem).afterMeminfo (Nat.zero_le _) (Nat.le_refl _) hfits).addTotal
      s.curr (by omega) (by omega) (by omega)
  · intro hlt
    simp only [afterRound, if_pos hreq, htype]
    have hskip : skipTag (addTotal (afterTag bios s.mem multibootTagTypeBasicMeminfo s.curr) s.curr)
        s.curr = s.curr + 16 := by
      rw [skipTag, hsize]
      omega
    rw [advance_eq hc (by rw [hskip]; exact hlt), hskip]

/-- The round that writes the memory map: the tag's own size leads to its last entry. -/
structure MmapWritten (bios : Bios) (s s' : TagLoop) : Prop where
  tags : s'.tags = (multibootTagTypeMmap, s.curr) :: s.tags
  type : tagType s'.mem s.curr = multibootTagTypeMmap
  size : tagSize s'.mem s.curr = 16 + 24 * (bios.entries.length - 1)
  below : ∀ b k, firstTag ≤ b → b + k ≤ s.curr → load s'.mem b k = load s.mem b k
  after : ∀ m, SameOutside 0 s.curr m s.mem →
    SameOutside 0 (s.curr + 16 + 24 * (bios.entries.length - 1))
      (storeEntry m (s.curr + 16 + 24 * (bios.entries.length - 1)) bios.last) s'.mem

theorem mmap_round (bios : Bios) (hreq : s.requested % 2 = 1) (htype : s.type = multibootTagTypeMmap)
    (hc : s.curr % 8 = 0) (hfirst : firstTag ≤ s.curr)
    (hfits : s.curr + 16 + 24 * bios.entries.length ≤ 2 ^ 32) :
    MmapWritten bios s (afterRound bios s) := by
  have hinfo : firstTag = multibootReturnInfoAddr + 8 := rfl
  have hpos := List.length_pos_iff.mpr bios.reported
  have hne : ¬ multibootTagTypeMmap = multibootTagTypeBasicMeminfo := by decide
  have htot : SameOutside multibootReturnInfoAddr (multibootReturnInfoAddr + 4)
      (afterTag bios s.mem multibootTagTypeMmap s.curr)
      (addTotal (afterTag bios s.mem multibootTagTypeMmap s.curr) s.curr) :=
    (SameOutside.refl _ _ _).addTotal s.curr (Nat.le_refl _) (Nat.le_refl _) (by decide)
  refine ⟨?_, ?_, ?_, ?_, ?_⟩
  · simp only [afterRound, if_pos hreq, htype]
  · simp only [afterRound, if_pos hreq, htype]
    rw [tagType, htot.load (by omega) (by omega), ← tagType]
    exact tagType_store32 hc (by omega) (by decide)
  · simp only [afterRound, if_pos hreq, htype]
    rw [tagSize_addTotal hc (by omega), tagSize_afterMmap hc (by omega), mmapTagSize,
      Nat.mod_eq_of_lt (by omega)]
  · intro b k hb hk
    simp only [afterRound, if_pos hreq, htype]
    rw [htot.load (by omega) (by omega)]
    exact ((SameOutside.refl s.curr _ s.mem).afterMmap (Nat.le_refl _) (Nat.le_refl _) hfits).load
      (by omega) (by omega)
  · intro m same
    simp only [afterRound, if_pos hreq, htype]
    rw [afterTag, if_neg hne, if_pos rfl, afterMmap, storeEntries_last]
    -- the other entries and the header stand below the last entry
    have hent := (same.mono (Nat.le_refl 0) (by omega :
      s.curr ≤ s.curr + 16 + 24 * (bios.entries.length - 1))).storeEntries (a := s.curr + 16)
        bios.entries.dropLast (Nat.zero_le _) (by rw [List.length_dropLast]) (by omega)
    have hlast := hent.storeEntry_both (a := s.curr + 16 + 24 * (bios.entries.length - 1)) bios.last
    exact ((((hlast.store32 _ (by omega) (by omega) (by omega) (by omega)).store32 _ (by omega)
      (by omega) (by omega) (by omega)).store32 _ (by omega) (by omega) (by omega)
      (by omega)).store32 _ (by omega) (by omega) (by omega) (by omega)).addTotal s.curr (by omega)
      (by omega) (by omega)

end Rounds

end WaddleOS
