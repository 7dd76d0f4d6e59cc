import WaddleOS.Loader.Main
import WaddleOS.Paging.MemoryMap

/-!
# The memory map on its way from the BIOS to the kernel

`get_single_mmap` writes all its entries, the tag's size counts all but the
last, and `memory_map_init` counts all but the last of these. In between the
boot information lies below the page tables, and both ends of the tables'
mapping show it where the loader has put it.

* `mmap_round_tag`: the tag is well formed for the entries without the last;
* `handover_loses_two`: what the kernel decodes is the BIOS's list without its
  last two entries.
-/

namespace WaddleOS

section Entries

variable {bios : Bios} {m m' : Mem} {s : TagLoop} {a t : Nat} {es : List MultibootMmapEntry}

theorem EntryAt.congr {e : MultibootMmapEntry} (h : EntryAt m a e)
    (same : ∀ x, a ≤ x → x < a + 24 → m'.get x = m.get x) : EntryAt m' a e := by
  have field : ∀ o n, o + n ≤ 24 → load m' (a + o) n = load m (a + o) n :=
    fun o n hon => load_congr fun i hi => same _ (by omega) (by omega)
  exact ⟨(field 0 8 (by decide)).trans h.addr, (field 8 8 (by decide)).trans h.len,
    (field 16 4 (by decide)).trans h.type, (field 20 4 (by decide)).trans h.zero⟩

theorem MmapTag.congr (h : MmapTag m t es)
    (same : ∀ x, t ≤ x → x < t + 16 + 24 * es.length → m'.get x = m.get x) : MmapTag m' t es := by
  have field : ∀ o n, o + n ≤ 16 → load m' (t + o) n = load m (t + o) n :=
    fun o n hon => load_congr fun i hi => same _ (by omega) (by omega)
  refine ⟨(field 0 4 (by decide)).trans h.type, (field 4 4 (by decide)).trans h.size,
    (field 8 4 (by decide)).trans h.entrySize, fun i e he => ?_⟩
  have hi := (List.getElem?_eq_some_iff.mp he).1
  exact (h.entries i e he).congr fun x hx hx' => same x (by omega) (by omega)

theorem entryAt_storeEntry (m : Mem) (e : MultibootMmapEntry) (high : a + 24 ≤ 2 ^ 32) :
    EntryAt (storeEntry m a e) a e := by
  have addr := e.addr.toNat_lt
  have len := e.len.toNat_lt
  have type := e.type.toNat_lt
  have zero := e.zero.toNat_lt
  have past : ∀ {m : Mem} {o n v b k : Nat}, o + n ≤ 24 → 0 < n → b + k ≤ 24 →
      b + k ≤ o ∨ o + n ≤ b → load (store32 m (a + o) n v) (a + b) k = load m (a + b) k := by
    intro m o n v b k hon hn hbk out
    exact load_store32_outside (by omega) hn (by omega) (by omega)
  have same : ∀ {m : Mem} {o n v : Nat}, o + n ≤ 24 → 0 < n → v < 256 ^ n →
      load (store32 m (a + o) n v) (a + o) n = v := by
    intro m o n v hon hn hv
    rw [load_store32_same (by omega) hn, Nat.mod_eq_of_lt hv]
  unfold storeEntry
  refine ⟨?_, ?_, ?_, ?_⟩
  · change load _ (a + 0) 8 = _
    rw [past (by decide) (by decide) (by decide) (by decide),
      past (by decide) (by decide) (by decide) (by decide),
      past (by decide) (by decide) (by decide) (by decide)]
    exact same (o := 0) (by decide) (by decide) addr
  · rw [past (by decide) (by decide) (by decide) (by decide),
      past (by decide) (by decide) (by decide) (by decide),
      same (by decide) (by decide) len]
  · rw [past (by decide) (by decide) (by decide) (by decide), same (by decide) (by decide) type]
  · exact same (by decide) (by decide) zero

/-- Every entry stands at its place. -/
theorem entryAt_storeEntries (m : Mem) (high : a + 24 * es.length ≤ 2 ^ 32) {i : Nat}
    {e : MultibootMmapEntry} (he : es[i]? = some e) :
    EntryAt (storeEntries m a es) (a + 24 * i) e := by
  induction es generalizing m a i with
  | nil => cases he
  | cons e' es ih =>
    rw [List.length_cons] at high
    cases i with
    | zero =>
      obtain rfl := Option.some.inj he
      have first := entryAt_storeEntry m e' (a := a) (by omega)
      have rest := (SameOutside.refl (a + 24) (2 ^ 32) (storeEntry m a e')).storeEntries es
        (Nat.le_refl _) (by omega) (Nat.le_refl _)
      exact first.congr fun x hx hx' => rest x (by omega) (.inl (by omega))
    | succ i =>
      have rest := ih (storeEntry m a e') (a := a + 24) (by omega) he
      rwa [Nat.mul_succ, Nat.add_comm (24 * i), ← Nat.add_assoc]

/-- After its round the tag is one for the entries without the last. -/
theorem mmap_round_tag (bios : Bios) (hreq : s.requested % 2 = 1)
    (htype : s.type = multibootTagTypeMmap) (hc : s.curr % 8 = 0) (hfirst : firstTag ≤ s.curr)
    (hfits : s.curr + 16 + 24 * bios.entries.length ≤ 2 ^ 32) :
    MmapTag (afterRound bios s).mem s.curr bios.entries.dropLast := by
  have written := mmap_round bios hreq htype hc hfirst hfits
  have hinfo : firstTag = multibootReturnInfoAddr + 8 := rfl
  have hne : ¬ multibootTagTypeMmap = multibootTagTypeBasicMeminfo := by decide
  -- behind the entries only the tag's header and the total are written
  have header : SameOutside multibootReturnInfoAddr (s.curr + 16)
      (storeEntries s.mem (s.curr + 16) bios.entries) (afterRound bios s).mem := by
    simp only [afterRound, if_pos hreq, htype]
    rw [afterTag, if_neg hne, if_pos rfl, afterMmap]
    refine SameOutside.addTotal ?_ s.curr (Nat.le_refl _) (by omega) (by omega)
    exact ((((SameOutside.refl _ _ _).store32 _ (by omega) (by omega) (by omega)
      (by decide)).store32 _ (by omega) (by omega) (by omega) (by decide)).store32 _ (by omega)
      (by omega) (by omega) (by decide)).store32 _ (by omega) (by omega) (by omega) (by decide)
  have entrySize : load (afterRound bios s).mem (s.curr + 8) 4 = 24 := by
    simp only [afterRound, if_pos hreq, htype]
    rw [afterTag, if_neg hne, if_pos rfl, afterMmap, addTotal,
      load_store_apart _ _ (by decide) (by omega) (by omega),
      load_store32_outside (by omega) (by decide) (by omega) (by omega),
      load_store32_outside (by omega) (by decide) (by omega) (by omega),
      load_store32_outside (by omega) (by decide) (by omega) (by omega),
      load_store32_same (by omega) (by decide)]
    rfl
  refine ⟨written.type, ?_, entrySize, fun i e he => ?_⟩
  · rw [written.size, List.length_dropLast]
  · have hi := (List.getElem?_eq_some_iff.mp he).1
    rw [List.length_dropLast] at hi
    rw [List.getElem?_dropLast, if_pos hi] at he
    have at_ := entryAt_storeEntries s.mem (a := s.curr + 16) (by omega) he
    exact at_.congr fun x hx hx' => header x (by omega) (.inr (by omega))

/-- With both tags requested the map stands where the second cursor was led. -/
theorem both_written_tag (bios : Bios) {c : Nat} (hc : c = (skipTag m)^[4] firstTag)
    (hfits : skipTag m (c + 16) + 16 + 24 * bios.entries.length ≤ 2 ^ 32) :
    MmapTag ((afterRound bios)^[7] (bootInfoStart m (asked true true))).mem (skipTag m (c + 16))
      bios.entries.dropLast := by
  have six := TagsWritten.rounds bios m (asked true true) (k := 6) (by decide)
  obtain ⟨first, align⟩ := iterate_skipTag_ge (m := m) (k := 4) (show firstTag % 8 = 0 by decide)
  have next := skipTag_ge m (c + 16) (by omega)
  have place := both_written_place bios hc hfits
  rw [Function.iterate_succ_apply']
  generalize (afterRound bios)^[6] (bootInfoStart m (asked true true)) = s at *
  have odd : s.requested % 2 = 1 := by
    rw [six.requested]
    decide
  rw [← place] at hfits next ⊢
  exact mmap_round_tag bios odd six.type six.aligned (by omega) hfits

end Entries

/-! ## What the kernel finds -/

section Kernel

variable {disk : Nat → UInt8} {bios : Bios} {m m' km : Mem} {k : Entered} {fuel c : Nat}

/-- The memory at the kernel's first instruction, below the loader's page tables. -/
theorem KernelImage.read_low (img : KernelImage disk) {x : Nat} (low : 0xB000 ≤ x)
    (below : x < p4tAddr) (cr3 : k.cr3 = p4tAddr)
    (mem : k.mem = longMode (loadSegments disk m (linfo (imageHeaders disk)))) :
    k.read x = some (m.get x) := by
  have tables : p4tAddr = 0x10000 := rfl
  have place : tablesEnd = 0x15000 := rfl
  rw [Entered.read, cr3, mem, physWalk_longMode, if_pos (by omega), Option.map_some,
    Nat.mod_eq_of_lt (by omega), sameOutside_longMode _ _ (by omega) (.inl below),
    img.loadable.get_linfo (by omega) (.inr low), img.uncovered (by omega)]
  rfl

/-- The boot information as the loader leaves it, with the map at `c`: behind the
memory sizes, or behind a tag of their type that was there before. -/
structure InfoAt (m : Mem) (bios : Bios) (c : Nat) : Prop where
  sizes : tagType m firstTag = multibootTagTypeBasicMeminfo ∧ tagSize m firstTag = 16
  between : c = firstTag + 16 ∨ tagType m (firstTag + 16) = multibootTagTypeBasicMeminfo ∧
    nextTag m (firstTag + 16) = c
  map : MmapTag m c bios.entries.dropLast

/-- Where the loader's writing ends when the cursor has waited at the first place. -/
theorem writtenEnd_waits (first : tagSize m firstTag = 0) :
    writtenEnd m true true bios =
      skipTag m (firstTag + 16) + 16 + 24 * bios.entries.length := by
  have stays := (iterate_skipTag_eq_self (m := m) (show firstTag % 8 = 0 by decide)
    (show 0 < 4 by decide)).mpr first
  simp only [writtenEnd, if_true, stays]

theorem info_built (waits : CursorWaits m true true) (fits : writtenEnd m true true bios ≤ p4tAddr)
    (hfuel : bios.entries.length ≤ fuel) :
    ∃ s, buildBootInfo fuel bios m (asked true true) = .ok s ∧
      InfoAt s.mem bios (skipTag m (firstTag + 16)) := by
  have start : firstTag % 8 = 0 ∧ firstTag = 0xC008 := by decide
  have tables : p4tAddr = 0x10000 := rfl
  have first := waits.first (.inl rfl)
  have stays := (iterate_skipTag_eq_self start.1 (show 0 < 4 by decide)).mpr first
  rw [writtenEnd_waits first] at fits
  have built : buildBootInfo fuel bios m (asked true true) =
      .ok ((afterRound bios)^[7] (bootInfoStart m (asked true true))) :=
    buildBootInfo_eq m (by decide) hfuel
  have both : BothWritten m bios firstTag (skipTag m (firstTag + 16)) _ :=
    both_written stays.symm (by omega)
  have map := both_written_tag bios stays.symm (by omega)
  generalize (afterRound bios)^[7] (bootInfoStart m (asked true true)) = s at built both map
  refine ⟨s, built, both.meminfo, ?_, map⟩
  by_cases zero : tagSize m (firstTag + 16) = 0
  · exact .inl ((skipTag_eq_self (by omega)).mpr zero)
  · -- the leftover tag lies between the memory sizes and the map
    have type := (waits.between rfl rfl).resolve_left zero
    have moved := mt (skipTag_eq_self (m := m) (c := firstTag + 16) (by omega)).mp zero
    have ge := skipTag_ge m (firstTag + 16) (by omega)
    have align := skipTag_aligned m (firstTag + 16)
    have keptType := both.between (firstTag + 16) 4 (Nat.le_refl _) (by omega)
    have keptSize := both.between (firstTag + 16 + 4) 4 (by omega) (by omega)
    refine .inr ⟨keptType.trans type, ?_⟩
    rw [nextTag, tagSize, keptSize, ← tagSize]
    unfold skipTag at fits ⊢
    omega

theorem InfoAt.congr (info : InfoAt m bios c) (low : firstTag + 16 ≤ c)
    (high : c + 16 + 24 * bios.entries.dropLast.length ≤ p4tAddr)
    (same : ∀ x, multibootReturnInfoAddr ≤ x → x < p4tAddr → km.get x = m.get x) :
    InfoAt km bios c := by
  have start : firstTag = multibootReturnInfoAddr + 8 := rfl
  have field : ∀ a n, firstTag ≤ a → a + n ≤ p4tAddr → load km a n = load m a n :=
    fun a n ha hn => load_congr fun i hi => same _ (by omega) (by omega)
  have type : ∀ a, firstTag ≤ a → a + 8 ≤ p4tAddr →
      tagType km a = tagType m a ∧ tagSize km a = tagSize m a :=
    fun a ha hb => ⟨field a 4 ha (by omega), field (a + 4) 4 (by omega) (by omega)⟩
  obtain ⟨firstType, firstSize⟩ := type firstTag (Nat.le_refl _) (by decide)
  obtain ⟨nextType, nextSize⟩ := type (firstTag + 16) (by omega) (by decide)
  refine ⟨by rw [firstType, firstSize]; exact info.sizes, ?_,
    info.map.congr fun x hx hx' => same x (by omega) (by omega)⟩
  rw [nextTag, nextType, nextSize]
  exact info.between

/-- The kernel's walk finds the map. -/
theorem InfoAt.found (info : InfoAt m bios c) :
    multibootGetTag 3 m multibootReturnInfoAddr multibootTagTypeMmap = .ok c := by
  have next : nextTag m firstTag = firstTag + 16 := by
    rw [nextTag, info.sizes.2]
    rfl
  have other : multibootTagTypeBasicMeminfo ≠ 0 ∧
      multibootTagTypeBasicMeminfo ≠ multibootTagTypeMmap := by decide
  have found : ∀ fuel, getTagFrom m multibootTagTypeMmap (fuel + 1) c = .ok c := by
    intro fuel
    rw [getTagFrom, info.map.type, if_pos (by decide), if_pos rfl]
  rw [getTag_start, getTagFrom, info.sizes.1, if_pos other.1, if_neg other.2, next]
  rcases info.between with rfl | ⟨type, next⟩
  · exact found 1
  · rw [getTagFrom, type, if_pos other.1, if_neg other.2, next]
    exact found 0

/-- Of the `n` entries that the BIOS reports the kernel decodes the first
`n - 2`, whatever they are. -/
theorem handover_loses_two (img : KernelImage disk) (bios : Bios) (m : Mem)
    (waits : CursorWaits m true true) (fits : writtenEnd m true true bios ≤ p4tAddr)
    (two : 2 ≤ bios.entries.length) (few : bios.entries.length ≤ 11)
    (hfuel : bios.entries.length ≤ fuel) (enough : 8 ≤ fuel) :
    ∃ k, loaderMain fuel disk bios true m = .ok k ∧
      -- `km` is what the kernel sees while it has not written on the boot information
      ∀ km : Mem, (∀ x, multibootReturnInfoAddr ≤ x → x < p4tAddr → k.read x = some (km.get x)) →
        ∃ tag, multibootGetTag 3 km k.ebx multibootTagTypeMmap = .ok tag ∧
          ∀ memoryMap, tablesEnd ≤ memoryMap → memoryMap + 240 ≤ 2 ^ 64 →
            (memoryMapInit km memoryMap tag).entries = sortMemoryMap
              (bios.entries.dropLast.dropLast.map MultibootMmapEntry.toMmapEntry) ∧
            (3 ≤ bios.entries.length →
              WholeMap (memoryMapInit km memoryMap tag) bios.entries.dropLast.dropLast) := by
  have start : multibootReturnInfoAddr = 0xC000 ∧ firstTag = 0xC008 := by decide
  have tables : p4tAddr = 0x10000 ∧ tablesEnd = 0x15000 := by decide
  obtain ⟨m', s, untouched, built, run⟩ := img.loaderMain_eq bios m fits hfuel enough
  have field : ∀ a n, firstTag ≤ a → a + n ≤ p4tAddr → load m' a n = load m a n :=
    fun a n ha hn => load_congr fun i hi => untouched _ (by omega) (by omega)
  have firstSize : tagSize m' firstTag = tagSize m firstTag := field _ 4 (by omega) (by omega)
  have nextSize : tagSize m' (firstTag + 16) = tagSize m (firstTag + 16) :=
    field _ 4 (by omega) (by omega)
  have nextType : tagType m' (firstTag + 16) = tagType m (firstTag + 16) :=
    field _ 4 (by omega) (by omega)
  have waits' : CursorWaits m' true true :=
    ⟨by rw [firstSize]; exact waits.first, by rw [nextSize, nextType]; exact waits.between⟩
  have samePlace : skipTag m' (firstTag + 16) = skipTag m (firstTag + 16) := by
    rw [skipTag, nextSize, skipTag]
  rw [writtenEnd_waits (waits.first (.inl rfl))] at fits
  have fits' : writtenEnd m' true true bios ≤ p4tAddr := by
    rw [writtenEnd_waits (waits'.first (.inl rfl)), samePlace]
    exact fits
  obtain ⟨s', built', info⟩ := info_built waits' fits' hfuel
  obtain rfl := Except.ok.inj (built.symm.trans built')
  have low := skipTag_ge m (firstTag + 16) (by omega)
  have short : bios.entries.dropLast.length = bios.entries.length - 1 := List.length_dropLast
  rw [samePlace] at info
  refine ⟨_, run, fun km sees => ?_⟩
  have same : ∀ x, multibootReturnInfoAddr ≤ x → x < p4tAddr → km.get x = s.mem.get x := by
    intro x hx hx'
    have read := sees x hx hx'
    rw [img.read_low (m := s.mem) (by omega) hx' rfl rfl] at read
    exact (Option.some.inj read).symm
  have seen := info.congr low (by omega) same
  refine ⟨_, seen.found, fun memoryMap above below => ?_⟩
  have entries := memoryMapInit_entries seen.map (by omega) (by omega) below
    (by omega) (.inr (by omega))
  exact ⟨entries, fun three => memoryMapInit_dropLast seen.map (by omega) (by omega) below
    (by omega) (.inr (by omega))⟩

end Kernel

/-- Of three regions the first is left, and the memory from 1 MiB on is lost. -/
theorem handover_loses_two_of_three :
    ∃ k, loaderMain 8 smallDisk firmwareLastBios true ⟨fun _ => 0⟩ = .ok k ∧
      ∀ km : Mem, (∀ x, multibootReturnInfoAddr ≤ x → x < p4tAddr → k.read x = some (km.get x)) →
        ∃ tag, multibootGetTag 3 km k.ebx multibootTagTypeMmap = .ok tag ∧
          (memoryMapInit km 0x20000 tag).entries = [⟨0, 0x9FC00, 1⟩] := by
  obtain ⟨k, run, kernel⟩ := handover_loses_two smallDisk_image firmwareLastBios ⟨fun _ => 0⟩
    ⟨fun _ => by decide +kernel, fun _ _ => Or.inl (by decide +kernel)⟩ (by decide +kernel)
    (show 2 ≤ 3 by decide) (show 3 ≤ 11 by decide) (show 3 ≤ 8 by decide) (show 8 ≤ 8 by decide)
  refine ⟨k, run, fun km sees => ?_⟩
  obtain ⟨tag, found, decoded⟩ := kernel km sees
  exact ⟨tag, found, (decoded 0x20000 (by decide) (by decide)).1.trans (by decide)⟩

end WaddleOS
