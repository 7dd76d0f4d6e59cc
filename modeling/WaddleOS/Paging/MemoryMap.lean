import Mathlib.Data.List.Pairwise
import Mathlib.Data.List.Sort
import WaddleOS.Lib.Multiboot
import WaddleOS.Lib.String
import WaddleOS.Paging.Pools

/-!
# `kernel/mem/paging.c`: `memory_map_init`

The kernel's side of the memory map tag: the copy into `memory_map`, the sort
and `phys_mem_end_paddr`. It takes 24 bytes off the tag's size for a header
that has 16, so the last entry is never counted.
-/

namespace WaddleOS

/-- The fields of an entry that the kernel reads. -/
def MultibootMmapEntry.toMmapEntry (e : MultibootMmapEntry) : MmapEntry := ⟨e.addr, e.len, e.type⟩

def loadEntry (m : Mem) (a : Nat) : MmapEntry :=
  ⟨UInt64.ofNat (load m a 8), UInt64.ofNat (load m (a + 8) 8), UInt32.ofNat (load m (a + 16) 4)⟩

/-- The static data after `memory_map_init`: `memory_map` up to
`memory_map_len`, and `phys_mem_end_paddr`, which without entries is read from
before the array. -/
structure MemoryMap where
  entries : List MmapEntry
  len : Nat
  physMemEnd : Option Nat

/-- `memory_map_init` on the tag at `tag`, with the array at `memoryMap`. -/
def memoryMapInit (m : Mem) (memoryMap tag : Nat) : MemoryMap :=
  let mmapSize := (tagSize m tag + 2 ^ 32 - 24) % 2 ^ 32
  let len := mmapSize / load m (tag + 8) 4
  let m := memmove m memoryMap (tag + 16) mmapSize
  let entries := sortMemoryMap ((List.range len).map fun i => loadEntry m (memoryMap + 24 * i))
  ⟨entries, len, physMemEnd entries⟩

/-- The whole map `es` has been decoded: counted, sorted by address, and with
the end of the entry that has the greatest one. -/
structure WholeMap (r : MemoryMap) (es : List MultibootMmapEntry) : Prop where
  len : r.len = es.length
  perm : r.entries.Perm (es.map MultibootMmapEntry.toMmapEntry)
  sorted : r.entries.Pairwise fun a b => a.addr ≤ b.addr
  physEnd : ∃ e ∈ es, (∀ e' ∈ es, e'.addr ≤ e.addr) ∧
    r.physMemEnd = some ((e.addr.toNat + e.len.toNat) % 2 ^ 64)

section Order

/-- The order in which the sorted entries stand, last one first. -/
def NotBelow (a b : MmapEntry) : Prop := b.addr ≤ a.addr

instance : DecidableRel NotBelow := fun a b => by
  unfold NotBelow
  infer_instance

instance : Std.Total NotBelow := ⟨fun a b => UInt64.le_total b.addr a.addr⟩

instance : IsTrans MmapEntry NotBelow := ⟨fun _ _ _ hab hbc => UInt64.le_trans hbc hab⟩

theorem insertEntry_eq (e : MmapEntry) (ps : List MmapEntry) :
    insertEntry e ps = ps.orderedInsert NotBelow e := by
  induction ps with
  | nil => rfl
  | cons p ps ih =>
    rw [insertEntry, List.orderedInsert_cons, ih]
    by_cases h : e.addr < p.addr
    · have hbelow : ¬ NotBelow e p := UInt64.not_le.mpr h
      rw [if_pos h, if_neg hbelow]
    · have hnot : NotBelow e p := UInt64.not_lt.mp h
      rw [if_neg h, if_pos hnot]

theorem sortMemoryMap_eq (es : List MmapEntry) :
    sortMemoryMap es = (es.reverse.insertionSort NotBelow).reverse := by
  rw [sortMemoryMap, List.insertionSort, ← List.foldl_eq_foldr_reverse]
  congr 2
  funext sorted e
  exact insertEntry_eq e sorted

theorem sortMemoryMap_perm (es : List MmapEntry) : (sortMemoryMap es).Perm es := by
  rw [sortMemoryMap_eq]
  exact (List.reverse_perm _).trans ((List.perm_insertionSort _ _).trans (List.reverse_perm _))

theorem sortMemoryMap_sorted (es : List MmapEntry) :
    (sortMemoryMap es).Pairwise fun a b => a.addr ≤ b.addr := by
  rw [sortMemoryMap_eq, List.pairwise_reverse]
  exact List.pairwise_insertionSort _ _

end Order

section Init
variable {m : Mem} {tag : Nat} {es : List MultibootMmapEntry}

/-- The number of bytes that the kernel takes for entries. -/
theorem mmapSize_eq (t : MmapTag m tag es) (hpos : 0 < es.length) (hsmall : es.length ≤ 10) :
    (tagSize m tag + 2 ^ 32 - 24) % 2 ^ 32 = 24 * (es.length - 1) + 16 := by
  rw [t.size]
  omega

theorem memoryMapInit_len (t : MmapTag m tag es) (hpos : 0 < es.length) (hsmall : es.length ≤ 10)
    (memoryMap : Nat) : (memoryMapInit m memoryMap tag).len = es.length - 1 := by
  have hlen : (24 * (es.length - 1) + 16) / 24 = es.length - 1 := by omega
  rw [memoryMapInit, mmapSize_eq t hpos hsmall, t.entrySize]
  exact hlen

theorem loadEntry_eq {a : Nat} {e : MultibootMmapEntry} (at_ : EntryAt m a e) :
    loadEntry m a = e.toMmapEntry := by
  rw [loadEntry, at_.addr, at_.len, at_.type, UInt64.ofNat_toNat, UInt64.ofNat_toNat,
    UInt32.ofNat_toNat]
  rfl

/-- What is decoded is the map without the tag's last entry. -/
theorem memoryMapInit_entries (t : MmapTag m tag es) (hpos : 0 < es.length)
    (hsmall : es.length ≤ 10) {memoryMap : Nat} (harray : memoryMap + 240 ≤ 2 ^ 64)
    (htag : tag + 256 ≤ 2 ^ 64) (apart : memoryMap + 240 ≤ tag ∨ tag + 256 ≤ memoryMap) :
    (memoryMapInit m memoryMap tag).entries =
      sortMemoryMap (es.dropLast.map MultibootMmapEntry.toMmapEntry) := by
  have hlen : (24 * (es.length - 1) + 16) / 24 = es.length - 1 := by omega
  rw [memoryMapInit, mmapSize_eq t hpos hsmall, t.entrySize, hlen]
  simp only
  congr 1
  apply List.ext_getElem
  · simp
  · intro i hi _
    have hin : i < es.length - 1 := by simpa using hi
    have hmove : ∀ o k, o + k ≤ 24 → load (memmove m memoryMap (tag + 16)
        (24 * (es.length - 1) + 16)) (memoryMap + 24 * i + o) k =
        load m (tag + 16 + 24 * i + o) k := by
      intro o k hok
      rw [Nat.add_assoc, Nat.add_assoc (tag + 16)]
      exact load_memmove m (by omega) (by omega) (by omega) (by omega)
    have hat := t.entries i es[i] (List.getElem?_eq_getElem (by omega))
    simp only [List.getElem_map, List.getElem_range, List.getElem_dropLast]
    rw [← loadEntry_eq hat, loadEntry, loadEntry, hmove 8 8 (by decide), hmove 16 4 (by decide)]
    rw [show memoryMap + 24 * i = memoryMap + 24 * i + 0 from rfl, hmove 0 8 (by decide)]
    rfl

/-- Where the sort is given any entries, the end taken is that of the entry
with the greatest address. -/
theorem physMemEnd_sortMemoryMap (hne : es ≠ []) :
    ∃ e ∈ es, (∀ e' ∈ es, e'.addr ≤ e.addr) ∧
      physMemEnd (sortMemoryMap (es.map MultibootMmapEntry.toMmapEntry)) =
        some ((e.addr.toNat + e.len.toNat) % 2 ^ 64) := by
  have hperm := sortMemoryMap_perm (es.map MultibootMmapEntry.toMmapEntry)
  have hsorted := sortMemoryMap_sorted (es.map MultibootMmapEntry.toMmapEntry)
  have hne' : sortMemoryMap (es.map MultibootMmapEntry.toMmapEntry) ≠ [] := by
    intro h
    rw [h, List.nil_perm, List.map_eq_nil_iff] at hperm
    exact hne hperm
  obtain ⟨e, he, hlast⟩ := List.mem_map.mp (hperm.mem_iff.mp (List.getLast_mem hne'))
  refine ⟨e, he, fun e' he' => ?_, ?_⟩
  · have hin := hperm.mem_iff.mpr (List.mem_map_of_mem he')
    have hle := hsorted.rel_getLast_of_rel_getLast_getLast hin (UInt64.le_refl _)
    rw [← hlast] at hle
    exact hle
  · rw [physMemEnd, List.getLast?_eq_some_getLast hne', ← hlast]
    rfl

/-- From two entries on, the kernel decodes the map whole but for the tag's
last entry. -/
theorem memoryMapInit_dropLast (t : MmapTag m tag es) (htwo : 2 ≤ es.length)
    (hsmall : es.length ≤ 10) {memoryMap : Nat} (harray : memoryMap + 240 ≤ 2 ^ 64)
    (htag : tag + 256 ≤ 2 ^ 64) (apart : memoryMap + 240 ≤ tag ∨ tag + 256 ≤ memoryMap) :
    WholeMap (memoryMapInit m memoryMap tag) es.dropLast := by
  have hpos : 0 < es.length := by omega
  have hentries := memoryMapInit_entries t hpos hsmall harray htag apart
  refine ⟨?_, ?_, ?_, ?_⟩
  · rw [memoryMapInit_len t hpos hsmall, List.length_dropLast]
  · rw [hentries]
    exact sortMemoryMap_perm _
  · rw [hentries]
    exact sortMemoryMap_sorted _
  · change ∃ e ∈ es.dropLast, _ ∧ physMemEnd (memoryMapInit m memoryMap tag).entries = _
    rw [hentries]
    apply physMemEnd_sortMemoryMap
    rw [← List.length_pos_iff, List.length_dropLast]
    omega

/-- No map is decoded whole. -/
theorem memory_map_loses_last (t : MmapTag m tag es) (hpos : 0 < es.length)
    (hsmall : es.length ≤ 10) (memoryMap : Nat) :
    ¬ WholeMap (memoryMapInit m memoryMap tag) es := by
  intro whole
  have hlen := whole.len
  rw [memoryMapInit_len t hpos hsmall] at hlen
  omega

end Init

/-- The low memory, and 127 MiB from 1 MiB on. -/
def twoEntries : List MultibootMmapEntry :=
  [⟨0, 0x9FC00, 1, 0⟩, ⟨0x100000, 0x7F00000, 1, 0⟩]

/-- Their map at address 0. -/
def twoEntryTag : Mem :=
  let m := store (store (store ⟨fun _ => 0⟩ 0 4 6) 4 4 64) 8 4 24
  let m := store (store m 24 8 0x9FC00) 32 4 1
  store (store (store m 40 8 0x100000) 48 8 0x7F00000) 56 4 1

theorem twoEntryTag_mmapTag : MmapTag twoEntryTag 0 twoEntries := by
  refine ⟨by decide +kernel, by decide +kernel, by decide +kernel, fun i e h => ?_⟩
  match i with
  | 0 =>
    obtain rfl := Option.some.inj h
    exact ⟨by decide +kernel, by decide +kernel, by decide +kernel, by decide +kernel⟩
  | 1 =>
    obtain rfl := Option.some.inj h
    exact ⟨by decide +kernel, by decide +kernel, by decide +kernel, by decide +kernel⟩
  | i + 2 => simp [twoEntries] at h

theorem two_entries_not_whole : ¬ WholeMap (memoryMapInit twoEntryTag 4096 0) twoEntries :=
  memory_map_loses_last twoEntryTag_mmapTag (by decide) (by decide) 4096

/-- Of two entries the kernel counts one. -/
theorem two_entries_counted_one :
    ¬ ∀ (m : Mem) (memoryMap tag : Nat) (es : List MultibootMmapEntry), MmapTag m tag es →
      0 < es.length → es.length ≤ 10 → WholeMap (memoryMapInit m memoryMap tag) es := by
  intro allWhole
  have whole := allWhole twoEntryTag 4096 0 _ twoEntryTag_mmapTag (by decide) (by decide)
  exact absurd whole.len (by decide +kernel)

end WaddleOS
