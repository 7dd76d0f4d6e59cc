import WaddleOS.Paging.MemoryMap

/-!
# `memory_map_init` and the bounds of its table

The table has room for ten entries. The copy, the sort, the print loop and the
read of the last entry go by the tag's size alone. The sort is the one of the
source here, which swaps entries in place; it is shown to build the sorted list.
-/

namespace WaddleOS

/-- `memory_map` as an array of entries. -/
abbrev EntryTable := Nat → MmapEntry

/-- The body of the inner loop, with its temporary. -/
def EntryTable.swap (t : EntryTable) (j : Nat) : EntryTable :=
  Function.update (Function.update t j (t (j + 1))) (j + 1) (t j)

/-- The inner loop from `j` on: the table it leaves and the indices it goes to,
reads and writes alike. -/
def sinkEntry (t : EntryTable) : Nat → EntryTable × List Int
  | 0 => (t, [])
  | j + 1 =>
    if (t (j + 1)).addr < (t j).addr then
      let r := sinkEntry (t.swap j) j
      (r.1, [(j : Int) + 1, j, j, j, j + 1, j + 1] ++ r.2)
    else (t, [(j : Int) + 1, j])

/-- `n` rounds of the outer loop from `i` on. -/
def sortTable (t : EntryTable) (i : Nat) : Nat → EntryTable × List Int
  | 0 => (t, [])
  | n + 1 =>
    let r := sinkEntry t i
    let r' := sortTable r.1 (i + 1) n
    (r'.1, r.2 ++ r'.2)

/-- An `unsigned int` stored in an `int`. -/
def toInt32 (n : Nat) : Int := if n < 2 ^ 31 then n else n - 2 ^ 32

/-- The indices of the entries that `memory_map_init` reads or writes in the
table at `memoryMap`, for the tag at `tag`. -/
def memoryMapTouched (m : Mem) (memoryMap tag : Nat) : List Int :=
  let mmapSize := (tagSize m tag + 2 ^ 32 - 24) % 2 ^ 32
  let len := toInt32 (mmapSize / load m (tag + 8) 4)
  let copied := memmove m memoryMap (tag + 16) mmapSize
  -- `memmove` leaves a range alone that is its own source
  (if memoryMap = tag + 16 then [] else (List.range mmapSize).map fun k => ((k / 24 : Nat) : Int)) ++
    (sortTable (fun i => loadEntry copied (memoryMap + 24 * i)) 1 (len.toNat - 1)).2 ++
    (List.range len.toNat).map (fun i : Nat => (i : Int)) ++ [len - 1, len - 1]

/-- Every access is to one of the ten entries. -/
def StaysInTable (m : Mem) (memoryMap tag : Nat) : Prop :=
  ∀ x ∈ memoryMapTouched m memoryMap tag, 0 ≤ x ∧ x ≤ 9

/-! ## The sort in place -/

/-- The first `j` entries, last one first. -/
def EntryTable.prefixRev (t : EntryTable) : Nat → List MmapEntry
  | 0 => []
  | j + 1 => t j :: t.prefixRev j

section InPlace

variable {t t' : EntryTable} {i j n : Nat}

theorem prefixRev_eq (t : EntryTable) (j : Nat) :
    t.prefixRev j = ((List.range j).map t).reverse := by
  induction j with
  | zero => rfl
  | succ j ih =>
    rw [EntryTable.prefixRev, ih, List.range_succ, List.map_append, List.reverse_append]
    rfl

theorem prefixRev_congr (h : ∀ k, k < j → t' k = t k) : t'.prefixRev j = t.prefixRev j := by
  rw [prefixRev_eq, prefixRev_eq]
  congr 1
  exact List.map_congr_left fun k hk => h k (List.mem_range.mp hk)

theorem swap_low (t : EntryTable) (j : Nat) : t.swap j j = t (j + 1) := by
  simp [EntryTable.swap]

theorem swap_high (t : EntryTable) (j : Nat) : t.swap j (j + 1) = t j := by
  simp [EntryTable.swap]

theorem swap_other {k : Nat} (hlow : k ≠ j) (hhigh : k ≠ j + 1) : t.swap j k = t k := by
  rw [EntryTable.swap, Function.update_of_ne hhigh, Function.update_of_ne hlow]

/-- The inner loop leaves the entries past its first one alone. -/
theorem sinkEntry_above {k : Nat} (hk : j < k) : (sinkEntry t j).1 k = t k := by
  induction j generalizing t with
  | zero => rfl
  | succ j ih =>
    rw [sinkEntry]
    split
    · exact (ih (by omega)).trans (swap_other (by omega) (by omega))
    · rfl

/-- Seen from the top, the inner loop is the insertion into a list. -/
theorem sinkEntry_prefixRev :
    (sinkEntry t j).1.prefixRev (j + 1) = insertEntry (t j) (t.prefixRev j) := by
  induction j generalizing t with
  | zero => rfl
  | succ j ih =>
    have hprefix : t.prefixRev (j + 1) = t j :: t.prefixRev j := rfl
    rw [sinkEntry, hprefix, insertEntry]
    split
    · -- the entry above changes places with the one below, and sinks on from there
      have hbelow : (t.swap j).prefixRev j = t.prefixRev j :=
        prefixRev_congr fun k hk => swap_other (by omega) (by omega)
      rw [EntryTable.prefixRev, ih, sinkEntry_above (Nat.lt_succ_self j), swap_high, swap_low, hbelow]
    · rfl

theorem sortTable_prefixRev :
    (sortTable t i n).1.prefixRev (i + n) =
      ((List.range' i n).map t).foldl (fun sorted e => insertEntry e sorted) (t.prefixRev i) := by
  induction n generalizing t i with
  | zero => rfl
  | succ n ih =>
    have hrest : (List.range' (i + 1) n).map (sinkEntry t i).1 = (List.range' (i + 1) n).map t :=
      List.map_congr_left fun k hk => sinkEntry_above (by rw [List.mem_range'_1] at hk; omega)
    rw [sortTable, List.range'_succ, List.map_cons, List.foldl_cons, ← sinkEntry_prefixRev, ← hrest,
      ← ih, Nat.add_right_comm, Nat.add_assoc]

/-- The sort in place leaves the sorted list in the table. -/
theorem sortTable_sorts (t : EntryTable) (n : Nat) :
    (List.range n).map (sortTable t 1 (n - 1)).1 = sortMemoryMap ((List.range n).map t) := by
  cases n with
  | zero => rfl
  | succ n =>
    have hsort := sortTable_prefixRev (t := t) (i := 1) (n := n)
    rw [prefixRev_eq, Nat.add_comm] at hsort
    have hfirst : (List.range (n + 1)).map t = t 0 :: (List.range' 1 n).map t := by
      rw [List.range_eq_range', List.range'_succ, List.map_cons]
    rw [sortMemoryMap, hfirst, List.foldl_cons, ← List.reverse_reverse (List.map _ _)]
    exact congrArg List.reverse hsort

theorem sinkEntry_touched {x : Int} (hx : x ∈ (sinkEntry t j).2) : 0 ≤ x ∧ x ≤ j := by
  induction j generalizing t with
  | zero => cases hx
  | succ j ih =>
    rw [sinkEntry] at hx
    split at hx
    · rcases List.mem_append.mp hx with hx | hx
      · simp only [List.mem_cons, List.not_mem_nil, or_false] at hx
        omega
      · have := ih hx
        omega
    · simp only [List.mem_cons, List.not_mem_nil, or_false] at hx
      omega

theorem sortTable_touched {x : Int} (hx : x ∈ (sortTable t i n).2) : 0 ≤ x ∧ x < i + n := by
  induction n generalizing t i with
  | zero => cases hx
  | succ n ih =>
    rw [sortTable] at hx
    rcases List.mem_append.mp hx with hx | hx
    · have := sinkEntry_touched hx
      omega
    · have := ih hx
      omega

end InPlace

/-- `memory_map` after `memory_map_init` is the table that the sort in place
leaves. -/
theorem memoryMapInit_table (m : Mem) (memoryMap tag : Nat) :
    (memoryMapInit m memoryMap tag).entries =
      (List.range (memoryMapInit m memoryMap tag).len).map (sortTable (fun i =>
        loadEntry (memmove m memoryMap (tag + 16) ((tagSize m tag + 2 ^ 32 - 24) % 2 ^ 32))
          (memoryMap + 24 * i)) 1 ((memoryMapInit m memoryMap tag).len - 1)).1 :=
  (sortTable_sorts _ _).symm

section Bounds

variable {m : Mem} {memoryMap tag n : Nat}

/-- The copy of `n` entries, short of its last 8 bytes, goes to each of them. -/
theorem mem_copied (hn : 1 ≤ n) {x : Int} :
    x ∈ (if memoryMap = tag + 16 then []
      else (List.range (24 * n - 8)).map fun k => ((k / 24 : Nat) : Int)) ↔
      memoryMap ≠ tag + 16 ∧ 0 ≤ x ∧ x < n := by
  split
  next heq => simp [heq]
  next hne =>
    rw [List.mem_map, and_iff_right hne]
    constructor
    · rintro ⟨k, hk, rfl⟩
      rw [List.mem_range] at hk
      omega
    · rintro ⟨hlo, hhi⟩
      exact ⟨24 * x.toNat, by rw [List.mem_range]; omega, by omega⟩

theorem mem_printed {len : Nat} {x : Int} :
    x ∈ (List.range len).map (fun i : Nat => (i : Int)) ↔ 0 ≤ x ∧ x < len := by
  rw [List.mem_map]
  constructor
  · rintro ⟨i, hi, rfl⟩
    rw [List.mem_range] at hi
    omega
  · rintro ⟨hlo, hhi⟩
    exact ⟨x.toNat, by rw [List.mem_range]; omega, by omega⟩

/-- What is touched in a table that the tag's `n` entries are copied to. -/
theorem mem_memoryMapTouched (hn : 1 ≤ n) (hsize : tagSize m tag = 16 + 24 * n)
    (hentry : load m (tag + 8) 4 = 24) (x : Int) :
    x ∈ memoryMapTouched m memoryMap tag ↔
      (memoryMap ≠ tag + 16 ∧ 0 ≤ x ∧ x < n) ∨ (0 ≤ x ∧ x < n - 1) ∨ x = n - 2 := by
  have hlt : tagSize m tag < 256 ^ 4 := load_lt m (tag + 4) 4
  have hbytes : (tagSize m tag + 2 ^ 32 - 24) % 2 ^ 32 = 24 * n - 8 := by omega
  have hlen : toInt32 ((24 * n - 8) / 24) = n - 1 := by
    rw [toInt32, if_pos (by omega)]
    omega
  have hprint : 0 ≤ x ∧ x < (((n : Int) - 1).toNat : Int) ↔ 0 ≤ x ∧ x < n - 1 := by omega
  simp only [memoryMapTouched, hbytes, hentry, hlen, List.mem_append, mem_copied hn, mem_printed,
    hprint]
  have hsorted : ∀ {t : EntryTable}, x ∈ (sortTable t 1 (((n : Int) - 1).toNat - 1)).2 →
      0 ≤ x ∧ x < n - 1 := by
    intro t hx
    by_cases hone : n = 1
    · subst hone
      cases hx
    · have := sortTable_touched hx
      omega
  have hlast : x ∈ [(n : Int) - 1 - 1, n - 1 - 1] ↔ x = n - 2 := by
    simp only [List.mem_cons, List.not_mem_nil, or_false, or_self]
    omega
  rw [hlast]
  constructor
  · rintro (((hx | hx) | hx) | hx)
    · exact .inl hx
    · exact .inr (.inl (hsorted hx))
    · exact .inr (.inl hx)
    · exact .inr (.inr hx)
  · rintro (hx | hx | hx)
    · exact .inl (.inl (.inl hx))
    · exact .inl (.inr hx)
    · exact .inr hx

/-- The accesses stay in the table exactly for two to ten regions; for eleven
only if the tag's entries are the table itself. -/
theorem table_in_bounds_iff (hn : 1 ≤ n) (hsize : tagSize m tag = 16 + 24 * n)
    (hentry : load m (tag + 8) 4 = 24) :
    StaysInTable m memoryMap tag ↔ 2 ≤ n ∧ (n ≤ 10 ∨ n = 11 ∧ memoryMap = tag + 16) := by
  simp only [StaysInTable, mem_memoryMapTouched hn hsize hentry]
  constructor
  · intro hall
    have hlast := hall (n - 2) (.inr (.inr rfl))
    refine ⟨by omega, ?_⟩
    by_cases hsame : memoryMap = tag + 16
    · omega
    · have hcopied := hall (n - 1) (.inl ⟨hsame, by omega, by omega⟩)
      omega
  · rintro ⟨htwo, hten⟩ x (⟨hne, hx⟩ | hx | rfl)
    · have hle : n ≤ 10 := hten.resolve_right fun h => hne h.2
      omega
    · omega
    · omega

end Bounds

/-- Zeroed memory with a tag of `size` bytes at address 0. -/
def emptyMmapTag (size : Nat) : Mem := store (store ⟨fun _ => 0⟩ 4 4 size) 8 4 24

theorem table_in_bounds_ten : StaysInTable (emptyMmapTag 256) 4096 0 :=
  (table_in_bounds_iff (n := 10) (by decide) (by decide +kernel) (by decide +kernel)).mpr (by decide)

/-- Eleven regions are copied past the end of the table. -/
theorem eleven_regions_overflow :
    ¬ ∀ (m : Mem) (memoryMap tag n : Nat), 1 ≤ n → tagSize m tag = 16 + 24 * n →
      load m (tag + 8) 4 = 24 → StaysInTable m memoryMap tag := by
  intro inBounds
  have hbounds := inBounds (emptyMmapTag 280) 4096 0 11 (by decide) (by decide +kernel)
    (by decide +kernel) 10
  have hin : (10 : Int) ∈ memoryMapTouched (emptyMmapTag 280) 4096 0 :=
    (mem_memoryMapTouched (n := 11) (by decide) (by decide +kernel) (by decide +kernel) 10).mpr
      (.inl ⟨by decide, by decide, by decide⟩)
  exact absurd (hbounds hin).2 (by decide)

end WaddleOS
