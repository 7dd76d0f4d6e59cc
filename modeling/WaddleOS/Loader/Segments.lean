import WaddleOS.Loader.Sectors

/-!
# `loader/boot1/main.c`: loading the kernel's segments

The program headers of type `PT_LOAD` become entries of `linfo`, and the last
loop of `main` loads the whole sectors of each in turn. A segment starts where
its first sector starts on disk, not where `p_offset` points, and ends up to a
sector past its last byte, over whatever an earlier segment has there.
-/

namespace WaddleOS

def ptLoad : Nat := 1

/-- What `main` reads of an `Elf64_Phdr`. -/
structure Elf64Phdr where
  pType : Nat
  pOffset : Nat
  pPaddr : Nat
  pFilesz : Nat
  deriving DecidableEq, Repr

/-- `load_info_t`: a size, a pointer and a size of the 32-bit loader. -/
structure LoadInfo where
  bytes : Nat
  addr : Nat
  offset : Nat
  deriving DecidableEq, Repr

def loadInfo (phdr : Elf64Phdr) : LoadInfo :=
  ⟨phdr.pFilesz % 2 ^ 32, phdr.pPaddr % 2 ^ 32, phdr.pOffset % 2 ^ 32⟩

/-- `linfo` after the loop over the program headers. -/
def linfo (phdrs : List Elf64Phdr) : List LoadInfo :=
  (phdrs.filter fun phdr => phdr.pType = ptLoad).map loadInfo

def loadSegment (disk : Nat → UInt8) (m : Mem) (l : LoadInfo) : Mem :=
  loadSector disk m ((kernelStartSector + l.offset / 512) % 2 ^ 32 % 2 ^ 16)
    ((l.bytes / 512 + 1) % 2 ^ 16) l.addr

def loadSegments (disk : Nat → UInt8) (m : Mem) (ls : List LoadInfo) : Mem :=
  ls.foldl (loadSegment disk) m

/-! ## Which segment a byte comes from -/

namespace LoadInfo

/-- The bytes of the whole sectors read for a segment. -/
def span (l : LoadInfo) : Nat := 512 * (l.bytes / 512 + 1)

def Covers (l : LoadInfo) (x : Nat) : Prop := l.addr ≤ x ∧ x < l.addr + l.span

instance (l : LoadInfo) (x : Nat) : Decidable (l.Covers x) := by
  unfold Covers
  infer_instance

/-- The disk byte that a segment's sectors put at `x`. -/
def source (l : LoadInfo) (x : Nat) : Nat :=
  512 * (kernelStartSector + l.offset / 512) + (x - l.addr)

end LoadInfo

/-- The last segment whose sectors cover `x`. -/
def lastOver (x : Nat) : List LoadInfo → Option LoadInfo
  | [] => none
  | l :: ls => (lastOver x ls).or (if l.Covers x then some l else none)

/-- The interrupt table with the BIOS data, the loader's image up to its stack,
and the disk buffer. -/
def LoaderMemory (x : Nat) : Prop :=
  x < 0x500 ∨ (0x1000 ≤ x ∧ x < 0x6C00) ∨ (0x8000 ≤ x ∧ x < 0xB000)

/-- Program headers that `main` can work with: at most five segments, every
sector asked for numbered below 32768, and none put on the loader itself. -/
structure Loadable (phdrs : List Elf64Phdr) : Prop where
  count : (linfo phdrs).length ≤ 5
  ranges : ∀ phdr ∈ phdrs, phdr.pType = ptLoad → phdr.pPaddr + phdr.pFilesz ≤ 2 ^ 64
  sectors : ∀ phdr ∈ phdrs, phdr.pType = ptLoad →
    kernelStartSector + phdr.pOffset / 512 + phdr.pFilesz / 512 < 2 ^ 15
  clear : ∀ l ∈ linfo phdrs, ∀ k, k < l.span → ¬ LoaderMemory ((l.addr + k) % 2 ^ 32)

/-- The segments' own bytes, without the rest of their sectors, do not meet. -/
def RangesApart (phdrs : List Elf64Phdr) : Prop :=
  (phdrs.filter fun phdr => phdr.pType = ptLoad).Pairwise fun a b =>
    a.pPaddr + a.pFilesz ≤ b.pPaddr ∨ b.pPaddr + b.pFilesz ≤ a.pPaddr

/-- Whatever the memory held, every byte of every segment is at its place once
the loop is done. -/
def LoadsExactly (disk : Nat → UInt8) (phdrs : List Elf64Phdr) : Prop :=
  ∀ m, ∀ phdr ∈ phdrs, phdr.pType = ptLoad → ∀ k, k < phdr.pFilesz →
    (loadSegments disk m (linfo phdrs)).get (phdr.pPaddr + k) =
      disk (512 * kernelStartSector + phdr.pOffset + k)

/-- Every byte of every segment is covered, by the last segment that covers it
with a disk byte of the same value. -/
def EachByteLast (disk : Nat → UInt8) (phdrs : List Elf64Phdr) : Prop :=
  ∀ phdr ∈ phdrs, phdr.pType = ptLoad → ∀ k, k < phdr.pFilesz →
    ∃ l, lastOver (phdr.pPaddr + k) (linfo phdrs) = some l ∧
      disk (l.source (phdr.pPaddr + k)) = disk (512 * kernelStartSector + phdr.pOffset + k)

/-- The whole sectors of different segments do not meet. -/
def Apart (ls : List LoadInfo) : Prop :=
  ∀ l ∈ ls, ∀ l' ∈ ls, ∀ x, l.Covers x → l'.Covers x → l = l'

section Segments
variable {disk : Nat → UInt8} {phdrs : List Elf64Phdr} {ls : List LoadInfo} {l : LoadInfo}
  {m : Mem} {x : Nat}

theorem lastOver_mem (h : lastOver x ls = some l) : l ∈ ls ∧ l.Covers x := by
  induction ls with
  | nil => cases h
  | cons l' ls ih =>
    rw [lastOver, Option.or_eq_some_iff] at h
    rcases h with h | ⟨-, h⟩
    · exact ⟨List.mem_cons_of_mem l' (ih h).1, (ih h).2⟩
    · split at h
      · obtain rfl := Option.some.inj h
        exact ⟨List.mem_cons_self, ‹_›⟩
      · cases h

theorem lastOver_none (h : lastOver x ls = none) : ∀ l ∈ ls, ¬ l.Covers x := by
  induction ls with
  | nil => exact fun l hl => absurd hl List.not_mem_nil
  | cons l' ls ih =>
    rw [lastOver, Option.or_eq_none_iff] at h
    intro l hl
    rcases List.mem_cons.mp hl with rfl | hl
    · intro hc
      rw [if_pos hc] at h
      cases h.2
    · exact ih h.1 l hl

/-- A segment off the loader's memory stands apart from the disk buffer and
does not run past the top of the 32-bit space. -/
theorem clear_bounds (haddr : l.addr < 2 ^ 32)
    (clear : ∀ k, k < l.span → ¬ LoaderMemory ((l.addr + k) % 2 ^ 32)) :
    (l.addr + l.span ≤ 0x8000 ∨ 0xB000 ≤ l.addr) ∧ l.addr + l.span ≤ 2 ^ 32 := by
  have hspan : 0 < l.span := by
    unfold LoadInfo.span
    omega
  unfold LoaderMemory at clear
  constructor
  · have h0 := clear 0 hspan
    by_contra hmeets
    have hk := clear (0x8000 - l.addr) (by omega)
    omega
  · by_contra hwrap
    have hk := clear (2 ^ 32 - l.addr) (by omega)
    omega

theorem get_loadSegment (haddr : l.addr < 2 ^ 32)
    (sectors : kernelStartSector + l.offset / 512 + l.bytes / 512 < 2 ^ 15)
    (clear : ∀ k, k < l.span → ¬ LoaderMemory ((l.addr + k) % 2 ^ 32)) (hx : x < 2 ^ 64)
    (hout : x < 0x8000 ∨ 0xB000 ≤ x) :
    (loadSegment disk m l).get x = if l.Covers x then disk (l.source x) else m.get x := by
  have hstart : kernelStartSector = 12 := rfl
  obtain ⟨hoff, htop⟩ := clear_bounds haddr clear
  rw [LoadInfo.span] at hoff htop
  have hsector : (kernelStartSector + l.offset / 512) % 2 ^ 32 % 2 ^ 16 =
      kernelStartSector + l.offset / 512 := by
    omega
  rw [loadSegment, hsector, Nat.mod_eq_of_lt (by omega : l.bytes / 512 + 1 < 2 ^ 16)]
  exact get_loadSector (by omega) (by omega) htop hoff hx hout

/-- After the loop a byte comes from the last segment over it. -/
theorem get_loadSegments (haddr : ∀ l ∈ ls, l.addr < 2 ^ 32)
    (sectors : ∀ l ∈ ls, kernelStartSector + l.offset / 512 + l.bytes / 512 < 2 ^ 15)
    (clear : ∀ l ∈ ls, ∀ k, k < l.span → ¬ LoaderMemory ((l.addr + k) % 2 ^ 32))
    (hx : x < 2 ^ 64) (hout : x < 0x8000 ∨ 0xB000 ≤ x) :
    (loadSegments disk m ls).get x =
      ((lastOver x ls).map fun l => disk (l.source x)).getD (m.get x) := by
  induction ls generalizing m with
  | nil => rfl
  | cons l ls ih =>
    rw [loadSegments, List.foldl_cons, ← loadSegments,
      ih (fun l' hl => haddr l' (List.mem_cons_of_mem l hl))
        (fun l' hl => sectors l' (List.mem_cons_of_mem l hl))
        (fun l' hl => clear l' (List.mem_cons_of_mem l hl)),
      get_loadSegment (haddr l List.mem_cons_self) (sectors l List.mem_cons_self)
        (clear l List.mem_cons_self) hx hout, lastOver]
    cases lastOver x ls with
    | some l' => rfl
    | none =>
      rw [Option.none_or]
      split <;> rfl

end Segments

section Main
variable {disk : Nat → UInt8} {phdrs : List Elf64Phdr} {phdr : Elf64Phdr} {k : Nat}

theorem mem_linfo {l : LoadInfo} :
    l ∈ linfo phdrs ↔ ∃ phdr ∈ phdrs, phdr.pType = ptLoad ∧ loadInfo phdr = l := by
  simp [linfo, and_assoc]

namespace Loadable

theorem loadInfo_eq (ok : Loadable phdrs) (hmem : phdr ∈ phdrs) (hload : phdr.pType = ptLoad) :
    loadInfo phdr = ⟨phdr.pFilesz, phdr.pPaddr % 2 ^ 32, phdr.pOffset⟩ := by
  have hs := ok.sectors phdr hmem hload
  rw [loadInfo, Nat.mod_eq_of_lt (by omega : phdr.pFilesz < 2 ^ 32),
    Nat.mod_eq_of_lt (by omega : phdr.pOffset < 2 ^ 32)]

theorem get_linfo (ok : Loadable phdrs) {m : Mem} {x : Nat} (hx : x < 2 ^ 64)
    (hout : x < 0x8000 ∨ 0xB000 ≤ x) :
    (loadSegments disk m (linfo phdrs)).get x =
      ((lastOver x (linfo phdrs)).map fun l => disk (l.source x)).getD (m.get x) := by
  apply get_loadSegments _ _ ok.clear hx hout
  · intro l hl
    obtain ⟨phdr, -, -, rfl⟩ := mem_linfo.mp hl
    exact Nat.mod_lt _ (by decide)
  · intro l hl
    obtain ⟨phdr, hmem, hload, rfl⟩ := mem_linfo.mp hl
    rw [ok.loadInfo_eq hmem hload]
    exact ok.sectors phdr hmem hload

theorem byte_bounds (ok : Loadable phdrs) (hmem : phdr ∈ phdrs) (hload : phdr.pType = ptLoad)
    (hk : k < phdr.pFilesz) :
    (phdr.pPaddr + k < 0x8000 ∨ 0xB000 ≤ phdr.pPaddr + k) ∧ phdr.pPaddr + k < 2 ^ 64 := by
  have hr := ok.ranges phdr hmem hload
  refine ⟨?_, by omega⟩
  have hl := mem_linfo.mpr ⟨phdr, hmem, hload, rfl⟩
  have hb := (clear_bounds (Nat.mod_lt _ (by decide)) (ok.clear _ hl)).1
  rw [ok.loadInfo_eq hmem hload, LoadInfo.span] at hb
  simp only at hb
  omega

end Loadable

/-- Segments that start on a sector boundary in the file, lie below 4 GiB and
whose whole sectors do not meet. -/
theorem eachByteLast_of_apart (ok : Loadable phdrs) (apart : Apart (linfo phdrs))
    (aligned : ∀ phdr ∈ phdrs, phdr.pType = ptLoad →
      phdr.pOffset % 512 = 0 ∧ phdr.pPaddr < 2 ^ 32) : EachByteLast disk phdrs := by
  intro phdr hmem hload k hk
  obtain ⟨hoff, haddr⟩ := aligned phdr hmem hload
  have heq := ok.loadInfo_eq hmem hload
  rw [Nat.mod_eq_of_lt haddr] at heq
  have hin : loadInfo phdr ∈ linfo phdrs := mem_linfo.mpr ⟨phdr, hmem, hload, rfl⟩
  have hcov : (loadInfo phdr).Covers (phdr.pPaddr + k) := by
    rw [heq, LoadInfo.Covers, LoadInfo.span]
    simp only
    omega
  cases hlast : lastOver (phdr.pPaddr + k) (linfo phdrs) with
  | none => exact absurd hcov (lastOver_none hlast _ hin)
  | some l =>
    obtain ⟨hl, hc⟩ := lastOver_mem hlast
    obtain rfl := apart _ hin l hl _ hcov hc
    refine ⟨_, rfl, ?_⟩
    rw [heq, LoadInfo.source]
    congr 1
    simp only
    omega

/-- The loop loads the segments exactly if and only if every byte is the work
of the last segment over it. -/
theorem loads_exactly_iff (ok : Loadable phdrs) :
    LoadsExactly disk phdrs ↔ EachByteLast disk phdrs := by
  constructor
  · intro loaded phdr hmem hload k hk
    obtain ⟨hout, hhigh⟩ := ok.byte_bounds hmem hload hk
    -- a byte that no segment covers keeps what the memory held before
    have hbyte := loaded ⟨fun _ => disk (512 * kernelStartSector + phdr.pOffset + k) + 1⟩
      phdr hmem hload k hk
    rw [ok.get_linfo hhigh hout] at hbyte
    cases hlast : lastOver (phdr.pPaddr + k) (linfo phdrs) with
    | none =>
      rw [hlast] at hbyte
      simp [Mem.get] at hbyte
    | some l =>
      rw [hlast] at hbyte
      exact ⟨l, rfl, hbyte⟩
  · intro last m phdr hmem hload k hk
    obtain ⟨hout, hhigh⟩ := ok.byte_bounds hmem hload hk
    obtain ⟨l, hlast, hbyte⟩ := last phdr hmem hload k hk
    rw [ok.get_linfo hhigh hout, hlast]
    exact hbyte

end Main

/-- A kernel of one page-aligned segment. -/
def onePage : List Elf64Phdr := [⟨ptLoad, 0x1000, 0x100000, 1000⟩]

/-- The same with its bytes in the middle of a sector of the file. -/
def midSector : List Elf64Phdr := [⟨ptLoad, 256, 0x100000, 1⟩]

theorem loadable_single {offset paddr filesz : Nat}
    (sectors : kernelStartSector + offset / 512 + filesz / 512 < 2 ^ 15) (low : 0xB000 ≤ paddr)
    (high : paddr + 512 * (filesz / 512 + 1) ≤ 2 ^ 32) :
    Loadable [⟨ptLoad, offset, paddr, filesz⟩] := by
  refine ⟨by simp [linfo], ?_, ?_, ?_⟩
  · intro phdr hmem _
    obtain rfl := List.mem_singleton.mp hmem
    simp only
    omega
  · intro phdr hmem _
    obtain rfl := List.mem_singleton.mp hmem
    exact sectors
  · intro l hl k hk
    obtain ⟨phdr, hmem, -, rfl⟩ := mem_linfo.mp hl
    obtain rfl := List.mem_singleton.mp hmem
    simp only [loadInfo, LoadInfo.span, LoaderMemory] at hk ⊢
    omega

theorem onePage_loads : LoadsExactly UInt8.ofNat onePage := by
  have ok : Loadable onePage := loadable_single (by decide) (by decide) (by decide)
  refine (loads_exactly_iff ok).mpr (eachByteLast_of_apart ok ?_ ?_)
  · intro l hl l' hl' _ _ _
    obtain ⟨phdr, hmem, -, rfl⟩ := mem_linfo.mp hl
    obtain ⟨phdr', hmem', -, rfl⟩ := mem_linfo.mp hl'
    rw [List.mem_singleton.mp hmem, List.mem_singleton.mp hmem']
  · intro phdr hmem _
    obtain rfl := List.mem_singleton.mp hmem
    decide

/-- The byte at `p_offset` 256 of the file is wanted, the one at 0 is loaded. -/
theorem midSector_misloaded :
    ¬ ∀ (disk : Nat → UInt8) (phdrs : List Elf64Phdr), Loadable phdrs → RangesApart phdrs →
      LoadsExactly disk phdrs := by
  intro allLoaded
  have ok : Loadable midSector := loadable_single (by decide) (by decide) (by decide)
  have hbyte := allLoaded (fun b => UInt8.ofNat (b / 256)) midSector ok (List.pairwise_singleton _ _)
    ⟨fun _ => 0⟩ _ (List.mem_singleton.mpr rfl) rfl 0 (by decide)
  rw [ok.get_linfo (by decide) (by decide)] at hbyte
  revert hbyte
  decide

end WaddleOS
