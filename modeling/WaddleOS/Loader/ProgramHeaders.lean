import WaddleOS.Loader.Segments

/-!
# `loader/boot1/main.c`: reading the program headers

The ELF header is copied from the first sector of the kernel's image, and one
round for each program header fills `linfo`. A round picks the sector by the
header's distance from the start of the table, as if the table started a
sector, and the place in the sector by its distance from the start of the file.
-/

namespace WaddleOS

/-- What `main` reads of an `Elf64_Ehdr`. -/
structure Elf64Ehdr where
  ePhoff : Nat
  ePhentsize : Nat
  ePhnum : Nat
  deriving DecidableEq, Repr

def loadEhdr (m : Mem) (a : Nat) : Elf64Ehdr :=
  ⟨load m (a + 32) 8, load m (a + 54) 2, load m (a + 56) 2⟩

def loadPhdr (m : Mem) (a : Nat) : Elf64Phdr :=
  ⟨load m a 4, load m (a + 8) 8, load m (a + 24) 8, load m (a + 32) 8⟩

/-- The memory when the loop begins: the image's first sector is in the buffer. -/
def firstSector (disk : Nat → UInt8) (m : Mem) : Mem := loadSectorAsm disk m kernelStartSector 1

def localEhdr (disk : Nat → UInt8) (m : Mem) : Elf64Ehdr :=
  loadEhdr (firstSector disk m) diskBufferAddr

/-- The sectors that round `i` loads. -/
def loadHeader (disk : Nat → UInt8) (m : Mem) (e : Elf64Ehdr) (i : Nat) : Mem :=
  loadSectorAsm disk m ((kernelStartSector + i * e.ePhentsize / 512) % 2 ^ 16)
    ((e.ePhentsize / 512 + 2) % 2 ^ 16)

/-- `phdr` in round `i`. -/
def phdrAddr (e : Elf64Ehdr) (i : Nat) : Nat :=
  diskBufferAddr + (e.ePhoff + i * e.ePhentsize) % 2 ^ 64 % 512

/-- The loop after `n` rounds: the memory, and the headers as it saw them. -/
def headerRounds (disk : Nat → UInt8) (m : Mem) (e : Elf64Ehdr) : Nat → Mem × List Elf64Phdr
  | 0 => (m, [])
  | i + 1 =>
    let r := headerRounds disk m e i
    let m := loadHeader disk r.1 e i
    (m, r.2 ++ [loadPhdr m (phdrAddr e i)])

/-- The headers that `linfo` is made of. -/
def programHeaders (disk : Nat → UInt8) (m : Mem) : List Elf64Phdr :=
  (headerRounds disk (firstSector disk m) (localEhdr disk m) (localEhdr disk m).ePhnum).2

/-- The kernel's image by file offset. -/
def image (disk : Nat → UInt8) : Mem := ⟨fun x => disk (512 * kernelStartSector + x)⟩

/-- In every round the 56 bytes taken for the program header are the image's at
`e_phoff + i * e_phentsize`. -/
def HeadersRead (disk : Nat → UInt8) (m : Mem) : Prop :=
  ∀ i, i < (localEhdr disk m).ePhnum → ∀ k, k < 56 →
    (headerRounds disk (firstSector disk m) (localEhdr disk m) (i + 1)).1.get
        (phdrAddr (localEhdr disk m) i + k) =
      disk (512 * kernelStartSector +
        ((localEhdr disk m).ePhoff + i * (localEhdr disk m).ePhentsize + k))

/-- The table of program headers ends below sector 32768. -/
def TableLow (e : Elf64Ehdr) : Prop :=
  512 * kernelStartSector + e.ePhoff + e.ePhnum * e.ePhentsize ≤ 512 * 2 ^ 15

instance (e : Elf64Ehdr) : Decidable (TableLow e) := inferInstanceAs (Decidable (_ ≤ _))

/-- The file offset of the byte that round `i` takes for byte `k` of its header. -/
def headerSource (e : Elf64Ehdr) (i k : Nat) : Nat :=
  512 * (i * e.ePhentsize / 512) + (e.ePhoff + i * e.ePhentsize) % 512 + k

section Headers

variable {disk : Nat → UInt8} {m : Mem} {e : Elf64Ehdr} {i k n : Nat}

theorem get_image {x : Nat} (hx : x < 2 ^ 64) :
    (image disk).get x = disk (512 * kernelStartSector + x) := by
  rw [Mem.get, image, Nat.mod_eq_of_lt hx]

theorem get_firstSector (hk : k < 512) :
    (firstSector disk m).get (diskBufferAddr + k) = (image disk).get k := by
  have hbuf : diskBufferAddr = 0x8000 := rfl
  rw [firstSector, loadSectorAsm_ok (show 12 ≤ kernelStartSector from Nat.le_refl 12) (by decide)
    (by decide), get_rmodeLoadSector (by omega), if_pos (by omega), Nat.add_sub_cancel_left,
    get_image (by omega)]

/-- The local copy of the ELF header is the image's. -/
theorem localEhdr_eq (disk : Nat → UInt8) (m : Mem) : localEhdr disk m = loadEhdr (image disk) 0 := by
  have hfield : ∀ o n, o + n ≤ 512 →
      load (firstSector disk m) (diskBufferAddr + o) n = load (image disk) (0 + o) n := by
    intro o n hon
    refine load_eq_iff.mpr fun i hi => ?_
    rw [Nat.add_assoc, get_firstSector (by omega), Nat.zero_add]
  simp only [localEhdr, loadEhdr, hfield 32 8 (by decide), hfield 54 2 (by decide),
    hfield 56 2 (by decide)]

/-- What a round finds in the buffer. -/
theorem get_loadHeader (disk : Nat → UInt8) (m : Mem) (hsize : e.ePhentsize = 56)
    (hlow : TableLow e) (hi : i < e.ePhnum) (hk : k < 56) :
    (loadHeader disk m e i).get (phdrAddr e i + k) =
      disk (512 * kernelStartSector + headerSource e i k) := by
  have hbuf : diskBufferAddr = 0x8000 := rfl
  have hstart : kernelStartSector = 12 := rfl
  unfold TableLow at hlow
  rw [hsize] at hlow
  have hsector : (kernelStartSector + i * 56 / 512) % 2 ^ 16 = kernelStartSector + i * 56 / 512 := by
    omega
  have hplace : (e.ePhoff + i * 56) % 2 ^ 64 % 512 = (e.ePhoff + i * 56) % 512 := by omega
  rw [loadHeader, phdrAddr, headerSource, hsize, hsector, hplace,
    loadSectorAsm_ok (by omega) (by omega) (by decide), get_rmodeLoadSector (by omega),
    if_pos (by omega)]
  exact congrArg disk (by omega)

/-- The byte taken is the header's own exactly if the header starts less than a
sector after the sector picked. -/
theorem headerSource_eq_iff (e : Elf64Ehdr) (i k : Nat) :
    headerSource e i k = e.ePhoff + i * e.ePhentsize + k ↔
      e.ePhoff + i * e.ePhentsize % 512 < 512 := by
  unfold headerSource
  generalize i * e.ePhentsize = p
  omega

/-- The headers are read from their places exactly if each of them starts in the
sector that its distance from the start of the table gives, or holds the same
bytes as the place in that sector. -/
theorem headersRead_iff (disk : Nat → UInt8) (m : Mem)
    (hsize : (localEhdr disk m).ePhentsize = 56) (hlow : TableLow (localEhdr disk m)) :
    HeadersRead disk m ↔
      ∀ i, i < (localEhdr disk m).ePhnum →
        (localEhdr disk m).ePhoff + i * 56 % 512 < 512 ∨
        ∀ k, k < 56 →
          (image disk).get (512 * (i * 56 / 512) + ((localEhdr disk m).ePhoff + i * 56) % 512 + k) =
            (image disk).get ((localEhdr disk m).ePhoff + i * 56 + k) := by
  generalize he : localEhdr disk m = e at *
  have hround : ∀ i, i < e.ePhnum → ∀ k, k < 56 →
      (headerRounds disk (firstSector disk m) e (i + 1)).1.get (phdrAddr e i + k) =
        (image disk).get (headerSource e i k) := by
    intro i hi k hk
    have hlt : headerSource e i k < 2 ^ 64 := by
      unfold headerSource TableLow at *
      rw [hsize] at hlow ⊢
      omega
    rw [get_image hlt]
    exact get_loadHeader disk _ hsize hlow hi hk
  have htarget : ∀ i, i < e.ePhnum → ∀ k, k < 56 →
      disk (512 * kernelStartSector + (e.ePhoff + i * e.ePhentsize + k)) =
        (image disk).get (e.ePhoff + i * 56 + k) := by
    intro i hi k hk
    unfold TableLow at hlow
    rw [hsize] at hlow ⊢
    rw [get_image (by omega)]
  rw [HeadersRead, he]
  refine forall₂_congr fun i hi => ?_
  have hplace := headerSource_eq_iff e i
  simp only [headerSource, hsize] at hround hplace
  constructor
  · intro hall
    refine .inr fun k hk => ?_
    rw [← hround i hi k hk, ← htarget i hi k hk]
    exact hall k hk
  · intro hcond k hk
    rw [hround i hi k hk, htarget i hi k hk]
    rcases hcond with hin | hsame
    · rw [(hplace k).mpr hin]
    · exact hsame k hk

/-- `linfo` is then made of the image's own headers. -/
theorem HeadersRead.programHeaders_eq (h : HeadersRead disk m)
    (hsize : (localEhdr disk m).ePhentsize = 56) (hlow : TableLow (localEhdr disk m)) :
    programHeaders disk m = (List.range (localEhdr disk m).ePhnum).map fun i =>
      loadPhdr (image disk) ((localEhdr disk m).ePhoff + i * 56) := by
  unfold HeadersRead TableLow at *
  unfold programHeaders
  generalize localEhdr disk m = e at *
  have hrounds : ∀ n, n ≤ e.ePhnum → (headerRounds disk (firstSector disk m) e n).2 =
      (List.range n).map fun i => loadPhdr (image disk) (e.ePhoff + i * 56) := by
    intro n hn
    induction n with
    | zero => rfl
    | succ n ih =>
      have hfield : ∀ o l, o + l ≤ 56 →
          load (headerRounds disk (firstSector disk m) e (n + 1)).1 (phdrAddr e n + o) l =
            load (image disk) (e.ePhoff + n * 56 + o) l := by
        intro o l hol
        refine load_eq_iff.mpr fun i hi => ?_
        rw [hsize] at hlow
        have hlt : e.ePhoff + n * 56 + (o + i) < 2 ^ 64 := by omega
        rw [Nat.add_assoc, Nat.add_assoc _ o, h n (by omega) (o + i) (by omega), hsize, get_image hlt]
      have hphdr : loadPhdr (headerRounds disk (firstSector disk m) e (n + 1)).1 (phdrAddr e n) =
          loadPhdr (image disk) (e.ePhoff + n * 56) := by
        simp only [loadPhdr, hfield 8 8 (by decide), hfield 24 8 (by decide), hfield 32 8 (by decide)]
        congr 1
        exact hfield 0 4 (by decide)
      rw [List.range_succ, List.map_append, ← ih (by omega), List.map_singleton, ← hphdr]
      rfl
  exact hrounds e.ePhnum (Nat.le_refl _)

end Headers

/-- An image with its table of `phnum` program headers right after the ELF
header, all of its bytes zero from there on. -/
def elfDisk (phnum : UInt8) (x : Nat) : UInt8 :=
  ([(6144, 0x7F), (6145, 0x45), (6146, 0x4C), (6147, 0x46), (6144 + 32, 64), (6144 + 54, 56),
    (6144 + 56, phnum)].lookup x).getD 0

theorem headersRead_eight : HeadersRead (elfDisk 8) ⟨fun _ => 0⟩ := by
  have he : localEhdr (elfDisk 8) ⟨fun _ => 0⟩ = ⟨64, 56, 8⟩ := by
    rw [localEhdr_eq]
    decide +kernel
  refine (headersRead_iff (elfDisk 8) ⟨fun _ => 0⟩ (by rw [he]) (by rw [he]; decide)).mpr ?_
  have hfirst : ∀ i, i < 8 → 64 + i * 56 % 512 < 512 := by decide
  rw [he]
  exact fun i hi => .inl (hfirst i hi)

/-- The ninth header after an ELF header starts the next sector, and is taken
from the start of the file. -/
theorem ninth_header_misread :
    ¬ ∀ (disk : Nat → UInt8) (m : Mem), (localEhdr disk m).ePhentsize = 56 →
      TableLow (localEhdr disk m) → HeadersRead disk m := by
  intro allRead
  have he : localEhdr (elfDisk 9) ⟨fun _ => 0⟩ = ⟨64, 56, 9⟩ := by
    rw [localEhdr_eq]
    decide +kernel
  have hread := allRead (elfDisk 9) ⟨fun _ => 0⟩ (by rw [he]) (by rw [he]; decide)
  rw [HeadersRead, he] at hread
  have hbyte := hread 8 (by decide) 0 (by decide)
  have hsource := get_loadHeader (elfDisk 9)
    (headerRounds (elfDisk 9) (firstSector (elfDisk 9) ⟨fun _ => 0⟩) ⟨64, 56, 9⟩ 8).1
    (e := ⟨64, 56, 9⟩) (i := 8) (k := 0) rfl (by decide) (by decide) (by decide)
  have hsame := hsource.symm.trans hbyte
  exact absurd hsame (by decide +kernel)

end WaddleOS
