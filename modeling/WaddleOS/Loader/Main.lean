import WaddleOS.Loader.Handover
import WaddleOS.Loader.LongMode
import WaddleOS.Loader.ProgramHeaders
import WaddleOS.Loader.Requests

/-!
# `loader/boot1/main.c`: from the disk to the kernel's first instruction

`main` with `long_mode` at its end. The first segment is loaded twice, once for
its multiboot header and once with the others. What it prints is not modelled. The
loader's own variables are not read from the memory: a run in which a segment
or the boot information is put on them is given up.

* `info_outside`: the boot information stays between its first word and the end
  that its cursors lead to;
* `KernelImage.loaderMain_eq`: with a well-formed image `main` gets to the kernel
  if that end is below the page tables;
* `kernel_entered`: there the first 2 MiB of the image are read at their virtual
  addresses, and nothing of what lies above.
-/

namespace WaddleOS

/-- `ELFMAG`, as the word that its four bytes make. -/
def elfMag : Nat := 0x464C457F

def multiboot2HeaderMagic : Nat := 0xE85250D6

def multiboot2BootloaderMagic : Nat := 0x36D76289

/-- Where `main` stops short of the kernel. -/
inductive Stop where
  | elfMagic
  /-- `linfo[0]` is read and nothing has been written there -/
  | noSegment
  /-- `linfo` has five elements -/
  | linfoFull
  | headerMagic
  | headerChecksum
  | noLongMode
  /-- the loader, or what the BIOS keeps in low memory, has been written on -/
  | overwritten
  | fault (f : Fault)
  deriving DecidableEq, Repr

/-- A check whose failure ends in `while(1)`. -/
def require (stop : Stop) (p : Prop) [Decidable p] : Except Stop Unit :=
  if p then .ok () else .error stop

/-- The processor at the kernel's first instruction. -/
structure Entered where
  mem : Mem
  cr3 : Nat
  rip : Nat
  eax : Nat
  ebx : Nat

/-- The byte at a virtual address; none where no page is mapped. -/
def Entered.read (k : Entered) (v : Nat) : Option UInt8 := (physWalk k.mem k.cr3 v).map k.mem.get

/-- The interrupt table with the BIOS data and the loader's image up to its stack
are as they were. -/
def LoaderKept (m m' : Mem) : Prop :=
  ∀ x, x < 0x6C00 → x < 0x500 ∨ 0x1000 ≤ x → m'.get x = m.get x

instance (m m' : Mem) : Decidable (LoaderKept m m') :=
  Nat.decidableBallLT 0x6C00 fun x _ => x < 0x500 ∨ 0x1000 ≤ x → m'.get x = m.get x

/-- The `i`-th word of the `struct multiboot_header` at `mhdr`. -/
def headerWord (m : Mem) (mhdr i : Nat) : Nat := load m ((mhdr + 4 * i) % 2 ^ 32) 4

/-- `main`, on a processor with or without long mode. -/
def loaderMain (fuel : Nat) (disk : Nat → UInt8) (bios : Bios) (longModeThere : Bool) (m : Mem) :
    Except Stop Entered := do
  let first := firstSector disk m
  let e := localEhdr disk m
  require .elfMagic (load first diskBufferAddr 4 = elfMag)
  let read := headerRounds disk first e e.ePhnum
  let ls := linfo read.2
  require .linfoFull (ls.length ≤ 5)
  let l ← (ls.head?.map Except.ok).getD (.error .noSegment)
  let m := loadSegment disk read.1 l
  require .overwritten (LoaderKept read.1 m)
  require .headerMagic (headerWord m l.addr 0 = multiboot2HeaderMagic)
  require .headerChecksum ((headerWord m l.addr 0 + headerWord m l.addr 1 + headerWord m l.addr 2 +
    headerWord m l.addr 3) % 2 ^ 32 = 0)
  let requested ← (tagsRequestedBmap fuel m l.addr).mapError .fault
  let info ← (buildBootInfo fuel bios m requested).mapError .fault
  require .overwritten (LoaderKept m info.mem)
  let m := loadSegments disk info.mem ls
  require .overwritten (LoaderKept info.mem m)
  require .noLongMode (longModeThere = true)
  -- `_kernel_entry = local_ehdr.e_entry`
  return ⟨longMode m, p4tAddr, load first (diskBufferAddr + 24) 8, multiboot2BootloaderMagic,
    multibootReturnInfoAddr⟩

/-! ## The kernel's image -/

/-- The `.multiboot` section of startup.S: the place, width and value of each field. -/
def multibootHdr : List (Nat × Nat × Nat) :=
  [(0, 4, multiboot2HeaderMagic), (4, 4, 0), (8, 4, 88),
    (12, 4, 2 ^ 32 - (multiboot2HeaderMagic + 0 + 88)),
    -- `multiboot_tags_requested`
    (16, 2, multibootHeaderTagInformationRequest), (18, 2, 0), (20, 4, 16),
    (24, 4, multibootTagTypeBasicMeminfo), (28, 4, multibootTagTypeMmap),
    -- `multiboot_tag_align`
    (32, 2, 6), (34, 2, 0), (36, 4, 8),
    -- `multiboot_tag_console_flags`
    (40, 2, 4), (42, 2, 0), (44, 4, 12), (48, 4, 3),
    -- `multiboot_tag_framebuffer`
    (56, 2, 5), (58, 2, 0), (60, 4, 20), (64, 4, 0), (68, 4, 0), (72, 4, 32),
    -- `multiboot_tag_terminator`
    (80, 2, multibootHeaderTagEnd), (82, 2, 0), (84, 4, 8)]

def HeaderAt (m : Mem) (a : Nat) : Prop := ∀ f ∈ multibootHdr, load m (a + f.1) f.2.1 = f.2.2

instance (m : Mem) (a : Nat) : Decidable (HeaderAt m a) := by
  unfold HeaderAt
  infer_instance

/-- The program headers where the image has them. -/
def imageHeaders (disk : Nat → UInt8) : List Elf64Phdr :=
  (List.range (loadEhdr (image disk) 0).ePhnum).map fun i =>
    loadPhdr (image disk) ((loadEhdr (image disk) 0).ePhoff + i * 56)

/-- Past the page tables of `long_mode`. -/
def tablesEnd : Nat := p1tAddr + 4096

/-- An image that `main` can load: its program headers lie where `main` looks
for them, its segments stand apart on whole sectors behind the page tables, and
the first one starts with the multiboot header. -/
structure KernelImage (disk : Nat → UInt8) : Prop where
  magic : load (image disk) 0 4 = elfMag
  entsize : (loadEhdr (image disk) 0).ePhentsize = 56
  low : TableLow (loadEhdr (image disk) 0)
  together : ∀ i, i < (loadEhdr (image disk) 0).ePhnum →
    (loadEhdr (image disk) 0).ePhoff + i * 56 % 512 < 512
  loadable : Loadable (imageHeaders disk)
  apart : Apart (linfo (imageHeaders disk))
  aligned : ∀ phdr ∈ imageHeaders disk, phdr.pType = ptLoad →
    phdr.pOffset % 512 = 0 ∧ phdr.pPaddr < 2 ^ 32
  placed : ∀ l ∈ linfo (imageHeaders disk), tablesEnd ≤ l.addr
  header : ∃ l, (linfo (imageHeaders disk)).head? = some l ∧ l.addr % 8 = 0 ∧ 88 ≤ l.bytes ∧
    HeaderAt (image disk) l.offset

/-! ## What the steps leave alone -/

section Frames

variable {disk : Nat → UInt8} {m : Mem} {e : Elf64Ehdr} {n x : Nat}

theorem headerRounds_outside (hsize : e.ePhentsize = 56) (hx : x < 2 ^ 64)
    (hout : x < 0x8000 ∨ 0xB000 ≤ x) (n : Nat) :
    (headerRounds disk m e n).1.get x = m.get x := by
  induction n with
  | zero => rfl
  | succ n ih =>
    rw [headerRounds, loadHeader, hsize, get_loadSectorAsm_outside (by decide) hx hout]
    exact ih

theorem firstSector_outside (hx : x < 2 ^ 64) (hout : x < 0x8000 ∨ 0xB000 ≤ x) :
    (firstSector disk m).get x = m.get x :=
  get_loadSectorAsm_outside (by decide) hx hout

theorem SameOutside.movEntry {lo hi a : Nat} {m m' : Mem} (h : SameOutside lo hi m m') (v : Nat)
    (hlo : lo ≤ a) (hhi : a + 8 ≤ hi) (hb : hi ≤ 2 ^ 64) :
    SameOutside lo hi m (WaddleOS.movEntry m' a v) :=
  (h.store v hlo (by omega) hb).store 0 (by omega) (by omega) hb

theorem SameOutside.memset {lo hi a k : Nat} {m m' : Mem} (h : SameOutside lo hi m m') (v : Nat)
    (hlo : lo ≤ a) (hhi : a + k ≤ hi) (hb : hi ≤ 2 ^ 64) :
    SameOutside lo hi m (WaddleOS.memset m' a v k) := by
  intro x hx hout
  have hbyte := get_memset m' v (show a + k ≤ 2 ^ 64 by omega) (b := 0) hx
  rw [Nat.zero_add, Nat.zero_add, if_neg (by omega)] at hbyte
  rw [hbyte, h x hx hout]

/-- `long_mode` writes its five tables. -/
theorem sameOutside_longMode (m : Mem) : SameOutside p4tAddr tablesEnd m (longMode m) := by
  have entries : ∀ {m'}, SameOutside p4tAddr tablesEnd m m' → ∀ n, n ≤ 512 →
      SameOutside p4tAddr tablesEnd m (setEntries m' n) := by
    intro m' h n hn
    induction n with
    | zero => exact h
    | succ n ih =>
      exact (ih (by omega)).movEntry _ (by unfold p4tAddr p1tAddr; omega)
        (by unfold tablesEnd; omega) (by decide)
  have start := (SameOutside.refl p4tAddr tablesEnd m).memset 0 (Nat.le_refl _)
    (show p4tAddr + 4 * 4096 ≤ tablesEnd by decide) (by decide)
  have tables := ((((start.movEntry (tableEntry p3tAddr) (a := p4tAddr) (by decide) (by decide)
    (by decide)).movEntry (tableEntry p3t2Addr) (a := p4tAddr + 511 * 8) (by decide) (by decide)
    (by decide)).movEntry (tableEntry p2tAddr) (a := p3tAddr) (by decide) (by decide)
    (by decide)).movEntry (tableEntry p2tAddr) (a := p3t2Addr + 510 * 8) (by decide) (by decide)
    (by decide)).movEntry (tableEntry p1tAddr) (a := p2tAddr) (by decide) (by decide) (by decide)
  exact entries tables 512 (Nat.le_refl _)

end Frames

/-! ## The boot information -/

section Info

variable {bios : Bios} {m m' : Mem} {s : TagLoop} {c k top : Nat}

/-- A round writes the total and the tag of its type, if that is requested. -/
theorem SameOutside.afterRound (h : SameOutside multibootReturnInfoAddr top m s.mem)
    (room : multibootReturnInfoAddr + 4 ≤ top) (high : top ≤ 2 ^ 32)
    (place : s.requested % 2 = 1 → multibootReturnInfoAddr ≤ s.curr ∧
      (s.type = multibootTagTypeBasicMeminfo ∧ s.curr + 16 ≤ top ∨
        s.type = multibootTagTypeMmap ∧ s.curr + 16 + 24 * bios.entries.length ≤ top)) :
    SameOutside multibootReturnInfoAddr top m (afterRound bios s).mem := by
  have written : SameOutside multibootReturnInfoAddr top m
      (if s.requested % 2 = 1 then afterTag bios s.mem s.type s.curr else s.mem) := by
    split
    · rename_i requested
      obtain ⟨low, ⟨type, fits⟩ | ⟨type, fits⟩⟩ := place requested
      · rw [type]
        exact h.afterMeminfo low fits high
      · rw [type]
        exact h.afterMmap low fits high
    · exact h
  exact written.addTotal s.curr (Nat.le_refl _) room (by omega)

/-- The boot information ends where its cursors lead, as the memory was before. -/
theorem info_outside (bios : Bios) (fits : writtenEnd m true true bios ≤ top) (high : top ≤ 2 ^ 32)
    (hk : k ≤ 7) : SameOutside multibootReturnInfoAddr top m
      ((afterRound bios)^[k] (bootInfoStart m (asked true true))).mem := by
  have start : firstTag % 8 = 0 ∧ firstTag = multibootReturnInfoAddr + 8 := by decide
  obtain ⟨first, align⟩ := iterate_skipTag_ge (m := m) (k := 4) start.1
  have next := skipTag_ge m ((skipTag m)^[4] firstTag + 16) (by omega)
  simp only [writtenEnd, if_true] at fits
  induction k with
  | zero =>
    exact ((SameOutside.refl multibootReturnInfoAddr top m).store 2 (Nat.le_refl _) (by omega)
      (by omega)).store 0 (by omega) (by omega) (by omega)
  | succ k ih =>
    have w := TagsWritten.rounds bios m (asked true true) (k := k) (by omega)
    rw [Function.iterate_succ_apply']
    refine (ih (by omega)).afterRound (by omega) high fun requested => ?_
    rw [w.requested] at requested
    have only : ∀ k, k < 7 → asked true true / 2 ^ k % 2 = 1 → k = 4 ∨ k = 6 := by decide
    rcases only k (by omega) requested with rfl | rfl
    · have place := (skip_rounds bios m (asked true true) 4 (by decide) (by decide) (by omega)).1
      rw [w.type, place]
      exact ⟨by omega, .inl ⟨rfl, by omega⟩⟩
    · have place := both_written_place bios (m := m) rfl (by omega)
      rw [w.type, place]
      exact ⟨by omega, .inr ⟨rfl, fits⟩⟩

theorem skipTag_congr (same : ∀ x, firstTag ≤ x → x < top → m'.get x = m.get x) (low : firstTag ≤ c)
    (below : c + 8 ≤ top) : skipTag m' c = skipTag m c := by
  have size : tagSize m' c = tagSize m c :=
    load_congr fun i hi => same _ (by omega) (by omega)
  rw [skipTag, skipTag, size]

/-- The cursors read nothing outside what they pass. -/
theorem writtenEnd_congr (same : ∀ x, firstTag ≤ x → x < top → m'.get x = m.get x)
    (fits : writtenEnd m true true bios ≤ top) :
    writtenEnd m' true true bios = writtenEnd m true true bios := by
  have start : firstTag % 8 = 0 := by decide
  obtain ⟨first, align⟩ := iterate_skipTag_ge (m := m) (k := 4) start
  have next := skipTag_ge m ((skipTag m)^[4] firstTag + 16) (by omega)
  simp only [writtenEnd, if_true] at fits ⊢
  have rounds : ∀ k, k ≤ 4 → (skipTag m')^[k] firstTag = (skipTag m)^[k] firstTag := by
    intro k hk
    induction k with
    | zero => rfl
    | succ k ih =>
      obtain ⟨low, aligned⟩ := iterate_skipTag_ge (m := m) (k := k) start
      have later := (iterate_skipTag_ge (m := m) (k := 4 - k) aligned).1
      rw [← Function.iterate_add_apply, show 4 - k + k = 4 by omega] at later
      rw [Function.iterate_succ_apply', Function.iterate_succ_apply', ih (by omega),
        skipTag_congr same low (by omega)]
  rw [rounds 4 (Nat.le_refl _), skipTag_congr same (by omega) (by omega)]

theorem SameOutside.loaderKept {lo hi : Nat} (h : SameOutside lo hi m m') (above : 0x6C00 ≤ lo) :
    LoaderKept m m' :=
  fun x hx _ => h x (by omega) (.inl (by omega))

end Info

/-! ## The multiboot header -/

section Header

variable {m : Mem} {a fuel : Nat}

theorem HeaderAt.field (h : HeaderAt m a) (o n v : Nat) (hf : (o, n, v) ∈ multibootHdr) :
    load m (a + o) n = v := h _ hf

/-- A tag that requests nothing is stepped over. -/
theorem headerTagLoop_skip {tag next bmap : Nat} (goesOn : headerTagType m tag ≠ multibootHeaderTagEnd)
    (other : headerTagType m tag ≠ multibootHeaderTagInformationRequest)
    (hnext : nextHeaderTag m tag = next) :
    headerTagLoop m (fuel + 1) tag bmap = headerTagLoop m fuel next bmap := by
  rw [headerTagLoop, if_pos goesOn, addRequests, if_neg other, hnext]
  rfl

/-- The one information request of the header. -/
theorem HeaderAt.request (h : HeaderAt m a) (hfuel : 3 ≤ fuel) :
    addRequests m fuel (a + 16) 0 = .ok (asked true true) := by
  have type := h.field 16 2 multibootHeaderTagInformationRequest (by decide)
  have size := h.field 20 4 16 (by decide)
  have meminfo := h.field 24 4 4 (by decide)
  have mmap := h.field 28 4 6 (by decide)
  have count : requestCount m (a + 16) = 2 := by
    have value : headerTagSize m (a + 16) = 16 := size
    rw [requestCount, value]
    rfl
  have first : headerTagRequest m (a + 16) 0 = multibootTagTypeBasicMeminfo := meminfo
  have second : headerTagRequest m (a + 16) 1 = multibootTagTypeMmap := mmap
  obtain ⟨fuel, rfl⟩ : ∃ k, fuel = k + 3 := ⟨fuel - 3, by omega⟩
  rw [addRequests, headerTagType, type, if_pos rfl]
  simp [requestLoop, count, first, second, asked, multibootTagTypeBasicMeminfo, multibootTagTypeMmap]

/-- The kernel's header asks for the memory sizes and the memory map. -/
theorem HeaderAt.requests (h : HeaderAt m a) (align : a % 8 = 0) (high : a + 88 ≤ 2 ^ 32)
    (hfuel : 8 ≤ fuel) : tagsRequestedBmap fuel m a = .ok (asked true true) := by
  have type := h.field 16 2 multibootHeaderTagInformationRequest (by decide)
  have next : ∀ o n v, (o + 4, 4, v) ∈ multibootHdr → n = (o + v + 7) / 8 * 8 → n ≤ 80 →
      nextHeaderTag m (a + o) = a + n := by
    intro o n v hv hn hle
    have size := h.field _ _ _ hv
    rw [← Nat.add_assoc] at size
    rw [nextHeaderTag, headerTagSize, size]
    omega
  have goesOn : headerTagType m (a + 16) ≠ multibootHeaderTagEnd := by
    rw [headerTagType, type]
    decide
  have others : ∀ o v, (o, 2, v) ∈ multibootHdr → v ≠ 0 → v ≠ 1 →
      headerTagType m (a + o) ≠ multibootHeaderTagEnd ∧
        headerTagType m (a + o) ≠ multibootHeaderTagInformationRequest := by
    intro o v hv h0 h1
    rw [headerTagType, h.field _ _ _ hv]
    exact ⟨h0, h1⟩
  obtain ⟨hmod, hmod'⟩ := others 32 6 (by decide) (by decide) (by decide)
  obtain ⟨hcons, hcons'⟩ := others 40 4 (by decide) (by decide) (by decide)
  obtain ⟨hframe, hframe'⟩ := others 56 5 (by decide) (by decide) (by decide)
  have ended : headerTagType m (a + 80) = multibootHeaderTagEnd :=
    h.field 80 2 0 (by decide)
  obtain ⟨fuel, rfl⟩ : ∃ k, fuel = k + 5 := ⟨fuel - 5, by omega⟩
  have start : (a + 16) % 2 ^ 32 = a + 16 := by omega
  rw [tagsRequestedBmap, start, headerTagLoop, if_pos goesOn, h.request (by omega)]
  rw [next 16 32 16 (by decide) rfl (by decide)]
  change headerTagLoop m (fuel + 4) (a + 32) (asked true true) = _
  rw [headerTagLoop_skip hmod hmod' (next 32 40 8 (by decide) rfl (by decide)),
    headerTagLoop_skip hcons hcons' (next 40 56 12 (by decide) rfl (by decide)),
    headerTagLoop_skip hframe hframe' (next 56 80 20 (by decide) rfl (by decide)),
    headerTagLoop, if_neg (not_not_intro ended)]

/-- The header passes both of `main`'s checks. -/
theorem HeaderAt.accepted (h : HeaderAt m a) (high : a + 88 ≤ 2 ^ 32) :
    headerWord m a 0 = multiboot2HeaderMagic ∧
      (headerWord m a 0 + headerWord m a 1 + headerWord m a 2 + headerWord m a 3) % 2 ^ 32 = 0 := by
  have word : ∀ i v, i < 4 → (4 * i, 4, v) ∈ multibootHdr → headerWord m a i = v := by
    intro i v hi hv
    rw [headerWord, Nat.mod_eq_of_lt (by omega)]
    exact h.field _ _ _ hv
  have magic := word 0 multiboot2HeaderMagic (by decide) (by decide)
  have architecture := word 1 0 (by decide) (by decide)
  have length := word 2 88 (by decide) (by decide)
  have checksum := word 3 (2 ^ 32 - (multiboot2HeaderMagic + 0 + 88)) (by decide) (by decide)
  rw [magic, architecture, length, checksum]
  decide

end Header

/-! ## The way to the kernel -/

section Image

variable {disk : Nat → UInt8} {bios : Bios} {m : Mem} {l : LoadInfo} {fuel : Nat}

theorem require_ok {stop : Stop} {p : Prop} [Decidable p] (h : p) : require stop p = .ok () := by
  rw [require, if_pos h]

namespace KernelImage

theorem headers (img : KernelImage disk) (m : Mem) :
    (headerRounds disk (firstSector disk m) (localEhdr disk m) (localEhdr disk m).ePhnum).2 =
      imageHeaders disk := by
  have he := localEhdr_eq disk m
  have entsize := img.entsize
  have low := img.low
  have together := img.together
  rw [← he] at entsize low together
  have read : HeadersRead disk m := by
    intro i hi k hk
    have near := together i hi
    rw [← entsize] at near
    rw [← (headerSource_eq_iff (localEhdr disk m) i k).mpr near]
    exact get_loadHeader disk _ entsize low hi hk
  have headers := read.programHeaders_eq entsize low
  rw [he] at headers
  exact headers

theorem bounds (img : KernelImage disk) (hl : l ∈ linfo (imageHeaders disk)) :
    l.addr < 2 ^ 32 ∧ kernelStartSector + l.offset / 512 + l.bytes / 512 < 2 ^ 15 ∧
      l.offset % 512 = 0 ∧ l.addr + l.span ≤ 2 ^ 32 := by
  have clear := img.loadable.clear l hl
  obtain ⟨phdr, mem, load, rfl⟩ := mem_linfo.mp hl
  have info := img.loadable.loadInfo_eq mem load
  have sectors := img.loadable.sectors phdr mem load
  obtain ⟨aligned, low⟩ := img.aligned phdr mem load
  rw [Nat.mod_eq_of_lt low] at info
  have high := (clear_bounds (by rw [info]; exact low) clear).2
  rw [info] at high ⊢
  exact ⟨low, sectors, aligned, high⟩

/-- No segment is put below the page tables. -/
theorem uncovered (img : KernelImage disk) {x : Nat} (below : x < tablesEnd) :
    lastOver x (linfo (imageHeaders disk)) = none := by
  cases last : lastOver x (linfo (imageHeaders disk)) with
  | none => rfl
  | some l =>
    obtain ⟨hl, covers⟩ := lastOver_mem last
    have placed := img.placed l hl
    unfold LoadInfo.Covers at covers
    omega

theorem segments_kept (img : KernelImage disk) (m : Mem) :
    LoaderKept m (loadSegments disk m (linfo (imageHeaders disk))) := by
  intro x hx _
  have place : tablesEnd = 0x15000 := rfl
  rw [img.loadable.get_linfo (by omega) (.inl (by omega)), img.uncovered (by omega)]
  rfl

/-- Once the first segment is loaded, the multiboot header is in memory and the
memory below the page tables is as it was. -/
theorem first_loaded (img : KernelImage disk) (hl : l ∈ linfo (imageHeaders disk))
    (long : 88 ≤ l.bytes) (header : HeaderAt (image disk) l.offset) (m : Mem) :
    HeaderAt (loadSegment disk m l) l.addr ∧
      ∀ x, x < 0x8000 ∨ 0xB000 ≤ x → x < tablesEnd → (loadSegment disk m l).get x = m.get x := by
  obtain ⟨low, sectors, aligned, high⟩ := img.bounds hl
  have placed := img.placed l hl
  have place : tablesEnd = 0x15000 := rfl
  have start : kernelStartSector = 12 := rfl
  have byte : ∀ x, x < 0x8000 ∨ 0xB000 ≤ x → x < 2 ^ 64 → (loadSegment disk m l).get x =
      if l.Covers x then disk (l.source x) else m.get x :=
    fun x hx hx' => get_loadSegment low sectors (img.loadable.clear l hl) hx' hx
  constructor
  · intro f hf
    have fits : ∀ f ∈ multibootHdr, f.1 + f.2.1 ≤ 88 := by decide
    rw [← header f hf]
    refine load_eq_iff.mpr fun i hi => ?_
    have fit := fits f hf
    have covers : l.Covers (l.addr + f.1 + i) := by
      unfold LoadInfo.Covers LoadInfo.span
      omega
    have source : l.source (l.addr + f.1 + i) =
        512 * kernelStartSector + (l.offset + f.1 + i) := by
      unfold LoadInfo.source
      omega
    rw [byte _ (.inr (by omega)) (by omega), if_pos covers, source, get_image (by omega)]
  · intro x hx hx'
    have outside : ¬ l.Covers x := by
      unfold LoadInfo.Covers
      omega
    rw [byte x hx (by omega), if_neg outside]

/-- The fields of the ELF header that `main` has in its buffer. -/
theorem load_firstSector {o n : Nat} (hon : o + n ≤ 512) :
    load (firstSector disk m) (diskBufferAddr + o) n = load (image disk) o n := by
  refine load_eq_iff.mpr fun i hi => ?_
  rw [Nat.add_assoc, get_firstSector (by omega)]

/-- `main` on such an image: the boot information is built on memory that is
untouched there, and the segments go on top. -/
theorem loaderMain_eq (img : KernelImage disk) (bios : Bios) (m : Mem)
    (fits : writtenEnd m true true bios ≤ p4tAddr) (hfuel : bios.entries.length ≤ fuel) (enough : 8 ≤ fuel) :
    ∃ m' s, (∀ x, 0xB000 ≤ x → x < tablesEnd → m'.get x = m.get x) ∧
      buildBootInfo fuel bios m' (asked true true) = .ok s ∧
      loaderMain fuel disk bios true m =
        .ok ⟨longMode (loadSegments disk s.mem (linfo (imageHeaders disk))), p4tAddr,
          load (image disk) 24 8, multiboot2BootloaderMagic, multibootReturnInfoAddr⟩ := by
  obtain ⟨l, head, align, long, header⟩ := img.header
  have mem := List.mem_of_head? head
  obtain ⟨low, -, -, high⟩ := img.bounds mem
  have span : 88 ≤ l.span := by
    unfold LoadInfo.span
    omega
  have headers := img.headers m
  have entsize : (localEhdr disk m).ePhentsize = 56 := by
    rw [localEhdr_eq]
    exact img.entsize
  have untouched : ∀ x, 0xB000 ≤ x → x < tablesEnd →
      (headerRounds disk (firstSector disk m) (localEhdr disk m) (localEhdr disk m).ePhnum).1.get x =
        m.get x := by
    intro x hx hx'
    have bound : x < 2 ^ 64 := hx'.trans (by decide)
    rw [headerRounds_outside entsize bound (.inr hx), firstSector_outside bound (.inr hx)]
  have magic : load (firstSector disk m) diskBufferAddr 4 = elfMag :=
    (load_firstSector (o := 0) (by decide)).trans img.magic
  have entry : load (firstSector disk m) (diskBufferAddr + 24) 8 = load (image disk) 24 8 :=
    load_firstSector (by decide)
  rw [loaderMain]
  generalize hread : headerRounds disk (firstSector disk m) (localEhdr disk m)
    (localEhdr disk m).ePhnum = read at headers untouched ⊢
  obtain ⟨headerAt, same⟩ := img.first_loaded mem long header read.1
  obtain ⟨magicWord, checksum⟩ := headerAt.accepted (by omega)
  have info := buildBootInfo_eq (loadSegment disk read.1 l) (show asked true true < 2 ^ 32 by decide)
    hfuel
  rw [show (asked true true).size = 7 by decide] at info
  have before : ∀ x, 0xB000 ≤ x → x < tablesEnd → (loadSegment disk read.1 l).get x = m.get x :=
    fun x hx hx' => (same x (.inr hx) hx').trans (untouched x hx hx')
  have tables : firstTag = 0xC008 ∧ p4tAddr = 0x10000 ∧ tablesEnd = 0x15000 := by decide
  have ends : writtenEnd (loadSegment disk read.1 l) true true bios ≤ p4tAddr := by
    rw [writtenEnd_congr (fun x hx hx' => before x (by omega) (by omega)) fits]
    exact fits
  have written := info_outside bios ends (by decide) (Nat.le_refl 7)
  refine ⟨loadSegment disk read.1 l, _, before, info, ?_⟩
  refine bind_eq_ok.mpr ⟨(), require_ok magic, ?_⟩
  refine bind_eq_ok.mpr ⟨(), require_ok (by rw [headers]; exact img.loadable.count), ?_⟩
  refine bind_eq_ok.mpr ⟨l, by rw [headers, head]; rfl, ?_⟩
  refine bind_eq_ok.mpr ⟨(), require_ok fun x hx _ => same x (.inl (by omega)) (by omega), ?_⟩
  refine bind_eq_ok.mpr ⟨(), require_ok magicWord, ?_⟩
  refine bind_eq_ok.mpr ⟨(), require_ok checksum, ?_⟩
  refine bind_eq_ok.mpr ⟨_, by rw [headerAt.requests align (by omega) enough]; rfl, ?_⟩
  refine bind_eq_ok.mpr ⟨_, by rw [info]; rfl, ?_⟩
  refine bind_eq_ok.mpr ⟨(), require_ok (written.loaderKept (by decide)), ?_⟩
  refine bind_eq_ok.mpr ⟨(), require_ok (by rw [headers]; exact img.segments_kept _), ?_⟩
  refine bind_eq_ok.mpr ⟨(), require_ok rfl, ?_⟩
  rw [headers, entry]
  rfl

end KernelImage

/-- Between 2 MiB and 2 GiB nothing is mapped. -/
theorem physWalk_high (m : Mem) {p : Nat} (low : 2 ^ 21 ≤ p) (high : p < 2 ^ 31) :
    physWalk (longMode m) p4tAddr (kPtov p) = none := by
  rw [physWalk_longMode, if_neg]
  unfold kPtov physBase
  omega

/-- Every byte of the image below 2 MiB stands at its virtual address when the
kernel starts, and a byte from there on is not mapped. The sizes found where the
boot information goes must lead its cursors nowhere but to what lies before the
page tables. -/
theorem kernel_entered (img : KernelImage disk) (bios : Bios) (m : Mem)
    (fits : writtenEnd m true true bios ≤ p4tAddr) (hfuel : bios.entries.length ≤ fuel) (enough : 8 ≤ fuel) :
    ∃ k, loaderMain fuel disk bios true m = .ok k ∧ k.rip = load (image disk) 24 8 ∧
      ∀ phdr ∈ imageHeaders disk, phdr.pType = ptLoad → ∀ j, j < phdr.pFilesz →
        phdr.pPaddr + j < 2 ^ 31 →
        k.read (kPtov (phdr.pPaddr + j)) =
          if phdr.pPaddr + j < 2 ^ 21 then some ((image disk).get (phdr.pOffset + j)) else none := by
  obtain ⟨-, s, -, -, run⟩ := img.loaderMain_eq bios m fits hfuel enough
  refine ⟨_, run, rfl, fun phdr mem segment j hj below => ?_⟩
  by_cases low : phdr.pPaddr + j < 2 ^ 21
  · have walk := (physWalk_kPtov_iff (loadSegments disk s.mem (linfo (imageHeaders disk)))
      (show phdr.pPaddr + j < 2 ^ 64 by omega)).mpr low
    have placed := img.placed _ (mem_linfo.mpr ⟨phdr, mem, segment, rfl⟩)
    have sectors := img.loadable.sectors phdr mem segment
    obtain ⟨clear, bound⟩ := img.loadable.byte_bounds mem segment hj
    have each : EachByteLast disk (imageHeaders disk) :=
      eachByteLast_of_apart img.loadable img.apart img.aligned
    obtain ⟨l, last, byte⟩ := each phdr mem segment j hj
    rw [loadInfo, Nat.mod_eq_of_lt (img.aligned phdr mem segment).2] at placed
    rw [if_pos low, Entered.read, walk, Option.map_some,
      sameOutside_longMode _ _ (by omega) (.inr (by simp only at placed; omega)),
      img.loadable.get_linfo bound clear, last, get_image (by omega), ← Nat.add_assoc, ← byte]
    rfl
  · have walk := physWalk_high (loadSegments disk s.mem (linfo (imageHeaders disk)))
      (Nat.le_of_not_lt low) below
    rw [if_neg low, Entered.read, walk]
    rfl

end Image

/-- An image of one segment, the multiboot header and zeros behind it. -/
def smallImage : Mem :=
  let fields : List (Nat × Nat × Nat) := [(0, 4, elfMag), (24, 8, 0xFFFFFFFF80100058),
    (32, 8, 64), (54, 2, 56), (56, 2, 1), (64, 4, ptLoad), (72, 8, 0x1000), (88, 8, 0x100000), (96, 8, 1000)]
  let header := multibootHdr.map fun f => (0x1000 + f.1, f.2)
  (fields ++ header).foldl (fun m f => store m f.1 f.2.1 f.2.2) ⟨fun _ => 0⟩

def smallDisk (x : Nat) : UInt8 := smallImage.get (x - 512 * kernelStartSector)

theorem smallDisk_image : KernelImage smallDisk := by
  have ehdr : loadEhdr (image smallDisk) 0 = ⟨64, 56, 1⟩ := by decide +kernel
  have headers : imageHeaders smallDisk = onePage := by decide +kernel
  have ok : Loadable onePage := loadable_single (by decide) (by decide) (by decide)
  have only : ∀ l ∈ linfo onePage, l = ⟨1000, 0x100000, 0x1000⟩ := by decide
  refine ⟨by decide +kernel, by rw [ehdr], by rw [ehdr]; decide, by rw [ehdr]; decide, ?_, ?_, ?_,
    ?_, ?_⟩ <;> rw [headers]
  · exact ok
  · intro l hl l' hl' _ _ _
    rw [only l hl, only l' hl']
  · decide
  · intro l hl
    rw [only l hl]
    decide
  · exact ⟨⟨1000, 0x100000, 0x1000⟩, rfl, by decide, by decide, by decide +kernel⟩

theorem kernel_entered_small :
    ∃ k, loaderMain 8 smallDisk oneEntryBios true ⟨fun _ => 0⟩ = .ok k ∧
      k.read 0xFFFFFFFF80100000 = some 0xD6 := by
  obtain ⟨k, run, -, reads⟩ := kernel_entered smallDisk_image oneEntryBios ⟨fun _ => 0⟩
    (by decide +kernel) (show 1 ≤ 8 by decide) (show 8 ≤ 8 by decide)
  have headers : imageHeaders smallDisk = onePage := by decide +kernel
  rw [headers] at reads
  have byte := reads _ (List.mem_singleton.mpr rfl) rfl 0 (by decide) (by decide)
  exact ⟨k, run, byte.trans (by decide +kernel)⟩

end WaddleOS
