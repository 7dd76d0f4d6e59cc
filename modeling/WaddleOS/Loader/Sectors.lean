import WaddleOS.Lib.String

/-!
# `loader/boot1/main.c`: reading sectors

`load_sector_asm` fills the disk buffer through the BIOS, `load_sector` copies
a run of sectors to its place 24 at a time. Sector numbers and counts are
`uint16_t` values, pointers of the loader are 32 bits wide. A disk gives a
byte for every byte number.
-/

namespace WaddleOS

def kernelStartSector : Nat := 12

def diskBufferAddr : Nat := 0x8000

/-- A 16-bit register as the signed conditions read it. -/
def signed16 (x : Nat) : Int := if x < 2 ^ 15 then x else x - 2 ^ 16

/-- `_rmode_load_sector`: the BIOS reads into the disk buffer. -/
def rmodeLoadSector (disk : Nat → UInt8) (m : Mem) (sector numSectors : Nat) : Mem :=
  ⟨fun x =>
    if diskBufferAddr ≤ x ∧ x < diskBufferAddr + 512 * numSectors then
      disk (512 * sector + (x - diskBufferAddr))
    else m.byte x⟩

/-- Both checks are signed, and a request that fails one is dropped silently. -/
def loadSectorAsm (disk : Nat → UInt8) (m : Mem) (sector numSectors : Nat) : Mem :=
  if signed16 sector < 12 then m
  else if 24 < signed16 numSectors then m
  else rmodeLoadSector disk m sector numSectors

def loadSector (disk : Nat → UInt8) (m : Mem) (sector numSectors address : Nat) : Mem :=
  if numSectors = 0 then m
  else
    let sectorsCurr := if 24 < numSectors then 24 else numSectors
    let m := loadSectorAsm disk m sector sectorsCurr
    let m := memmove m address diskBufferAddr (512 * sectorsCurr)
    loadSector disk m ((sector + sectorsCurr) % 2 ^ 16) (numSectors - sectorsCurr)
      ((address + 512 * sectorsCurr) % 2 ^ 32)
termination_by numSectors
decreasing_by
  split <;> omega

section Chunk
variable {disk : Nat → UInt8} {m : Mem} {sector n a x : Nat}

theorem loadSectorAsm_ok (hs : 12 ≤ sector) (hlast : sector < 2 ^ 15) (hn : n ≤ 24) :
    loadSectorAsm disk m sector n = rmodeLoadSector disk m sector n := by
  have h1 : ¬ signed16 sector < 12 := by
    unfold signed16
    rw [if_pos hlast]
    omega
  have h2 : ¬ 24 < signed16 n := by
    unfold signed16
    rw [if_pos (by omega)]
    omega
  rw [loadSectorAsm, if_neg h1, if_neg h2]

theorem get_rmodeLoadSector (hx : x < 2 ^ 64) :
    (rmodeLoadSector disk m sector n).get x =
      if diskBufferAddr ≤ x ∧ x < diskBufferAddr + 512 * n then
        disk (512 * sector + (x - diskBufferAddr))
      else m.get x := by
  simp only [Mem.get, rmodeLoadSector, Nat.mod_eq_of_lt hx]

theorem loadSectorAsm_rejected (hs : 2 ^ 15 ≤ sector) (hlast : sector < 2 ^ 16) :
    loadSectorAsm disk m sector n = m := by
  have hneg : signed16 sector < 12 := by
    unfold signed16
    rw [if_neg (by omega)]
    omega
  rw [loadSectorAsm, if_pos hneg]

theorem get_loadSectorAsm_outside (hn : n ≤ 24) (hx : x < 2 ^ 64)
    (hout : x < 0x8000 ∨ 0xB000 ≤ x) : (loadSectorAsm disk m sector n).get x = m.get x := by
  have hbuf : diskBufferAddr = 0x8000 := rfl
  unfold loadSectorAsm
  split
  · rfl
  · split
    · rfl
    · rw [get_rmodeLoadSector hx, if_neg (by omega)]

/-- What the buffer holds behind a request. -/
theorem get_loadSectorAsm_buffer (hs : 12 ≤ sector) (hlast : sector < 2 ^ 16) (hn : n ≤ 24)
    (hx : x < 512 * n) :
    (loadSectorAsm disk m sector n).get (diskBufferAddr + x) =
      if sector < 2 ^ 15 then disk (512 * sector + x) else m.get (diskBufferAddr + x) := by
  have hbuf : diskBufferAddr = 0x8000 := rfl
  split
  next hlow =>
    rw [loadSectorAsm_ok hs hlow hn, get_rmodeLoadSector (by omega), if_pos (by omega),
      Nat.add_sub_cancel_left]
  next hhigh => rw [loadSectorAsm_rejected (Nat.le_of_not_lt hhigh) hlast]

end Chunk

section Run
variable {disk : Nat → UInt8} {m : Mem} {sector n a x : Nat}

theorem loadSector_short (hn : n ≤ 24) :
    loadSector disk m sector n a =
      if n = 0 then m else memmove (loadSectorAsm disk m sector n) a diskBufferAddr (512 * n) := by
  rw [loadSector]
  split
  · rfl
  · simp only [if_neg (Nat.not_lt.mpr hn), Nat.sub_self]
    rw [loadSector, if_pos rfl]

/-- A full chunk, then the rest of the run. -/
theorem loadSector_long (hn : 24 < n) (hlast : sector + n ≤ 2 ^ 16) (ha : a + 512 * n ≤ 2 ^ 32) :
    loadSector disk m sector n a =
      loadSector disk (memmove (loadSectorAsm disk m sector 24) a diskBufferAddr (512 * 24))
        (sector + 24) (n - 24) (a + 512 * 24) := by
  rw [loadSector, if_neg (by omega)]
  simp only [if_pos hn]
  rw [Nat.mod_eq_of_lt (by omega : sector + 24 < 2 ^ 16),
    Nat.mod_eq_of_lt (by omega : a + 512 * 24 < 2 ^ 32)]

/-- Nothing changes outside the destination and the disk buffer. -/
theorem get_loadSector_outside (hlast : sector + n ≤ 2 ^ 16) (ha : a + 512 * n ≤ 2 ^ 32)
    (hx : x < 2 ^ 64) (hdst : x < a ∨ a + 512 * n ≤ x) (hout : x < 0x8000 ∨ 0xB000 ≤ x) :
    (loadSector disk m sector n a).get x = m.get x := by
  induction n using Nat.strongRecOn generalizing m sector a with
  | ind n ih =>
    by_cases hlong : 24 < n
    · rw [loadSector_long hlong hlast ha,
        ih (n - 24) (by omega) (by omega) (by omega) (by omega),
        memmove_outside _ (by omega) hx (by omega),
        get_loadSectorAsm_outside (Nat.le_refl 24) hx hout]
    · rw [loadSector_short (by omega)]
      split
      · rfl
      · rw [memmove_outside _ (by omega) hx hdst, get_loadSectorAsm_outside (by omega) hx hout]

/-- The byte `x` of the disk buffer when the first request of a run is rejected
that starts at or above sector 32768: the last accepted one has left it there,
or nobody has written it. -/
def staleByte (disk : Nat → UInt8) (m : Mem) (sector x : Nat) : UInt8 :=
  if sector < 2 ^ 15 then disk (512 * (sector + 24 * ((2 ^ 15 - 1 - sector) / 24)) + x)
  else m.get (diskBufferAddr + x)

/-- A full chunk leaves the same stale bytes for the rest of the run. -/
theorem staleByte_next {m' : Mem} (hs : 12 ≤ sector) (hlast : sector + 24 ≤ 2 ^ 16)
    (hbuffer : m'.get (diskBufferAddr + x) =
      (loadSectorAsm disk m sector 24).get (diskBufferAddr + x))
    (hx : x < 512 * 24) : staleByte disk m' (sector + 24) x = staleByte disk m sector x := by
  unfold staleByte
  rw [hbuffer, get_loadSectorAsm_buffer hs (by omega) (Nat.le_refl 24) hx]
  by_cases hnext : sector + 24 < 2 ^ 15
  · have hsame : sector + 24 + 24 * ((2 ^ 15 - 1 - (sector + 24)) / 24) =
        sector + 24 * ((2 ^ 15 - 1 - sector) / 24) := by omega
    rw [if_pos hnext, if_pos (by omega), hsame]
  · rw [if_neg hnext]
    split
    next hlow =>
      have hzero : (2 ^ 15 - 1 - sector) / 24 = 0 := by omega
      rw [hzero, Nat.mul_zero, Nat.add_zero]
    next => rfl

/-- Every byte of the destination comes from the disk or, in a chunk that
starts at or above sector 32768, from the buffer as it was. -/
theorem get_loadSector_byte (hs : 12 ≤ sector) (hlast : sector + n ≤ 2 ^ 16)
    (ha : a + 512 * n ≤ 2 ^ 32) (clear : a + 512 * n ≤ 0x8000 ∨ 0xB000 ≤ a) (hx : x < 512 * n) :
    (loadSector disk m sector n a).get (a + x) =
      if sector + 24 * (x / (512 * 24)) < 2 ^ 15 then disk (512 * sector + x)
      else staleByte disk m sector (x % (512 * 24)) := by
  have hbuf : diskBufferAddr = 0x8000 := rfl
  induction n using Nat.strongRecOn generalizing m sector a x with
  | ind n ih =>
    -- the chunk that is copied first
    have hfirst {c : Nat} (hc : c ≤ 24) (hcn : c ≤ n) (hxc : x < 512 * c) :
        (memmove (loadSectorAsm disk m sector c) a diskBufferAddr (512 * c)).get (a + x) =
          if sector + 24 * (x / (512 * 24)) < 2 ^ 15 then disk (512 * sector + x)
          else staleByte disk m sector (x % (512 * 24)) := by
      have hdiv : x / (512 * 24) = 0 := by omega
      have hmod : x % (512 * 24) = x := by omega
      rw [memmove_inside _ (by omega) (by omega) (by omega) hxc,
        get_loadSectorAsm_buffer hs (by omega) hc hxc, hdiv, hmod, Nat.mul_zero, Nat.add_zero]
      split
      · rfl
      next hhigh => rw [staleByte, if_neg hhigh]
    by_cases hlong : 24 < n
    · rw [loadSector_long hlong hlast ha]
      by_cases hxc : x < 512 * 24
      · rw [get_loadSector_outside (by omega) (by omega) (by omega) (by omega) (by omega)]
        exact hfirst (Nat.le_refl 24) (by omega) hxc
      · obtain ⟨y, rfl⟩ := Nat.exists_eq_add_of_le (Nat.le_of_not_lt hxc)
        have hdiv : (512 * 24 + y) / (512 * 24) = y / (512 * 24) + 1 := by omega
        have hmod : (512 * 24 + y) % (512 * 24) = y % (512 * 24) := by omega
        have hsector : sector + 24 + 24 * (y / (512 * 24)) =
            sector + 24 * (y / (512 * 24) + 1) := by omega
        have hbyte : 512 * (sector + 24) + y = 512 * sector + (512 * 24 + y) := by omega
        rw [← Nat.add_assoc, ih (n - 24) (by omega) (by omega) (by omega) (by omega) (by omega)
          (by omega), hsector, hbyte, hdiv, hmod]
        split
        · rfl
        · have hy : y % (512 * 24) < 512 * 24 := Nat.mod_lt _ (by decide)
          exact staleByte_next hs (by omega)
            (memmove_outside _ (by omega) (by omega) (by omega)) hy
    · rw [loadSector_short (by omega), if_neg (by omega)]
      exact hfirst (by omega) (Nat.le_refl n) hx

/-- `load_sector` puts a run of sectors below 32768 at its place, byte by byte. -/
theorem get_loadSector (hs : 12 ≤ sector) (hlast : sector + n ≤ 2 ^ 15)
    (ha : a + 512 * n ≤ 2 ^ 32) (clear : a + 512 * n ≤ 0x8000 ∨ 0xB000 ≤ a) (hx : x < 2 ^ 64)
    (hout : x < 0x8000 ∨ 0xB000 ≤ x) :
    (loadSector disk m sector n a).get x =
      if a ≤ x ∧ x < a + 512 * n then disk (512 * sector + (x - a)) else m.get x := by
  split
  next hin =>
    obtain ⟨y, rfl⟩ := Nat.exists_eq_add_of_le hin.1
    rw [get_loadSector_byte hs (by omega) ha clear (by omega), if_pos (by omega),
      Nat.add_sub_cancel_left]
  next hdst => exact get_loadSector_outside (by omega) ha hx (by omega) hout

/-- The run arrives at `a` as it is on the disk. -/
def LoadsRun (disk : Nat → UInt8) (m : Mem) (sector n a : Nat) : Prop :=
  ∀ k, k < 512 * n → (loadSector disk m sector n a).get (a + k) = disk (512 * sector + k)

/-- Above sector 32767 a run arrives only where the stale bytes of the disk
buffer happen to be those of the disk. -/
theorem loadSector_loads_iff (disk : Nat → UInt8) (m : Mem) (sector n a : Nat) (hs : 12 ≤ sector)
    (hlast : sector + n ≤ 2 ^ 16) (ha : a + 512 * n ≤ 2 ^ 32)
    (clear : a + 512 * n ≤ 0x8000 ∨ 0xB000 ≤ a) :
    LoadsRun disk m sector n a ↔
      ∀ k, k < 512 * n → 2 ^ 15 ≤ sector + 24 * (k / (512 * 24)) →
        staleByte disk m sector (k % (512 * 24)) = disk (512 * sector + k) := by
  constructor
  · intro hloads k hk hhigh
    have hbyte := hloads k hk
    rwa [get_loadSector_byte hs hlast ha clear hk, if_neg (Nat.not_lt.mpr hhigh)] at hbyte
  · intro hstale k hk
    rw [get_loadSector_byte hs hlast ha clear hk]
    split
    · rfl
    next hhigh => exact hstale k hk (Nat.le_of_not_lt hhigh)

/-- Thirty sectors, in two chunks. -/
theorem loadSector_loads_thirty :
    LoadsRun (fun k => UInt8.ofNat (k / 512)) ⟨fun _ => 0⟩ 12 30 0x100000 :=
  (loadSector_loads_iff (fun k => UInt8.ofNat (k / 512)) ⟨fun _ => 0⟩ 12 30 0x100000 (by decide)
    (by decide) (by decide) (by decide)).mpr fun k hk hhigh => by omega

/-- The request for sector 32768 is dropped, and what was in the buffer is
copied. -/
theorem sector_32768_not_loaded :
    ¬ ∀ (disk : Nat → UInt8) (m : Mem) (sector n a : Nat), 12 ≤ sector → sector + n ≤ 2 ^ 16 →
      a + 512 * n ≤ 2 ^ 32 → a + 512 * n ≤ 0x8000 ∨ 0xB000 ≤ a → LoadsRun disk m sector n a := by
  intro allLoaded
  have hloads := allLoaded (fun _ => 1) ⟨fun _ => 0⟩ 32768 1 0x100000 (by decide) (by decide)
    (by decide) (by decide) 0 (by decide)
  rw [get_loadSector_byte (by decide) (by decide) (by decide) (by decide) (by decide)] at hloads
  exact absurd hloads (by decide)

end Run

end WaddleOS
