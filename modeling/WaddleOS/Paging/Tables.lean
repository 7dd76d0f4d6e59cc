import WaddleOS.Paging.Grants

/-!
# `kernel/mem/paging.c`: page tables

Entries are 64-bit words in memory. The tables are reached through the
addresses `k_ptov` gives, as the code reaches them; a walk reads them the same
way, with the fields the code writes.
-/

namespace WaddleOS

/-- `GET_BITS(value, pos, len)`. -/
def getBits (value : BitVec 64) (pos len : Nat) : BitVec 64 :=
  (value >>> pos) &&& ((1#64 <<< len) - 1#64)

/-- `SET_BITS(value, pos, len, newval)`. -/
def setBits (value : BitVec 64) (pos len : Nat) (newval : BitVec 64) : BitVec 64 :=
  (value &&& ~~~(((1#64 <<< len) - 1#64) <<< pos)) |||
    ((newval &&& ((1#64 <<< len) - 1#64)) <<< pos)

def getPml4Ofs (x : Nat) : Nat := x / 2 ^ 39 % 512

def getPml3Ofs (x : Nat) : Nat := x / 2 ^ 30 % 512

def getPml2Ofs (x : Nat) : Nat := x / 2 ^ 21 % 512

def getPml1Ofs (x : Nat) : Nat := x / 2 ^ 12 % 512

/-- Present, with the base field `PDE_PTE_BASE` and the two access bits; the
body that `pde_init` and `pte_init` share. -/
def entryInit (m : Mem) (entry physAddr : Nat) (allowUserAccess : Bool) : Mem :=
  let m := memset m entry 0 8
  let m := storeWord m entry (setBits (loadWord m entry) 12 39 (BitVec.ofNat 64 (physAddr / 2 ^ 12)))
  let m := storeWord m entry
    (setBits (loadWord m entry) 2 1 ((BitVec.ofBool allowUserAccess).setWidth 64))
  let m := storeWord m entry (setBits (loadWord m entry) 1 1 1#64)
  storeWord m entry (setBits (loadWord m entry) 0 1 1#64)

def pdeInit (s : Paging Mem) (entry : Nat) (allowUserAccess : Bool) :
    Except Fault (Nat × Paging Mem) :=
  if getBits (loadWord s.store entry) 0 1 = 0#64 then do
    let (vBase, s) ← pagingGetPage s pallocZero
    let pBase := kVtop vBase
    return (vBase, { s with store := entryInit s.store entry pBase allowUserAccess })
  else
    let pBase := getBits (loadWord s.store entry) 12 39 <<< 12
    .ok (kPtov pBase.toNat, s)

def pteInit (s : Paging Mem) (entry physAddr : Nat) (allowUserAccess : Bool) : Paging Mem :=
  { s with store := entryInit s.store entry physAddr allowUserAccess }

def pagingMapPage (s : Paging Mem) (vaddr paddr : Nat) : Except Fault (Paging Mem) := do
  let (pml3, s) ← pdeInit s (s.initPml4 + 8 * getPml4Ofs vaddr) false
  let (pml2, s) ← pdeInit s (pml3 + 8 * getPml3Ofs vaddr) false
  let (pml1, s) ← pdeInit s (pml2 + 8 * getPml2Ofs vaddr) false
  return pteInit s (pml1 + 8 * getPml1Ofs vaddr) paddr false

/-- The loop of `page_tables_init` after `n` rounds. -/
def mapPages (s : Paging Mem) : Nat → Except Fault (Paging Mem)
  | 0 => .ok s
  | n + 1 => do
    let s ← mapPages s n
    let physAddr := n * pageSize % 2 ^ 64
    pagingMapPage s (kPtov physAddr) physAddr

/-- `page_tables_init` up to the load of CR3. -/
def pageTablesInit (s : Paging Mem) : Except Fault (Paging Mem) := do
  let (pml4, s) ← pagingGetPage s pallocZero
  mapPages { s with initPml4 := pml4 } s.poolPagesTotal

/-- `paging_init` on a decoded memory map. -/
def pagingInit (m : Mem) (memoryMap : List MmapEntry) (kernelEnd physMemEnd : Nat) :
    Except Fault (Paging Mem) := do
  let s ← poolsInit m memoryMap kernelEnd physMemEnd
  pageTablesInit s

/-- One level of a walk: the base in entry `i` of the table at `base`, if it
is present. -/
def walkEntry (m : Mem) (base i : Nat) : Option Nat :=
  let entry := loadWord m (kPtov base + 8 * i)
  if getBits entry 0 1 = 1#64 then some (getBits entry 12 39 <<< 12).toNat else none

/-- The 4-level walk from the table at physical address `cr3`. -/
def walk (m : Mem) (cr3 vaddr : Nat) : Option Nat := do
  let pml3 ← walkEntry m cr3 (getPml4Ofs vaddr)
  let pml2 ← walkEntry m pml3 (getPml3Ofs vaddr)
  let pml1 ← walkEntry m pml2 (getPml2Ofs vaddr)
  walkEntry m pml1 (getPml1Ofs vaddr)

/-! ## Fields of an entry -/

theorem getLsbD_getBits (v : BitVec 64) {pos len : Nat} (i : Nat) (hlen : len ≤ 64) (hi : i < 64) :
    (getBits v pos len).getLsbD i = (v.getLsbD (pos + i) && decide (i < len)) := by
  rw [getBits, BitVec.getLsbD_and, getLsbD_lowMask _ _ hlen hi, BitVec.getLsbD_ushiftRight]

theorem getLsbD_setBits (v nv : BitVec 64) {pos len : Nat} (i : Nat) (hlen : len ≤ 64)
    (hi : i < 64) :
    (setBits v pos len nv).getLsbD i =
      if pos ≤ i ∧ i < pos + len then nv.getLsbD (i - pos) else v.getLsbD i := by
  rw [setBits, BitVec.getLsbD_or, BitVec.getLsbD_and, BitVec.getLsbD_not, BitVec.getLsbD_shiftLeft,
    BitVec.getLsbD_shiftLeft, BitVec.getLsbD_and, getLsbD_lowMask _ _ hlen (by omega)]
  by_cases hlow : i < pos
  · have hno : ¬ (pos ≤ i ∧ i < pos + len) := by omega
    simp [hi, hlow, hno]
  · by_cases hin : i - pos < len
    · have hyes : pos ≤ i ∧ i < pos + len := by omega
      simp [hi, hlow, hin, hyes]
    · have hno : ¬ (pos ≤ i ∧ i < pos + len) := by omega
      simp [hi, hlow, hin, hno]

/-- The word that `entryInit` leaves in an entry. -/
def entryWord (physAddr : Nat) (allowUserAccess : Bool) : BitVec 64 :=
  setBits (setBits (setBits (setBits 0#64 12 39 (BitVec.ofNat 64 (physAddr / 2 ^ 12))) 2 1
    ((BitVec.ofBool allowUserAccess).setWidth 64)) 1 1 1#64) 0 1 1#64

theorem getBits_zero : getBits 0#64 0 1 = 0#64 := by decide

theorem entryWord_present (p : Nat) (u : Bool) : getBits (entryWord p u) 0 1 = 1#64 := by
  apply BitVec.eq_of_getLsbD_eq
  intro i hi
  rw [getLsbD_getBits _ _ (by omega) hi, Nat.zero_add, entryWord,
    getLsbD_setBits _ _ _ (by omega) hi]
  by_cases h0 : i = 0
  · subst h0
    simp
  · have hlt : ¬ i < 1 := by omega
    simp [hlt, h0]

theorem entryWord_base (p : Nat) (u : Bool) :
    (getBits (entryWord p u) 12 39 <<< 12).toNat = p / 2 ^ 12 % 2 ^ 39 * 2 ^ 12 := by
  have hfield : getBits (entryWord p u) 12 39 = BitVec.ofNat 64 (p / 2 ^ 12 % 2 ^ 39) := by
    apply BitVec.eq_of_getLsbD_eq
    intro i hi
    rw [getLsbD_getBits _ _ (by omega) hi, BitVec.getLsbD_ofNat, Nat.testBit_mod_two_pow]
    by_cases hin : i < 39
    · have h0 : ¬ (0 ≤ 12 + i ∧ 12 + i < 0 + 1) := by omega
      have h1 : ¬ (1 ≤ 12 + i ∧ 12 + i < 1 + 1) := by omega
      have h2 : ¬ (2 ≤ 12 + i ∧ 12 + i < 2 + 1) := by omega
      have h12 : 12 ≤ 12 + i ∧ 12 + i < 12 + 39 := by omega
      rw [entryWord, getLsbD_setBits _ _ _ (by omega) (by omega), if_neg h0,
        getLsbD_setBits _ _ _ (by omega) (by omega), if_neg h1,
        getLsbD_setBits _ _ _ (by omega) (by omega), if_neg h2,
        getLsbD_setBits _ _ _ (by omega) (by omega), if_pos h12, Nat.add_sub_cancel_left,
        BitVec.getLsbD_ofNat]
      simp [hi, hin]
    · simp [hin]
  rw [hfield, BitVec.toNat_shiftLeft, BitVec.toNat_ofNat, Nat.shiftLeft_eq]
  omega

theorem loadWord_memset_zero (m : Mem) (a : Nat) : loadWord (memset m a 0 8) a = 0#64 := by
  apply BitVec.eq_of_getLsbD_eq
  intro i hi
  have h := bitAt_memset_zero m (b := a) (o := 0) (n := 8) (g := i) (by omega) (by omega)
  have hin : 8 * 0 ≤ i ∧ i < 8 * (0 + 8) := by omega
  rw [Nat.add_zero] at h
  rw [getLsbD_loadWord, h, decide_eq_true hin]
  simp

/-- `entryInit` writes one word. -/
theorem bitAt_entryInit (m : Mem) {entry b o : Nat} (p : Nat) (u : Bool)
    (he : entry % 2 ^ 64 = (b + o) % 2 ^ 64) (ho : o + 8 ≤ 2 ^ 64) (g : Nat) (hg : g < 2 ^ 67) :
    bitAt (entryInit m entry p u) b g =
      if 8 * o ≤ g ∧ g < 8 * o + 64 then (entryWord p u).getLsbD (g - 8 * o) else bitAt m b g := by
  simp only [entryInit, loadWord_storeWord, loadWord_memset_zero]
  simp only [storeWord_of_mod_eq _ _ he, memset_of_mod_eq _ _ _ he]
  rw [bitAt_storeWord _ _ ho hg]
  by_cases hin : 8 * o ≤ g ∧ g < 8 * o + 64
  · rw [if_pos hin, if_pos hin, entryWord]
  · have hout : ¬ (8 * o ≤ g ∧ g < 8 * (o + 8)) := by omega
    rw [if_neg hin, if_neg hin, bitAt_storeWord _ _ ho hg, if_neg hin, bitAt_storeWord _ _ ho hg,
      if_neg hin, bitAt_storeWord _ _ ho hg, if_neg hin, bitAt_memset_zero _ ho hg]
    simp [hout]

end WaddleOS
