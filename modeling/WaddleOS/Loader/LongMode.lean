import WaddleOS.Lib.String
import WaddleOS.Paging.Pools

/-!
# `loader/boot1/boot1.S`: the page tables of `long_mode`

One PML4 whose first and last entries lead through two PML3 tables to the same
PML2, whose first entry is a table of 512 pages from physical address 0. The
walk is the processor's, over physical memory.
-/

namespace WaddleOS

def p4tAddr : Nat := 0x10000

def p3tAddr : Nat := 0x11000

def p3t2Addr : Nat := 0x12000

def p2tAddr : Nat := 0x13000

def p1tAddr : Nat := 0x14000

/-- A table's address with `pt_present | pt_readable`. -/
def tableEntry (addr : Nat) : Nat := addr + 3

/-- Two `movl`: the low doubleword and a zero above it. -/
def movEntry (m : Mem) (a v : Nat) : Mem := store (store m a 4 v) (a + 4) 4 0

/-- `_set_entry` after `n` rounds. -/
def setEntries (m : Mem) : Nat → Mem
  | 0 => m
  | n + 1 => movEntry (setEntries m n) (p1tAddr + 8 * n) (tableEntry (4096 * n))

def longMode (m : Mem) : Mem :=
  -- `rep stosl`: `pt_size` doublewords
  let m := memset m p4tAddr 0 (4 * 4096)
  let m := movEntry m p4tAddr (tableEntry p3tAddr)
  let m := movEntry m (p4tAddr + 511 * 8) (tableEntry p3t2Addr)
  let m := movEntry m p3tAddr (tableEntry p2tAddr)
  let m := movEntry m (p3t2Addr + 510 * 8) (tableEntry p2tAddr)
  let m := movEntry m p2tAddr (tableEntry p1tAddr)
  setEntries m 512

/-- The base in entry `i` of the table at physical address `base`. -/
def physEntry (m : Mem) (base i : Nat) : Option Nat :=
  let entry := load m (base + 8 * i) 8
  if entry % 2 = 1 then some (entry / 2 ^ 12 % 2 ^ 40 * 2 ^ 12) else none

def physWalk (m : Mem) (cr3 v : Nat) : Option Nat := do
  let p3t ← physEntry m cr3 (v / 2 ^ 39 % 512)
  let p2t ← physEntry m p3t (v / 2 ^ 30 % 512)
  let p1t ← physEntry m p2t (v / 2 ^ 21 % 512)
  let page ← physEntry m p1t (v / 2 ^ 12 % 512)
  return page + v % 2 ^ 12

/-! ## Reading the entries back -/

theorem load_split (m : Mem) (a : Nat) : load m a 8 = load m a 4 + 2 ^ 32 * load m (a + 4) 4 := by
  simp only [load, Nat.add_assoc, Nat.reduceAdd]
  omega

theorem load_movEntry (m : Mem) {a b v : Nat} (ha : a + 8 ≤ 2 ^ 64) (hb : b + 8 ≤ 2 ^ 64)
    (hv : v < 2 ^ 32) (hsep : b = a ∨ b + 8 ≤ a ∨ a + 8 ≤ b) :
    load (movEntry m a v) b 8 = if b = a then v else load m b 8 := by
  by_cases heq : b = a
  · subst heq
    rw [if_pos rfl, movEntry, load_split,
      load_store_apart (store m b 4 v) 0 (by omega) (by omega) (by omega),
      load_store_at m v (by omega), load_store_at (store m b 4 v) 0 (by omega)]
    omega
  · rw [if_neg heq, movEntry, load_store_apart (store m a 4 v) 0 (by omega) (by omega) (by omega),
      load_store_apart m v (by omega) (by omega) (by omega)]

theorem load_setEntries (m : Mem) {n b : Nat} (hn : n ≤ 512) (hb : b + 8 ≤ 2 ^ 64)
    (halign : b % 8 = 0) :
    load (setEntries m n) b 8 =
      if p1tAddr ≤ b ∧ b < p1tAddr + 8 * n then tableEntry (4096 * ((b - p1tAddr) / 8))
      else load m b 8 := by
  induction n with
  | zero => rw [setEntries, if_neg (by omega)]
  | succ n ih =>
    unfold p1tAddr tableEntry at *
    rw [setEntries]
    unfold p1tAddr tableEntry
    rw [load_movEntry _ (by omega) hb (by omega) (by omega), ih (by omega)]
    by_cases heq : b = 0x14000 + 8 * n
    · subst heq
      rw [if_pos rfl, if_pos (by omega)]
      omega
    · rw [if_neg heq]
      by_cases hin : 0x14000 ≤ b ∧ b < 0x14000 + 8 * n
      · rw [if_pos hin, if_pos (by omega)]
      · rw [if_neg hin, if_neg (by omega)]

theorem load_memset_zero (m : Mem) {a n b k : Nat} (ha : a + n ≤ 2 ^ 64) (hlo : a ≤ b)
    (hhi : b + k ≤ a + n) : load (memset m a 0 n) b k = 0 := by
  induction k generalizing b with
  | zero => rfl
  | succ k ih =>
    have hbyte := get_memset m 0 (b := 0) (o := a) (x := b) (n := n) ha (by omega)
    simp only [Nat.zero_add] at hbyte
    rw [load, ih (by omega) (by omega), hbyte, if_pos (by omega)]
    rfl

/-- The entries of the tables, from any memory. -/
theorem load_longMode (m : Mem) {b : Nat} (hlo : p4tAddr ≤ b) (hhi : b + 8 ≤ p1tAddr + 4096)
    (halign : b % 8 = 0) :
    load (longMode m) b 8 =
      if p1tAddr ≤ b then tableEntry (4096 * ((b - p1tAddr) / 8))
      else if b = p2tAddr then tableEntry p1tAddr
      else if b = p3t2Addr + 510 * 8 then tableEntry p2tAddr
      else if b = p3tAddr then tableEntry p2tAddr
      else if b = p4tAddr + 511 * 8 then tableEntry p3t2Addr
      else if b = p4tAddr then tableEntry p3tAddr else 0 := by
  unfold longMode
  rw [load_setEntries _ (by omega) (by unfold p1tAddr at hhi; omega) halign]
  unfold p4tAddr p3tAddr p3t2Addr p2tAddr p1tAddr tableEntry at *
  by_cases hp1 : 0x14000 ≤ b
  · rw [if_pos (by omega), if_pos hp1]
  · rw [if_neg (by omega), if_neg hp1]
    rw [load_movEntry _ (by omega) (by omega) (by omega) (by omega),
      load_movEntry _ (by omega) (by omega) (by omega) (by omega),
      load_movEntry _ (by omega) (by omega) (by omega) (by omega),
      load_movEntry _ (by omega) (by omega) (by omega) (by omega),
      load_movEntry _ (by omega) (by omega) (by omega) (by omega),
      load_memset_zero _ (by omega) (by omega) (by omega)]

theorem physEntry_eq {m : Mem} {base i v : Nat} (h : load m (base + 8 * i) 8 = v) :
    physEntry m base i = if v % 2 = 1 then some (v / 2 ^ 12 % 2 ^ 40 * 2 ^ 12) else none := by
  rw [← h]
  rfl

theorem physEntry_p4t (m : Mem) {i : Nat} (hi : i < 512) :
    physEntry (longMode m) p4tAddr i =
      if i = 0 then some p3tAddr else if i = 511 then some p3t2Addr else none := by
  have hload := load_longMode m (b := p4tAddr + 8 * i) (by omega) (by unfold p4tAddr p1tAddr; omega)
    (by unfold p4tAddr; omega)
  unfold p4tAddr p3tAddr p3t2Addr p2tAddr p1tAddr tableEntry at *
  rw [if_neg (by omega), if_neg (by omega), if_neg (by omega), if_neg (by omega)] at hload
  by_cases h0 : i = 0
  · rw [if_neg (by omega), if_pos (by omega)] at hload
    rw [physEntry_eq hload, if_pos h0]
    rfl
  · by_cases h511 : i = 511
    · rw [if_pos (by omega)] at hload
      rw [physEntry_eq hload, if_neg h0, if_pos h511]
      rfl
    · rw [if_neg (by omega), if_neg (by omega)] at hload
      rw [physEntry_eq hload, if_neg h0, if_neg h511]
      rfl

theorem physEntry_p3t (m : Mem) {i : Nat} (hi : i < 512) :
    physEntry (longMode m) p3tAddr i = if i = 0 then some p2tAddr else none := by
  have hload := load_longMode m (b := p3tAddr + 8 * i) (by unfold p4tAddr p3tAddr; omega)
    (by unfold p3tAddr p1tAddr; omega) (by unfold p3tAddr; omega)
  unfold p4tAddr p3tAddr p3t2Addr p2tAddr p1tAddr tableEntry at *
  rw [if_neg (by omega), if_neg (by omega), if_neg (by omega)] at hload
  by_cases h0 : i = 0
  · rw [if_pos (by omega)] at hload
    rw [physEntry_eq hload, if_pos h0]
    rfl
  · rw [if_neg (by omega), if_neg (by omega), if_neg (by omega)] at hload
    rw [physEntry_eq hload, if_neg h0]
    rfl

theorem physEntry_p3t2 (m : Mem) {i : Nat} (hi : i < 512) :
    physEntry (longMode m) p3t2Addr i = if i = 510 then some p2tAddr else none := by
  have hload := load_longMode m (b := p3t2Addr + 8 * i) (by unfold p4tAddr p3t2Addr; omega)
    (by unfold p3t2Addr p1tAddr; omega) (by unfold p3t2Addr; omega)
  unfold p4tAddr p3tAddr p3t2Addr p2tAddr p1tAddr tableEntry at *
  rw [if_neg (by omega), if_neg (by omega)] at hload
  by_cases h510 : i = 510
  · rw [if_pos (by omega)] at hload
    rw [physEntry_eq hload, if_pos h510]
    rfl
  · rw [if_neg (by omega), if_neg (by omega), if_neg (by omega), if_neg (by omega)] at hload
    rw [physEntry_eq hload, if_neg h510]
    rfl

theorem physEntry_p2t (m : Mem) {i : Nat} (hi : i < 512) :
    physEntry (longMode m) p2tAddr i = if i = 0 then some p1tAddr else none := by
  have hload := load_longMode m (b := p2tAddr + 8 * i) (by unfold p4tAddr p2tAddr; omega)
    (by unfold p2tAddr p1tAddr; omega) (by unfold p2tAddr; omega)
  unfold p4tAddr p3tAddr p3t2Addr p2tAddr p1tAddr tableEntry at *
  rw [if_neg (by omega)] at hload
  by_cases h0 : i = 0
  · rw [if_pos (by omega)] at hload
    rw [physEntry_eq hload, if_pos h0]
    rfl
  · rw [if_neg (by omega), if_neg (by omega), if_neg (by omega), if_neg (by omega),
      if_neg (by omega)] at hload
    rw [physEntry_eq hload, if_neg h0]
    rfl

theorem physEntry_p1t (m : Mem) {i : Nat} (hi : i < 512) :
    physEntry (longMode m) p1tAddr i = some (4096 * i) := by
  have hload := load_longMode m (b := p1tAddr + 8 * i) (by unfold p4tAddr p1tAddr; omega) (by omega)
    (by unfold p1tAddr; omega)
  have hidx : (p1tAddr + 8 * i - p1tAddr) / 8 = i := by omega
  rw [if_pos (by omega), hidx, tableEntry] at hload
  rw [physEntry_eq hload, if_pos (by omega), Option.some.injEq]
  omega

theorem physWalk_lower (m : Mem) (v : Nat) :
    (do
      let p1t ← physEntry (longMode m) p2tAddr (v / 2 ^ 21 % 512)
      let page ← physEntry (longMode m) p1t (v / 2 ^ 12 % 512)
      return page + v % 2 ^ 12 : Option Nat) =
      if v / 2 ^ 21 % 512 = 0 then some (v % 2 ^ 21) else none := by
  have hc : v / 2 ^ 21 % 512 < 512 := Nat.mod_lt _ (by omega)
  have hd : v / 2 ^ 12 % 512 < 512 := Nat.mod_lt _ (by omega)
  rw [physEntry_p2t m hc]
  by_cases h0 : v / 2 ^ 21 % 512 = 0
  · have hofs : 4096 * (v / 2 ^ 12 % 512) + v % 2 ^ 12 = v % 2 ^ 21 := by omega
    rw [if_pos h0, if_pos h0]
    simp only [Option.bind_eq_bind, Option.bind_some]
    rw [physEntry_p1t m hd]
    exact congrArg some hofs
  · rw [if_neg h0, if_neg h0]
    rfl

/-- What the tables map: the first 2 MiB, at 0 and in the top 2 GiB. -/
theorem physWalk_longMode (m : Mem) (v : Nat) :
    physWalk (longMode m) p4tAddr v =
      if (v / 2 ^ 39 % 512 = 0 ∧ v / 2 ^ 30 % 512 = 0 ∨
          v / 2 ^ 39 % 512 = 511 ∧ v / 2 ^ 30 % 512 = 510) ∧ v / 2 ^ 21 % 512 = 0 then
        some (v % 2 ^ 21) else none := by
  have ha : v / 2 ^ 39 % 512 < 512 := Nat.mod_lt _ (by omega)
  have hb : v / 2 ^ 30 % 512 < 512 := Nat.mod_lt _ (by omega)
  have hlower := physWalk_lower m v
  unfold physWalk
  rw [physEntry_p4t m ha]
  by_cases h0 : v / 2 ^ 39 % 512 = 0
  · rw [if_pos h0]
    simp only [Option.bind_eq_bind, Option.bind_some] at hlower ⊢
    rw [physEntry_p3t m hb]
    by_cases h30 : v / 2 ^ 30 % 512 = 0
    · rw [if_pos h30, Option.bind_some, hlower]
      exact if_congr (by omega) rfl rfl
    · rw [if_neg h30, if_neg (by omega)]
      rfl
  · by_cases h511 : v / 2 ^ 39 % 512 = 511
    · rw [if_neg h0, if_pos h511]
      simp only [Option.bind_eq_bind, Option.bind_some] at hlower ⊢
      rw [physEntry_p3t2 m hb]
      by_cases h30 : v / 2 ^ 30 % 512 = 510
      · rw [if_pos h30, Option.bind_some, hlower]
        exact if_congr (by omega) rfl rfl
      · rw [if_neg h30, if_neg (by omega)]
        rfl
    · rw [if_neg h0, if_neg h511, if_neg (by omega)]
      rfl

/-- A physical address is found where `k_ptov` puts it just below 2 MiB. -/
theorem physWalk_kPtov_iff (m : Mem) {p : Nat} (hp : p < 2 ^ 64) :
    physWalk (longMode m) p4tAddr (kPtov p) = some p ↔ p < 2 ^ 21 := by
  rw [physWalk_longMode]
  unfold kPtov physBase
  constructor
  · intro h
    split at h
    · rw [Option.some.injEq] at h
      omega
    · cases h
  · intro hlt
    rw [if_pos (by omega), Option.some.injEq]
    omega

end WaddleOS
