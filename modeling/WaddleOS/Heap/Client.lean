import WaddleOS.Base.Run
import WaddleOS.Heap.Adjacent

/-!
# The heap and its client

A `World` is the heap together with what its client knows: the pointers it
holds, how many bytes it asked for at each and what it last put where. A
client passes back only pointers it holds, or null, and writes only inside
the blocks it holds. `Holds` ties the client's book to the row of blocks.
-/

namespace WaddleOS

/-- A block in the client's hands. -/
structure Held where
  ptr : Nat
  req : Nat
  data : Nat → Option UInt8

structure World where
  heap : Heap
  held : List Held

inductive Call where
  | malloc (n : UInt16)
  | calloc (num : UInt64) (n : UInt16)
  | realloc (p : Nat) (n : UInt16)
  | free (p : Nat)
  | write (p i : Nat) (v : UInt8)

namespace World

def ptrs (w : World) : List Nat := w.held.map Held.ptr

end World

/-- Enter a returned pointer in the book; null is no block. -/
def hold (held : List Held) (p req : Nat) (data : Nat → Option UInt8) : List Held :=
  if p = 0 then held else ⟨p, req, data⟩ :: held

def drop (held : List Held) (p : Nat) : List Held := held.filter fun e => e.ptr ≠ p

def dataOf (held : List Held) (p : Nat) : Nat → Option UInt8 :=
  ((held.find? fun e => e.ptr = p).map Held.data).getD fun _ => none

/-- Of the bytes written to a block the first `n` go with it to its new place. -/
def carry (data : Nat → Option UInt8) (n : Nat) : Nat → Option UInt8 :=
  fun i => if i < n then data i else none

/-- Write one byte of a block. -/
def put (held : List Held) (p i : Nat) (v : UInt8) : List Held :=
  held.map fun e => if e.ptr = p then { e with data := fun j => if j = i then some v else e.data j } else e

/-- One move of the client. A `wdrealloc` that returns null releases the block
when it asked for 0 bytes and leaves it with the client otherwise. -/
def World.step (fuel : Nat) (w : World) : Call → Except Fault World
  | .malloc n => do
    let (p, h) ← wdmalloc fuel w.heap n.toNat
    return ⟨h, hold w.held p n.toNat fun _ => none⟩
  | .calloc num n => do
    let (p, h) ← wdcalloc fuel w.heap num.toNat n.toNat
    return ⟨h, hold w.held p (num.toNat * n.toNat) fun _ => none⟩
  | .realloc p n => do
    let (r, h) ← wdrealloc fuel w.heap p n.toNat
    if r = 0 ∧ n.toNat ≠ 0 then return ⟨h, w.held⟩
    return ⟨h, hold (drop w.held p) r n.toNat (carry (dataOf w.held p) n.toNat)⟩
  | .free p => do
    let h ← wdfree fuel w.heap p
    return ⟨h, drop w.held p⟩
  | .write p i v => .ok ⟨{ w.heap with mem := w.heap.mem.set (p + i) v }, put w.held p i v⟩

/-- The discipline of the client. -/
def Admissible (w : World) : Call → Prop
  | .malloc _ => True
  | .calloc _ _ => True
  | .realloc p _ => p = 0 ∨ p ∈ w.ptrs
  | .free p => p = 0 ∨ p ∈ w.ptrs
  | .write p i _ => p ∈ w.ptrs ∧ i < wdmActualSize w.heap.mem (p - 12)

/-- The pointer a call is given. -/
def Call.ptr : Call → Nat
  | .malloc _ => 0
  | .calloc _ _ => 0
  | .realloc p _ => p
  | .free p => p
  | .write p _ _ => p

/-- The product that `wdcalloc` forms does not wrap. -/
def Call.NoWrap : Call → Prop
  | .calloc num n => num.toNat * n.toNat < 2 ^ 64
  | _ => True

/-- Some block on the freelist has room for `n` bytes. -/
def Fitting (h : Heap) (n : Nat) : Prop :=
  ∃ fl, Seg (lom h.mem) h.freelistHead fl 0 ∧ ∃ x ∈ fl, n ≤ sz h.mem x

/-- The state before a call in which the release it asks for takes effect. The
freelist must not be empty and the block must have a byte inside the heap. A
`wdrealloc` that moves the block must in addition not take the last free
block whole, and one for 0 bytes must not be given an empty block. -/
def Releases (h : Heap) : Call → Prop
  | .free p => p = 0 ∨ (h.freelistHead ≠ 0 ∧ p < h.heapStart + h.heapSize)
  | .realloc p n => p = 0 ∨
      ((n.toNat = 0 → h.freelistHead ≠ 0 ∧ wdmActualSize h.mem (p - 12) ≠ 0) ∧
        (wdmActualSize h.mem (p - 12) < n.toNat → reposition h (p - 12) n.toNat = none →
          Fitting h n.toNat → p < h.heapStart + h.heapSize ∧
            (lom h.mem h.freelistHead ≠ 0 ∨ n.toNat + 12 ≤ sz h.mem h.freelistHead)))
  | _ => True

/-- The state before a call in which it leaves no free block beside another:
a `wdrealloc` does not grow over the block before its own, with a rest split
off, while the block behind is free. -/
def Merges (h : Heap) : Call → Prop
  | .realloc p n => p = 0 ∨
      ¬ (wdmActualSize h.mem (p - 12) < n.toNat ∧
        nextNghbrOf h (p - 12) ≠ 0 ∧ wdmIsFree h.mem (nextNghbrOf h (p - 12)) ∧
        sz h.mem (nextNghbrOf h (p - 12)) + 12 + wdmActualSize h.mem (p - 12) < n.toNat ∧
        prevNghbrOf h (p - 12) ≠ 0 ∧ wdmIsFree h.mem (prevNghbrOf h (p - 12)) ∧
        n.toNat + 16 ≤ sz h.mem (prevNghbrOf h (p - 12)) + 12 + wdmActualSize h.mem (p - 12))
  | _ => True

/-- A held block is a used block, and what the client wrote to it is there. -/
def Held.Stands (e : Held) (h : Heap) (A : Abs) : Prop :=
  ∃ x s, e.ptr = x + 12 ∧ UsedAt h.heapStart A.blocks x s ∧
    ∀ i v, e.data i = some v → i < s ∧ h.mem.get (e.ptr + i) = v

/-- A held block has the bytes that the client asked for. -/
def Held.Fits (e : Held) (h : Heap) (A : Abs) : Prop :=
  ∃ x s, e.ptr = x + 12 ∧ UsedAt h.heapStart A.blocks x s ∧ e.req ≤ s

structure Holds (w : World) (A : Abs) : Prop where
  rep : Rep w.heap A
  nodup : w.ptrs.Nodup
  stands : ∀ e ∈ w.held, e.Stands w.heap A

/-- Every used block is held. -/
def Exact (w : World) (A : Abs) : Prop :=
  ∀ x s, UsedAt w.heap.heapStart A.blocks x s → x + 12 ∈ w.ptrs

/-- What one move of the client does. -/
structure Stepped (w : World) (A : Abs) (c : Call) (w' : World) (A' : Abs) : Prop where
  holds : Holds w' A'
  start : w'.heap.heapStart = w.heap.heapStart
  size : w'.heap.heapSize = w.heap.heapSize
  frame : ∀ e ∈ w.held, e.ptr ≠ c.ptr → ∀ x s, e.ptr = x + 12 →
    UsedAt w.heap.heapStart A.blocks x s →
    ∀ i, i < s → w'.heap.mem.get (e.ptr + i) = w.heap.mem.get (e.ptr + i)
  fits : c.NoWrap → (∀ e ∈ w.held, e.Fits w.heap A) → ∀ e ∈ w'.held, e.Fits w'.heap A'
  exact : Releases w.heap c → Exact w A → Exact w' A'
  spread : Merges w.heap c → Spread A.blocks → Spread A'.blocks

section Keep
variable {h h' : Heap} {A A' : Abs} {x : Nat} {e : Held}

theorem Held.Stands.kept (hs : e.Stands h A) (eff : Effect h A x h' A') (hne : e.ptr ≠ x + 12) :
    e.Stands h' A' := by
  obtain ⟨y, s, hp, hu, hd⟩ := hs
  obtain ⟨hu', hb⟩ := eff.kept y s hu (by omega)
  refine ⟨y, s, hp, by rw [eff.start]; exact hu', fun i v hv => ?_⟩
  obtain ⟨hi, hg⟩ := hd i v hv
  refine ⟨hi, ?_⟩
  rw [hp] at hg ⊢
  rw [hb i hi, hg]

theorem Held.Fits.kept (hf : e.Fits h A) (eff : Effect h A x h' A') (hne : e.ptr ≠ x + 12) :
    e.Fits h' A' := by
  obtain ⟨y, s, hp, hu, hr⟩ := hf
  obtain ⟨hu', -⟩ := eff.kept y s hu (by omega)
  exact ⟨y, s, hp, by rw [eff.start]; exact hu', hr⟩

end Keep

namespace Holds
variable {w : World} {A : Abs}

theorem ptr_pos (H : Holds w A) {e : Held} (he : e ∈ w.held) : e.ptr ≠ 0 := by
  obtain ⟨x, s, hp, -⟩ := H.stands e he
  omega

theorem null_not_held (H : Holds w A) : 0 ∉ w.ptrs := by
  intro h0
  obtain ⟨e, he, hp⟩ := List.mem_map.mp h0
  exact H.ptr_pos he hp

/-- The row around a held block. -/
theorem locate (H : Holds w A) {p : Nat} (hp : p ∈ w.ptrs) :
    ∃ pre c post, A.blocks = pre ++ ⟨c, true⟩ :: post ∧ p = w.heap.heapStart + span pre + 12 := by
  obtain ⟨e, he, rfl⟩ := List.mem_map.mp hp
  obtain ⟨x, s, hx, hu, -⟩ := H.stands e he
  obtain ⟨pre, post, hrow, hat⟩ := placed_split hu
  exact ⟨pre, s, post, hrow, by omega⟩

end Holds

theorem mem_drop {held : List Held} {p : Nat} {e : Held} :
    e ∈ drop held p ↔ e ∈ held ∧ e.ptr ≠ p := by
  simp [drop]

theorem mem_hold {held : List Held} {p req : Nat} {data : Nat → Option UInt8} {e : Held} :
    e ∈ hold held p req data ↔ e ∈ held ∨ (p ≠ 0 ∧ e = ⟨p, req, data⟩) := by
  unfold hold
  by_cases hp : p = 0
  · simp [hp]
  · rw [if_neg hp, List.mem_cons]
    constructor
    · rintro (rfl | he)
      · exact Or.inr ⟨hp, rfl⟩
      · exact Or.inl he
    · rintro (he | ⟨-, rfl⟩)
      · exact Or.inr he
      · exact Or.inl rfl

theorem nodup_hold {held : List Held} {p req : Nat} {data : Nat → Option UInt8}
    (nodup : (held.map Held.ptr).Nodup) (fresh : p ≠ 0 → p ∉ held.map Held.ptr) :
    ((hold held p req data).map Held.ptr).Nodup := by
  unfold hold
  by_cases hp : p = 0
  · rwa [if_pos hp]
  · rw [if_neg hp, List.map_cons, List.nodup_cons]
    exact ⟨fresh hp, nodup⟩

theorem nodup_drop {held : List Held} (p : Nat) (nodup : (held.map Held.ptr).Nodup) :
    ((drop held p).map Held.ptr).Nodup :=
  nodup.sublist (List.filter_sublist.map Held.ptr)

theorem drop_eq_self {held : List Held} {p : Nat} (hp : p ∉ held.map Held.ptr) :
    drop held p = held := by
  apply List.filter_eq_self.mpr
  intro e he
  simp only [decide_eq_true_eq]
  rintro rfl
  exact hp (List.mem_map.mpr ⟨e, he, rfl⟩)

theorem dataOf_eq {held : List Held} {e : Held} (nodup : (held.map Held.ptr).Nodup)
    (he : e ∈ held) : dataOf held e.ptr = e.data := by
  induction held with
  | nil => cases he
  | cons d ds ih =>
    rw [List.map_cons, List.nodup_cons] at nodup
    rcases List.mem_cons.mp he with rfl | he
    · simp [dataOf]
    · have hne : d.ptr ≠ e.ptr := fun hc => nodup.1 (hc ▸ List.mem_map.mpr ⟨e, he, rfl⟩)
      have := ih nodup.2 he
      unfold dataOf at this ⊢
      rwa [List.find?_cons_of_neg (by simpa using hne)]

theorem dataOf_none {held : List Held} {p : Nat} (hp : p ∉ held.map Held.ptr) :
    dataOf held p = fun _ => none := by
  unfold dataOf
  rw [List.find?_eq_none.mpr]
  · rfl
  · intro e he
    simp only [decide_eq_true_eq]
    rintro rfl
    exact hp (List.mem_map.mpr ⟨e, he, rfl⟩)

section Allocate
variable {w : World} {A A' : Abs} {h' : Heap} {n p : Nat}

/-- An allocation of `n` bytes, entered in the book as a request for `req`. -/
theorem malloc_stepped (H : Holds w A) (c : Call) (req : Nat)
    (hm : Malloc w.heap.heapStart n A p A') (hb : Becomes w.heap A h' A')
    (hreq : c.NoWrap → req ≤ n) :
    Stepped w A c ⟨h', hold w.held p req fun _ => none⟩ A' := by
  have hbd := H.rep.arena.bound
  have ht := H.rep.total
  have hout : ∀ e ∈ w.held, e.ptr ≠ w.heap.heapStart + w.heap.heapSize + 12 := by
    intro e he
    obtain ⟨x, s, hp, hu, -⟩ := H.stands e he
    have := hu.bounds
    omega
  have eff := Malloc.effect (w.heap.heapStart + w.heap.heapSize) H.rep hm hb
  have hnew : p ≠ 0 → ∃ x s, p = x + 12 ∧ n ≤ s ∧ UsedAt h'.heapStart A'.blocks x s ∧
      ∀ t, ¬ UsedAt w.heap.heapStart A.blocks x t := by
    intro hp
    rcases hm.used with ⟨h0, -⟩ | ⟨x, s, hx, hs, -, hfresh, hu⟩
    · exact absurd h0 hp
    · exact ⟨x, s, hx, hs, by rw [hb.start]; exact (hu x s).mpr (Or.inr ⟨rfl, rfl⟩), hfresh⟩
  refine ⟨⟨hb.rep, ?_, ?_⟩, hb.start, hb.size, ?_, ?_, ?_, fun _ => hm.spread⟩
  · apply nodup_hold H.nodup
    intro hp hmem
    obtain ⟨x, s, hx, -, -, hfresh⟩ := hnew hp
    obtain ⟨e, he, hep⟩ := List.mem_map.mp hmem
    obtain ⟨y, t, hy, hu, -⟩ := H.stands e he
    exact hfresh t (by rwa [show x = y by omega])
  · intro e he
    rcases mem_hold.mp he with he | ⟨hp, rfl⟩
    · exact (H.stands e he).kept eff (hout e he)
    · obtain ⟨x, s, hx, -, hu, -⟩ := hnew hp
      exact ⟨x, s, hx, hu, fun i v hv => by cases hv⟩
  · intro e he _ x s hx hu i hi
    have := hout e he
    rw [hx]
    exact (eff.kept x s hu (by omega)).2 i hi
  · intro hw hfits e he
    rcases mem_hold.mp he with he | ⟨hp, rfl⟩
    · exact (hfits e he).kept eff (hout e he)
    · obtain ⟨x, s, hx, hs, hu, -⟩ := hnew hp
      exact ⟨x, s, hx, hu, Nat.le_trans (hreq hw) hs⟩
  · intro _ hex x s hu
    simp only [hb.start] at hu
    have hmem : x + 12 ∈ w.ptrs ∨ (p ≠ 0 ∧ x + 12 = p) := by
      rcases hm.used with ⟨-, rfl⟩ | ⟨x', s', hx', -, -, -, huse⟩
      · exact Or.inl (hex x s hu)
      · rcases (huse x s).mp hu with hold | ⟨rfl, -⟩
        · exact Or.inl (hex x s hold)
        · exact Or.inr ⟨by omega, hx'.symm⟩
    rcases hmem with hmem | ⟨hp, hx⟩
    · obtain ⟨e, he, hep⟩ := List.mem_map.mp hmem
      exact List.mem_map.mpr ⟨e, mem_hold.mpr (Or.inl he), hep⟩
    · exact List.mem_map.mpr ⟨_, mem_hold.mpr (Or.inr ⟨hp, rfl⟩), hx.symm⟩

end Allocate

end WaddleOS
