import WaddleOS.Paging.Metadata
import WaddleOS.Paging.Usable

/-!
# Bitmaps packed back to back

`paging_init` puts each bitmap at the byte behind the one before, so the
64-bit words through which they are flipped overlap. The masks are exact, so a
flip changes no byte that its own bitmap does not store (`bitmapFlip_stores`),
and packed bitmaps store different bytes.
-/

namespace WaddleOS

/-- A flip changes no byte that its bitmap does not store. -/
theorem bitmapFlip_stores {m m' : Mem} {bmp : Bitmap} {s e : Nat}
    (h : bitmapFlip m bmp s e = .ok m') (he : e < bmp.size) (hsize : bmp.size < 2 ^ 64) {x : Nat}
    (hx : ¬ bmp.Stores x) : m'.get x = m.get x := by
  -- the byte `x` counted from the buffer
  generalize hd : (x % 2 ^ 64 + (2 ^ 64 - bmp.buf % 2 ^ 64)) % 2 ^ 64 = d
  have hat : x % 2 ^ 64 = (bmp.buf + d) % 2 ^ 64 := by omega
  have hout : ¬ d < (bmp.size + 7) / 8 := fun hlt => hx ⟨d, hlt, hat⟩
  apply get_eq_of_bits
  intro t ht
  rw [bitAt_of_mod_eq m' t hat, bitAt_of_mod_eq m t hat, bitAt_add, bitAt_add,
    bitAt_bitmapFlip h (b := bmp.buf) (o := 0) rfl (by omega) _ (by omega),
    decide_eq_false (by omega), Bool.xor_false]

theorem bitmapTestAndFlip_stores {m m' : Mem} {bmp : Bitmap} {value : Bool} {s e n : Nat}
    {r : Option Nat} (h : bitmapTestAndFlip m bmp value s e n = .ok (r, m'))
    (hsize : bmp.size < 2 ^ 64) {x : Nat} (hx : ¬ bmp.Stores x) : m'.get x = m.get x := by
  have hok := bitmapTestAndFlip_ok h
  obtain ⟨-, he, -, -, hn⟩ := assertSearch_ok hok
  rcases bitmapTestAndFlip_spec m value (by omega) hok with ⟨hrun, -⟩ | ⟨i, k, hrun, hfit, hflip⟩
  · rw [h] at hrun
    cases hrun
    rfl
  · rw [h] at hrun
    cases hrun
    have hle := hfit.le_stop
    exact bitmapFlip_stores hflip (by omega) hsize hx

/-- Bitmaps of the given sizes, each at the byte behind the one before. -/
def packed (base : Nat) : List UInt64 → List Bitmap
  | [] => []
  | n :: ns => ⟨base, n.toNat⟩ :: packed (base + (n.toNat + 7) / 8) ns

/-- The bytes that they take. -/
def packedBytes : List UInt64 → Nat
  | [] => 0
  | n :: ns => (n.toNat + 7) / 8 + packedBytes ns

/-- A call of one of the functions that write to a bitmap in place. -/
inductive BitmapOp where
  | flip (bmp : Bitmap) (startIdx endIdx : Nat)
  | testAndFlip (bmp : Bitmap) (value : Bool) (startIdx endIdx numBits : Nat)

namespace BitmapOp

def bmp : BitmapOp → Bitmap
  | .flip bmp _ _ => bmp
  | .testAndFlip bmp _ _ _ _ => bmp

def step (m : Mem) : BitmapOp → Except Fault Mem
  | .flip bmp startIdx endIdx => bitmapFlip m bmp startIdx endIdx
  | .testAndFlip bmp value startIdx endIdx numBits => do
    let (_, m) ← bitmapTestAndFlip m bmp value startIdx endIdx numBits
    return m

/-- The calls that a client of the bitmaps `bmps` makes. -/
def Valid (bmps : List Bitmap) : BitmapOp → Prop
  | .flip bmp startIdx endIdx => bmp ∈ bmps ∧ startIdx ≤ endIdx ∧ endIdx < bmp.size
  | .testAndFlip bmp _ _ _ _ => bmp ∈ bmps

/-- A sequence of calls. -/
def run (m : Mem) : List BitmapOp → Except Fault Mem
  | [] => .ok m
  | op :: ops => do run (← op.step m) ops

theorem Valid.mem {bmps : List Bitmap} {op : BitmapOp} (h : op.Valid bmps) : op.bmp ∈ bmps := by
  cases op with
  | flip bmp s e => exact h.1
  | testAndFlip bmp v s e n => exact h

theorem step_stores {bmps : List Bitmap} {op : BitmapOp} {m m' : Mem} (hv : op.Valid bmps)
    (h : op.step m = .ok m') (hsize : op.bmp.size < 2 ^ 64) {x : Nat} (hx : ¬ op.bmp.Stores x) :
    m'.get x = m.get x := by
  cases op with
  | flip bmp s e => exact bitmapFlip_stores h hv.2.2 hsize hx
  | testAndFlip bmp v s e n =>
    obtain ⟨⟨r, k⟩, hcall, hk⟩ := bind_eq_ok.mp h
    cases Except.ok.inj hk
    exact bitmapTestAndFlip_stores hcall hsize hx

/-- A run changes no byte that none of its bitmaps stores. -/
theorem run_stores {bmps : List Bitmap} (hsize : ∀ b ∈ bmps, b.size < 2 ^ 64) {ops : List BitmapOp}
    {m m' : Mem} (hv : ∀ op ∈ ops, op.Valid bmps) (h : run m ops = .ok m') {x : Nat}
    (hx : ∀ op ∈ ops, ¬ op.bmp.Stores x) : m'.get x = m.get x := by
  induction ops generalizing m with
  | nil =>
    cases Except.ok.inj h
    rfl
  | cons op ops ih =>
    obtain ⟨k, hstep, hrest⟩ := bind_eq_ok.mp h
    have hop := hv op List.mem_cons_self
    rw [ih (fun o ho => hv o (List.mem_cons_of_mem op ho)) hrest
      (fun o ho => hx o (List.mem_cons_of_mem op ho))]
    exact step_stores hop hstep (hsize _ hop.mem) (hx op List.mem_cons_self)

end BitmapOp

section Layout
variable {base : Nat} {sizes : List UInt64} {b c : Bitmap}

theorem packed_bounds (hb : b ∈ packed base sizes) :
    base ≤ b.buf ∧ b.buf + (b.size + 7) / 8 ≤ base + packedBytes sizes ∧ b.size < 2 ^ 64 := by
  induction sizes generalizing base with
  | nil => cases hb
  | cons n ns ih =>
    have hn : n.toNat < 2 ^ 64 := n.toNat_lt
    simp only [packed, List.mem_cons, packedBytes] at hb ⊢
    rcases hb with rfl | hb
    · simp only
      omega
    · have := ih hb
      omega

/-- Two packed bitmaps are the same or share no byte. -/
theorem packed_apart (hb : b ∈ packed base sizes) (hc : c ∈ packed base sizes) :
    b = c ∨ b.buf + (b.size + 7) / 8 ≤ c.buf ∨ c.buf + (c.size + 7) / 8 ≤ b.buf := by
  induction sizes generalizing base with
  | nil => cases hb
  | cons n ns ih =>
    simp only [packed, List.mem_cons] at hb hc
    rcases hb with rfl | hb <;> rcases hc with rfl | hc
    · exact Or.inl rfl
    · exact Or.inr (Or.inl (packed_bounds hc).1)
    · exact Or.inr (Or.inr (packed_bounds hb).1)
    · exact ih hb hc

/-- Below the end of the address space storing is a matter of bounds. -/
theorem Bitmap.stores_iff (hend : b.buf + (b.size + 7) / 8 ≤ 2 ^ 64) {x : Nat} (hx : x < 2 ^ 64) :
    b.Stores x ↔ b.buf ≤ x ∧ x < b.buf + (b.size + 7) / 8 := by
  constructor
  · rintro ⟨d, hd, hat⟩
    omega
  · intro hin
    exact ⟨x - b.buf, by omega, by omega⟩

end Layout

/-- Whatever sequence of flips and searches runs on packed bitmaps, those that
no call was given keep every bit, and so does every byte outside the area. -/
theorem packed_bitmaps_independent (base : Nat) (sizes : List UInt64)
    (hfit : base + packedBytes sizes ≤ 2 ^ 64) (ops : List BitmapOp)
    (hvalid : ∀ op ∈ ops, op.Valid (packed base sizes)) (m m' : Mem)
    (hrun : BitmapOp.run m ops = .ok m') :
    (∀ b ∈ packed base sizes, (∀ op ∈ ops, op.bmp ≠ b) →
      ∀ i, i < b.size → bitmapGet m' b i = bitmapGet m b i) ∧
    SameOutside base (base + packedBytes sizes) m m' := by
  have bounds := fun b (hb : b ∈ packed base sizes) => packed_bounds hb
  have hsize : ∀ b ∈ packed base sizes, b.size < 2 ^ 64 := fun b hb => (bounds b hb).2.2
  have hstores : ∀ op ∈ ops, ∀ x, x < 2 ^ 64 → op.bmp.Stores x →
      op.bmp.buf ≤ x ∧ x < op.bmp.buf + (op.bmp.size + 7) / 8 := by
    intro op hop x hx hs
    have hb := bounds _ (hvalid op hop).mem
    exact (Bitmap.stores_iff (by omega) hx).mp hs
  constructor
  · intro b hb hother i hi
    have hbb := bounds b hb
    rw [bitmapGet_eq _ hi, bitmapGet_eq _ hi]
    congr 1
    apply bitAt_congr
    apply BitmapOp.run_stores hsize hvalid hrun
    intro op hop hs
    have hin := hstores op hop _ (by omega) hs
    rcases packed_apart (hvalid op hop).mem hb with h | h | h
    · exact hother op hop h
    · omega
    · omega
  · intro x hx hout
    apply BitmapOp.run_stores hsize hvalid hrun
    intro op hop hs
    have hin := hstores op hop x hx hs
    have hb := bounds _ (hvalid op hop).mem
    omega

theorem packed_bitmaps_independent_shared_word :
    ∃ m', BitmapOp.run ⟨fun _ => 0⟩
        [.flip ⟨4096, 12⟩ 3 11, .testAndFlip ⟨4111, 60⟩ false 0 59 50, .flip ⟨4096, 12⟩ 0 4] =
        .ok m' ∧
      (∀ b ∈ packed 4096 [12, 100, 60],
        (∀ op ∈ [BitmapOp.flip ⟨4096, 12⟩ 3 11, .testAndFlip ⟨4111, 60⟩ false 0 59 50,
          .flip ⟨4096, 12⟩ 0 4], op.bmp ≠ b) →
        ∀ i, i < b.size → bitmapGet m' b i = bitmapGet ⟨fun _ => 0⟩ b i) ∧
      SameOutside 4096 (4096 + packedBytes [12, 100, 60]) ⟨fun _ => 0⟩ m' := by
  have hret : (match BitmapOp.run ⟨fun _ => 0⟩ [.flip ⟨4096, 12⟩ 3 11,
      .testAndFlip ⟨4111, 60⟩ false 0 59 50, .flip ⟨4096, 12⟩ 0 4] with
    | .ok _ => true
    | .error _ => false) = true := by decide +kernel
  split at hret
  · next m' hrun =>
    refine ⟨m', hrun, packed_bitmaps_independent 4096 [12, 100, 60] (by decide) _ ?_ _ m' hrun⟩
    intro op hop
    simp only [List.mem_cons, List.not_mem_nil, or_false] at hop
    rcases hop with rfl | rfl | rfl <;> simp [BitmapOp.Valid, packed]
  · cases hret

/-- The four bitmaps of the pools are packed from the end of the kernel on. -/
theorem PoolsAt.packed_bitmaps {σ : Type} {free total : Nat} {s : Paging σ} (h : PoolsAt free total s)
    (hend : free + mdEnd total < 2 ^ 64) :
    [s.kernelPool.allocatedBmp, s.kernelPool.pinnedBmp, s.userPool.allocatedBmp,
      s.userPool.pinnedBmp] =
      packed free [.ofNat (kPoolPages total), .ofNat (kPoolPages total), .ofNat (uPoolPages total),
        .ofNat (uPoolPages total)] := by
  have ht := h.total_lt
  have hk : kPoolPages total ≤ 2 ^ 52 := by
    unfold kPoolPages
    omega
  have hu : uPoolPages total ≤ 2 ^ 52 := by
    unfold uPoolPages
    omega
  rw [h.kernel, h.user]
  simp only [mdEnd, uBmpOffset, bmpBytes_eq hk, bmpBytes_eq hu] at hend
  simp only [packed, kernelPoolAt, userPoolAt, uBmpOffset, bmpBytes_eq hk, bmpBytes_eq hu,
    UInt64.toNat_ofNat', List.cons.injEq, Bitmap.mk.injEq, and_true, true_and]
  omega

end WaddleOS
