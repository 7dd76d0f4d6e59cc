import WaddleOS.Base.Bits

/-!
# A downward stack of 64-bit words in byte memory

`StackAt m sp ws` says that the words `ws` lie one after the other from `sp`
up, the first of them on top. A push writes below `sp`, and wraps at the
bottom of the address space like every access.
-/

namespace WaddleOS

/-- The words `ws` lie from `sp` up. -/
def StackAt (m : Mem) (sp : Nat) (ws : List (BitVec 64)) : Prop :=
  ∀ i w, ws[i]? = some w → loadWord m (sp + 8 * i) = w

/-- The stack pointer and the memory after a push. -/
def pushWord (m : Mem) (sp : Nat) (w : BitVec 64) : Mem × Nat :=
  let sp := (sp + 2 ^ 64 - 8) % 2 ^ 64
  (storeWord m sp w, sp)

theorem stackAt_nil (m : Mem) (sp : Nat) : StackAt m sp [] := by
  intro i w h
  cases h

/-- A push leaves the words above it where they are. -/
theorem StackAt.below {m : Mem} {sp : Nat} {ws : List (BitVec 64)} (h : StackAt m sp ws)
    (room : ws.length < 2 ^ 60) (w : BitVec 64) : StackAt (pushWord m sp w).1 sp ws := by
  intro i v hv
  have hi : i < ws.length := (List.getElem?_eq_some_iff.mp hv).1
  have hout := load_store_outside m w.toNat (b := (sp + 2 ^ 64 - 8) % 2 ^ 64) (o := 0) (n := 8)
    (p := 8 + 8 * i) (k := 8) (by omega) (by omega) (by omega)
  have hsame : (sp + 8 * i) % 2 ^ 64 = ((sp + 2 ^ 64 - 8) % 2 ^ 64 + (8 + 8 * i)) % 2 ^ 64 := by
    omega
  rw [Nat.add_zero] at hout
  rw [← h i v hv, loadWord_of_mod_eq m hsame, loadWord_of_mod_eq _ hsame]
  simp only [pushWord, storeWord, loadWord, hout]

theorem StackAt.push {m : Mem} {sp : Nat} {ws : List (BitVec 64)} (h : StackAt m sp ws)
    (room : ws.length < 2 ^ 60) (w : BitVec 64) :
    StackAt (pushWord m sp w).1 (pushWord m sp w).2 (w :: ws) := by
  intro i v hv
  cases i with
  | zero =>
    obtain rfl : w = v := by simpa using hv
    rw [Nat.mul_zero, Nat.add_zero]
    exact loadWord_storeWord m _ w
  | succ i =>
    have hsame : ((pushWord m sp w).2 + 8 * (i + 1)) % 2 ^ 64 = (sp + 8 * i) % 2 ^ 64 := by
      simp only [pushWord]
      omega
    rw [loadWord_of_mod_eq _ hsame]
    exact h.below room w i v (by simpa using hv)

theorem pushWord_lt (m : Mem) (sp : Nat) (w : BitVec 64) : (pushWord m sp w).2 < 2 ^ 64 :=
  Nat.mod_lt _ (by decide)

theorem StackAt.head {m : Mem} {sp : Nat} {w : BitVec 64} {ws : List (BitVec 64)}
    (h : StackAt m sp (w :: ws)) : loadWord m sp = w :=
  h 0 w rfl

/-- What is left after a pop. -/
theorem StackAt.tail {m : Mem} {sp : Nat} {w : BitVec 64} {ws : List (BitVec 64)}
    (h : StackAt m sp (w :: ws)) : StackAt m ((sp + 8) % 2 ^ 64) ws := by
  intro i v hv
  have hsame : ((sp + 8) % 2 ^ 64 + 8 * i) % 2 ^ 64 = (sp + 8 * (i + 1)) % 2 ^ 64 := by omega
  rw [loadWord_of_mod_eq m hsame]
  exact h (i + 1) v hv

end WaddleOS
