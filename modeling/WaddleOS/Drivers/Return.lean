import WaddleOS.Base.Run
import WaddleOS.Drivers.Frames

/-!
# `kernel/drivers/interrupt_stubs.S`, back to the interrupted code

Behind the call a stub pops the registers and returns with `iretq`. The C
handler in between may write its own data and its own stack, which lies below
the frame.
-/

namespace WaddleOS

/-- The instructions of the stubs behind the call. -/
inductive TailInstr where
  | popq (r : Reg)
  /-- `addq $n, %rsp` -/
  | addRsp (n : BitVec 64)
  deriving DecidableEq, Repr

def Cpu.pop (c : Cpu) : BitVec 64 × Cpu :=
  (loadWord c.mem c.rsp.toNat, { c with rsp := c.rsp + 8 })

def TailInstr.exec (c : Cpu) : TailInstr → Cpu
  | .popq r => c.pop.2.setReg r c.pop.1
  | .addRsp n => { c with rsp := c.rsp + n }

/-- `ISR_STUB` behind the call. -/
def isrTail : List TailInstr := savedRegs.reverse.map .popq

/-- `EXC_STUB` behind the call. -/
def excTail (hasErrorCode : Bool) : List TailInstr :=
  -- clean up the dummy error code if one was pushed
  (if hasErrorCode then [] else [.addRsp 8]) ++ savedRegs.reverse.map .popq

/-- The processor with what `iretq` loads. -/
structure Core where
  cpu : Cpu
  rip : BitVec 64
  cs : BitVec 64
  rflags : BitVec 64
  ss : BitVec 64

def Cpu.iretq (c : Cpu) : Core :=
  let (rip, c) := c.pop
  let (cs, c) := c.pop
  let (rflags, c) := c.pop
  let (rsp, c) := c.pop
  let (ss, c) := c.pop
  ⟨{ c with rsp := rsp }, rip, cs, rflags, ss⟩

/-- The rest of the stub of a vector. -/
def stubReturn (vector : Nat) (c : Cpu) : Core :=
  let tail := if vector < 32 then excTail (vector ∈ errorCodeStubs) else isrTail
  (tail.foldl TailInstr.exec c).iretq

/-- What the processor saves. -/
def Core.saved (k : Core) : Saved := ⟨k.rip, k.cs, k.rflags, k.cpu.rsp, k.ss⟩

/-- The state in which the handler of an interrupt starts. -/
def Core.entry (k : Core) (vector : Nat) (errorCode ret : BitVec 64) : Cpu :=
  handlerEntry k.cpu vector k.saved errorCode ret

/-! ### The stack pointer -/

theorem aligned_toNat (w : BitVec 64) : (w &&& ~~~0xF#64).toNat = w.toNat / 16 * 16 := by
  have low : ∀ i, (0xF#64).getLsbD i = decide (i < 4) := by
    intro i
    rw [BitVec.getLsbD_ofNat, Nat.testBit_two_pow_sub_one 4 i]
    by_cases h : i < 4
    · simp only [h, decide_true, Bool.and_true, decide_eq_true_eq]
      omega
    · simp [h]
  have shifted : w &&& ~~~0xF#64 = (w >>> 4) <<< 4 := by
    apply BitVec.eq_of_getLsbD_eq
    intro i hi
    simp only [BitVec.getLsbD_and, BitVec.getLsbD_not, BitVec.getLsbD_shiftLeft,
      BitVec.getLsbD_ushiftRight, low]
    by_cases h : i < 4
    · simp [h]
    · rw [show 4 + (i - 4) = i by omega]
      simp [h, hi]
  rw [shifted, BitVec.toNat_shiftLeft, BitVec.toNat_ushiftRight, Nat.shiftRight_eq_div_pow,
    Nat.shiftLeft_eq, Nat.mod_eq_of_lt (by omega)]

theorem Cpu.push_rsp (c : Cpu) (w : BitVec 64) : (c.push w).rsp = c.rsp - 8 := by
  apply BitVec.eq_of_toNat_eq
  have eight : (8 : BitVec 64).toNat = 8 := rfl
  simp only [Cpu.push, pushWord, BitVec.toNat_ofNat, BitVec.toNat_sub, eight]
  omega

/-- `n` words have been pushed: the rest of the memory is as it was. -/
structure Cpu.Pushed (n : Nat) (c c' : Cpu) : Prop where
  rsp : c'.rsp = c.rsp - BitVec.ofNat 64 (8 * n)
  mem : 8 * n ≤ c.rsp.toNat → SameOutside c'.rsp.toNat c.rsp.toNat c.mem c'.mem

theorem Cpu.Pushed.toNat {n : Nat} {c c' : Cpu} (h : Cpu.Pushed n c c') (room : 8 * n ≤ c.rsp.toNat) :
    c'.rsp.toNat = c.rsp.toNat - 8 * n := by
  have small : 8 * n < 2 ^ 64 := by omega
  have bound : BitVec.ofNat 64 (8 * n) ≤ c.rsp := by
    rw [BitVec.le_def, BitVec.toNat_ofNat, Nat.mod_eq_of_lt small]
    exact room
  rw [h.rsp, BitVec.toNat_sub_of_le bound, BitVec.toNat_ofNat, Nat.mod_eq_of_lt small]

theorem Cpu.push_pushed (c : Cpu) (w : BitVec 64) : Cpu.Pushed 1 c (c.push w) := by
  refine ⟨c.push_rsp w, fun room => ?_⟩
  have sp : (c.push w).rsp.toNat = c.rsp.toNat - 8 := by
    have eight : (8 : BitVec 64) ≤ c.rsp := by rw [BitVec.le_def]; exact room
    rw [c.push_rsp w, BitVec.toNat_sub_of_le eight]
    rfl
  have at' : (c.rsp.toNat + 2 ^ 64 - 8) % 2 ^ 64 = c.rsp.toNat - 8 := by omega
  have mem : (c.push w).mem = store c.mem (c.rsp.toNat - 8) 8 w.toNat := by
    simp only [Cpu.push, pushWord, storeWord, at']
  rw [sp, mem]
  exact (SameOutside.refl _ _ _).store _ (Nat.le_refl _) (by omega) (by omega)

theorem Cpu.Pushed.refl (c : Cpu) : Cpu.Pushed 0 c c :=
  ⟨by simp, fun _ => SameOutside.refl _ _ _⟩

theorem Cpu.Pushed.trans {m n : Nat} {c c' c'' : Cpu} (h : Cpu.Pushed m c c')
    (h' : Cpu.Pushed n c' c'') : Cpu.Pushed (m + n) c c'' := by
  refine ⟨?_, fun room => ?_⟩
  · rw [h'.rsp, h.rsp, BitVec.sub_sub, Nat.mul_add, BitVec.ofNat_add]
  · have first := h.toNat (by omega)
    have second := h'.toNat (by omega)
    exact ((h.mem (by omega)).mono (by omega) (Nat.le_refl _)).trans
      ((h'.mem (by omega)).mono (Nat.le_refl _) (by omega))

/-- Moving a value into a register pushes nothing. -/
theorem Cpu.setReg_pushed (c : Cpu) (r : Reg) (w : BitVec 64) : Cpu.Pushed 0 c (c.setReg r w) :=
  ⟨by simp [Cpu.setReg], fun _ => SameOutside.refl _ _ _⟩

theorem pushRegs_pushed (c : Cpu) (rs : List Reg) :
    Cpu.Pushed rs.length c ((rs.map StubInstr.pushq).foldl StubInstr.exec c) := by
  induction rs generalizing c with
  | nil => exact Cpu.Pushed.refl c
  | cons r rs ih =>
    have rest := ih (c.push (c.reg r))
    rw [List.length_cons, Nat.add_comm, List.map_cons, List.foldl_cons, StubInstr.exec]
    exact (c.push_pushed (c.reg r)).trans rest

theorem callHandler_pushed (c : Cpu) (n ret : BitVec 64) :
    Cpu.Pushed 1 c ([.movRsp .rdi, .movImm n .rsi, .call ret].foldl StubInstr.exec c) := by
  have moved := (c.setReg_pushed .rdi c.rsp).trans (Cpu.setReg_pushed (c.setReg .rdi c.rsp) .rsi n)
  have called := moved.trans (Cpu.push_pushed ((c.setReg .rdi c.rsp).setReg .rsi n) ret)
  simpa only [List.foldl_cons, List.foldl_nil, StubInstr.exec] using called

/-- The processor with the stack aligned as on entry through a gate. -/
def Cpu.aligned (c : Cpu) : Cpu := { c with rsp := c.rsp &&& ~~~0xF#64 }

theorem enter_pushed (c : Cpu) (vector : Nat) (f : Saved) (errorCode : BitVec 64) :
    Cpu.Pushed (if hasErrorCode vector then 6 else 5) c.aligned (c.enter vector f errorCode) := by
  have five := ((((c.aligned.push_pushed f.ss).trans (Cpu.push_pushed _ f.rsp)).trans
    (Cpu.push_pushed _ f.rflags)).trans (Cpu.push_pushed _ f.cs)).trans (Cpu.push_pushed _ f.rip)
  by_cases he : hasErrorCode vector
  · simp only [Cpu.enter, he, ite_true]
    exact five.trans (Cpu.push_pushed _ errorCode)
  · simp only [Cpu.enter, he, Bool.false_eq_true, ite_false]
    exact five

/-- An exception takes one word more than an interrupt, its error code or the dummy for it. -/
theorem handlerEntry_pushed (c : Cpu) (vector : Nat) (f : Saved) (errorCode ret : BitVec 64) :
    Cpu.Pushed (if vector < 32 then 22 else 21) c.aligned (handlerEntry c vector f errorCode ret) := by
  have entered := enter_pushed c vector f errorCode
  have saved := entered.trans (pushRegs_pushed _ savedRegs)
  generalize hc : (savedRegs.map StubInstr.pushq).foldl StubInstr.exec
    (c.enter vector f errorCode) = c₁ at saved
  by_cases hexc : vector < 32
  · rw [if_pos hexc]
    by_cases herr : hasErrorCode vector
    · rw [if_pos herr] at saved
      have called := saved.trans (callHandler_pushed c₁ (BitVec.ofNat 64 vector) ret)
      simp only [handlerEntry, stubOf, hexc, ite_true, excStub, errorCodeStubs_iff, herr,
        List.foldl_append, hc, List.append_nil]
      exact called
    · rw [if_neg herr] at saved
      have called := (saved.trans (c₁.push_pushed 0)).trans
        (callHandler_pushed _ (BitVec.ofNat 64 vector) ret)
      simp only [handlerEntry, stubOf, hexc, ite_true, excStub, errorCodeStubs_iff, herr,
        Bool.false_eq_true, ite_false, List.foldl_append, hc]
      exact called
  · have herr : ¬ hasErrorCode vector := isr_no_errorCode (by omega)
    rw [if_neg herr] at saved
    rw [if_neg hexc]
    have called := saved.trans (callHandler_pushed c₁ (BitVec.ofNat 64 vector) ret)
    simp only [handlerEntry, stubOf, hexc, ite_false, isrStub, List.foldl_append, hc]
    exact called

/-- The C handlers expect the stack pointer eight bytes under a multiple of 16.
The stubs call them so for the hardware interrupts and for no exception. -/
theorem handler_aligned_iff (c : Cpu) (vector : Nat) (f : Saved) (errorCode ret : BitVec 64) :
    (handlerEntry c vector f errorCode ret).rsp.toNat % 16 = 8 ↔ 32 ≤ vector := by
  have rsp := (handlerEntry_pushed c vector f errorCode ret).rsp
  have top := aligned_toNat c.rsp
  rw [rsp, BitVec.toNat_sub, BitVec.toNat_ofNat, Cpu.aligned, top]
  have bound := c.rsp.isLt
  split <;> omega

/-! ### The way back -/

section Pops

variable {c : Cpu} {ws : List (BitVec 64)}

theorem Cpu.pop_stackAt {w : BitVec 64} (h : StackAt c.mem c.rsp.toNat (w :: ws)) :
    c.pop.1 = w ∧ StackAt c.pop.2.mem c.pop.2.rsp.toNat ws := by
  refine ⟨h.head, ?_⟩
  have sp : c.pop.2.rsp.toNat = (c.rsp.toNat + 8) % 2 ^ 64 := BitVec.toNat_add c.rsp 8
  rw [sp]
  exact h.tail

/-- Popping registers takes them from the stack, the first from the top. -/
theorem popRegs_spec {rs : List Reg} {g : Reg → BitVec 64} (nodup : rs.Nodup)
    (h : StackAt c.mem c.rsp.toNat (rs.map g ++ ws)) :
    let c' := (rs.map TailInstr.popq).foldl TailInstr.exec c
    c'.mem = c.mem ∧ StackAt c'.mem c'.rsp.toNat ws ∧
      ∀ r, c'.reg r = if r ∈ rs then g r else c.reg r := by
  induction rs generalizing c with
  | nil => exact ⟨rfl, h, fun r => by simp⟩
  | cons x rs ih =>
    obtain ⟨notin, nodup⟩ := List.nodup_cons.mp nodup
    obtain ⟨top, rest⟩ := Cpu.pop_stackAt h
    obtain ⟨mem, stack, regs⟩ := ih (c := c.pop.2.setReg x c.pop.1) nodup rest
    refine ⟨mem, stack, fun r => (regs r).trans ?_⟩
    by_cases hr : r ∈ rs
    · simp [hr]
    · by_cases hx : r = x
      · subst hx
        simp [hr, Cpu.setReg, top]
      · simp [hr, hx, Cpu.setReg, Cpu.pop]

theorem iretq_spec {rip cs rflags rsp ss : BitVec 64}
    (h : StackAt c.mem c.rsp.toNat (rip :: cs :: rflags :: rsp :: ss :: ws)) :
    c.iretq = ⟨⟨c.reg, rsp, c.mem⟩, rip, cs, rflags, ss⟩ := by
  obtain ⟨h1, t1⟩ := Cpu.pop_stackAt h
  obtain ⟨h2, t2⟩ := Cpu.pop_stackAt t1
  obtain ⟨h3, t3⟩ := Cpu.pop_stackAt t2
  obtain ⟨h4, t4⟩ := Cpu.pop_stackAt t3
  obtain ⟨h5, -⟩ := Cpu.pop_stackAt t4
  simp only [Cpu.iretq, h1, h2, h3, h4, h5]
  rfl

end Pops

theorem mem_savedRegs (r : Reg) : r ∈ savedRegs := by
  cases r <;> decide

/-- The registers, popped in the order opposite to that of the pushes. -/
theorem popSaved_spec {c : Cpu} {g : Reg → BitVec 64} {ws : List (BitVec 64)}
    (h : StackAt c.mem c.rsp.toNat ((savedRegs.map g).reverse ++ ws)) :
    let c' := isrTail.foldl TailInstr.exec c
    c'.mem = c.mem ∧ c'.reg = g ∧ StackAt c'.mem c'.rsp.toNat ws := by
  rw [← List.map_reverse] at h
  obtain ⟨mem, stack, regs⟩ := popRegs_spec (by decide) h
  refine ⟨mem, funext fun r => (regs r).trans ?_, stack⟩
  rw [if_pos (List.mem_reverse.mpr (mem_savedRegs r))]

/-- The interrupted code, with the memory as the handler left it. -/
def Core.resumed (k : Core) (m : Mem) : Core := { k with cpu := { k.cpu with mem := m } }

/-- How many words a stub hands to its handler. -/
def frameLength (vector : Nat) : Nat := if vector < 32 then 21 else 20

/-- What a stub returns to, when its handler has kept the words of the frame. -/
theorem stubReturn_spec {k : Core} {vector : Nat} {errorCode : BitVec 64} {e : Cpu}
    (isr : 32 ≤ vector → ¬ hasErrorCode vector)
    (stack : StackAt e.mem e.rsp.toNat (frameWords k.cpu vector k.saved errorCode)) :
    stubReturn vector e = if hasErrorCode vector then
      ⟨⟨k.cpu.reg, k.rflags, e.mem⟩, errorCode, k.rip, k.cs, k.cpu.rsp⟩
    else k.resumed e.mem := by
  unfold stubReturn
  by_cases herr : hasErrorCode vector
  · have hexc : vector < 32 := by
      by_contra h
      exact isr (by omega) herr
    have words : StackAt e.mem e.rsp.toNat ((savedRegs.map k.cpu.reg).reverse ++
        (errorCode :: k.rip :: k.cs :: k.rflags :: k.cpu.rsp :: [k.ss])) := by
      simpa [frameWords, herr, Core.saved] using stack
    obtain ⟨mem, reg, rest⟩ := popSaved_spec words
    have tail : excTail (vector ∈ errorCodeStubs) = isrTail := by
      simp [excTail, errorCodeStubs_iff, herr, isrTail]
    rw [if_pos hexc, if_pos herr, tail, iretq_spec rest, mem, reg]
  · rw [if_neg herr]
    have resumed : ∀ c : Cpu, c.mem = e.mem → StackAt c.mem c.rsp.toNat
        ((savedRegs.map k.cpu.reg).reverse ++ (k.rip :: k.cs :: k.rflags :: k.cpu.rsp :: [k.ss])) →
        (isrTail.foldl TailInstr.exec c).iretq = k.resumed e.mem := by
      intro c same words
      obtain ⟨mem, reg, rest⟩ := popSaved_spec words
      rw [iretq_spec rest, mem, reg, same]
      rfl
    by_cases hexc : vector < 32
    · have words : StackAt e.mem e.rsp.toNat (0 :: ((savedRegs.map k.cpu.reg).reverse ++
          (k.rip :: k.cs :: k.rflags :: k.cpu.rsp :: [k.ss]))) := by
        simpa [frameWords, herr, hexc, Core.saved] using stack
      have tail : excTail (vector ∈ errorCodeStubs) = .addRsp 8 :: isrTail := by
        simp [excTail, errorCodeStubs_iff, herr, isrTail]
      rw [if_pos hexc, tail]
      dsimp only [List.foldl_cons]
      refine resumed _ rfl ?_
      have sp : (e.rsp + 8).toNat = (e.rsp.toNat + 8) % 2 ^ 64 := BitVec.toNat_add e.rsp 8
      have rest := words.tail
      rw [← sp] at rest
      exact rest
    · have words : StackAt e.mem e.rsp.toNat ((savedRegs.map k.cpu.reg).reverse ++
          (k.rip :: k.cs :: k.rflags :: k.cpu.rsp :: [k.ss])) := by
        simpa [frameWords, herr, hexc, Core.saved] using stack
      rw [if_neg hexc]
      exact resumed e rfl words

/-- The handler returned to the stub and the frame is as the stub left it. -/
structure Returned (k : Core) (vector : Nat) (errorCode ret : BitVec 64) (e : Cpu) : Prop where
  rsp : e.rsp = (k.entry vector errorCode ret).reg .rdi
  frame : ∀ i < frameLength vector, loadWord e.mem (e.rsp.toNat + 8 * i) =
    loadWord (k.entry vector errorCode ret).mem (e.rsp.toNat + 8 * i)

theorem length_frameWords (c : Cpu) (vector : Nat) (f : Saved) (errorCode : BitVec 64)
    (isr : 32 ≤ vector → ¬ hasErrorCode vector) :
    (frameWords c vector f errorCode).length = frameLength vector := by
  by_cases hexc : vector < 32
  · by_cases herr : hasErrorCode vector <;> simp [frameWords, frameLength, hexc, herr, savedRegs]
  · have herr := isr (by omega)
    simp [frameWords, frameLength, hexc, herr, savedRegs]

theorem Returned.stackAt {k : Core} {vector : Nat} {errorCode ret : BitVec 64} {e : Cpu}
    (h : Returned k vector errorCode ret e) :
    StackAt e.mem e.rsp.toNat (frameWords k.cpu vector k.saved errorCode) := by
  have entry := handlerEntry_stackAt k.cpu vector k.saved errorCode ret isr_no_errorCode
  intro i w hw
  have hi : i < frameLength vector := by
    rw [← length_frameWords k.cpu vector k.saved errorCode isr_no_errorCode]
    exact (List.getElem?_eq_some_iff.mp hw).1
  rw [h.frame i hi, h.rsp]
  exact entry i w hw

/-- A stub resumes the interrupted code exactly unless the processor pushed an
error code, which the stub leaves for `iretq` to take as the instruction
pointer. -/
theorem stub_resumes_iff {k : Core} {vector : Nat} {errorCode ret : BitVec 64} {e : Cpu}
    (h : Returned k vector errorCode ret e) : stubReturn vector e = k.resumed e.mem ↔
      (hasErrorCode vector → errorCode = k.rip ∧ k.rip = k.cs ∧ k.cs = k.rflags ∧
        k.rflags = k.cpu.rsp ∧ k.cpu.rsp = k.ss) := by
  rw [stubReturn_spec isr_no_errorCode h.stackAt]
  by_cases herr : hasErrorCode vector
  · rw [if_pos herr]
    simp only [herr, forall_const]
    have fields : (⟨⟨k.cpu.reg, k.rflags, e.mem⟩, errorCode, k.rip, k.cs, k.cpu.rsp⟩ : Core) =
        k.resumed e.mem ↔ k.rflags = k.cpu.rsp ∧ errorCode = k.rip ∧ k.rip = k.cs ∧
          k.cs = k.rflags ∧ k.cpu.rsp = k.ss := by
      simp [Core.resumed]
    rw [fields]
    constructor
    · rintro ⟨h1, h2, h3, h4, h5⟩
      exact ⟨h2, h3, h4, h1, h5⟩
    · rintro ⟨h2, h3, h4, h1, h5⟩
      exact ⟨h1, h2, h3, h4, h5⟩
  · simp [herr]

/-- A page fault: the stub would jump to the error code. -/
theorem page_fault_stub_lost :
    let k : Core := ⟨⟨fun _ => 1, 0x8000, ⟨fun _ => 0⟩⟩, 0x1000, 0x08, 0x202, 0x10⟩
    let entry := k.entry 14 2 0x2000
    let e : Cpu := { entry with rsp := entry.reg .rdi }
    stubReturn 14 e ≠ k.resumed e.mem := by
  intro k entry e
  have back : Returned k 14 2 0x2000 e := ⟨rfl, fun _ _ => rfl⟩
  rw [ne_eq, stub_resumes_iff back]
  intro same
  have rip := (same (by decide)).1
  exact absurd rip (by decide)

/-! ### What the interrupted code can see -/

/-- The memory that belongs to others: the stack occupies `[lo, hi)`, and
`own` are the addresses that handlers write to otherwise. -/
structure Territory where
  lo : Nat
  hi : Nat
  own : Nat → Prop
  apart : ∀ x, own x → x < lo ∨ hi ≤ x

/-- Equal but for the handlers' data and the stack below the stack pointer. -/
structure Alike (T : Territory) (k k' : Core) : Prop where
  reg : k'.cpu.reg = k.cpu.reg
  rsp : k'.cpu.rsp = k.cpu.rsp
  rip : k'.rip = k.rip
  cs : k'.cs = k.cs
  rflags : k'.rflags = k.rflags
  ss : k'.ss = k.ss
  mem : ∀ x < 2 ^ 64, ¬ T.own x → ¬ (T.lo ≤ x ∧ x < k.cpu.rsp.toNat) →
    k'.cpu.mem.get x = k.cpu.mem.get x

/-- A hardware interrupt from entry to return. There is room for the stub on
the stack, and the handler returns, writes its own data and the stack below
its frame, and nothing else. -/
inductive Interrupted (T : Territory) : Core → Core → Prop
  | intro {k : Core} {vector : Nat} {ret : BitVec 64} {e : Cpu} (external : 32 ≤ vector)
      (room : T.lo + 183 ≤ k.cpu.rsp.toNat) (within : k.cpu.rsp.toNat ≤ T.hi)
      (rsp : e.rsp = (k.entry vector 0 ret).reg .rdi)
      (writes : ∀ x < 2 ^ 64, ¬ T.own x → ¬ (T.lo ≤ x ∧ x < e.rsp.toNat) →
        e.mem.get x = (k.entry vector 0 ret).mem.get x) :
      Interrupted T k (stubReturn vector e)

variable {T : Territory} {k k' : Core}

/-- The handler's frame starts above the return address. -/
theorem handlerEntry_rdi (c : Cpu) (vector : Nat) (f : Saved) (errorCode ret : BitVec 64) :
    (handlerEntry c vector f errorCode ret).reg .rdi =
      (handlerEntry c vector f errorCode ret).rsp + 8 := by
  obtain ⟨before, n, ends⟩ : ∃ before n, stubOf vector ret =
      before ++ [.movRsp .rdi, .movImm n .rsi, .call ret] := by
    unfold stubOf
    split
    · exact ⟨_, _, rfl⟩
    · exact ⟨_, _, rfl⟩
  rw [handlerEntry, ends, List.foldl_append]
  generalize before.foldl StubInstr.exec (c.enter vector f errorCode) = c'
  simp only [List.foldl_cons, List.foldl_nil, StubInstr.exec, Cpu.push_rsp, Cpu.push_reg]
  exact (BitVec.sub_add_cancel c'.rsp 8).symm

/-- The frame lies right below the aligned stack pointer of the interrupted code. -/
theorem entry_frame (ret : BitVec 64) {vector : Nat} (external : 32 ≤ vector)
    (room : 183 ≤ k.cpu.rsp.toNat) :
    ((k.entry vector 0 ret).reg .rdi).toNat = k.cpu.rsp.toNat / 16 * 16 - 160 ∧
      SameOutside (k.cpu.rsp.toNat / 16 * 16 - 168) (k.cpu.rsp.toNat / 16 * 16) k.cpu.mem
        (k.entry vector 0 ret).mem := by
  have pushed := handlerEntry_pushed k.cpu vector k.saved 0 ret
  rw [if_neg (by omega)] at pushed
  have top : k.cpu.aligned.rsp.toNat = k.cpu.rsp.toNat / 16 * 16 := aligned_toNat k.cpu.rsp
  have rsp : (k.entry vector 0 ret).rsp.toNat = k.cpu.rsp.toNat / 16 * 16 - 168 := by
    rw [← top]
    exact pushed.toNat (by omega)
  constructor
  · have rdi : (k.entry vector 0 ret).reg .rdi = (k.entry vector 0 ret).rsp + 8 :=
      handlerEntry_rdi _ _ _ _ _
    rw [rdi]
    bv_omega
  · have mem := pushed.mem (by omega)
    have rsp' : (handlerEntry k.cpu vector k.saved 0 ret).rsp.toNat = _ := rsp
    rw [rsp', top] at mem
    exact mem

/-- What the handler was not allowed to write it has not written. -/
theorem Interrupted.returned {vector : Nat} {ret : BitVec 64} {e : Cpu} (external : 32 ≤ vector)
    (room : T.lo + 183 ≤ k.cpu.rsp.toNat) (within : k.cpu.rsp.toNat ≤ T.hi)
    (rsp : e.rsp = (k.entry vector 0 ret).reg .rdi)
    (writes : ∀ x < 2 ^ 64, ¬ T.own x → ¬ (T.lo ≤ x ∧ x < e.rsp.toNat) →
      e.mem.get x = (k.entry vector 0 ret).mem.get x) : Returned k vector 0 ret e := by
  refine ⟨rsp, fun i hi => ?_⟩
  obtain ⟨frame, -⟩ := entry_frame (k := k) ret external (by omega)
  rw [← rsp] at frame
  simp only [frameLength, if_neg (Nat.not_lt.mpr external)] at hi
  have bound := k.cpu.rsp.isLt
  have same : load e.mem (e.rsp.toNat + 8 * i) 8 =
      load (k.entry vector 0 ret).mem (e.rsp.toNat + 8 * i) 8 := by
    apply load_congr
    intro j hj
    refine writes _ (by omega) (fun mine => ?_) (by omega)
    have := T.apart _ mine
    omega
  rw [loadWord, loadWord, same]

/-- After an interrupt the interrupted code goes on as if nothing had been. -/
theorem Interrupted.alike (h : Interrupted T k k') : Alike T k k' := by
  obtain ⟨external, room, within, rsp, writes⟩ := h
  rename_i vector ret e
  have back := Interrupted.returned external room within rsp writes
  obtain ⟨frame, entered⟩ := entry_frame (k := k) ret external (by omega)
  rw [← rsp] at frame
  have resumed : stubReturn vector e = k.resumed e.mem := by
    rw [stubReturn_spec isr_no_errorCode back.stackAt, if_neg (isr_no_errorCode external)]
  rw [resumed]
  refine ⟨rfl, rfl, rfl, rfl, rfl, rfl, fun x hx foreign live => ?_⟩
  have kept := writes x hx foreign (by omega)
  exact kept.trans (entered x hx (by omega))

theorem Alike.refl (T : Territory) (k : Core) : Alike T k k :=
  ⟨rfl, rfl, rfl, rfl, rfl, rfl, fun _ _ _ _ => rfl⟩

theorem Alike.trans {k'' : Core} (h : Alike T k k') (h' : Alike T k' k'') : Alike T k k'' := by
  refine ⟨h'.reg.trans h.reg, h'.rsp.trans h.rsp, h'.rip.trans h.rip, h'.cs.trans h.cs,
    h'.rflags.trans h.rflags, h'.ss.trans h.ss, fun x hx foreign live => ?_⟩
  rw [h'.mem x hx foreign (by rw [h.rsp]; exact live), h.mem x hx foreign live]

/-- A program that reads neither below its stack pointer nor the handlers' data
ends, however often it is interrupted, as it would have without interrupts.
`Same` is what it cannot tell apart: at least states that are alike, and
what was left over in a part of the stack that it has taken since. -/
theorem interrupts_invisible (T : Territory) (program : Core → Core) (Same : Core → Core → Prop)
    (alike : ∀ k k', Alike T k k' → Same k k')
    (trans : ∀ k k' k'', Same k k' → Same k' k'' → Same k k'')
    (kept : ∀ k k', Same k k' → Same (program k) (program k')) (n : Nat) (k t : Core)
    (run : Interleaved program (Interrupted T) n k t) : Same (steps program n k) t :=
  run.unseen (fun k => alike k k (Alike.refl T k)) trans (fun k k' h => alike k k' h.alike) kept

/-- `kernel_main` counting in `rax`, 4 KiB of stack and one byte of the handler's. -/
def countingStack : Territory := ⟨0x2000, 0x3000, fun x => x = 0x9000, fun x hx => by omega⟩

def countingCore : Core := ⟨⟨fun _ => 0, 0x2FF8, ⟨fun _ => 0⟩⟩, 0x1000, 0x08, 0x202, 0x10⟩

def count (k : Core) : Core := { k with cpu := k.cpu.setReg .rax (k.cpu.reg .rax + 1) }

/-- A timer interrupt between two steps of the loop. -/
theorem counting_undisturbed :
    let entry := (count countingCore).entry 32 0 0x5000
    let back := stubReturn 32 { entry with rsp := entry.reg .rdi }
    (count back).cpu.reg .rax = 2 := by
  intro entry back
  have interrupt : Interrupted countingStack (count countingCore) back :=
    .intro (by decide) (by decide) (by decide) rfl (fun _ _ _ _ => rfl)
  have kept : ∀ k k', Alike countingStack k k' → Alike countingStack (count k) (count k') := by
    intro k k' h
    refine ⟨?_, h.rsp, h.rip, h.cs, h.rflags, h.ss, h.mem⟩
    simp only [count, Cpu.setReg, h.reg]
  have same := interrupts_invisible countingStack count (Alike countingStack) (fun _ _ h => h)
    (fun _ _ _ h h' => h.trans h') kept 2 countingCore (count back)
    (.step (.interrupt (.step (.start countingCore)) interrupt))
  exact congrFun same.reg .rax

/-- An interrupt leaves the processor's five words right below the aligned
stack pointer of the interrupted code, whatever it kept there: the kernel is
compiled without a red zone, the library functions it is linked with are not. -/
theorem red_zone_overwritten (T : Territory) (k k' : Core) (h : Interrupted T k k') :
    let top := k.cpu.rsp.toNat / 16 * 16
    loadWord k'.cpu.mem (top - 8) = k.ss ∧ loadWord k'.cpu.mem (top - 16) = k.cpu.rsp ∧
      loadWord k'.cpu.mem (top - 24) = k.rflags ∧ loadWord k'.cpu.mem (top - 32) = k.cs ∧
      loadWord k'.cpu.mem (top - 40) = k.rip := by
  obtain ⟨external, room, within, rsp, writes⟩ := h
  rename_i vector ret e
  have back := Interrupted.returned external room within rsp writes
  obtain ⟨frame, -⟩ := entry_frame (k := k) ret external (by omega)
  rw [← rsp] at frame
  have herr := isr_no_errorCode external
  have stack := back.stackAt
  rw [stubReturn_spec isr_no_errorCode stack, if_neg herr]
  have words : frameWords k.cpu vector k.saved 0 =
      (savedRegs.map k.cpu.reg).reverse ++ [k.rip, k.cs, k.rflags, k.cpu.rsp, k.ss] := by
    simp [frameWords, herr, Nat.not_lt.mpr external, Core.saved]
  rw [words] at stack
  have word : ∀ i w, ((savedRegs.map k.cpu.reg).reverse ++
      [k.rip, k.cs, k.rflags, k.cpu.rsp, k.ss])[i]? = some w →
      loadWord e.mem (k.cpu.rsp.toNat / 16 * 16 - 160 + 8 * i) = w := by
    intro i w hw
    rw [← frame]
    exact stack i w hw
  have place : ∀ i ≤ 19, k.cpu.rsp.toNat / 16 * 16 - 160 + 8 * i =
      k.cpu.rsp.toNat / 16 * 16 - (160 - 8 * i) := by
    intro i hi
    omega
  refine ⟨?_, ?_, ?_, ?_, ?_⟩
  · have at19 := word 19 k.ss rfl
    rwa [place 19 (by decide)] at at19
  · have at18 := word 18 k.cpu.rsp rfl
    rwa [place 18 (by decide)] at at18
  · have at17 := word 17 k.rflags rfl
    rwa [place 17 (by decide)] at at17
  · have at16 := word 16 k.cs rfl
    rwa [place 16 (by decide)] at at16
  · have at15 := word 15 k.rip rfl
    rwa [place 15 (by decide)] at at15

/-- The counting loop's saved instruction pointer, 40 bytes below the aligned stack pointer. -/
theorem counting_red_zone :
    let entry := countingCore.entry 32 0 0x5000
    let back := stubReturn 32 { entry with rsp := entry.reg .rdi }
    loadWord back.cpu.mem 0x2FC8 = 0x1000 := by
  intro entry back
  have interrupt : Interrupted countingStack countingCore back :=
    .intro (by decide) (by decide) (by decide) rfl (fun _ _ _ _ => rfl)
  obtain ⟨-, -, -, -, rip⟩ := red_zone_overwritten countingStack countingCore back interrupt
  exact rip

end WaddleOS
