import Mathlib.Tactic.IntervalCases
import WaddleOS.Base.Stack

/-!
# `kernel/drivers/interrupt_stubs.S` and `interrupt_frame_t`

The processor pushes what it saves for a vector, then the stub of the vector
pushes the registers and hands the stack pointer to the C handler, which reads
it as an `interrupt_frame_t`. The stubs run here up to and with the call.
-/

namespace WaddleOS

/-- The general-purpose registers other than the stack pointer. -/
inductive Reg where
  | rax | rbx | rcx | rdx | rbp | rsi | rdi | r8 | r9 | r10 | r11 | r12 | r13 | r14 | r15
  deriving DecidableEq, Repr

structure Cpu where
  reg : Reg → BitVec 64
  rsp : BitVec 64
  mem : Mem

/-- The instructions of the stubs before and with the call. -/
inductive StubInstr where
  | pushq (r : Reg)
  | pushImm (v : BitVec 64)
  /-- `movq %rsp, r` -/
  | movRsp (r : Reg)
  | movImm (v : BitVec 64) (r : Reg)
  /-- `call`, with the address it returns to -/
  | call (ret : BitVec 64)
  deriving DecidableEq, Repr

def Cpu.push (c : Cpu) (w : BitVec 64) : Cpu :=
  ⟨c.reg, BitVec.ofNat 64 (pushWord c.mem c.rsp.toNat w).2, (pushWord c.mem c.rsp.toNat w).1⟩

def Cpu.setReg (c : Cpu) (r : Reg) (w : BitVec 64) : Cpu :=
  { c with reg := fun x => if x = r then w else c.reg x }

def StubInstr.exec (c : Cpu) : StubInstr → Cpu
  | .pushq r => c.push (c.reg r)
  | .pushImm v => c.push v
  | .movRsp r => c.setReg r c.rsp
  | .movImm v r => c.setReg r v
  | .call ret => c.push ret

/-- The registers in the order the stubs save them. -/
def savedRegs : List Reg :=
  [.rax, .rbx, .rcx, .rdx, .rbp, .rsi, .rdi, .r8, .r9, .r10, .r11, .r12, .r13, .r14, .r15]

/-- `ISR_STUB irq_num`. -/
def isrStub (irqNum : Nat) (ret : BitVec 64) : List StubInstr :=
  savedRegs.map .pushq ++
    [.movRsp .rdi, .movImm (BitVec.ofNat 64 irqNum) .rsi, .call ret]

/-- `EXC_STUB vector, has_error_code`. -/
def excStub (vector : Nat) (hasErrorCode : Bool) (ret : BitVec 64) : List StubInstr :=
  savedRegs.map .pushq ++
    -- if no error code pushed by the processor, push dummy 0
    (if hasErrorCode then [] else [.pushImm 0]) ++
    [.movRsp .rdi, .movImm (BitVec.ofNat 64 vector) .rsi, .call ret]

/-- The vectors the stub table gives an error code. -/
def errorCodeStubs : List Nat := [8, 10, 11, 12, 13, 14, 17]

def stubOf (vector : Nat) (ret : BitVec 64) : List StubInstr :=
  if vector < 32 then excStub vector (vector ∈ errorCodeStubs) ret else isrStub vector ret

/-- The exceptions for which the processor pushes an error code. -/
def hasErrorCode (vector : Nat) : Bool :=
  vector = 8 || (10 ≤ vector && vector ≤ 14) || vector = 17

/-- What the processor saves of the interrupted code. -/
structure Saved where
  rip : BitVec 64
  cs : BitVec 64
  rflags : BitVec 64
  rsp : BitVec 64
  ss : BitVec 64

/-- Entry through the gate: the processor aligns the stack and pushes for the vector. -/
def Cpu.enter (c : Cpu) (vector : Nat) (f : Saved) (errorCode : BitVec 64) : Cpu :=
  let c := { c with rsp := c.rsp &&& ~~~0xF#64 }
  let c := ((((c.push f.ss).push f.rsp).push f.rflags).push f.cs).push f.rip
  if hasErrorCode vector then c.push errorCode else c

/-- The state in which the C handler starts. -/
def handlerEntry (c : Cpu) (vector : Nat) (f : Saved) (errorCode ret : BitVec 64) : Cpu :=
  (stubOf vector ret).foldl StubInstr.exec (c.enter vector f errorCode)

/-- The fields of `interrupt_frame_t`, in order. -/
inductive FrameField where
  | reg (r : Reg)
  | errorCode | rip | cs | rflags | rsp | ss
  deriving DecidableEq, Repr

def interruptFrame : List FrameField :=
  [.reg .r15, .reg .r14, .reg .r13, .reg .r12, .reg .r11, .reg .r10, .reg .r9, .reg .r8,
    .reg .rsi, .reg .rdi, .reg .rbp, .reg .rdx, .reg .rcx, .reg .rbx, .reg .rax,
    .errorCode, .rip, .cs, .rflags, .rsp, .ss]

/-- `frame->field`: all fields are 8 bytes. -/
def readField (m : Mem) (frame : Nat) (f : FrameField) : BitVec 64 :=
  loadWord m (frame + 8 * interruptFrame.idxOf f)

/-- What the field is meant to hold. -/
def interrupted (c : Cpu) (vector : Nat) (f : Saved) (errorCode : BitVec 64) :
    FrameField → BitVec 64
  | .reg r => c.reg r
  | .errorCode => if hasErrorCode vector then errorCode else 0
  | .rip => f.rip
  | .cs => f.cs
  | .rflags => f.rflags
  | .rsp => f.rsp
  | .ss => f.ss

section Pushes

variable {c : Cpu} {ws : List (BitVec 64)}

theorem Cpu.push_reg (c : Cpu) (w : BitVec 64) : (c.push w).reg = c.reg := by
  unfold Cpu.push
  exact rfl

theorem Cpu.push_stackAt (h : StackAt c.mem c.rsp.toNat ws) (room : ws.length < 2 ^ 60)
    (w : BitVec 64) : StackAt (c.push w).mem (c.push w).rsp.toNat (w :: ws) := by
  have hsp : (c.push w).rsp.toNat = (pushWord c.mem c.rsp.toNat w).2 := by
    rw [Cpu.push, BitVec.toNat_ofNat, Nat.mod_eq_of_lt (pushWord_lt _ _ _)]
  rw [hsp]
  exact h.push room w

/-- Saving registers puts them on the stack, the last on top, and changes none. -/
theorem pushRegs_stackAt (rs : List Reg) (h : StackAt c.mem c.rsp.toNat ws)
    (room : rs.length + ws.length < 2 ^ 60) :
    let c' := (rs.map StubInstr.pushq).foldl StubInstr.exec c
    StackAt c'.mem c'.rsp.toNat ((rs.map c.reg).reverse ++ ws) ∧ c'.reg = c.reg := by
  induction rs generalizing c ws with
  | nil => exact ⟨h, rfl⟩
  | cons r rs ih =>
    simp only [List.length_cons] at room
    obtain ⟨hstack, hreg⟩ := ih (c := c.push (c.reg r)) (c.push_stackAt h (by omega) (c.reg r))
      (by simp only [List.length_cons]; omega)
    rw [Cpu.push_reg] at hstack hreg
    simp only [List.map_cons, List.foldl_cons, StubInstr.exec, List.reverse_cons, List.append_assoc,
      List.singleton_append]
    exact ⟨hstack, hreg⟩

/-- The call hands over the stack pointer, with the words it had on top. -/
theorem callHandler_stackAt (h : StackAt c.mem c.rsp.toNat ws) (room : ws.length < 2 ^ 60)
    (n ret : BitVec 64) :
    let c' := [.movRsp .rdi, .movImm n .rsi, .call ret].foldl StubInstr.exec c
    StackAt c'.mem (c'.reg .rdi).toNat ws := by
  have hbelow := h.below room ret
  simpa [StubInstr.exec, Cpu.setReg, Cpu.push] using hbelow

end Pushes

/-- The words from the pointer the handler receives. -/
def frameWords (c : Cpu) (vector : Nat) (f : Saved) (errorCode : BitVec 64) : List (BitVec 64) :=
  (if vector < 32 ∧ ¬ hasErrorCode vector then [0] else []) ++ (savedRegs.map c.reg).reverse ++
    (if hasErrorCode vector then [errorCode] else []) ++ [f.rip, f.cs, f.rflags, f.rsp, f.ss]

theorem enter_stackAt (c : Cpu) (vector : Nat) (f : Saved) (errorCode : BitVec 64) :
    StackAt (c.enter vector f errorCode).mem (c.enter vector f errorCode).rsp.toNat
      ((if hasErrorCode vector then [errorCode] else []) ++
        [f.rip, f.cs, f.rflags, f.rsp, f.ss]) ∧
      (c.enter vector f errorCode).reg = c.reg := by
  have hstack := (stackAt_nil c.mem (c.rsp &&& ~~~0xF#64).toNat)
  have h1 := Cpu.push_stackAt (c := { c with rsp := c.rsp &&& ~~~0xF#64 }) hstack (by simp) f.ss
  have h2 := Cpu.push_stackAt h1 (by simp) f.rsp
  have h3 := Cpu.push_stackAt h2 (by simp) f.rflags
  have h4 := Cpu.push_stackAt h3 (by simp) f.cs
  have h5 := Cpu.push_stackAt h4 (by simp) f.rip
  have h6 := Cpu.push_stackAt h5 (by simp) errorCode
  by_cases he : hasErrorCode vector
  · simp only [Cpu.enter, he, ite_true, Cpu.push_reg]
    exact ⟨h6, trivial⟩
  · simp only [Cpu.enter, he, Bool.false_eq_true, ite_false, Cpu.push_reg]
    exact ⟨h5, trivial⟩

theorem errorCodeStubs_iff {vector : Nat} :
    decide (vector ∈ errorCodeStubs) = hasErrorCode vector := by
  simp only [errorCodeStubs, hasErrorCode, List.mem_cons, List.not_mem_nil, or_false]
  by_cases h : vector < 18
  · interval_cases vector <;> rfl
  · rw [Bool.eq_iff_iff]
    simp only [decide_eq_true_eq, Bool.or_eq_true, Bool.and_eq_true]
    omega

/-- The stub of a vector hands its handler a pointer to these words. -/
theorem handlerEntry_stackAt (c : Cpu) (vector : Nat) (f : Saved) (errorCode ret : BitVec 64)
    (isr : 32 ≤ vector → ¬ hasErrorCode vector) :
    StackAt (handlerEntry c vector f errorCode ret).mem
      ((handlerEntry c vector f errorCode ret).reg .rdi).toNat
      (frameWords c vector f errorCode) := by
  obtain ⟨hstack, hreg⟩ := enter_stackAt c vector f errorCode
  obtain ⟨hsaved, hreg'⟩ := pushRegs_stackAt savedRegs hstack (by split <;> simp [savedRegs])
  rw [hreg] at hsaved hreg'
  generalize hc : (savedRegs.map StubInstr.pushq).foldl StubInstr.exec
    (c.enter vector f errorCode) = c₁ at hsaved hreg'
  by_cases hexc : vector < 32
  · by_cases herr : hasErrorCode vector
    · have hcall := callHandler_stackAt hsaved (by simp [savedRegs, herr]) (BitVec.ofNat 64 vector) ret
      simp only [handlerEntry, stubOf, hexc, ite_true, excStub, errorCodeStubs_iff, herr,
        List.foldl_append, hc, List.append_nil]
      simpa [frameWords, herr] using hcall
    · have hzero : StackAt (StubInstr.exec c₁ (.pushImm 0)).mem
          (StubInstr.exec c₁ (.pushImm 0)).rsp.toNat _ :=
        Cpu.push_stackAt hsaved (by simp [savedRegs, herr]) 0
      have hcall := callHandler_stackAt hzero (by simp [savedRegs, herr])
        (BitVec.ofNat 64 vector) ret
      simp only [handlerEntry, stubOf, hexc, ite_true, excStub, errorCodeStubs_iff, herr,
        Bool.false_eq_true, ite_false, List.foldl_append, hc]
      simpa [frameWords, herr, hexc] using hcall
  · have herr : hasErrorCode vector = false := by simpa using isr (by omega)
    have hcall := callHandler_stackAt hsaved (by simp [savedRegs, herr]) (BitVec.ofNat 64 vector) ret
    simp only [handlerEntry, stubOf, hexc, ite_false, isrStub, List.foldl_append, hc]
    simpa [frameWords, herr, hexc] using hcall

/-- The interrupted values for which the frame reads right: with an error code
`rsi` and `rdi`, which the structure has in the other order, must be equal;
without one the dummy under the registers shifts them by one; and a hardware
interrupt has no slot for the error code at all. -/
def FrameReads (c : Cpu) (vector : Nat) (f : Saved) : Prop :=
  if hasErrorCode vector then c.reg .rsi = c.reg .rdi
  else if vector < 32 then ∀ r, r ≠ .rdi → c.reg r = 0
  else c.reg .rsi = c.reg .rdi ∧ f.rip = 0 ∧ f.cs = 0 ∧ f.rflags = 0 ∧ f.rsp = 0

/-- A field reads the word in its place. -/
theorem readField_of_stackAt {m : Mem} {frame : Nat} {ws : List (BitVec 64)} {fld : FrameField}
    {w : BitVec 64} (h : StackAt m frame ws) (hw : ws[interruptFrame.idxOf fld]? = some w) :
    readField m frame fld = w :=
  h _ w hw

section Fields

variable {m : Mem} {frame : Nat} {c : Cpu} {vector : Nat} {f : Saved} {err : BitVec 64}

/-- With an error code every field reads its own value but `rsi` and `rdi`. -/
theorem readField_errorCode (herr : hasErrorCode vector)
    (h : StackAt m frame (frameWords c vector f err)) (fld : FrameField) :
    readField m frame fld = match fld with
      | .reg .rsi => c.reg .rdi
      | .reg .rdi => c.reg .rsi
      | fld => interrupted c vector f err fld := by
  simp only [frameWords, savedRegs, herr, ite_true, not_true_eq_false, and_false, ite_false] at h
  apply readField_of_stackAt h
  cases fld with
  | reg r => cases r <;> rfl
  | errorCode => simp only [interrupted, herr, ite_true]; rfl
  | _ => rfl

/-- The register saved after `r`, whose slot an exception without error code reads for `r`. -/
def shiftedReg (c : Cpu) : Reg → BitVec 64
  | .r15 => 0
  | .r14 => c.reg .r15
  | .r13 => c.reg .r14
  | .r12 => c.reg .r13
  | .r11 => c.reg .r12
  | .r10 => c.reg .r11
  | .r9 => c.reg .r10
  | .r8 => c.reg .r9
  | .rsi => c.reg .r8
  | .rdi => c.reg .rdi
  | .rbp => c.reg .rsi
  | .rdx => c.reg .rbp
  | .rcx => c.reg .rdx
  | .rbx => c.reg .rcx
  | .rax => c.reg .rbx

/-- The dummy error code lies under the registers, so they are all one slot off. -/
theorem readField_dummy (hexc : vector < 32) (herr : ¬ hasErrorCode vector)
    (h : StackAt m frame (frameWords c vector f err)) (fld : FrameField) :
    readField m frame fld = match fld with
      | .reg r => shiftedReg c r
      | .errorCode => c.reg .rax
      | fld => interrupted c vector f err fld := by
  simp only [frameWords, savedRegs, herr, hexc, Bool.false_eq_true, not_false_eq_true, and_self,
    ite_true, ite_false] at h
  apply readField_of_stackAt h
  cases fld with
  | reg r => cases r <;> rfl
  | _ => rfl

/-- What the fields read of a hardware interrupt, which leaves no slot for the error code. -/
def isrSlot (c : Cpu) (f : Saved) : FrameField → BitVec 64
  | .reg .rsi => c.reg .rdi
  | .reg .rdi => c.reg .rsi
  | .reg r => c.reg r
  | .errorCode => f.rip
  | .rip => f.cs
  | .cs => f.rflags
  | .rflags => f.rsp
  | .rsp | .ss => f.ss

theorem readField_isr (hisr : ¬ vector < 32) (herr : ¬ hasErrorCode vector)
    (h : StackAt m frame (frameWords c vector f err)) {fld : FrameField} (hss : fld ≠ .ss) :
    readField m frame fld = isrSlot c f fld := by
  simp only [frameWords, savedRegs, herr, hisr, Bool.false_eq_true, false_and, ite_false] at h
  apply readField_of_stackAt h
  cases fld with
  | reg r => cases r <;> rfl
  | ss => exact absurd rfl hss
  | _ => rfl

theorem fields_errorCode_iff (herr : hasErrorCode vector)
    (h : StackAt m frame (frameWords c vector f err)) :
    (∀ fld : FrameField, fld ≠ .rsp → fld ≠ .ss →
      readField m frame fld = interrupted c vector f err fld) ↔ c.reg .rsi = c.reg .rdi := by
  constructor
  · intro all
    have hrsi := all (.reg .rsi) (by decide) (by decide)
    rw [readField_errorCode herr h] at hrsi
    exact hrsi.symm
  · intro heq fld _ _
    rw [readField_errorCode herr h]
    split
    · exact heq.symm
    · exact heq
    · rfl

/-- Each register reads the one saved after it, and the last of them the dummy. -/
theorem shiftedReg_eq_iff : (∀ r, shiftedReg c r = c.reg r) ↔ ∀ r, r ≠ .rdi → c.reg r = 0 := by
  constructor
  · intro hreg
    have h15 : c.reg .r15 = 0 := (hreg .r15).symm
    have h14 : c.reg .r14 = 0 := (hreg .r14).symm.trans h15
    have h13 : c.reg .r13 = 0 := (hreg .r13).symm.trans h14
    have h12 : c.reg .r12 = 0 := (hreg .r12).symm.trans h13
    have h11 : c.reg .r11 = 0 := (hreg .r11).symm.trans h12
    have h10 : c.reg .r10 = 0 := (hreg .r10).symm.trans h11
    have h9 : c.reg .r9 = 0 := (hreg .r9).symm.trans h10
    have h8 : c.reg .r8 = 0 := (hreg .r8).symm.trans h9
    have hsi : c.reg .rsi = 0 := (hreg .rsi).symm.trans h8
    have hbp : c.reg .rbp = 0 := (hreg .rbp).symm.trans hsi
    have hdx : c.reg .rdx = 0 := (hreg .rdx).symm.trans hbp
    have hcx : c.reg .rcx = 0 := (hreg .rcx).symm.trans hdx
    have hbx : c.reg .rbx = 0 := (hreg .rbx).symm.trans hcx
    have hax : c.reg .rax = 0 := (hreg .rax).symm.trans hbx
    intro r hr
    cases r <;> first | assumption | exact absurd rfl hr
  · intro zero r
    cases r <;> simp [shiftedReg, zero]

theorem fields_dummy_iff (hexc : vector < 32) (herr : ¬ hasErrorCode vector)
    (h : StackAt m frame (frameWords c vector f err)) :
    (∀ fld : FrameField, fld ≠ .rsp → fld ≠ .ss →
      readField m frame fld = interrupted c vector f err fld) ↔ ∀ r, r ≠ .rdi → c.reg r = 0 := by
  rw [← shiftedReg_eq_iff]
  constructor
  · intro all r
    have hr := all (.reg r) (by simp) (by simp)
    rwa [readField_dummy hexc herr h] at hr
  · intro hreg fld _ _
    rw [readField_dummy hexc herr h]
    cases fld with
    | reg r => exact hreg r
    | errorCode => simp [interrupted, herr, shiftedReg_eq_iff.mp hreg]
    | _ => rfl

theorem fields_isr_iff (hisr : ¬ vector < 32) (herr : ¬ hasErrorCode vector)
    (h : StackAt m frame (frameWords c vector f err)) :
    (∀ fld : FrameField, fld ≠ .rsp → fld ≠ .ss →
      readField m frame fld = interrupted c vector f err fld) ↔
        c.reg .rsi = c.reg .rdi ∧ f.rip = 0 ∧ f.cs = 0 ∧ f.rflags = 0 ∧ f.rsp = 0 := by
  constructor
  · intro all
    have read : ∀ fld : FrameField, fld ≠ .rsp → fld ≠ .ss →
        isrSlot c f fld = interrupted c vector f err fld := fun fld h1 h2 =>
      (readField_isr hisr herr h h2).symm.trans (all fld h1 h2)
    have hsi := read (.reg .rsi) (by decide) (by decide)
    have he := read .errorCode (by decide) (by decide)
    have hip := read .rip (by decide) (by decide)
    have hcs := read .cs (by decide) (by decide)
    have hfl := read .rflags (by decide) (by decide)
    simp only [isrSlot, interrupted, herr, Bool.false_eq_true, ite_false] at hsi he hip hcs hfl
    have hcs0 : f.cs = 0 := hip.trans he
    have hfl0 : f.rflags = 0 := hcs.trans hcs0
    exact ⟨hsi.symm, he, hcs0, hfl0, hfl.trans hfl0⟩
  · rintro ⟨hsi, hip, hcs, hfl, hsp⟩ fld hrsp hss
    rw [readField_isr hisr herr h hss]
    cases fld with
    | reg r => cases r <;> simp [isrSlot, interrupted, hsi]
    | errorCode => simp [isrSlot, interrupted, herr, hip]
    | rip => simp [isrSlot, interrupted, hip, hcs]
    | cs => simp [isrSlot, interrupted, hcs, hfl]
    | rflags => simp [isrSlot, interrupted, hfl, hsp]
    | rsp => exact absurd rfl hrsp
    | ss => exact absurd rfl hss

end Fields

theorem isr_no_errorCode {vector : Nat} (h : 32 ≤ vector) : ¬ hasErrorCode vector := by
  simp only [hasErrorCode, Bool.or_eq_true, Bool.and_eq_true, decide_eq_true_eq]
  omega

/-- The handler reads the interrupted values from its frame exactly if the
condition on them holds. -/
theorem frame_fields_iff (c : Cpu) (vector : Nat) (f : Saved) (errorCode ret : BitVec 64) :
    (∀ fld : FrameField, fld ≠ .rsp → fld ≠ .ss →
      readField (handlerEntry c vector f errorCode ret).mem
        ((handlerEntry c vector f errorCode ret).reg .rdi).toNat fld =
          interrupted c vector f errorCode fld) ↔ FrameReads c vector f := by
  have h := handlerEntry_stackAt c vector f errorCode ret isr_no_errorCode
  unfold FrameReads
  by_cases herr : hasErrorCode vector
  · rw [if_pos herr]
    exact fields_errorCode_iff herr h
  · rw [if_neg herr]
    by_cases hexc : vector < 32
    · rw [if_pos hexc]
      exact fields_dummy_iff hexc herr h
    · rw [if_neg hexc]
      exact fields_isr_iff hexc herr h

/-- A timer interrupt of the code at 0x1000: the handler's `rip` reads the code
segment, its `error_code` the instruction pointer, and `rsi` the value of `rdi`. -/
theorem timer_frame_wrong :
    let c : Cpu := ⟨fun r => if r = .rdi then 2 else 1, 0x8000, ⟨fun _ => 0⟩⟩
    let f : Saved := ⟨0x1000, 0x08, 0x202, 0x8000, 0x10⟩
    let entry := handlerEntry c 32 f 0 0x2000
    readField entry.mem (entry.reg .rdi).toNat .rip = 0x08 ∧
    readField entry.mem (entry.reg .rdi).toNat .errorCode = 0x1000 ∧
    readField entry.mem (entry.reg .rdi).toNat (.reg .rsi) = 2 ∧
    interrupted c 32 f 0 .rip = 0x1000 ∧ interrupted c 32 f 0 .errorCode = 0 ∧
    interrupted c 32 f 0 (.reg .rsi) = 1 := by
  intro c f entry
  have h := handlerEntry_stackAt c 32 f 0 0x2000 isr_no_errorCode
  have read : ∀ fld, fld ≠ .ss → readField entry.mem (entry.reg .rdi).toNat fld = isrSlot c f fld :=
    fun fld hss => readField_isr (by decide) (by decide) h hss
  exact ⟨read .rip (by decide), read .errorCode (by decide), read (.reg .rsi) (by decide), rfl, rfl,
    rfl⟩

end WaddleOS
