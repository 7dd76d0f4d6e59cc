import WaddleOS.Base.Memory

/-!
# `kernel/drivers/idt.c`, `pic.c` and `interrupts.c`

The interrupt descriptor table, the two interrupt controllers behind their
ports, and the handler tables. A port reads back the last byte written to it,
which is what the data ports of the controllers do once they are initialised.
Handlers are function pointers and null is 0.
-/

namespace WaddleOS

/-- `idt_entry_t`. -/
structure IdtEntry where
  isrLow : BitVec 16
  kernelCs : BitVec 16
  ist : BitVec 8
  attributes : BitVec 8
  isrMid : BitVec 16
  isrHigh : BitVec 32
  reserved : BitVec 32
  deriving DecidableEq, Repr

structure Interrupts where
  ports : Nat → BitVec 8
  masterPicOffset : BitVec 8
  slavePicOffset : BitVec 8
  idt : Nat → IdtEntry
  excHandlers : Nat → Nat
  isrHandlers : Nat → Nat

def outb (s : Interrupts) (port : Nat) (val : BitVec 8) : Interrupts :=
  { s with ports := Function.update s.ports port val }

def inb (s : Interrupts) (port : Nat) : BitVec 8 := s.ports port

def ioWait (s : Interrupts) : Interrupts := outb s 0x80 0

def idtSetDescriptor (s : Interrupts) (vector : Nat) (serviceRoutine : BitVec 64)
    (flags : BitVec 8) : Interrupts :=
  { s with idt := Function.update s.idt vector {
      isrLow := serviceRoutine.setWidth 16
      isrMid := (serviceRoutine >>> 16).setWidth 16
      isrHigh := (serviceRoutine >>> 32).setWidth 32
      ist := 0
      kernelCs := 0x08
      attributes := flags
      reserved := 0 } }

def masterPicCmd : Nat := 0x20
def masterPicData : Nat := 0x21
def slavePicCmd : Nat := 0xA0
def slavePicData : Nat := 0xA1

/-- `outb(port, val); io_wait();` -/
def outbWait (s : Interrupts) (port : Nat) (val : BitVec 8) : Interrupts :=
  ioWait (outb s port val)

def picDisable (s : Interrupts) : Interrupts :=
  outbWait (outbWait s masterPicData 0xFF) slavePicData 0xFF

def picInit (s : Interrupts) (offset1 : BitVec 8) : Interrupts :=
  let s := { s with masterPicOffset := offset1, slavePicOffset := offset1 + 0x08 }
  -- ICW1: init + expect ICW4
  let s := outbWait s masterPicCmd (0x10 ||| 0x01)
  let s := outbWait s slavePicCmd (0x10 ||| 0x01)
  -- ICW2: vector offsets
  let s := outbWait s masterPicData s.masterPicOffset
  let s := outbWait s slavePicData s.slavePicOffset
  -- ICW3: cascade
  let s := outbWait s masterPicData (1 <<< 2)
  let s := outbWait s slavePicData 2
  -- ICW4: 8086 mode
  let s := outbWait s masterPicData 0x01
  let s := outbWait s slavePicData 0x01
  picDisable s

/-- The bound every PIC call asserts of its vector. -/
def picInBounds (s : Interrupts) (vector : BitVec 8) : Prop :=
  vector.toNat ≥ s.masterPicOffset.toNat ∧ vector.toNat < s.slavePicOffset.toNat + 0x08

instance (s : Interrupts) (vector : BitVec 8) : Decidable (picInBounds s vector) :=
  inferInstanceAs (Decidable (_ ∧ _))

def picEoi (s : Interrupts) (vector : BitVec 8) : Except Fault Interrupts := do
  assert (picInBounds s vector)
  let s := if vector.toNat ≥ s.slavePicOffset.toNat then outb s slavePicCmd 0x20 else s
  return outb s masterPicCmd 0x20

def picClearMask (s : Interrupts) (vector : BitVec 8) : Except Fault Interrupts := do
  assert (picInBounds s vector)
  let vector := vector - s.masterPicOffset
  let (port, vector) :=
    if vector.toNat ≥ 8 then (slavePicData, vector - 8) else (masterPicData, vector)
  assert (vector.toNat < 8)
  let value := inb s port &&& ~~~(1#8 <<< vector.toNat)
  return outbWait (ioWait s) port value

/-- The addresses of the stubs, `exc_stubs` and `isr_stubs`. -/
structure Stubs where
  exc : Nat → BitVec 64
  isr : Nat → BitVec 64

/-- One of the loops of `interrupts_init` over the descriptor table. -/
def idtFill (s : Interrupts) (vectors : List Nat) (routine : Nat → BitVec 64) (flags : BitVec 8) :
    Interrupts :=
  vectors.foldl (fun s vector => idtSetDescriptor s vector (routine vector) flags) s

def interruptsInit (stubs : Stubs) (s : Interrupts) : Interrupts :=
  -- exceptions (internal) get trap gates
  let s := idtFill s (List.range 32) stubs.exc (0x80 ||| 0x0F)
  let s := picInit s 0x20
  -- interrupts (external hardware) get interrupt gates
  idtFill s (List.range' 32 16) (fun irqNum => stubs.isr (irqNum - 32)) (0x80 ||| 0x0E)

def interruptsRegisterHandler (s : Interrupts) (vector : BitVec 8) (handler : Nat) :
    Except Fault Interrupts :=
  if vector.toNat < 32 then
    .ok { s with excHandlers := Function.update s.excHandlers vector.toNat handler }
  else if vector.toNat < 48 then
    picClearMask
      { s with isrHandlers := Function.update s.isrHandlers (vector.toNat - 32) handler } vector
  else .ok s

/-- `interrupt_handler`; `call` is what calling a handler does. -/
def interruptHandler (call : Nat → Interrupts → Interrupts) (s : Interrupts) (irq : BitVec 64) :
    Except Fault Interrupts := do
  assert (irq.toNat ≥ 32 ∧ irq.toNat < 48)
  assert (s.isrHandlers (irq.toNat - 32) ≠ 0)
  let s := call (s.isrHandlers (irq.toNat - 32)) s
  picEoi s (irq.setWidth 8)

/-- A call of `interrupts_register_handler`. -/
structure Registration where
  vector : BitVec 8
  handler : Nat
  deriving DecidableEq, Repr

def registerAll (s : Interrupts) (calls : List Registration) : Except Fault Interrupts :=
  calls.foldlM (fun s call => interruptsRegisterHandler s call.vector call.handler) s

end WaddleOS
