import WaddleOS.Base.Bits

/-!
# `lib/serial.c`

The UART is the one whose registers start at `port`, and an access to
`port + offset` reaches its register `offset`. Registers 0 and 1 are the two
bytes of the divisor while bit 7 of the line control register is set. What the
UART does by itself, sending a byte on and receiving one, happens between the
accesses of the driver.
-/

namespace WaddleOS

/-- What only an access changes. -/
structure UartRegs where
  ier : BitVec 8
  lcr : BitVec 8
  mcr : BitVec 8
  scr : BitVec 8
  dll : BitVec 8
  dlm : BitVec 8
  /-- the FIFOs are enabled -/
  fifo : Bool
  /-- how many bytes a FIFO has room for -/
  room : Nat
  /-- the byte that an empty receiver reads -/
  rbr : BitVec 8
  /-- how many bytes the transmitter had no room for -/
  lost : Nat
  deriving DecidableEq, Repr

structure Uart extends UartRegs where
  tx : List (BitVec 8)
  rx : List (BitVec 8)
  /-- what has been sent on the line -/
  wire : List (BitVec 8)
  /-- what has been sent back to the receiver in loopback mode -/
  looped : List (BitVec 8)
  deriving DecidableEq, Repr

/-- What the UART does by itself. -/
inductive UartEvent where
  | send
  | receive (b : BitVec 8)
  deriving DecidableEq, Repr

def UartRegs.dlab (r : UartRegs) : Bool := r.lcr.getLsbD 7

def UartRegs.loopback (r : UartRegs) : Bool := r.mcr.getLsbD 4

/-- Without the FIFOs each side holds one byte. -/
def UartRegs.depth (r : UartRegs) : Nat := if r.fifo then r.room else 1

/-- A full FIFO drops the byte, a single register is overwritten. -/
def UartRegs.put (r : UartRegs) (q : List (BitVec 8)) (b : BitVec 8) : List (BitVec 8) :=
  if q.length < r.depth then q ++ [b] else if r.fifo then q else [b]

def Uart.transmit (u : Uart) (b : BitVec 8) : Uart :=
  { u with
    tx := u.put u.tx b
    lost := if u.tx.length < u.depth then u.lost else u.lost + 1 }

/-- The FIFO control register: switching the FIFOs clears both, and bits 1 and
2 clear one each while they are enabled. -/
def Uart.control (u : Uart) (v : BitVec 8) : Uart :=
  let fifo := v.getLsbD 0
  let switched := fifo != u.fifo
  { u with
    fifo := fifo
    rx := if switched || fifo && v.getLsbD 1 then [] else u.rx
    tx := if switched || fifo && v.getLsbD 2 then [] else u.tx }

/-- `outb(port + offset, v)` -/
def Uart.write (u : Uart) (offset : Nat) (v : BitVec 8) : Uart :=
  match offset with
  | 0 => if u.dlab then { u with dll := v } else u.transmit v
  | 1 => if u.dlab then { u with dlm := v } else { u with ier := v &&& 0x0F }
  | 2 => u.control v
  | 3 => { u with lcr := v }
  | 4 => { u with mcr := v &&& 0x1F }
  | 7 => { u with scr := v }
  | _ => u

/-- The line status register, without its error bits. -/
def Uart.lsr (u : Uart) : BitVec 8 :=
  (if u.rx = [] then 0 else 0x01) ||| (if u.tx = [] then 0x60 else 0)

/-- `inb(port)` with the divisor latch closed takes a byte from the receiver. -/
def Uart.take (u : Uart) : BitVec 8 × Uart :=
  match u.rx with
  | [] => (u.rbr, u)
  | b :: rest => (b, { u with rx := rest, rbr := b })

/-- `inb(port + offset)`; the driver reads registers 0 and 5. -/
def Uart.read (u : Uart) (offset : Nat) : BitVec 8 × Uart :=
  match offset with
  | 0 => if u.dlab then (u.dll, u) else u.take
  | 1 => (if u.dlab then u.dlm else u.ier, u)
  | 3 => (u.lcr, u)
  | 4 => (u.mcr, u)
  | 5 => (u.lsr, u)
  | 7 => (u.scr, u)
  | _ => (0, u)

def Uart.happen (u : Uart) : UartEvent → Uart
  | .send =>
    match u.tx with
    | [] => u
    | b :: rest =>
      if u.loopback then
        { u with tx := rest, rx := u.put u.rx b, looped := u.looped ++ [b] }
      else { u with tx := rest, wire := u.wire ++ [b] }
  | .receive b => if u.loopback then u else { u with rx := u.put u.rx b }

def Uart.happens (u : Uart) (events : List UartEvent) : Uart := events.foldl Uart.happen u


/-- `serial_init` up to the FIFOs; `env k` is what the UART does before the
access number `k`. -/
def serialClear (env : Nat → List UartEvent) (u : Uart) : Uart :=
  let u := (u.happens (env 0)).write 1 0x00
  let u := (u.happens (env 1)).write 3 0x80
  let u := (u.happens (env 2)).write 0 0x03
  let u := (u.happens (env 3)).write 1 0x00
  let u := (u.happens (env 4)).write 3 0x03
  (u.happens (env 5)).write 2 0xC7

/-- `serial_init` up to the loopback test. -/
def serialSetUp (env : Nat → List UartEvent) (u : Uart) : Uart :=
  let u := serialClear env u
  let u := (u.happens (env 6)).write 4 0x0B
  (u.happens (env 7)).write 4 0x1E

/-- `serial_init` -/
def serialInit (env : Nat → List UartEvent) (u : Uart) : Nat × Uart :=
  let u := serialSetUp env u
  let u := (u.happens (env 8)).write 0 0xAE
  let (b, u) := (u.happens (env 9)).read 0
  if b ≠ 0xAE then (1, u)
  else (0, (u.happens (env 10)).write 4 0x0F)

def serialRecvd (u : Uart) : BitVec 8 := (u.read 5).1 &&& 1

def serialIsTxEmpty (u : Uart) : BitVec 8 := (u.read 5).1 &&& 0x20

/-- `serial_write`; of each pair, the first happens before the port is looked
at and the second before the byte is written. -/
def serialWrite (a : BitVec 8) : List (List UartEvent × List UartEvent) → Uart → Option Uart
  | [], _ => none
  | (before, after) :: rest, u =>
    let u := u.happens before
    if serialIsTxEmpty u = 0 then serialWrite a rest u
    else some ((u.happens after).write 0 a)

/-- `serial_read`, in the same way. -/
def serialRead : List (List UartEvent × List UartEvent) → Uart → Option (BitVec 8 × Uart)
  | [], _ => none
  | (before, after) :: rest, u =>
    let u := u.happens before
    if serialRecvd u = 0 then serialRead rest u
    else some ((u.happens after).read 0)

section Events

variable {u : Uart} {es : List UartEvent}

@[simp] theorem happen_regs (u : Uart) (e : UartEvent) :
    (u.happen e).toUartRegs = u.toUartRegs := by
  cases e with
  | send =>
    simp only [Uart.happen]
    split
    · rfl
    · split <;> rfl
  | receive b =>
    simp only [Uart.happen]
    split <;> rfl

/-- By itself the UART moves bytes and changes no register. -/
@[simp] theorem happens_regs (u : Uart) (es : List UartEvent) :
    (u.happens es).toUartRegs = u.toUartRegs := by
  induction es generalizing u with
  | nil => rfl
  | cons e es ih => exact (ih (u.happen e)).trans (happen_regs u e)

/-- With nothing to send the transmitter stays empty. -/
theorem happens_idle (es : List UartEvent) (idle : u.tx = []) : (u.happens es).tx = [] := by
  induction es generalizing u with
  | nil => exact idle
  | cons e es ih =>
    apply ih
    cases e with
    | send => simp only [Uart.happen, idle]
    | receive b => simp only [Uart.happen]; split <;> exact idle

/-- In loopback mode, cut off from the line and with nothing to send. -/
theorem happens_still (loop : u.loopback = true) (idle : u.tx = []) : u.happens es = u := by
  induction es with
  | nil => rfl
  | cons e es ih =>
    have same : u.happen e = u := by cases e <;> simp [Uart.happen, idle, loop]
    rw [Uart.happens, List.foldl_cons, same]
    exact ih

/-- The byte to send comes back as soon as the UART sends. -/
theorem happens_looped {b : BitVec 8} (loop : u.loopback = true) (one : u.tx = [b]) :
    u.happens es = if .send ∈ es then
      { u with tx := [], rx := u.put u.rx b, looped := u.looped ++ [b] } else u := by
  induction es with
  | nil => rfl
  | cons e es ih =>
    cases e with
    | send =>
      rw [if_pos List.mem_cons_self, Uart.happens, List.foldl_cons]
      simp only [Uart.happen, one, loop, if_true]
      exact happens_still loop rfl
    | receive c =>
      have same : u.happen (.receive c) = u := by simp [Uart.happen, loop]
      have rest : (UartEvent.send ∈ UartEvent.receive c :: es) ↔ UartEvent.send ∈ es := by simp
      rw [Uart.happens, List.foldl_cons, same, if_congr rest rfl rfl]
      exact ih

end Events

section Writes

variable {u : Uart} {v : BitVec 8}

/-- Registers 0 and 1 are the divisor while its latch is open. -/
theorem regs_write_divisor (latch : u.dlab = true) :
    (u.write 0 v).toUartRegs = { u.toUartRegs with dll := v } ∧
      (u.write 1 v).toUartRegs = { u.toUartRegs with dlm := v } := by
  simp [Uart.write, latch]

theorem regs_write_enable (latch : u.dlab = false) :
    (u.write 1 v).toUartRegs = { u.toUartRegs with ier := v &&& 0x0F } := by
  simp [Uart.write, latch]

theorem regs_write_control :
    (u.write 2 v).toUartRegs = { u.toUartRegs with fifo := v.getLsbD 0 } := rfl

theorem regs_write_line : (u.write 3 v).toUartRegs = { u.toUartRegs with lcr := v } := rfl

theorem regs_write_modem :
    (u.write 4 v).toUartRegs = { u.toUartRegs with mcr := v &&& 0x1F } := rfl

theorem dlab_of_lcr {r : UartRegs} (h : r.lcr = v) : r.dlab = v.getLsbD 7 := by
  rw [UartRegs.dlab, h]

theorem loopback_of_mcr {r : UartRegs} (h : r.mcr = v) : r.loopback = v.getLsbD 4 := by
  rw [UartRegs.loopback, h]

end Writes

theorem serialClear_regs (env : Nat → List UartEvent) (u : Uart) :
    (serialClear env u).toUartRegs = { u.toUartRegs with
      ier := if u.dlab then u.ier else 0
      lcr := 0x03, dll := 0x03, dlm := 0x00, fifo := true } := by
  simp only [serialClear]
  generalize h1 : (u.happens (env 0)).write 1 0x00 = u1
  generalize h2 : (u1.happens (env 1)).write 3 0x80 = u2
  generalize h3 : (u2.happens (env 2)).write 0 0x03 = u3
  generalize h4 : (u3.happens (env 3)).write 1 0x00 = u4
  have r2 : (u2.happens (env 2)).toUartRegs = { u1.toUartRegs with lcr := 0x80 } := by
    rw [happens_regs, ← h2, regs_write_line, happens_regs]
  have latch2 : (u2.happens (env 2)).dlab = true := dlab_of_lcr (v := 0x80) (by rw [r2])
  have r3 : (u3.happens (env 3)).toUartRegs = { u1.toUartRegs with lcr := 0x80, dll := 0x03 } := by
    rw [happens_regs, ← h3, (regs_write_divisor latch2).1, r2]
  have latch3 : (u3.happens (env 3)).dlab = true := dlab_of_lcr (v := 0x80) (by rw [r3])
  have r4 : u4.toUartRegs = { u1.toUartRegs with lcr := 0x80, dll := 0x03, dlm := 0x00 } := by
    rw [← h4, (regs_write_divisor latch3).2, r3]
  simp only [regs_write_control, regs_write_line, happens_regs, r4]
  -- the first access reaches the divisor if its latch was left open
  by_cases latch : u.dlab = true
  · have r1 : u1.toUartRegs = { u.toUartRegs with dlm := 0x00 } := by
      rw [← h1, (regs_write_divisor (by rwa [happens_regs])).2, happens_regs]
    rw [r1, if_pos latch]
    rfl
  · have r1 : u1.toUartRegs = { u.toUartRegs with ier := 0x00 } := by
      rw [← h1, regs_write_enable (by rwa [happens_regs, ← Bool.not_eq_true]), happens_regs]
      rfl
    rw [r1, if_neg latch]
    rfl

/-- From `u` to `v` the transmitter has sent on up to `n` bytes and taken none. -/
structure Uart.Sends (u : Uart) (n : Nat) (v : Uart) : Prop where
  tx : v.tx = u.tx.drop n
  wire : v.wire = u.wire ++ if u.loopback then [] else u.tx.take n
  loopback : v.loopback = u.loopback

section Sends

variable {u v w : Uart} {m n : Nat}

theorem Uart.Sends.trans (first : u.Sends m v) (second : v.Sends n w) : u.Sends (m + n) w where
  tx := by rw [second.tx, first.tx, List.drop_drop]
  wire := by
    rw [second.wire, first.wire, first.loopback, first.tx, List.append_assoc, List.take_add]
    split <;> rfl
  loopback := second.loopback.trans first.loopback

theorem happen_sends (u : Uart) (e : UartEvent) :
    u.Sends (if e = .send then 1 else 0) (u.happen e) := by
  have mode : (u.happen e).loopback = u.loopback := by
    rw [UartRegs.loopback, happen_regs]
    rfl
  cases e with
  | send =>
    cases waiting : u.tx with
    | nil => exact ⟨by simp [Uart.happen, waiting], by simp [Uart.happen, waiting], mode⟩
    | cons b rest =>
      by_cases loop : u.loopback = true <;>
        exact ⟨by simp [Uart.happen, waiting, loop], by simp [Uart.happen, waiting, loop], mode⟩
  | receive b =>
    by_cases loop : u.loopback = true <;>
      exact ⟨by simp [Uart.happen, loop], by simp [Uart.happen, loop], mode⟩

theorem happens_sends (u : Uart) (es : List UartEvent) :
    u.Sends (es.count .send) (u.happens es) := by
  induction es generalizing u with
  | nil => exact ⟨rfl, by simp [Uart.happens], rfl⟩
  | cons e es ih =>
    have all := (happen_sends u e).trans (ih (u.happen e))
    rw [Nat.add_comm] at all
    simp only [List.count_cons, beq_iff_eq]
    exact all

theorem happens_idle_wire (es : List UartEvent) (idle : u.tx = []) :
    (u.happens es).wire = u.wire := by
  simp [(happens_sends u es).wire, idle]

/-- In loopback mode nothing reaches the line. -/
theorem happens_loop_wire (es : List UartEvent) (loop : u.loopback = true) :
    (u.happens es).wire = u.wire := by
  simp [(happens_sends u es).wire, loop]

/-- A register is written that neither sends nor takes a byte. -/
theorem Uart.Sends.write {offset : Nat} {b : BitVec 8} (sends : u.Sends n v)
    (divisor : offset = 1 ∨ offset = 3 ∨ offset = 0 ∧ v.dlab = true) :
    u.Sends n (v.write offset b) := by
  obtain rfl | rfl | ⟨rfl, latch⟩ := divisor
  · by_cases latch : v.dlab = true <;> simp only [Uart.write, latch]
    all_goals exact ⟨sends.tx, sends.wire, sends.loopback⟩
  · exact ⟨sends.tx, sends.wire, sends.loopback⟩
  · simp only [Uart.write, latch, if_true]
    exact ⟨sends.tx, sends.wire, sends.loopback⟩

end Sends

/-- How many bytes the transmitter may send before `serial_init` clears it. -/
def sentBefore (env : Nat → List UartEvent) : Nat :=
  ((List.range 6).map fun k => (env k).count .send).sum

/-- What is still waiting when the FIFOs are cleared is dropped. -/
theorem serialClear_wire (env : Nat → List UartEvent) (u : Uart) :
    (serialClear env u).wire =
      u.wire ++ if u.loopback then [] else u.tx.take (sentBefore env) := by
  simp only [serialClear]
  generalize h1 : (u.happens (env 0)).write 1 0x00 = u1
  generalize h2 : (u1.happens (env 1)).write 3 0x80 = u2
  have latch : (u2.happens (env 2)).dlab = true :=
    dlab_of_lcr (v := 0x80) (by rw [happens_regs, ← h2, regs_write_line])
  have s1 := (happens_sends u (env 0)).write (b := 0x00) (.inl rfl)
  rw [h1] at s1
  have s2 := (s1.trans (happens_sends u1 (env 1))).write (b := 0x80) (.inr (.inl rfl))
  rw [h2] at s2
  have s3 := (s2.trans (happens_sends u2 (env 2))).write (b := 0x03) (.inr (.inr ⟨rfl, latch⟩))
  have s4 := (s3.trans (happens_sends _ (env 3))).write (b := 0x00) (.inl rfl)
  have s5 := (s4.trans (happens_sends _ (env 4))).write (b := 0x03) (.inr (.inl rfl))
  have s6 := s5.trans (happens_sends _ (env 5))
  have all : (env 0).count .send + (env 1).count .send + (env 2).count .send +
      (env 3).count .send + (env 4).count .send + (env 5).count .send = sentBefore env := by
    simp only [sentBefore, List.range, List.range.loop, List.map_cons, List.map_nil,
      List.sum_cons, List.sum_nil]
    omega
  rw [← all]
  exact s6.wire

theorem serialClear_empty (env : Nat → List UartEvent) (u : Uart) :
    (serialClear env u).tx = [] ∧ (serialClear env u).rx = [] := by
  simp [serialClear, Uart.write, Uart.control]

/-- What the set-up leaves, whatever the UART was doing. -/
theorem serialSetUp_spec (env : Nat → List UartEvent) (u : Uart) :
    (serialSetUp env u).toUartRegs = { u.toUartRegs with
      ier := if u.dlab then u.ier else 0
      lcr := 0x03, mcr := 0x1E, dll := 0x03, dlm := 0x00, fifo := true } ∧
    (serialSetUp env u).tx = [] ∧ (serialSetUp env u).wire = (serialClear env u).wire := by
  have idle := (serialClear_empty env u).1
  refine ⟨?_, happens_idle _ (happens_idle _ idle), ?_⟩
  · simp only [serialSetUp, regs_write_modem, happens_regs, serialClear_regs]
    rfl
  · have first := happens_idle_wire (env 6) idle
    have second := happens_idle_wire (u := ((serialClear env u).happens (env 6)).write 4 0x0B)
      (env 7) (happens_idle (env 6) idle)
    exact second.trans first

/-- The bytes that came in on the line. -/
def received (es : List UartEvent) : List (BitVec 8) :=
  es.filterMap fun e => match e with
    | .receive b => some b
    | .send => none

/-- With nothing to send, the receiver takes what comes in while it has room. -/
theorem happens_received {u : Uart} (es : List UartEvent) (loop : u.loopback = false)
    (fifo : u.fifo = true) (idle : u.tx = []) (fits : u.rx.length ≤ u.room) :
    (u.happens es).rx = (u.rx ++ received es).take u.room := by
  induction es generalizing u with
  | nil => simp [Uart.happens, received, List.take_of_length_le fits]
  | cons e es ih =>
    cases e with
    | send =>
      have same : u.happen .send = u := by simp [Uart.happen, idle]
      rw [Uart.happens, List.foldl_cons, same]
      exact ih loop fifo idle fits
    | receive b =>
      have put : u.happen (.receive b) =
          { u with rx := if u.rx.length < u.room then u.rx ++ [b] else u.rx } := by
        simp [Uart.happen, loop, UartRegs.put, UartRegs.depth, fifo]
      have fits' : (if u.rx.length < u.room then u.rx ++ [b] else u.rx).length ≤ u.room := by
        split
        · simp only [List.length_append, List.length_singleton]
          omega
        · exact fits
      have rest := ih (u := { u with rx := if u.rx.length < u.room then u.rx ++ [b] else u.rx })
        loop fifo idle fits'
      rw [Uart.happens, List.foldl_cons, put]
      refine rest.trans ?_
      dsimp only
      split
      · simp [received]
      · have full : u.rx.length = u.room := by omega
        simp [← full]

/-- The line is heard since the receiver was cleared, but for the time in
which the UART was still in loopback mode from before. -/
def heard (env : Nat → List UartEvent) (u : Uart) : List (BitVec 8) :=
  received (if u.loopback then env 7 else env 6 ++ env 7)

theorem serialSetUp_rx (env : Nat → List UartEvent) (u : Uart) :
    (serialSetUp env u).rx = (heard env u).take u.room := by
  have regs := serialClear_regs env u
  obtain ⟨idle, empty⟩ := serialClear_empty env u
  generalize hc : serialClear env u = c at regs idle empty
  have loop : c.loopback = u.loopback := by rw [regs]; rfl
  have fifo : c.fifo = true := by rw [regs]
  have room : c.room = u.room := by rw [regs]
  have first : (c.happens (env 6)).rx =
      (received (if u.loopback then [] else env 6)).take u.room := by
    by_cases before : u.loopback = true
    · rw [happens_still (loop.trans before) idle, empty, if_pos before]
      simp [received]
    · have off : c.loopback = false := by rw [loop, ← Bool.not_eq_true]; exact before
      rw [happens_received (env 6) off fifo idle (by simp [empty]), empty, room, if_neg before,
        List.nil_append]
  have second := happens_received (u := (c.happens (env 6)).write 4 0x0B) (env 7)
    (loopback_of_mcr (v := 0x0B) rfl) (by rw [regs_write_modem, happens_regs, fifo])
    (happens_idle (env 6) idle) (by
      rw [regs_write_modem, happens_regs, room]
      exact (congrArg List.length first).trans_le (List.length_take_le _ _))
  have cut : (serialSetUp env u).rx = ((c.happens (env 6)).rx ++ received (env 7)).take u.room := by
    rw [← room, ← happens_regs c (env 6)]
    rw [serialSetUp, hc]
    exact second
  have joined : ∀ (a b : List (BitVec 8)), (a.take u.room ++ b).take u.room = (a ++ b).take u.room := by
    intro a b
    rw [List.take_append, List.take_append, List.take_take, Nat.min_self, List.length_take]
    congr 2
    omega
  rw [cut, first, joined, heard]
  split <;> simp [received]

/-- The UART sends the test byte before it is read back. -/
def Echoes (env : Nat → List UartEvent) : Prop := .send ∈ env 9

instance (env : Nat → List UartEvent) : Decidable (Echoes env) :=
  inferInstanceAs (Decidable (_ ∈ _))

/-- The byte that `serial_init` reads back: the first that came in on the line
since the receiver was cleared, else the test byte if the chip has sent it by
then, else whatever was last read from the receiver. -/
def testByte (env : Nat → List UartEvent) (u : Uart) : BitVec 8 :=
  (heard env u ++ if Echoes env then [0xAE] else []).headD u.rbr

/-- The UART before the test byte is read back. -/
theorem serialTest_spec (env : Nat → List UartEvent) (u : Uart) (room : 1 ≤ u.room) :
    (((serialSetUp env u).happens (env 8)).write 0 0xAE).happens (env 9) =
      if Echoes env then { serialSetUp env u with
        rx := (serialSetUp env u).put (serialSetUp env u).rx 0xAE
        looped := (serialSetUp env u).looped ++ [0xAE] }
      else { serialSetUp env u with tx := [0xAE] } := by
  generalize ht : serialSetUp env u = t
  obtain ⟨regs, idle, -⟩ := serialSetUp_spec env u
  rw [ht] at regs idle
  have loop : t.loopback = true := loopback_of_mcr (v := 0x1E) (congrArg UartRegs.mcr regs)
  have latch : t.dlab = false := dlab_of_lcr (v := 0x03) (congrArg UartRegs.lcr regs)
  have depth : t.depth = u.room := by
    rw [UartRegs.depth, congrArg UartRegs.fifo regs, congrArg UartRegs.room regs]
    rfl
  have stored : t.write 0 0xAE = { t with tx := [0xAE] } := by
    have fits : 0 < t.depth := by omega
    simp [Uart.write, latch, Uart.transmit, UartRegs.put, idle, fits]
  have sent : ({ t with tx := [0xAE] } : Uart).happens (env 9) = _ := happens_looped loop rfl
  rw [happens_still loop idle, stored, sent]
  simp only [Echoes, idle]

/-- The byte read back is the first one that the receiver holds. -/
theorem take_spec (u : Uart) : u.take.1 = u.rx.headD u.rbr ∧ u.take.2.tx = u.tx ∧
    u.take.2.wire = u.wire ∧ u.take.2.looped = u.looped ∧
    ∃ b, u.take.2.toUartRegs = { u.toUartRegs with rbr := b } := by
  unfold Uart.take
  split
  · rename_i empty
    exact ⟨by simp [empty], rfl, rfl, rfl, u.rbr, rfl⟩
  · rename_i b rest holds
    exact ⟨by simp [holds], rfl, rfl, rfl, b, rfl⟩

theorem headD_put (u : Uart) (b c : BitVec 8) (fifo : u.fifo = true) (room : 1 ≤ u.room) :
    (u.put u.rx b).headD c = (u.rx ++ [b]).headD c := by
  have depth : u.depth = u.room := by rw [UartRegs.depth, fifo]; rfl
  unfold UartRegs.put
  rw [depth, fifo]
  cases h : u.rx with
  | nil => rw [if_pos (by simp only [List.length_nil]; omega)]
  | cons a as => split <;> simp

theorem headD_take {n : Nat} (a b : List (BitVec 8)) (c : BitVec 8) (h : 1 ≤ n) :
    (a.take n ++ b).headD c = (a ++ b).headD c := by
  cases a with
  | nil => simp
  | cons x xs =>
    obtain ⟨m, rfl⟩ : ∃ m, n = m + 1 := ⟨n - 1, by omega⟩
    rfl

/-- What `serial_init` reads, and the two ways it ends. -/
theorem serialInit_spec (env : Nat → List UartEvent) (u : Uart) (room : 1 ≤ u.room) :
    ∃ (v : Uart) (b : BitVec 8), v.toUartRegs = { u.toUartRegs with
        ier := if u.dlab then u.ier else 0
        lcr := 0x03, mcr := 0x1E, dll := 0x03, dlm := 0x00, fifo := true, rbr := b } ∧
      v.tx = (if Echoes env then [] else [0xAE]) ∧ v.wire = (serialClear env u).wire ∧
      serialInit env u = if testByte env u = 0xAE then
        (0, { v.happens (env 10) with mcr := 0x0F }) else (1, v) := by
  obtain ⟨regs, idle, quiet⟩ := serialSetUp_spec env u
  have tested := serialTest_spec env u room
  generalize hw : (((serialSetUp env u).happens (env 8)).write 0 0xAE).happens (env 9) = w at tested
  have wregs : w.toUartRegs = (serialSetUp env u).toUartRegs := by
    rw [tested]
    split <;> rfl
  have wtx : w.tx = if Echoes env then [] else [0xAE] := by
    rw [tested]
    split
    · exact idle
    · rfl
  have wwire : w.wire = (serialClear env u).wire := by
    rw [tested, ← quiet]
    split <;> rfl
  have latch : w.dlab = false := dlab_of_lcr (v := 0x03) (by rw [wregs, regs])
  obtain ⟨first, tx, wire, -, b, taken⟩ := take_spec w
  have byte : w.take.1 = testByte env u := by
    have rbr : w.rbr = u.rbr := by rw [wregs, regs]
    rw [first, rbr, testByte, ← headD_take _ _ _ room, ← serialSetUp_rx, tested]
    split
    · exact headD_put _ _ _ (congrArg UartRegs.fifo regs)
        (by rw [congrArg UartRegs.room regs]; exact room)
    · simp
  refine ⟨w.take.2, b, ?_, tx.trans wtx, wire.trans wwire, ?_⟩
  · rw [taken, wregs, regs]
  · have read : w.read 0 = w.take := by
      simp [Uart.read, latch]
    simp only [serialInit, hw, read, byte, ne_eq, ite_not]
    rfl

theorem serialInit_result (env : Nat → List UartEvent) (u : Uart) (room : 1 ≤ u.room) :
    (serialInit env u).1 = if testByte env u = 0xAE then 0 else 1 := by
  obtain ⟨v, b, -, -, -, ends⟩ := serialInit_spec env u room
  rw [ends]
  split <;> rfl

theorem serialInit_regs (env : Nat → List UartEvent) (u : Uart) (room : 1 ≤ u.room) :
    ∃ b, (serialInit env u).2.toUartRegs = { u.toUartRegs with
      ier := if u.dlab then u.ier else 0
      lcr := 0x03, mcr := if testByte env u = 0xAE then 0x0F else 0x1E, dll := 0x03, dlm := 0x00
      fifo := true, rbr := b } := by
  obtain ⟨v, b, regs, -, -, ends⟩ := serialInit_spec env u room
  refine ⟨b, ?_⟩
  rw [ends]
  split
  · simp only [happens_regs, regs]
  · exact regs

/-- A chip that sent the test byte back has nothing left to send. -/
theorem serialInit_tx (env : Nat → List UartEvent) (u : Uart) (room : 1 ≤ u.room)
    (echo : Echoes env) : (serialInit env u).2.tx = [] := by
  obtain ⟨v, b, -, idle, -, ends⟩ := serialInit_spec env u room
  rw [if_pos echo] at idle
  rw [ends]
  split
  · exact happens_idle _ idle
  · exact idle

/-- The test byte never reaches the line. -/
theorem serialInit_wire (env : Nat → List UartEvent) (u : Uart) (room : 1 ≤ u.room) :
    (serialInit env u).2.wire = (serialClear env u).wire := by
  obtain ⟨v, b, regs, -, wire, ends⟩ := serialInit_spec env u room
  rw [ends]
  split
  · have loop : v.loopback = true := loopback_of_mcr (v := 0x1E) (congrArg UartRegs.mcr regs)
    exact (happens_loop_wire (env 10) loop).trans wire
  · exact wire

theorem serialInit_loopback (env : Nat → List UartEvent) (u : Uart) (room : 1 ≤ u.room) :
    (serialInit env u).2.loopback = true ↔ (serialInit env u).1 = 1 := by
  obtain ⟨b, regs⟩ := serialInit_regs env u room
  rw [serialInit_result env u room, regs, UartRegs.loopback]
  dsimp only
  by_cases test : testByte env u = 0xAE
  · rw [if_pos test, if_pos test]
    decide
  · rw [if_neg test, if_neg test]
    decide

/-- Whatever the UART was doing, `serial_init` leaves 38400 baud, 8N1 and the
FIFOs on. Clearing them drops what was received and not read, and what was
waiting to be sent and did not get on the wire before; no byte is stored where
there is no room for it. It returns 0 exactly if the byte it reads back is the
test byte, and leaves the loopback mode exactly then. The interrupts are off
unless the divisor latch was open and they were on before. -/
theorem serialInit_programs (env : Nat → List UartEvent) (u : Uart) (room : 1 ≤ u.room) :
    let r := serialInit env u
    r.2.dll = 0x03 ∧ r.2.dlm = 0x00 ∧ r.2.lcr = 0x03 ∧ r.2.fifo = true ∧ r.2.lost = u.lost ∧
      ((serialClear env u).tx = [] ∧ (serialClear env u).rx = [] ∧
        r.2.wire = u.wire ++ if u.loopback then [] else u.tx.take (sentBefore env)) ∧
      (r.2.ier = 0 ↔ u.dlab = false ∨ u.ier = 0) ∧
      (r.1 = 0 ∨ r.1 = 1) ∧ (r.1 = 0 ↔ testByte env u = 0xAE) ∧
      (r.2.loopback = true ↔ r.1 = 1) := by
  intro r
  obtain ⟨b, regs⟩ := serialInit_regs env u room
  have result : r.1 = if testByte env u = 0xAE then 0 else 1 := serialInit_result env u room
  have loop : r.2.loopback = true ↔ r.1 = 1 := serialInit_loopback env u room
  have regs' : r.2.toUartRegs = _ := regs
  obtain ⟨idle, empty⟩ := serialClear_empty env u
  have wire : r.2.wire = _ := (serialInit_wire env u room).trans (serialClear_wire env u)
  refine ⟨by rw [regs'], by rw [regs'], by rw [regs'], by rw [regs'], by rw [regs'],
    ⟨idle, empty, wire⟩, ?_, ?_, ?_, loop⟩
  · rw [regs']
    by_cases latch : u.dlab = true <;> simp [latch]
  · rw [result]
    split <;> simp
  · rw [result]
    by_cases test : testByte env u = 0xAE
    · exact iff_of_true (if_pos test) test
    · rw [if_neg test]
      exact iff_of_false (by decide) test

/-- A chip as it is after reset, with room for 16 bytes in each FIFO. -/
def uartAtReset : Uart :=
  { ier := 0, lcr := 0, mcr := 0, scr := 0, dll := 0, dlm := 0, fifo := false, room := 16, rbr := 0
    lost := 0, tx := [], rx := [], wire := [], looped := [] }

/-- The chip sends the test byte at once and the line is silent. -/
def promptEnv : Nat → List UartEvent := fun k => if k = 9 then [.send] else []

/-- A chip in the middle of its work: the divisor latch is open, three bytes are
waiting to be sent and one to be read. -/
def uartAtWork : Uart :=
  { uartAtReset with
    ier := 0x01, lcr := 0x83, fifo := true, rbr := 9, tx := [1, 2, 3], rx := [5], wire := [7] }

/-- It sends one byte before it is cleared and the test byte in time. -/
def busyEnv : Nat → List UartEvent := fun k => if k = 2 ∨ k = 9 then [.send] else []

theorem serialInit_programs_busy :
    let r := serialInit busyEnv uartAtWork
    1 ≤ uartAtWork.room ∧ testByte busyEnv uartAtWork = 0xAE ∧ r.1 = 0 ∧ r.2.loopback = false ∧
      r.2.wire = [7, 1] ∧ r.2.ier ≠ 0 := by
  intro r
  obtain ⟨-, -, -, -, -, ⟨-, -, wire⟩, enabled, -, zero, loop⟩ :=
    serialInit_programs busyEnv uartAtWork (by decide)
  have test : testByte busyEnv uartAtWork = 0xAE := by decide
  have ok : r.1 = 0 := zero.mpr test
  refine ⟨by decide, test, ok, ?_, wire, ?_⟩
  · rw [← Bool.not_eq_true, loop, ok]
    decide
  · rw [ne_eq, enabled]
    decide

end WaddleOS
