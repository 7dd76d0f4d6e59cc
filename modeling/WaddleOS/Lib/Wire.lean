import WaddleOS.Base.Writers
import WaddleOS.Lib.Serial

/-!
# Everything that is printed at once

`kernel_main` prints on the serial port while interrupts print on it too: a
handler may start between the look at the port and the write of the byte. The
writers of `WaddleOS.Base.Writers` are the nested `serial_write` loops, and the
device is the UART that `serial_init` leaves.
-/

namespace WaddleOS

/-- A UART with its divisor latch closed, in loopback mode or not. -/
@[ext] structure Transmitter (loop : Bool) (depth : Nat) where
  uart : Uart
  latch : uart.dlab = false
  mode : uart.loopback = loop
  places : uart.depth = depth

section

variable {loop : Bool} {depth : Nat}

theorem write_closed {u : Uart} {a : BitVec 8} (latch : u.dlab = false) :
    u.write 0 a = u.transmit a := by
  simp [Uart.write, latch]

/-- `outb(port, a)` -/
def Transmitter.store (t : Transmitter loop depth) (a : BitVec 8) : Transmitter loop depth where
  uart := t.uart.write 0 a
  latch := by rw [write_closed t.latch]; exact t.latch
  mode := by rw [write_closed t.latch]; exact t.mode
  places := by rw [write_closed t.latch]; exact t.places

def Transmitter.happen (t : Transmitter loop depth) (e : UartEvent) : Transmitter loop depth where
  uart := t.uart.happen e
  latch := by rw [happen_regs]; exact t.latch
  mode := by rw [happen_regs]; exact t.mode
  places := by rw [happen_regs]; exact t.places

/-- Where the bytes of the transmitter go. -/
def Transmitter.sent (t : Transmitter loop depth) : List (BitVec 8) :=
  if loop then t.uart.looped else t.uart.wire

theorem serialIsTxEmpty_iff (u : Uart) : serialIsTxEmpty u ≠ 0 ↔ u.tx = [] := by
  simp only [serialIsTxEmpty, Uart.read, Uart.lsr]
  by_cases hr : u.rx = [] <;> by_cases ht : u.tx = [] <;> simp [hr, ht]

theorem transmit_fits {u : Uart} {a : BitVec 8} (fits : u.tx.length < u.depth) :
    u.transmit a = { u with tx := u.tx ++ [a] } := by
  simp [Uart.transmit, UartRegs.put, fits]

theorem store_fits {t : Transmitter loop depth} {a : BitVec 8} (fits : t.uart.tx.length < depth) :
    (t.store a).uart = { t.uart with tx := t.uart.tx ++ [a] } :=
  (write_closed t.latch).trans (transmit_fits (by rw [t.places]; exact fits))

theorem store_full {t : Transmitter loop depth} {a : BitVec 8} (full : depth ≤ t.uart.tx.length) :
    (t.store a).uart.lost = t.uart.lost + 1 := by
  have stored : (t.store a).uart = t.uart.transmit a := write_closed t.latch
  have none : ¬ t.uart.tx.length < t.uart.depth := by
    rw [t.places]
    omega
  rw [stored, Uart.transmit]
  simp only [none, if_false]

/-- Where a byte goes that leaves the transmitter. -/
theorem send_first {t : Transmitter loop depth} {a : BitVec 8} {as : List (BitVec 8)}
    (held : t.uart.tx = a :: as) : (t.happen .send).uart = if loop then { t.uart with
        tx := as, rx := t.uart.put t.uart.rx a, looped := t.uart.looped ++ [a] }
      else { t.uart with tx := as, wire := t.uart.wire ++ [a] } := by
  have happens : (t.happen .send).uart = t.uart.happen .send := rfl
  rw [happens, Uart.happen, held]
  simp only [t.mode]

theorem receive_keeps {t : Transmitter loop depth} {b : BitVec 8} :
    ∃ rx, (t.happen (.receive b)).uart = { t.uart with rx := rx } := by
  have happens : (t.happen (.receive b)).uart = t.uart.happen (.receive b) := rfl
  rw [happens, Uart.happen]
  split
  · exact ⟨t.uart.rx, rfl⟩
  · exact ⟨_, rfl⟩

/-- What the nested writers use of the UART. Bytes that come in are noise to them. -/
def uartSink (loop : Bool) (depth : Nat) : Sink (Transmitter loop depth) (BitVec 8) where
  held t := t.uart.tx
  sent t := t.sent
  lost t := t.uart.lost
  idle t := serialIsTxEmpty t.uart ≠ 0
  store t a := t.store a
  send t := t.happen .send
  noise t t' := ∃ b, t' = t.happen (.receive b)
  depth := depth
  idle_iff t := by
    rw [decide_eq_true_iff]
    exact serialIsTxEmpty_iff t.uart
  store_fits t a fits := by
    rw [Transmitter.sent, Transmitter.sent, store_fits fits]
    exact ⟨rfl, rfl, rfl⟩
  store_full t a full := store_full full
  send_first t a as held := by
    rw [Transmitter.sent, Transmitter.sent, send_first held]
    cases loop <;> exact ⟨rfl, rfl, rfl⟩
  noise_keeps t t' h := by
    obtain ⟨b, rfl⟩ := h
    obtain ⟨rx, same⟩ := receive_keeps (t := t) (b := b)
    rw [Transmitter.sent, Transmitter.sent, same]
    exact ⟨rfl, rfl, rfl⟩

/-! ### A call of `serial_write` -/

variable {levels : Nat} {l : Line (Transmitter loop depth) (BitVec 8)}

/-- Bytes that come and go by themselves are steps of the line. -/
theorem happens_steps {d : Transmitter loop depth} {items : List (BitVec 8)}
    (run : Line.Run (uartSink loop depth) levels d items l) (es : List UartEvent) :
    ∃ t : Transmitter loop depth, t.uart = l.device.uart.happens es ∧
      Line.Run (uartSink loop depth) levels d items { l with device := t } := by
  induction es generalizing l with
  | nil => exact ⟨l.device, rfl, run⟩
  | cons e es ih =>
    have step : Line.Run (uartSink loop depth) levels d items
        { l with device := l.device.happen e } := by
      cases e with
      | send =>
        cases held : l.device.uart.tx with
        | nil =>
          have same : l.device.happen .send = l.device := by
            ext1
            have happens : (l.device.happen .send).uart = l.device.uart.happen .send := rfl
            rw [happens, Uart.happen, held]
          rw [same]
          exact run
        | cons a as =>
          have busy : (uartSink loop depth).held l.device ≠ [] := by
            intro empty
            exact absurd (held.symm.trans empty) (by simp)
          exact run.step (.work (.send busy))
      | receive b => exact run.step (.noise ⟨b, rfl⟩)
    exact ih step

/-- A call of `serial_write` that returns, whatever the UART does between its
accesses, is a run of the line in which the caller has stored its byte. -/
theorem serialWrite_steps {d : Transmitter loop depth} {items : List (BitVec 8)} {n : Nat}
    {a : BitVec 8} {as : List (BitVec 8)} {ws : List (Writer (BitVec 8))} {u : Uart}
    {looks : List (List UartEvent × List UartEvent)}
    (run : Line.Run (uartSink loop depth) levels d items l)
    (top : l.writers = ⟨n, a :: as, false⟩ :: ws)
    (returns : serialWrite a looks l.device.uart = some u) :
    ∃ t : Transmitter loop depth, t.uart = u ∧ Line.Run (uartSink loop depth) levels d items
      ⟨⟨n, as, false⟩ :: ws, t, l.stored ++ [(n, a)], l.given⟩ := by
  induction looks generalizing l with
  | nil => cases returns
  | cons look looks ih =>
    obtain ⟨before, after⟩ := look
    obtain ⟨t, hbefore, run⟩ := happens_steps run before
    simp only [serialWrite, ← hbefore] at returns
    by_cases empty : serialIsTxEmpty t.uart = 0
    · rw [if_pos empty] at returns
      have later := ih run top returns
      exact later
    · rw [if_neg empty, Option.some.injEq] at returns
      have seen := run.step (.work (.see top (decide_eq_true empty)))
      obtain ⟨t', hafter, run'⟩ := happens_steps seen after
      refine ⟨t'.store a, ?_, run'.step (.work (.store rfl))⟩
      rw [← returns, ← hafter]
      rfl

/-- In loopback mode no step puts a byte on the wire. -/
theorem looped_wire {l' : Line (Transmitter loop depth) (BitVec 8)} (looped : loop = true)
    (step : Line.Step (uartSink loop depth) levels l l') :
    l'.device.uart.wire = l.device.uart.wire := by
  cases step with
  | work work =>
    cases work with
    | see | finish => rfl
    | @store n a as ws top =>
      have stored : (l.device.store a).uart = l.device.uart.transmit a := write_closed l.device.latch
      have wire := congrArg Uart.wire stored
      exact wire
    | send busy =>
      obtain ⟨a, as, held⟩ := List.exists_cons_of_ne_nil busy
      have sent := send_first (t := l.device) held
      rw [if_pos looped] at sent
      have wire := congrArg Uart.wire sent
      exact wire
  | wait | preempt => rfl
  | noise quiet =>
    obtain ⟨b, rfl⟩ := quiet
    obtain ⟨rx, same⟩ := receive_keeps (t := l.device) (b := b)
    have wire := congrArg Uart.wire same
    exact wire

end

/-! ### After `serial_init` -/

/-- The UART that `serial_init` leaves: in loopback mode unless it returned 0. -/
def serialOpen (env : Nat → List UartEvent) (u : Uart) (room : 1 ≤ u.room) :
    Transmitter (decide ((serialInit env u).1 = 1)) u.room where
  uart := (serialInit env u).2
  latch := by
    obtain ⟨b, regs⟩ := serialInit_regs env u room
    exact dlab_of_lcr (v := 0x03) (by rw [regs])
  mode := by
    rw [Bool.eq_iff_iff, decide_eq_true_iff]
    exact serialInit_loopback env u room
  places := by
    obtain ⟨b, regs⟩ := serialInit_regs env u room
    rw [UartRegs.depth, regs]
    rfl

/-- The bytes of nested `serial_write` callers after `serial_init`. -/
abbrev SerialRun (env : Nat → List UartEvent) (u : Uart) (room : 1 ≤ u.room) (levels : Nat)
    (text : List (BitVec 8)) :
    Line (Transmitter (decide ((serialInit env u).1 = 1)) u.room) (BitVec 8) → Prop :=
  Line.Run (uartSink (decide ((serialInit env u).1 = 1)) u.room) levels (serialOpen env u room) text

theorem serialOpen_lost (env : Nat → List UartEvent) (u : Uart) (room : 1 ≤ u.room) :
    (serialOpen env u room).uart.lost = u.lost := by
  obtain ⟨b, regs⟩ := serialInit_regs env u room
  have opened : (serialOpen env u room).uart = (serialInit env u).2 := rfl
  rw [opened, regs]

/-- After a `serial_init` that was answered, no run loses a byte exactly if
the chip's FIFO has a place for every nested writer. -/
theorem serial_lossless_iff (env : Nat → List UartEvent) (u : Uart) (room : 1 ≤ u.room)
    (echo : Echoes env) (levels : Nat) (one : 1 ≤ levels) (b : BitVec 8) (text : List (BitVec 8)) :
    (∀ l, SerialRun env u room levels (b :: text) l → l.device.uart.lost = u.lost) ↔
      levels ≤ u.room := by
  rw [← serialOpen_lost env u room]
  exact keeps_all_iff one (serialInit_tx env u room echo)

theorem room_at_reset : 1 ≤ uartAtReset.room := by decide

/-- One writer more than the chip has places. -/
theorem serial_seventeen_lose :
    ∃ l, SerialRun promptEnv uartAtReset room_at_reset 17 [72] l ∧ l.device.uart.lost ≠ 0 := by
  by_contra none
  have keeps := serial_lossless_iff promptEnv uartAtReset room_at_reset (by decide) 17 (by decide)
    72 []
  have all : ∀ l, SerialRun promptEnv uartAtReset room_at_reset 17 [72] l →
      l.device.uart.lost = uartAtReset.lost := by
    intro l run
    by_contra lost
    exact none ⟨l, run, lost⟩
  exact absurd (keeps.mp all) (by decide)

/-- While there is a place for every nested writer, what is on the wire and in
the transmitter is what was written, in order, each writer's bytes are its own
text as far as it got, and whatever gets on next, the text is complete on the
wire after at most `work` steps. -/
theorem serial_delivers (env : Nat → List UartEvent) (u : Uart) (room : 1 ≤ u.room)
    (echo : Echoes env) (answered : (serialInit env u).1 = 0) (levels : Nat) (one : 1 ≤ levels)
    (places : levels ≤ u.room) (text : List (BitVec 8)) (l) (run : SerialRun env u room levels text l) :
    (l.device.uart.wire ++ l.device.uart.tx =
        (serialInit env u).2.wire ++ l.stored.map Prod.snd) ∧
      (∀ n, wrote l.stored n ++ owed l.writers n = l.given.getD n []) ∧
      ∀ k t, Line.Works (uartSink _ u.room) k l t → k ≤ l.work (uartSink _ u.room) ∧
        ((∀ t', ¬ Line.Work (uartSink _ u.room) t t') →
          t.device.uart.wire = (serialInit env u).2.wire ++ t.stored.map Prod.snd ∧
          ∀ n, wrote t.stored n = l.given.getD n []) := by
  have idle := serialInit_tx env u room echo
  have wire : ∀ d : Transmitter (decide ((serialInit env u).1 = 1)) u.room, d.sent = d.uart.wire := by
    intro d
    simp [Transmitter.sent, answered]
  refine ⟨?_, run_accounts run, fun k t works => ⟨?_, fun last => ?_⟩⟩
  · have sent := (run_safe places one idle run).sent
    rwa [show (uartSink _ u.room).sent l.device = _ from wire _,
      show (uartSink _ u.room).sent (serialOpen env u room) = _ from wire _] at sent
  · have bound := works.bound places one idle run
    omega
  · have run' := works.run run
    have rest := (works_or_rests (run_sane run')).resolve_left (fun ⟨t', h⟩ => last t' h)
    obtain ⟨sent, complete⟩ := rest_complete places one idle run' rest
    rw [works.given] at complete
    rw [show (uartSink _ u.room).sent t.device = _ from wire _,
      show (uartSink _ u.room).sent (serialOpen env u room) = _ from wire _] at sent
    exact ⟨sent, complete⟩

/-- `kernel_main` printing two bytes and one handler that may preempt it. -/
theorem serial_delivers_two :
    let start := Line.start (serialOpen promptEnv uartAtReset room_at_reset) [72, 105]
    ∀ k t, Line.Works (uartSink _ uartAtReset.room) k start t →
      (∀ t', ¬ Line.Work (uartSink _ uartAtReset.room) t t') → wrote t.stored 0 = [72, 105] := by
  intro start k t works last
  obtain ⟨-, -, rests⟩ := serial_delivers promptEnv uartAtReset room_at_reset (by decide) (by decide)
    2 (by decide) (by decide) [72, 105] start .start
  exact ((rests k t works).2 last).2 0

/-- `kernel_main` does not look at what `serial_init` returns: after a 1 the
chip stays in loopback mode and nothing that is printed ever reaches the wire. -/
theorem serial_unanswered_silent (env : Nat → List UartEvent) (u : Uart) (room : 1 ≤ u.room)
    (failed : (serialInit env u).1 = 1) (levels : Nat) (text : List (BitVec 8)) (l)
    (run : SerialRun env u room levels text l) :
    l.device.uart.wire = (serialInit env u).2.wire := by
  induction run with
  | start => rfl
  | step _ step ih => exact (looped_wire (decide_eq_true failed) step).trans ih

/-- A chip that does not send the test byte in time: what is printed comes back
to the receiver behind the test byte. -/
theorem serial_unanswered_print :
    ∃ l, SerialRun (fun _ => []) uartAtReset room_at_reset 1 [72, 105] l ∧
      l.stored = [(0, 72), (0, 105)] ∧ l.device.uart.looped = [0xAE, 72, 105] ∧
      l.device.uart.wire = [] := by
  have fresh : SerialRun (fun _ => []) uartAtReset room_at_reset 1 [72, 105] _ := .start
  -- the first look finds the test byte still waiting
  have returns : serialWrite 72 [([], []), ([.send], [])]
      (serialInit (fun _ => []) uartAtReset).2 = some _ := rfl
  obtain ⟨t₁, h₁, run₁⟩ := serialWrite_steps fresh rfl returns
  have returns' := congrArg (serialWrite 105 [([.receive 13, .send], [])]) h₁
  obtain ⟨t₂, h₂, run₂⟩ := serialWrite_steps run₁ rfl (returns'.trans rfl)
  obtain ⟨t, ht, run⟩ := happens_steps run₂ [.send]
  refine ⟨_, run, rfl, ?_, ?_⟩
  · rw [ht]
    dsimp only
    rw [h₂]
    decide
  · exact serial_unanswered_silent (fun _ => []) uartAtReset room_at_reset (by decide) 1 [72, 105] _ run

end WaddleOS
