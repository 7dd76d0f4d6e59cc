import WaddleOS.Drivers.Service

/-!
# `kernel/drivers/pit.c`

Channel 0 of the interval timer takes a control word and then the bytes of its
count, which stand for the input clocks of one tick. The divisor that `pit_init`
works out is kept in 16 bits.
-/

namespace WaddleOS

structure PitChannel where
  /-- bits 4 and 5 of the control word: 1 low byte, 2 high byte, 3 both in turn -/
  access : BitVec 2
  mode : BitVec 3
  bcd : Bool
  /-- the low byte of a count that is half written -/
  low : Option (BitVec 8)
  /-- nothing is counted after a control word until the count is written -/
  count : Option (BitVec 16)
  deriving DecidableEq, Repr

/-- The command port. The words for other channels, and those that latch or read
back, program nothing. -/
def PitChannel.command (c : PitChannel) (v : BitVec 8) : PitChannel :=
  if v.extractLsb' 6 2 = 0#2 ∧ v.extractLsb' 4 2 ≠ 0#2 then
    ⟨v.extractLsb' 4 2, v.extractLsb' 1 3, v.getLsbD 0, none, none⟩
  else c

def PitChannel.data (c : PitChannel) (v : BitVec 8) : PitChannel :=
  if c.access = 1#2 then { c with count := some (0#8 ++ v) }
  else if c.access = 2#2 then { c with count := some (v ++ 0#8) }
  else match c.low with
    | none => { c with low := some v }
    | some low => { c with low := none, count := some (v ++ low) }

def pitData0 : Nat := 0x40
def pitCommand : Nat := 0x43

def PitChannel.outb (c : PitChannel) (port : Nat) (val : BitVec 8) : PitChannel :=
  if port = pitCommand then c.command val else if port = pitData0 then c.data val else c

def PitChannel.writes (c : PitChannel) (ws : PortWrites) : PitChannel :=
  ws.foldl (fun c w => c.outb w.1 w.2) c

/-- The four decimal digits of a count. -/
def bcdValue (n : Nat) : Nat := n / 4096 * 1000 + n / 256 % 16 * 100 + n / 16 % 16 * 10 + n % 16

/-- Input clocks in a tick. A count of 0 stands for the one after the greatest. -/
def PitChannel.period (c : PitChannel) : Option Nat :=
  c.count.map fun n =>
    if n = 0 then (if c.bcd then 10000 else 65536)
    else if c.bcd then bcdValue n.toNat else n.toNat

def pitInitialFreq : Nat := 1193180

/-- `uint16_t divisor` -/
def pitDivisor (freq : BitVec 16) : BitVec 16 := BitVec.ofNat 16 (pitInitialFreq / freq.toNat)

def pitWrites (divisor : BitVec 16) : PortWrites :=
  [(pitCommand, 0x00 ||| 0x30 ||| 0x06), (pitData0, (divisor &&& 0xFF).setWidth 8),
    (pitData0, ((divisor >>> 8) &&& 0xFF).setWidth 8)]

/-- `pit_init`; `active` is what `interrupts_active` answers. -/
def pitInit (active : Bool) (s : Interrupts) (timerInterrupt : Nat) (timerFreqHz : BitVec 16) :
    Except Fault Interrupts := do
  assert (active = false)
  let s ← interruptsRegisterHandler s 0x20 timerInterrupt
  -- the exception of a division by zero does not come back from its handler
  assert (timerFreqHz ≠ 0)
  return s.writes (pitWrites (pitDivisor timerFreqHz))

/-- `n` input clocks make a tick at `freq`: one more would be too slow. -/
def TicksAt (freq n : Nat) : Prop := freq * n ≤ pitInitialFreq ∧ pitInitialFreq < freq * (n + 1)

theorem ticksAt_iff {freq n : Nat} (hfreq : 0 < freq) : TicksAt freq n ↔ n = pitInitialFreq / freq := by
  unfold TicksAt
  rw [eq_comm, Nat.div_eq_iff hfreq]
  constructor
  · rintro ⟨below, above⟩
    rw [Nat.mul_comm] at below above
    rw [Nat.add_mul] at above
    omega
  · rintro ⟨below, above⟩
    rw [Nat.mul_comm freq, Nat.mul_comm freq, Nat.add_mul]
    omega

/-- The two bytes of a count make the count. -/
theorem count_bytes (d : BitVec 16) :
    (((d >>> 8) &&& 0xFF).setWidth 8 ++ (d &&& 0xFF).setWidth 8 : BitVec 16) = d := by
  have byte : ∀ x : BitVec 16, (x &&& 0xFF).setWidth 8 = x.setWidth 8 := by
    intro x
    have ones : (0xFF : BitVec 16).setWidth 8 = BitVec.allOnes 8 := rfl
    rw [BitVec.setWidth_and, ones, BitVec.and_allOnes]
  rw [byte, byte]
  apply BitVec.eq_of_getLsbD_eq
  intro i hi
  simp only [BitVec.getLsbD_append, BitVec.getLsbD_setWidth, BitVec.getLsbD_ushiftRight]
  by_cases low : i < 8
  · simp [low]
  · have high : i - 8 < 8 := by omega
    have place : 8 + (i - 8) = i := by omega
    simp [low, high, place]

/-- Whatever the channel was doing, the three writes leave it counting. -/
theorem pitWrites_program (c : PitChannel) (divisor : BitVec 16) :
    c.writes (pitWrites divisor) = ⟨3, 3, false, none, some divisor⟩ := by
  have command : c.outb pitCommand (0x00 ||| 0x30 ||| 0x06) = ⟨3, 3, false, none, none⟩ := rfl
  have low : ∀ v, PitChannel.outb ⟨3, 3, false, none, none⟩ pitData0 v =
    ⟨3, 3, false, some v, none⟩ := fun v => rfl
  have high : ∀ l v, PitChannel.outb ⟨3, 3, false, some l, none⟩ pitData0 v =
    ⟨3, 3, false, none, some (v ++ l)⟩ := fun l v => rfl
  rw [PitChannel.writes, pitWrites, List.foldl_cons, List.foldl_cons, List.foldl_cons, List.foldl_nil,
    command, low, high, count_bytes]

/-- The truncated divisor is the divisor from 19 Hz on. -/
theorem period_pitWrites (c : PitChannel) {freq : BitVec 16} (hfreq : freq ≠ 0) :
    ∃ n, (c.writes (pitWrites (pitDivisor freq))).period = some n ∧
      (TicksAt freq.toNat n ↔ 19 ≤ freq.toNat) := by
  have pos : 0 < freq.toNat := by
    rw [Nat.pos_iff_ne_zero]
    exact fun h => hfreq (BitVec.eq_of_toNat_eq h)
  have stored : (pitDivisor freq).toNat = pitInitialFreq / freq.toNat % 2 ^ 16 := BitVec.toNat_ofNat _ _
  rw [pitWrites_program]
  refine ⟨_, rfl, ?_⟩
  rw [ticksAt_iff pos]
  dsimp only
  rw [if_neg Bool.false_ne_true, if_neg Bool.false_ne_true]
  have bound := freq.isLt
  constructor
  · intro same
    by_contra slow
    have big : 65537 ≤ pitInitialFreq / freq.toNat := by
      rw [Nat.le_div_iff_mul_le pos, pitInitialFreq]
      omega
    split at same
    · omega
    · rw [stored] at same
      omega
  · intro fast
    have small : pitInitialFreq / freq.toNat < 65536 := by
      rw [Nat.div_lt_iff_lt_mul pos, pitInitialFreq]
      omega
    have some : 1 ≤ pitInitialFreq / freq.toNat := by
      rw [Nat.le_div_iff_mul_le pos, pitInitialFreq]
      omega
    have kept : (pitDivisor freq).toNat = pitInitialFreq / freq.toNat :=
      stored.trans (Nat.mod_eq_of_lt small)
    have nonzero : pitDivisor freq ≠ 0 := by
      intro zero
      rw [zero] at kept
      exact absurd kept (by have : (0 : BitVec 16).toNat = 0 := rfl; omega)
    rw [if_neg nonzero, kept]

variable {s k : Interrupts} {calls : List Registration} {timer : Nat} {freq : BitVec 16}

theorem pitWrites_elsewhere (divisor : BitVec 16) : ∀ w ∈ pitWrites divisor,
    w.1 ∉ [masterPicCmd, masterPicData, slavePicCmd, slavePicData] := by
  intro w hw
  have command : pitCommand ∉ [masterPicCmd, masterPicData, slavePicCmd, slavePicData] := by decide
  have data : pitData0 ∉ [masterPicCmd, masterPicData, slavePicCmd, slavePicData] := by decide
  simp only [pitWrites, List.mem_cons, List.not_mem_nil, or_false] at hw
  rcases hw with rfl | rfl | rfl
  · exact command
  · exact data
  · exact data

/-- `pit_init` registers its handler and then writes to its own ports. -/
theorem pitInit_eq_ok {active : Bool} : pitInit active s timer freq = .ok k ↔
    active = false ∧ freq ≠ 0 ∧ ∃ s₁, interruptsRegisterHandler s 0x20 timer = .ok s₁ ∧
      k = s₁.writes (pitWrites (pitDivisor freq)) := by
  unfold pitInit
  rw [assert_bind_eq_ok, bind_eq_ok]
  constructor
  · rintro ⟨off, s₁, ran, rest⟩
    rw [assert_bind_eq_ok] at rest
    exact ⟨off, rest.1, s₁, ran, (Except.ok.inj rest.2).symm⟩
  · rintro ⟨off, nonzero, s₁, ran, rfl⟩
    refine ⟨off, s₁, ran, ?_⟩
    rw [assert_bind_eq_ok]
    exact ⟨nonzero, rfl⟩

/-- On a machine with any lines open already and a channel in any state,
`pit_init` returns if interrupts are off and the frequency is not 0. It opens
line 0 and no other, and the timer then ticks at the frequency if and only if
that is at least 19 Hz. -/
theorem pitInit_ticks_iff (w : Wired s calls) (nonnull : timer ≠ 0) (active : Bool) (freq : BitVec 16)
    (c : PitChannel) :
    ((∃ k, pitInit active s timer freq = .ok k) ↔ active = false ∧ freq ≠ 0) ∧
      ∀ k, pitInit active s timer freq = .ok k →
        (∀ i < 16, masked k i = false ↔ masked s i = false ∨ i = 0) ∧
        ∃ n, (c.writes (pitWrites (pitDivisor freq))).period = some n ∧
          (TicksAt freq.toNat n ↔ 19 ≤ freq.toNat) := by
  obtain ⟨s₁, ran, w₁⟩ := w.register ⟨0x20, timer⟩ nonnull
  refine ⟨?_, ?_⟩
  · constructor
    · rintro ⟨k, h⟩
      obtain ⟨off, nonzero, -⟩ := pitInit_eq_ok.mp h
      exact ⟨off, nonzero⟩
    · rintro ⟨off, nonzero⟩
      exact ⟨_, pitInit_eq_ok.mpr ⟨off, nonzero, s₁, ran, rfl⟩⟩
  · intro k h
    obtain ⟨-, nonzero, s₂, ran₂, rfl⟩ := pitInit_eq_ok.mp h
    obtain rfl : s₁ = s₂ := Except.ok.inj (ran.symm.trans ran₂)
    refine ⟨fun i hi => ?_, period_pitWrites c nonzero⟩
    have data : ∀ port, port = masterPicData ∨ port = slavePicData →
        (s₁.writes (pitWrites (pitDivisor freq))).ports port = s₁.ports port := by
      intro port hport
      apply ports_writes_other
      intro w' hw' same
      apply pitWrites_elsewhere _ w' hw'
      rw [same]
      rcases hport with rfl | rfl <;> decide
    have masks : masked (s₁.writes (pitWrites (pitDivisor freq))) i = masked s₁ i := by
      rw [masked, masked, data _ (Or.inl rfl), data _ (Or.inr rfl)]
    have vector : (0x20 : BitVec 8).toNat = 32 + i ↔ i = 0 := by
      have timerLine : (0x20 : BitVec 8).toNat = 32 := rfl
      omega
    rw [masks, w₁.mask i hi, registered_concat, w.mask i hi]
    exact or_congr Iff.rfl vector

/-- 100 Hz, as `kernel_main` asks for, on a channel that is halfway through a count. -/
theorem pitInit_ticks_hundred :
    ∃ k n, pitInit false (interruptsInit ⟨fun _ => 0, fun _ => 0⟩ interruptsAtReset) 0x1000 100 = .ok k ∧
      (PitChannel.writes ⟨3, 2, true, some 7, none⟩ (pitWrites (pitDivisor 100))).period = some n ∧
      TicksAt 100 n := by
  obtain ⟨returns, rate⟩ := pitInit_ticks_iff (wired_init ⟨fun _ => 0, fun _ => 0⟩ interruptsAtReset)
    (show 0x1000 ≠ 0 by decide) false 100 ⟨3, 2, true, some 7, none⟩
  obtain ⟨k, h⟩ := returns.mpr ⟨rfl, by decide⟩
  obtain ⟨-, n, period, ticks⟩ := rate k h
  exact ⟨k, n, h, period, ticks.mpr (by decide)⟩

/-! ### The kernel's interrupts -/

variable {call : Nat → Interrupts → Interrupts} {b : Board}

/-- Writes to other drivers' ports are steps of the board. -/
theorem Board.Run.elsewhere {ws : PortWrites} (run : Board.Run call b)
    (other : ∀ w ∈ ws, w.1 ∉ [masterPicCmd, masterPicData, slavePicCmd, slavePicData]) :
    Board.Run call { b with kernel := b.kernel.writes ws, pics := b.pics.writes ws } := by
  induction ws generalizing b with
  | nil => exact run
  | cons w ws ih =>
    exact ih (run.step (.elsewhere w.2 (other w List.mem_cons_self)))
      (fun w hw => other w (List.mem_cons_of_mem _ hw))

/-- `pit_init` between handlers is a run of the board. -/
theorem Board.Run.pitInit (run : Board.Run call b) (idle : b.current = none) (nonnull : timer ≠ 0)
    {active : Bool} (returns : WaddleOS.pitInit active b.kernel timer freq = .ok k) :
    ∃ q, Board.Run call { b with kernel := k, pics := q, calls := b.calls ++ [⟨0x20, timer⟩] } := by
  obtain ⟨-, -, s₁, ran, rfl⟩ := pitInit_eq_ok.mp returns
  exact ⟨_, (run.step (.register ⟨0x20, timer⟩ idle nonnull ran)).elsewhere
    (pitWrites_elsewhere (pitDivisor freq))⟩

/-- While the timer is the only line with a handler, as the kernel leaves it, no
other line is ever served. What interrupts the kernel is a tick, and then the
handler returns, or a request that the master lost, and then it does not. -/
theorem timer_alone (calm : Calm call) (run : Board.Run call b)
    (only : ∀ line < 16, Registered b.calls (32 + line) → line = 0) :
    (∀ line < 16, line ≠ 0 → b.served line = 0) ∧
      ∀ v, b.current = some v →
        (v = ⟨32, true⟩ ∧ ∃ k, interruptHandler call b.kernel (BitVec.ofNat 64 v.vector) = .ok k) ∨
        (v = ⟨39, false⟩ ∧
          ¬ ∃ k, interruptHandler call b.kernel (BitVec.ofNat 64 v.vector) = .ok k) := by
  have g := run.good calm
  refine ⟨fun line hline other => ?_, fun v current => ?_⟩
  · by_contra some
    exact other (only line hline (g.answered line hline some))
  · have returns := g.returns_iff calm current
    have serving := g.serving
    rw [current] at serving
    obtain ⟨lo, hi⟩ := serving.bounds
    have low : v.vector < 40 := by
      by_contra high
      have cascade := g.cascaded v current (by omega)
      exact absurd (only 2 (by decide) cascade) (by decide)
    cases serving with
    | master i line device =>
      have known := g.known _ current rfl
      obtain rfl := only i (by omega) known
      exact Or.inl ⟨rfl, returns.mpr (Or.inl rfl)⟩
    | slave j line =>
      dsimp only at low
      omega
    | lostMaster =>
      refine Or.inr ⟨rfl, fun h => ?_⟩
      rcases returns.mp h with genuine | reg
      · cases genuine
      · exact absurd (only 7 (by decide) reg) (by decide)
    | lostSlave => exact absurd low (by decide)

/-- The kernel once `pit_init(100)` and `sti` are done, at its first tick. -/
theorem timer_alone_ticking : ∃ b, Board.Run noHandlers b ∧ b.current = some ⟨32, true⟩ ∧
    ∀ line < 16, line ≠ 0 → b.served line = 0 := by
  have start : Board.Run noHandlers (.start ⟨fun _ => 0, fun _ => 0⟩ interruptsAtReset picsMidway) :=
    .start _ _ _ fun _ => rfl
  obtain ⟨s₁, ran, -⟩ := (wired_init ⟨fun _ => 0, fun _ => 0⟩ interruptsAtReset).register
    ⟨0x20, 0x1000⟩ (by decide)
  have returns : pitInit false (interruptsInit ⟨fun _ => 0, fun _ => 0⟩ interruptsAtReset) 0x1000 100 =
      .ok (s₁.writes (pitWrites (pitDivisor 100))) :=
    pitInit_eq_ok.mpr ⟨rfl, by decide, s₁, ran, rfl⟩
  obtain ⟨q, run⟩ := start.pitInit rfl (by decide) returns
  have requested := (run.step (.switch true rfl)).step (.request 0 (by decide))
  have pending : (q.request 0).pending 0 = true :=
    (pending_request (by decide) (by decide)).trans (Bool.or_true _)
  have timerOnly : ∀ v, Registered [⟨0x20, 0x1000⟩] v → v = 32 := by
    rintro v ⟨reg, hreg, vector⟩
    rw [List.mem_singleton.mp hreg] at vector
    exact vector.symm
  have only : ∀ line < 16, Registered [⟨0x20, 0x1000⟩] (32 + line) → line = 0 := by
    intro line _ reg
    have := timerOnly _ reg
    omega
  obtain ⟨q', answer⟩ := (requested.good noHandlers_calm).answers rfl
    ⟨by decide, by decide, pending, ⟨⟨0x20, 0x1000⟩, List.mem_singleton_self _, rfl⟩,
      fun h => absurd h (by decide)⟩
    (fun l ready => by rw [only l ready.bound ready.registered])
  have ticking := requested.step (.accept rfl rfl answer)
  exact ⟨_, ticking, rfl, (timer_alone noHandlers_calm ticking only).1⟩

end WaddleOS
