import WaddleOS.Drivers.Delivery

/-!
# The two 8259 controllers behind `kernel/drivers/pic.c`

A chip takes its initialisation words in order, the first on its command port
and the rest on its data port. After the last of them its data port is the mask
register. The driver is given here by the writes it makes, so that the same
writes run on the chips and on the ports of `Interrupts`.
-/

namespace WaddleOS

/-- Which initialisation word a chip waits for. -/
inductive IcwStage where
  | ready | icw2 | icw3 | icw4
  deriving DecidableEq, Repr

structure Chip where
  stage : IcwStage
  icw1 : BitVec 8
  icw2 : BitVec 8
  icw3 : BitVec 8
  icw4 : BitVec 8
  /-- latched requests -/
  irr : BitVec 8
  imr : BitVec 8
  /-- in service -/
  isr : BitVec 8
  deriving DecidableEq, Repr

/-- The command port. Of the operation commands the driver uses the one that
ends the service of the line with the highest priority, which is the lowest. -/
def Chip.command (c : Chip) (v : BitVec 8) : Chip :=
  if v.getLsbD 4 then { c with stage := .icw2, icw1 := v, icw4 := 0, irr := 0, imr := 0, isr := 0 }
  else if v = 0x20 then { c with isr := c.isr &&& (c.isr - 1) }
  else c

/-- The data port. -/
def Chip.data (c : Chip) (v : BitVec 8) : Chip :=
  let last : IcwStage := if c.icw1.getLsbD 0 then .icw4 else .ready
  match c.stage with
  | .ready => { c with imr := v }
  | .icw2 => { c with icw2 := v, stage := if c.icw1.getLsbD 1 then last else .icw3 }
  | .icw3 => { c with icw3 := v, stage := last }
  | .icw4 => { c with icw4 := v, stage := .ready }

/-- The vector of line 0; the chip ignores the low three bits it was given. -/
def Chip.base (c : Chip) : BitVec 8 := c.icw2 &&& 0xF8

structure Pics where
  master : Chip
  slave : Chip
  deriving DecidableEq, Repr

def Pics.outb (p : Pics) (port : Nat) (val : BitVec 8) : Pics :=
  if port = masterPicCmd then { p with master := p.master.command val }
  else if port = masterPicData then { p with master := p.master.data val }
  else if port = slavePicCmd then { p with slave := p.slave.command val }
  else if port = slavePicData then { p with slave := p.slave.data val }
  else p

/-- What the data ports read. -/
def Pics.inb (p : Pics) (port : Nat) : BitVec 8 :=
  if port = masterPicData then p.master.imr else if port = slavePicData then p.slave.imr else 0xFF

/-- Writes to ports, in order. -/
abbrev PortWrites := List (Nat × BitVec 8)

def Interrupts.writes (s : Interrupts) (ws : PortWrites) : Interrupts :=
  ws.foldl (fun s w => WaddleOS.outb s w.1 w.2) s

def Pics.writes (p : Pics) (ws : PortWrites) : Pics := ws.foldl (fun p w => p.outb w.1 w.2) p

/-! ### The driver by its writes -/

/-- `io_wait()` -/
def wait : Nat × BitVec 8 := (0x80, 0)

def picDisableWrites : PortWrites := [(masterPicData, 0xFF), wait, (slavePicData, 0xFF), wait]

def picEnableWrites : PortWrites := [(masterPicData, 0x00), wait, (slavePicData, 0x00), wait]

def picInitWrites (offset1 : BitVec 8) : PortWrites :=
  [(masterPicCmd, 0x10 ||| 0x01), wait, (slavePicCmd, 0x10 ||| 0x01), wait,
    (masterPicData, offset1), wait, (slavePicData, offset1 + 0x08), wait,
    (masterPicData, 1 <<< 2), wait, (slavePicData, 2), wait,
    (masterPicData, 0x01), wait, (slavePicData, 0x01), wait] ++ picDisableWrites

def picEnable (s : Interrupts) : Interrupts :=
  outbWait (outbWait s masterPicData 0x00) slavePicData 0x00

def picSetMask (s : Interrupts) (vector : BitVec 8) : Except Fault Interrupts := do
  assert (picInBounds s vector)
  let vector := vector - s.masterPicOffset
  let (port, vector) :=
    if vector.toNat ≥ 8 then (slavePicData, vector - 8) else (masterPicData, vector)
  assert (vector.toNat < 8)
  let value := inb s port ||| (1#8 <<< vector.toNat)
  return outbWait (ioWait s) port value

/-- `pic_get_mask` -/
def picGetMask (s : Interrupts) (slave : BitVec 8) : BitVec 8 × Interrupts :=
  (inb s (if slave ≠ 0 then slavePicData else masterPicData), ioWait s)

/-- The calls of the driver once it is initialised. -/
inductive PicCall where
  | eoi (vector : BitVec 8)
  | clearMask (vector : BitVec 8)
  | setMask (vector : BitVec 8)
  | getMask (slave : BitVec 8)
  | enable
  | disable
  deriving DecidableEq, Repr

def PicCall.run (s : Interrupts) : PicCall → Except Fault Interrupts
  | .eoi v => picEoi s v
  | .clearMask v => picClearMask s v
  | .setMask v => picSetMask s v
  | .getMask slave => .ok (picGetMask s slave).2
  | .enable => .ok (picEnable s)
  | .disable => .ok (picDisable s)

/-- The port and the bit that the mask calls work out. -/
def maskPlace (s : Interrupts) (vector : BitVec 8) : Nat × Nat :=
  let vector := vector - s.masterPicOffset
  if vector.toNat ≥ 8 then (slavePicData, (vector - 8).toNat) else (masterPicData, vector.toNat)

/-- What a call writes, when its reads are answered by `inb`. -/
def PicCall.writes (s : Interrupts) (inb : Nat → BitVec 8) : PicCall → PortWrites
  | .eoi v => (if v.toNat ≥ s.slavePicOffset.toNat then [(slavePicCmd, 0x20)] else []) ++
      [(masterPicCmd, 0x20)]
  | .clearMask v =>
    let (port, bit) := maskPlace s v
    [wait, (port, inb port &&& ~~~(1#8 <<< bit)), wait]
  | .setMask v =>
    let (port, bit) := maskPlace s v
    [wait, (port, inb port ||| (1#8 <<< bit)), wait]
  | .getMask _ => [wait]
  | .enable => picEnableWrites
  | .disable => picDisableWrites

theorem picInit_writes (s : Interrupts) (offset1 : BitVec 8) : picInit s offset1 =
    { s with masterPicOffset := offset1, slavePicOffset := offset1 + 0x08 }.writes
      (picInitWrites offset1) := rfl

/-- A call that passes its assertions makes its writes. -/
theorem run_writes {s s' : Interrupts} {call : PicCall} (h : call.run s = .ok s') :
    s' = s.writes (call.writes s (inb s)) := by
  cases call with
  | eoi v =>
    simp only [PicCall.run, picEoi, assert_bind_eq_ok] at h
    rw [← Except.ok.inj h.2, PicCall.writes]
    split <;> rfl
  | clearMask v =>
    simp only [PicCall.run, picClearMask, assert_bind_eq_ok] at h
    rw [← Except.ok.inj h.2.2, PicCall.writes, maskPlace]
    split <;> rfl
  | setMask v =>
    simp only [PicCall.run, picSetMask, assert_bind_eq_ok] at h
    rw [← Except.ok.inj h.2.2, PicCall.writes, maskPlace]
    split <;> rfl
  | getMask slave => exact (Except.ok.inj h).symm
  | enable => exact (Except.ok.inj h).symm
  | disable => exact (Except.ok.inj h).symm

/-! ### Initialisation -/

/-- Whatever the chips were doing, they end programmed, masked and idle. -/
theorem picInit_programs (p : Pics) (offset1 : BitVec 8) :
    let q := p.writes (picInitWrites offset1)
    q.master = ⟨.ready, 0x11, offset1, 0x04, 0x01, 0, 0xFF, 0⟩ ∧
      q.slave = ⟨.ready, 0x11, offset1 + 0x08, 0x02, 0x01, 0, 0xFF, 0⟩ := by
  simp [Pics.writes, picInitWrites, picDisableWrites, wait, Pics.outb, Chip.command, Chip.data,
    masterPicCmd, masterPicData, slavePicCmd, slavePicData]

theorem base_eq_iff (offset : BitVec 8) : offset &&& 0xF8 = offset ↔ offset.toNat % 8 = 0 := by
  revert offset
  decide

/-- `pic_init` takes both chips from any state, even from the middle of an
initialisation, to ready, masked and idle. The vectors that they raise are the
ones that the driver checks for exactly if the offset is a multiple of 8. -/
theorem picInit_from_any_state (s : Interrupts) (p : Pics) (offset1 : BitVec 8) :
    let t := picInit s offset1
    let q := p.writes (picInitWrites offset1)
    (∀ c, c = q.master ∨ c = q.slave →
      c.stage = .ready ∧ c.icw4 = 0x01 ∧ c.irr = 0 ∧ c.imr = 0xFF ∧ c.isr = 0) ∧
    ((∀ line : BitVec 8, q.master.base + line = t.masterPicOffset + line ∧
        q.slave.base + line = t.slavePicOffset + line) ↔ offset1.toNat % 8 = 0) := by
  intro t q
  obtain ⟨master, slave⟩ := picInit_programs p offset1
  have offsets : t.masterPicOffset = offset1 ∧ t.slavePicOffset = offset1 + 0x08 := ⟨rfl, rfl⟩
  refine ⟨?_, ?_⟩
  · rintro c (rfl | rfl)
    · exact master ▸ ⟨rfl, rfl, rfl, rfl, rfl⟩
    · exact slave ▸ ⟨rfl, rfl, rfl, rfl, rfl⟩
  · have bases : q.master.base = offset1 &&& 0xF8 ∧ q.slave.base = (offset1 + 0x08) &&& 0xF8 :=
      ⟨congrArg Chip.base master, congrArg Chip.base slave⟩
    rw [bases.1, bases.2, offsets.1, offsets.2, ← base_eq_iff]
    constructor
    · intro all
      simpa using (all 0).1
    · intro eq line
      have eq' : (offset1 + 0x08) &&& 0xF8 = offset1 + 0x08 := by
        rw [base_eq_iff] at eq ⊢
        rw [BitVec.toNat_add]
        have := offset1.isLt
        have eight : (0x08 : BitVec 8).toNat = 8 := rfl
        omega
      rw [eq, eq']
      exact ⟨rfl, rfl⟩

/-! ### Afterwards -/

/-- The chips are ready, and their masks are what the driver wrote last. -/
structure Tracks (s : Interrupts) (p : Pics) : Prop where
  masterReady : p.master.stage = .ready
  slaveReady : p.slave.stage = .ready
  masterMask : p.master.imr = s.ports masterPicData
  slaveMask : p.slave.imr = s.ports slavePicData

/-- A write that is not the start of an initialisation. -/
def Operational (w : Nat × BitVec 8) : Prop :=
  w.1 = masterPicCmd ∨ w.1 = slavePicCmd → w.2 = 0x20

variable {s s' : Interrupts} {p p' : Pics}

/-- What keeps a chip's vectors. -/
def Pics.SameVectors (p p' : Pics) : Prop :=
  p'.master.icw2 = p.master.icw2 ∧ p'.slave.icw2 = p.slave.icw2

theorem command_eoi (c : Chip) : c.command 0x20 = { c with isr := c.isr &&& (c.isr - 1) } := by
  simp [Chip.command]

theorem data_ready {c : Chip} {v : BitVec 8} (ready : c.stage = .ready) :
    c.data v = { c with imr := v } := by
  simp [Chip.data, ready]

/-- An operational write ends a service or sets a mask. -/
theorem outb_cases {w : Nat × BitVec 8} (ready : p.master.stage = .ready ∧ p.slave.stage = .ready)
    (op : Operational w) :
    (w.1 = masterPicCmd ∧ p.outb w.1 w.2 =
      { p with master := { p.master with isr := p.master.isr &&& (p.master.isr - 1) } }) ∨
    (w.1 = masterPicData ∧ p.outb w.1 w.2 = { p with master := { p.master with imr := w.2 } }) ∨
    (w.1 = slavePicCmd ∧ p.outb w.1 w.2 =
      { p with slave := { p.slave with isr := p.slave.isr &&& (p.slave.isr - 1) } }) ∨
    (w.1 = slavePicData ∧ p.outb w.1 w.2 = { p with slave := { p.slave with imr := w.2 } }) ∨
    (w.1 ≠ masterPicData ∧ w.1 ≠ slavePicData ∧ p.outb w.1 w.2 = p) := by
  obtain ⟨port, val⟩ := w
  dsimp only
  by_cases h1 : port = masterPicCmd
  · obtain rfl : val = 0x20 := op (Or.inl h1)
    refine Or.inl ⟨h1, ?_⟩
    rw [Pics.outb, if_pos h1, command_eoi]
  by_cases h2 : port = masterPicData
  · refine Or.inr (Or.inl ⟨h2, ?_⟩)
    rw [Pics.outb, if_neg h1, if_pos h2, data_ready ready.1]
  by_cases h3 : port = slavePicCmd
  · obtain rfl : val = 0x20 := op (Or.inr h3)
    refine Or.inr (Or.inr (Or.inl ⟨h3, ?_⟩))
    rw [Pics.outb, if_neg h1, if_neg h2, if_pos h3, command_eoi]
  by_cases h4 : port = slavePicData
  · refine Or.inr (Or.inr (Or.inr (Or.inl ⟨h4, ?_⟩)))
    rw [Pics.outb, if_neg h1, if_neg h2, if_neg h3, if_pos h4, data_ready ready.2]
  · refine Or.inr (Or.inr (Or.inr (Or.inr ⟨h2, h4, ?_⟩)))
    rw [Pics.outb, if_neg h1, if_neg h2, if_neg h3, if_neg h4]

theorem Tracks.outb {w : Nat × BitVec 8} (t : Tracks s p) (op : Operational w) :
    Tracks (WaddleOS.outb s w.1 w.2) (p.outb w.1 w.2) ∧ p.SameVectors (p.outb w.1 w.2) := by
  obtain ⟨mready, sready, mmask, smask⟩ := t
  have other : ∀ port, w.1 ≠ port → (WaddleOS.outb s w.1 w.2).ports port = s.ports port :=
    fun port h => Function.update_of_ne (Ne.symm h) _ _
  have same : (WaddleOS.outb s w.1 w.2).ports w.1 = w.2 := Function.update_self _ _ _
  rcases outb_cases ⟨mready, sready⟩ op with ⟨h, eq⟩ | ⟨h, eq⟩ | ⟨h, eq⟩ | ⟨h, eq⟩ | ⟨h, h', eq⟩
  · rw [eq]
    have m := other masterPicData (by rw [h]; decide)
    have sl := other slavePicData (by rw [h]; decide)
    exact ⟨⟨mready, sready, mmask.trans m.symm, smask.trans sl.symm⟩, rfl, rfl⟩
  · rw [eq]
    have sl := other slavePicData (by rw [h]; decide)
    rw [h] at same
    exact ⟨⟨mready, sready, h ▸ same.symm, smask.trans sl.symm⟩, rfl, rfl⟩
  · rw [eq]
    have m := other masterPicData (by rw [h]; decide)
    have sl := other slavePicData (by rw [h]; decide)
    exact ⟨⟨mready, sready, mmask.trans m.symm, smask.trans sl.symm⟩, rfl, rfl⟩
  · rw [eq]
    have m := other masterPicData (by rw [h]; decide)
    rw [h] at same
    exact ⟨⟨mready, sready, mmask.trans m.symm, h ▸ same.symm⟩, rfl, rfl⟩
  · rw [eq]
    exact ⟨⟨mready, sready, mmask.trans (other _ h).symm, smask.trans (other _ h').symm⟩, rfl, rfl⟩

theorem Tracks.writes {ws : PortWrites} (t : Tracks s p) (op : ∀ w ∈ ws, Operational w) :
    Tracks (s.writes ws) (p.writes ws) ∧ p.SameVectors (p.writes ws) := by
  induction ws generalizing s p with
  | nil => exact ⟨t, rfl, rfl⟩
  | cons w ws ih =>
    obtain ⟨first, same⟩ := t.outb (op w List.mem_cons_self)
    obtain ⟨rest, same'⟩ := ih first (fun w hw => op w (List.mem_cons_of_mem _ hw))
    exact ⟨rest, same'.1.trans same.1, same'.2.trans same.2⟩

theorem operational_other {w : Nat × BitVec 8} (h : w.1 = 0x80 ∨ w.1 = masterPicData ∨ w.1 = slavePicData) :
    Operational w := by
  intro command
  simp only [masterPicCmd, masterPicData, slavePicCmd, slavePicData] at h command
  omega

theorem maskPlace_port (s : Interrupts) (v : BitVec 8) :
    (maskPlace s v).1 = masterPicData ∨ (maskPlace s v).1 = slavePicData := by
  unfold maskPlace
  dsimp only
  split
  · exact Or.inr rfl
  · exact Or.inl rfl

/-- The driver's calls start no initialisation. -/
theorem writes_operational (s : Interrupts) (inb : Nat → BitVec 8) (call : PicCall) :
    ∀ w ∈ call.writes s inb, Operational w := by
  intro w hw
  cases call with
  | eoi v =>
    intro _
    simp only [PicCall.writes, List.mem_append, List.mem_singleton] at hw
    rcases hw with hw | rfl
    · split at hw
      · rw [List.mem_singleton.mp hw]
      · cases hw
    · rfl
  | clearMask v | setMask v =>
    simp only [PicCall.writes, List.mem_cons, List.not_mem_nil, or_false] at hw
    apply operational_other
    rcases hw with rfl | rfl | rfl
    · exact Or.inl rfl
    · exact Or.inr (maskPlace_port s v)
    · exact Or.inl rfl
  | getMask slave =>
    rw [List.mem_singleton.mp hw]
    exact operational_other (Or.inl rfl)
  | enable | disable =>
    apply operational_other
    simp only [PicCall.writes, picEnableWrites, picDisableWrites, List.mem_cons, List.not_mem_nil,
      or_false] at hw
    rcases hw with rfl | rfl | rfl | rfl <;> simp [wait]

theorem Tracks.inb (t : Tracks s p) {port : Nat} (h : port = masterPicData ∨ port = slavePicData) :
    p.inb port = WaddleOS.inb s port := by
  rcases h with rfl | rfl
  · exact t.masterMask
  · exact t.slaveMask

/-- The chips answer a call's reads as the ports do. -/
theorem Tracks.same_writes (t : Tracks s p) (call : PicCall) :
    call.writes s p.inb = call.writes s (WaddleOS.inb s) := by
  cases call with
  | clearMask v | setMask v => simp only [PicCall.writes, t.inb (maskPlace_port s v)]
  | eoi | getMask | enable | disable => rfl

/-- The driver's calls on the ports and on the chips side by side. -/
def picRun (s : Interrupts) (p : Pics) : List PicCall → Except Fault (Interrupts × Pics)
  | [] => .ok (s, p)
  | call :: calls => do
    let s' ← call.run s
    picRun s' (p.writes (call.writes s p.inb)) calls

theorem Tracks.run (t : Tracks s p) {call : PicCall} (h : call.run s = .ok s') :
    Tracks s' (p.writes (call.writes s p.inb)) ∧
      p.SameVectors (p.writes (call.writes s p.inb)) := by
  rw [run_writes h, t.same_writes call]
  exact t.writes (writes_operational s _ call)

theorem tracks_init (s : Interrupts) (p : Pics) (offset1 : BitVec 8) :
    Tracks (picInit s offset1) (p.writes (picInitWrites offset1)) := by
  obtain ⟨master, slave⟩ := picInit_programs p offset1
  obtain ⟨mmask, smask⟩ := picInit_masks (s := s) offset1
  exact ⟨congrArg Chip.stage master, congrArg Chip.stage slave,
    (congrArg Chip.imr master).trans mmask.symm, (congrArg Chip.imr slave).trans smask.symm⟩

theorem Tracks.picRun {calls : List PicCall} (t : Tracks s p)
    (h : WaddleOS.picRun s p calls = .ok (s', p')) : Tracks s' p' ∧ p.SameVectors p' := by
  induction calls generalizing s p with
  | nil =>
    obtain ⟨rfl, rfl⟩ := Prod.mk.inj (Except.ok.inj h)
    exact ⟨t, rfl, rfl⟩
  | cons call calls ih =>
    obtain ⟨s₁, ran, rest⟩ := bind_eq_ok.mp h
    obtain ⟨next, same⟩ := t.run ran
    obtain ⟨last, same'⟩ := ih next rest
    exact ⟨last, same'.1.trans same.1, same'.2.trans same.2⟩

/-- After `pic_init` no sequence of driver calls takes a chip back into an
initialisation or changes its vectors, and the data ports always read the masks
that were written last. -/
theorem pics_track (s : Interrupts) (p : Pics) (offset1 : BitVec 8) (calls : List PicCall)
    (s' : Interrupts) (p' : Pics)
    (run : picRun (picInit s offset1) (p.writes (picInitWrites offset1)) calls = .ok (s', p')) :
    Tracks s' p' ∧ p'.master.base = offset1 &&& 0xF8 ∧ p'.slave.base = (offset1 + 0x08) &&& 0xF8 := by
  obtain ⟨master, slave⟩ := picInit_programs p offset1
  obtain ⟨last, same⟩ := (tracks_init s p offset1).picRun run
  refine ⟨last, ?_, ?_⟩
  · rw [Chip.base, same.1, congrArg Chip.icw2 master]
  · rw [Chip.base, same.2, congrArg Chip.icw2 slave]

/-- Chips that wait for their second word, as after a reset in the middle of `pic_init`. -/
def picsMidway : Pics :=
  ⟨⟨.icw2, 0x11, 0, 0, 0, 0x81, 0x40, 1⟩, ⟨.icw3, 0x11, 0x70, 0, 0, 0, 0, 0⟩⟩

theorem pics_track_timer :
    ∃ s' p', picRun (picInit interruptsAtReset 0x20) (picsMidway.writes (picInitWrites 0x20))
        [.clearMask 0x20, .eoi 0x20, .getMask 0] = .ok (s', p') ∧
      p'.master.imr = 0xFE ∧ p'.master.base = 0x20 := by
  refine ⟨_, _, rfl, ?_, ?_⟩
  · exact (pics_track interruptsAtReset picsMidway 0x20 [.clearMask 0x20, .eoi 0x20, .getMask 0]
      _ _ rfl).1.masterMask
  · exact (pics_track interruptsAtReset picsMidway 0x20 [.clearMask 0x20, .eoi 0x20, .getMask 0]
      _ _ rfl).2.1

end WaddleOS
