import Mathlib.Order.Minimal
import WaddleOS.Drivers.Pic

/-!
# Interrupts from request to return

The lines, the two controllers, the processor and the kernel's C handler as one
machine. A request is latched by its controller until it is accepted. A gate
closes the interrupts until the stub returns, so handlers do not nest. A line
that drops its request too late leaves a controller with nothing to answer,
and it then answers with its line 7.
-/

namespace WaddleOS

/-- The line that a chip would put forward: the first one that is requested,
unless a line before it or it itself is in service. -/
def Chip.next (c : Chip) : Option Nat :=
  match (List.range 8).find? fun i => c.isr.getLsbD i || c.irr.getLsbD i && !c.imr.getLsbD i with
  | some i => if c.isr.getLsbD i then none else some i
  | none => none

def Chip.request (c : Chip) (i : Nat) : Chip := { c with irr := c.irr ||| (1#8 <<< i) }

def Chip.accept (c : Chip) (i : Nat) : Chip :=
  { c with irr := c.irr &&& ~~~(1#8 <<< i), isr := c.isr ||| (1#8 <<< i) }

/-- The master, whose line 2 is the output of the slave. -/
def Pics.cascaded (p : Pics) : Chip :=
  { p.master with
    irr := if p.slave.next.isSome then p.master.irr ||| (1#8 <<< 2)
      else p.master.irr &&& ~~~(1#8 <<< 2) }

/-- The answer to the processor: a vector, and the line goes into service. -/
def Pics.acknowledge (p : Pics) : Option (Nat × Pics) :=
  match p.cascaded.next with
  | none => none
  | some i =>
    if i = 2 then
      match p.slave.next with
      | none => none
      | some j => some (p.slave.base.toNat + j, ⟨p.master.accept 2, p.slave.accept j⟩)
    else some (p.master.base.toNat + i, { p with master := p.master.accept i })

def Pics.request (p : Pics) (line : Nat) : Pics :=
  if line < 8 then { p with master := p.master.request line }
  else { p with slave := p.slave.request (line - 8) }

def Pics.pending (p : Pics) (line : Nat) : Bool :=
  if line < 8 then p.master.irr.getLsbD line else p.slave.irr.getLsbD (line - 8)

/-- An interrupt that is being handled. One that is not genuine stands for no request. -/
structure Service where
  vector : Nat
  genuine : Bool
  deriving DecidableEq, Repr

/-- `raised` and `served` count the requests latched and the handlers
finished, by line. -/
structure Board where
  kernel : Interrupts
  pics : Pics
  calls : List Registration
  enabled : Bool
  current : Option Service
  raised : Nat → Nat
  served : Nat → Nat

/-- The writes of `interrupts_register_handler`. -/
def registerWrites (s : Interrupts) (inb : Nat → BitVec 8) (vector : BitVec 8) : PortWrites :=
  if 32 ≤ vector.toNat ∧ vector.toNat < 48 then (PicCall.clearMask vector).writes s inb else []

def bump (count : Nat → Nat) (line : Nat) : Nat → Nat :=
  Function.update count line (count line + 1)

inductive Board.Step (call : Nat → Interrupts → Interrupts) : Board → Board → Prop
  | request {b : Board} (line : Nat) (device : line < 16 ∧ line ≠ 2) :
      Step call b { b with
        pics := b.pics.request line
        raised := if b.pics.pending line then b.raised else bump b.raised line }
  | register {b : Board} {k : Interrupts} (reg : Registration) (idle : b.current = none)
      (nonnull : reg.handler ≠ 0)
      (returns : interruptsRegisterHandler b.kernel reg.vector reg.handler = .ok k) :
      Step call b { b with
        kernel := k
        pics := b.pics.writes (registerWrites b.kernel b.pics.inb reg.vector)
        calls := b.calls ++ [reg] }
  /-- `sti` or `cli` -/
  | switch {b : Board} (on : Bool) (idle : b.current = none) : Step call b { b with enabled := on }
  | accept {b : Board} {vector : Nat} {q : Pics} (on : b.enabled = true) (idle : b.current = none)
      (answer : b.pics.acknowledge = some (vector, q)) :
      Step call b { b with pics := q, enabled := false, current := some ⟨vector, true⟩ }
  | spuriousMaster {b : Board} (on : b.enabled = true) (idle : b.current = none) :
      Step call b { b with
        enabled := false
        current := some ⟨b.pics.master.base.toNat + 7, false⟩ }
  | spuriousSlave {b : Board} (on : b.enabled = true) (idle : b.current = none)
      (cascade : b.pics.master.imr.getLsbD 2 = false) :
      Step call b { b with
        pics := { b.pics with master := b.pics.master.accept 2 }
        enabled := false
        current := some ⟨b.pics.slave.base.toNat + 7, false⟩ }
  /-- another driver at its own ports -/
  | elsewhere {b : Board} {port : Nat} (val : BitVec 8)
      (other : port ∉ [masterPicCmd, masterPicData, slavePicCmd, slavePicData]) :
      Step call b { b with kernel := outb b.kernel port val, pics := b.pics.outb port val }
  /-- the handler, the end of interrupt and `iretq` -/
  | finish {b : Board} {k : Interrupts} {s : Service} (serving : b.current = some s)
      (returns : interruptHandler call b.kernel (BitVec.ofNat 64 s.vector) = .ok k) :
      Step call b { b with
        kernel := k
        pics := b.pics.writes ((PicCall.eoi (BitVec.ofNat 8 s.vector)).writes b.kernel b.pics.inb)
        enabled := true
        current := none
        served := if s.genuine then bump b.served (s.vector - 32) else b.served }

/-- The board when `interrupts_init` returns, whatever it was before. -/
def Board.start (stubs : Stubs) (s : Interrupts) (p : Pics) : Board where
  kernel := interruptsInit stubs s
  pics := p.writes (picInitWrites 0x20)
  calls := []
  enabled := false
  current := none
  raised := fun _ => 0
  served := fun _ => 0

/-- The handler table is a static array that starts as nulls. -/
inductive Board.Run (call : Nat → Interrupts → Interrupts) : Board → Prop
  | start (stubs : Stubs) (s : Interrupts) (p : Pics) (nulls : ∀ i, s.isrHandlers i = 0) :
      Run call (.start stubs s p)
  | step {b b' : Board} : Run call b → Board.Step call b b' → Run call b'

/-- A handler leaves the controllers and the handler table alone. -/
structure Calm (call : Nat → Interrupts → Interrupts) : Prop where
  master : ∀ h s, (call h s).masterPicOffset = s.masterPicOffset
  slave : ∀ h s, (call h s).slavePicOffset = s.slavePicOffset
  handlers : ∀ h s, (call h s).isrHandlers = s.isrHandlers
  masterMask : ∀ h s, (call h s).ports masterPicData = s.ports masterPicData
  slaveMask : ∀ h s, (call h s).ports slavePicData = s.ports slavePicData

/-! ### The chips -/

/-- A line puts itself forward when it is requested, or blocks when it is in service. -/
def Chip.speaks (c : Chip) (i : Nat) : Bool :=
  c.isr.getLsbD i || c.irr.getLsbD i && !c.imr.getLsbD i

theorem next_eq_some {c : Chip} {i : Nat} : c.next = some i ↔
    i < 8 ∧ c.isr.getLsbD i = false ∧ c.speaks i = true ∧ ∀ j < i, c.speaks j = false := by
  have found : c.next = match (List.range 8).find? c.speaks with
      | some i => if c.isr.getLsbD i then none else some i
      | none => none := rfl
  rw [found]
  cases h : (List.range 8).find? c.speaks with
  | none =>
    rw [List.find?_range_eq_none] at h
    constructor
    · intro h'
      cases h'
    · rintro ⟨hi, -, speaks, -⟩
      have silent := h i hi
      simp [speaks] at silent
  | some k =>
    obtain ⟨speaks, hk, before⟩ := List.find?_range_eq_some.mp h
    rw [List.mem_range] at hk
    dsimp only
    constructor
    · intro h'
      by_cases busy : c.isr.getLsbD k = true
      · rw [if_pos busy] at h'
        cases h'
      · rw [if_neg busy, Option.some.injEq] at h'
        subst h'
        exact ⟨hk, by simpa using busy, speaks, fun j hj => by simpa using before j hj⟩
    · rintro ⟨hi, idle, speaks', before'⟩
      have same : k = i := by
        rcases Nat.lt_trichotomy k i with lt | eq | gt
        · rw [before' k lt] at speaks
          cases speaks
        · exact eq
        · have silent := before i gt
          simp [speaks'] at silent
      subst same
      simp [idle]

theorem getLsbD_set (m : BitVec 8) {i j : Nat} (hi : i < 8) :
    (m ||| (1#8 <<< j)).getLsbD i = (m.getLsbD i || decide (i = j)) := by
  have cleared := getLsbD_clear (~~~m) (j := j) hi
  have both : m ||| (1#8 <<< j) = ~~~(~~~m &&& ~~~(1#8 <<< j)) := by simp [BitVec.not_and]
  rw [both, BitVec.getLsbD_not, cleared, BitVec.getLsbD_not]
  by_cases h : i = j
  · subst h
    simp [hi]
  · simp [hi, h]

theorem single_bit_cleared : ∀ i < 8, (1#8 <<< i) &&& ((1#8 <<< i) - 1) = 0#8 := by decide

/-- What a chip in its two roles keeps while no line is in service. -/
theorem speaks_idle {c : Chip} (idle : c.isr = 0) (i : Nat) :
    c.speaks i = (c.irr.getLsbD i && !c.imr.getLsbD i) := by
  simp [Chip.speaks, idle]

variable {p q : Pics}

theorem cascaded_irr {i : Nat} (hi : i < 8) : p.cascaded.irr.getLsbD i =
    if i = 2 then p.slave.next.isSome else p.master.irr.getLsbD i := by
  have drawn : p.cascaded.irr = if p.slave.next.isSome = true then p.master.irr ||| (1#8 <<< 2)
      else p.master.irr &&& ~~~(1#8 <<< 2) := rfl
  rw [drawn]
  by_cases h : p.slave.next.isSome = true
  · rw [if_pos h, getLsbD_set _ hi, h]
    by_cases h2 : i = 2 <;> simp [h2]
  · have off : p.slave.next.isSome = false := by simpa using h
    rw [if_neg h, getLsbD_clear _ hi, off]
    by_cases h2 : i = 2 <;> simp [h2]

/-- The lines that an idle pair of chips can put forward. -/
theorem acknowledge_cases {vector : Nat} (idle : p.master.isr = 0 ∧ p.slave.isr = 0)
    (bases : p.master.base = 0x20 ∧ p.slave.base = 0x28)
    (answer : p.acknowledge = some (vector, q)) :
    (∃ i < 8, i ≠ 2 ∧ vector = 32 + i ∧ p.master.irr.getLsbD i = true ∧
        p.master.imr.getLsbD i = false ∧ q = { p with master := p.master.accept i }) ∨
      (∃ j < 8, vector = 40 + j ∧ p.master.imr.getLsbD 2 = false ∧ p.slave.irr.getLsbD j = true ∧
        p.slave.imr.getLsbD j = false ∧ q = ⟨p.master.accept 2, p.slave.accept j⟩) := by
  unfold Pics.acknowledge at answer
  cases forward : p.cascaded.next with
  | none =>
    rw [forward] at answer
    cases answer
  | some i =>
    rw [forward] at answer
    obtain ⟨hi, -, speaks, -⟩ := next_eq_some.mp forward
    have idle' : p.cascaded.isr = 0 := idle.1
    rw [speaks_idle idle', Bool.and_eq_true, Bool.not_eq_true', cascaded_irr hi] at speaks
    by_cases h2 : i = 2
    · subst h2
      dsimp only at answer
      rw [if_pos rfl] at answer
      cases slaves : p.slave.next with
      | none =>
        rw [slaves] at answer
        cases answer
      | some j =>
        rw [slaves] at answer
        obtain ⟨hj, -, speaks', -⟩ := next_eq_some.mp slaves
        rw [speaks_idle idle.2, Bool.and_eq_true, Bool.not_eq_true'] at speaks'
        obtain ⟨rfl, rfl⟩ := Prod.mk.inj (Option.some.inj answer)
        exact Or.inr ⟨j, hj, by rw [bases.2]; rfl, speaks.2, speaks'.1, speaks'.2, rfl⟩
    · dsimp only at answer
      rw [if_neg h2] at answer
      rw [if_neg h2] at speaks
      obtain ⟨rfl, rfl⟩ := Prod.mk.inj (Option.some.inj answer)
      exact Or.inl ⟨i, hi, h2, by rw [bases.1]; rfl, speaks.1, speaks.2, rfl⟩

theorem pending_request {line : Nat} {l : Nat} (hline : line < 16) (hl : l < 16) :
    (p.request line).pending l = (p.pending l || decide (l = line)) := by
  unfold Pics.request Pics.pending
  by_cases h : line < 8
  · rw [if_pos h]
    by_cases h' : l < 8
    · simp only [if_pos h']
      exact getLsbD_set _ h'
    · have ne : l ≠ line := by omega
      simp [h', ne]
  · rw [if_neg h]
    by_cases h' : l < 8
    · have ne : l ≠ line := by omega
      simp [h', ne]
    · simp only [if_neg h']
      have same : l - 8 = line - 8 ↔ l = line := by omega
      have set := getLsbD_set p.slave.irr (i := l - 8) (j := line - 8) (by omega)
      simp only [same] at set
      exact set

theorem pending_accept_master {i l : Nat} (hi : i < 8) :
    ({ p with master := p.master.accept i } : Pics).pending l = (p.pending l && decide (l ≠ i)) := by
  unfold Pics.pending
  by_cases h : l < 8
  · simp only [if_pos h]
    exact getLsbD_clear _ h
  · have ne : l ≠ i := by omega
    simp [h, ne]

theorem pending_accept_slave {j l : Nat} (hj : j < 8) (hl : l < 16) (h2 : l ≠ 2) :
    (Pics.mk (p.master.accept 2) (p.slave.accept j)).pending l =
      (p.pending l && decide (l ≠ 8 + j)) := by
  unfold Pics.pending
  by_cases h : l < 8
  · simp only [if_pos h]
    have ne : l ≠ 8 + j := by omega
    exact (getLsbD_clear p.master.irr h).trans (by simp [h2, ne])
  · simp only [if_neg h]
    have same : l - 8 ≠ j ↔ l ≠ 8 + j := by omega
    have cleared := getLsbD_clear p.slave.irr (i := l - 8) (j := j) (by omega)
    simp only [same] at cleared
    exact cleared

/-- The requests and the services of both chips. -/
structure Pics.SameLines (p q : Pics) : Prop where
  masterIrr : q.master.irr = p.master.irr
  slaveIrr : q.slave.irr = p.slave.irr
  masterIsr : q.master.isr = p.master.isr
  slaveIsr : q.slave.isr = p.slave.isr

theorem Pics.SameLines.pending (same : p.SameLines q) (l : Nat) : q.pending l = p.pending l := by
  unfold Pics.pending
  rw [same.masterIrr, same.slaveIrr]

variable {s k : Interrupts} {calls : List Registration} {call : Nat → Interrupts → Interrupts}

theorem Tracks.sameLines {ws : PortWrites} (t : Tracks s p)
    (masks : ∀ w ∈ ws, w.1 ≠ masterPicCmd ∧ w.1 ≠ slavePicCmd) : p.SameLines (p.writes ws) := by
  induction ws generalizing s p with
  | nil => exact ⟨rfl, rfl, rfl, rfl⟩
  | cons w ws ih =>
    obtain ⟨notMaster, notSlave⟩ := masks w List.mem_cons_self
    have op : Operational w := fun command => absurd command (not_or.mpr ⟨notMaster, notSlave⟩)
    have rest := ih (t.outb op).1 (fun w hw => masks w (List.mem_cons_of_mem _ hw))
    have first : p.SameLines (p.outb w.1 w.2) := by
      rcases outb_cases ⟨t.masterReady, t.slaveReady⟩ op with
        ⟨h, -⟩ | ⟨-, eq⟩ | ⟨h, -⟩ | ⟨-, eq⟩ | ⟨-, -, eq⟩
      · exact absurd h notMaster
      · exact eq ▸ ⟨rfl, rfl, rfl, rfl⟩
      · exact absurd h notSlave
      · exact eq ▸ ⟨rfl, rfl, rfl, rfl⟩
      · exact eq.symm ▸ ⟨rfl, rfl, rfl, rfl⟩
    exact ⟨rest.masterIrr.trans first.masterIrr, rest.slaveIrr.trans first.slaveIrr,
      rest.masterIsr.trans first.masterIsr, rest.slaveIsr.trans first.slaveIsr⟩

/-! ### The kernel's calls -/

theorem writes_frame (s : Interrupts) (ws : PortWrites) :
    (s.writes ws).masterPicOffset = s.masterPicOffset ∧
      (s.writes ws).slavePicOffset = s.slavePicOffset ∧
      (s.writes ws).isrHandlers = s.isrHandlers := by
  induction ws generalizing s with
  | nil => exact ⟨rfl, rfl, rfl⟩
  | cons w ws ih => exact ih (outb s w.1 w.2)

theorem ports_writes_other {ws : PortWrites} {port : Nat} (other : ∀ w ∈ ws, w.1 ≠ port) :
    (s.writes ws).ports port = s.ports port := by
  induction ws generalizing s with
  | nil => rfl
  | cons w ws ih =>
    have rest := ih (s := outb s w.1 w.2) (fun w hw => other w (List.mem_cons_of_mem _ hw))
    exact rest.trans (Function.update_of_ne (other w List.mem_cons_self).symm _ _)

theorem eoi_commands {inb : Nat → BitVec 8} {v : BitVec 8} :
    ∀ w ∈ (PicCall.eoi v).writes s inb, w.1 = masterPicCmd ∨ w.1 = slavePicCmd := by
  intro w hw
  rw [PicCall.writes, List.mem_append, List.mem_singleton] at hw
  rcases hw with hw | rfl
  · split at hw
    · exact Or.inr (by rw [List.mem_singleton.mp hw])
    · cases hw
  · exact Or.inl rfl

theorem eoi_effect {inb : Nat → BitVec 8} {v : Nat} (hv : v < 48) (offset : s.slavePicOffset = 0x28) :
    p.writes ((PicCall.eoi (BitVec.ofNat 8 v)).writes s inb) =
      ⟨{ p.master with isr := p.master.isr &&& (p.master.isr - 1) },
        if 40 ≤ v then { p.slave with isr := p.slave.isr &&& (p.slave.isr - 1) } else p.slave⟩ := by
  have number : (BitVec.ofNat 8 v).toNat = v := by
    rw [BitVec.toNat_ofNat, Nat.mod_eq_of_lt (by omega)]
  have bound : (0x28 : BitVec 8).toNat = 40 := rfl
  rw [PicCall.writes, number, offset, bound]
  by_cases h : 40 ≤ v
  · rw [if_pos h, if_pos h]
    exact congrArg₂ Pics.mk (command_eoi p.master) (command_eoi p.slave)
  · rw [if_neg h, if_neg h]
    exact congrArg₂ Pics.mk (command_eoi p.master) rfl

theorem vector_byte {v : Nat} : (BitVec.ofNat 64 v).setWidth 8 = BitVec.ofNat 8 v := by
  apply BitVec.eq_of_toNat_eq
  rw [BitVec.toNat_setWidth, BitVec.toNat_ofNat, BitVec.toNat_ofNat]
  omega

/-- A handler that returns has ended its service and changed nothing else. -/
theorem handler_finishes (calm : Calm call) (w : Wired s calls) (t : Tracks s p) {v : Nat}
    (returns : interruptHandler call s (BitVec.ofNat 64 v) = .ok k) :
    let q := p.writes ((PicCall.eoi (BitVec.ofNat 8 v)).writes s p.inb)
    Wired k calls ∧ k.isrHandlers = s.isrHandlers ∧ Tracks k q ∧ p.SameVectors q := by
  intro q
  simp only [interruptHandler, assert_bind_eq_ok, vector_byte] at returns
  obtain ⟨-, -, returns⟩ := returns
  generalize hs₁ : call (s.isrHandlers ((BitVec.ofNat 64 v).toNat - 32)) s = s₁ at returns
  have master : s₁.masterPicOffset = s.masterPicOffset := hs₁ ▸ calm.master _ _
  have slave : s₁.slavePicOffset = s.slavePicOffset := hs₁ ▸ calm.slave _ _
  have handlers : s₁.isrHandlers = s.isrHandlers := hs₁ ▸ calm.handlers _ _
  have masterMask : s₁.ports masterPicData = s.ports masterPicData := hs₁ ▸ calm.masterMask _ _
  have slaveMask : s₁.ports slavePicData = s.ports slavePicData := hs₁ ▸ calm.slaveMask _ _
  have t₁ : Tracks s₁ p := ⟨t.masterReady, t.slaveReady, t.masterMask.trans masterMask.symm,
    t.slaveMask.trans slaveMask.symm⟩
  have same : (PicCall.eoi (BitVec.ofNat 8 v)).writes s₁ p.inb =
      (PicCall.eoi (BitVec.ofNat 8 v)).writes s p.inb := by
    rw [PicCall.writes, PicCall.writes, slave]
  have ran : PicCall.run s₁ (.eoi (BitVec.ofNat 8 v)) = .ok k := returns
  obtain ⟨t', vectors⟩ := t₁.run ran
  rw [same] at t' vectors
  have made := run_writes ran
  obtain ⟨fm, fs, fh⟩ := writes_frame s₁ ((PicCall.eoi (BitVec.ofNat 8 v)).writes s₁ (inb s₁))
  rw [← made] at fm fs fh
  have port : ∀ port, port ≠ masterPicCmd → port ≠ slavePicCmd → k.ports port = s₁.ports port := by
    intro port notMaster notSlave
    rw [made]
    apply ports_writes_other
    intro w hw eq
    rcases eoi_commands w hw with h | h
    · exact notMaster (eq ▸ h)
    · exact notSlave (eq ▸ h)
  have masks : ∀ i, masked k i = masked s i := by
    intro i
    rw [masked, masked, port masterPicData (by decide) (by decide),
      port slavePicData (by decide) (by decide), masterMask, slaveMask]
  refine ⟨⟨fm.trans (master.trans w.master), fs.trans (slave.trans w.slave), ?_, ?_⟩,
    fh.trans handlers, t', vectors⟩
  · intro i hi
    rw [masks]
    exact w.mask i hi
  · intro i hi reg
    rw [fh, handlers]
    exact w.handler i hi reg

/-- Only the registered entries of the handler table are set. -/
def Filled (s : Interrupts) (calls : List Registration) : Prop :=
  ∀ i < 16, s.isrHandlers i ≠ 0 → Registered calls (32 + i)

theorem maskWrites_ports {inb : Nat → BitVec 8} {v : BitVec 8} :
    ∀ w ∈ (PicCall.clearMask v).writes s inb, w.1 ≠ masterPicCmd ∧ w.1 ≠ slavePicCmd := by
  intro w hw
  simp only [PicCall.writes, List.mem_cons, List.not_mem_nil, or_false] at hw
  rcases hw with rfl | rfl | rfl
  · exact ⟨by decide, by decide⟩
  · rcases maskPlace_port s v with h | h <;> rw [h] <;> exact ⟨by decide, by decide⟩
  · exact ⟨by decide, by decide⟩

theorem register_keeps (w : Wired s calls) (filled : Filled s calls) (t : Tracks s p)
    {reg : Registration} (nonnull : reg.handler ≠ 0)
    (returns : interruptsRegisterHandler s reg.vector reg.handler = .ok k) :
    let q := p.writes (registerWrites s p.inb reg.vector)
    Wired k (calls ++ [reg]) ∧ Filled k (calls ++ [reg]) ∧ Tracks k q ∧ p.SameVectors q ∧
      p.SameLines q := by
  intro q
  obtain ⟨k', ran, w'⟩ := w.register reg nonnull
  obtain rfl : k = k' := Except.ok.inj (returns.symm.trans ran)
  refine ⟨w', ?_⟩
  unfold interruptsRegisterHandler at returns
  by_cases exc : reg.vector.toNat < 32
  · rw [if_pos exc] at returns
    obtain rfl := Except.ok.inj returns
    have none : registerWrites s p.inb reg.vector = [] := if_neg (by omega)
    have unchanged : q = p := congrArg p.writes none
    rw [unchanged]
    refine ⟨fun i hi set => ?_, ⟨t.1, t.2, t.3, t.4⟩, ⟨rfl, rfl⟩, ⟨rfl, rfl, rfl, rfl⟩⟩
    exact registered_concat.mpr (Or.inl (filled i hi set))
  rw [if_neg exc] at returns
  by_cases isr : reg.vector.toNat < 48
  · rw [if_pos isr] at returns
    have made : registerWrites s p.inb reg.vector = (PicCall.clearMask reg.vector).writes s p.inb :=
      if_pos ⟨by omega, isr⟩
    have q_eq : q = p.writes ((PicCall.clearMask reg.vector).writes s p.inb) :=
      congrArg p.writes made
    rw [q_eq]
    generalize table : Function.update s.isrHandlers (reg.vector.toNat - 32) reg.handler = handlers
      at returns
    have t₀ : Tracks { s with isrHandlers := handlers } p := ⟨t.1, t.2, t.3, t.4⟩
    have ran₀ : PicCall.run { s with isrHandlers := handlers } (.clearMask reg.vector) = .ok k :=
      returns
    obtain ⟨tk, vectors⟩ := t₀.run ran₀
    obtain ⟨k₂, ran₂, -, -, same, -⟩ := picClearMask_spec (s := { s with isrHandlers := handlers })
      (v := reg.vector) w.master w.slave (by omega) isr
    obtain rfl : k = k₂ := Except.ok.inj (returns.symm.trans ran₂)
    refine ⟨fun i hi filled' => ?_, tk, vectors, t.sameLines maskWrites_ports⟩
    by_cases line : i = reg.vector.toNat - 32
    · exact registered_concat.mpr (Or.inr (by omega))
    · have old : k.isrHandlers i = s.isrHandlers i := by
        rw [same, ← table]
        exact Function.update_of_ne line _ _
      exact registered_concat.mpr (Or.inl (filled i hi (old ▸ filled')))
  · rw [if_neg isr] at returns
    obtain rfl := Except.ok.inj returns
    have none : registerWrites s p.inb reg.vector = [] := if_neg (by omega)
    have unchanged : q = p := congrArg p.writes none
    rw [unchanged]
    refine ⟨fun i hi set => ?_, t, ⟨rfl, rfl⟩, ⟨rfl, rfl, rfl, rfl⟩⟩
    exact registered_concat.mpr (Or.inl (filled i hi set))

/-! ### The board -/

/-- The controllers serve exactly what the processor handles. -/
inductive Serving : Pics → Option Service → Prop
  | idle {p : Pics} (master : p.master.isr = 0) (slave : p.slave.isr = 0) : Serving p none
  | master {p : Pics} (i : Nat) (line : i < 8) (device : i ≠ 2) (inService : p.master.isr = 1#8 <<< i)
      (slave : p.slave.isr = 0) : Serving p (some ⟨32 + i, true⟩)
  | slave {p : Pics} (j : Nat) (line : j < 8) (cascade : p.master.isr = 1#8 <<< 2)
      (inService : p.slave.isr = 1#8 <<< j) : Serving p (some ⟨40 + j, true⟩)
  | lostMaster {p : Pics} (master : p.master.isr = 0) (slave : p.slave.isr = 0) :
      Serving p (some ⟨39, false⟩)
  | lostSlave {p : Pics} (cascade : p.master.isr = 1#8 <<< 2) (slave : p.slave.isr = 0) :
      Serving p (some ⟨47, false⟩)

theorem Serving.sameIsr {c : Option Service} (h : Serving p c)
    (same : q.master.isr = p.master.isr) (same' : q.slave.isr = p.slave.isr) : Serving q c := by
  cases h with
  | idle master slave => exact .idle (same.trans master) (same'.trans slave)
  | master i line device inService slave =>
    exact .master i line device (same.trans inService) (same'.trans slave)
  | slave j line cascade inService =>
    exact .slave j line (same.trans cascade) (same'.trans inService)
  | lostMaster master slave => exact .lostMaster (same.trans master) (same'.trans slave)
  | lostSlave cascade slave => exact .lostSlave (same.trans cascade) (same'.trans slave)

theorem Serving.isIdle (h : Serving p none) : p.master.isr = 0 ∧ p.slave.isr = 0 := by
  cases h with
  | idle master slave => exact ⟨master, slave⟩

theorem Serving.bounds {v : Service} (h : Serving p (some v)) : 32 ≤ v.vector ∧ v.vector < 48 := by
  cases h with
  | master i line => exact ⟨by dsimp only; omega, by dsimp only; omega⟩
  | slave j line => exact ⟨by dsimp only; omega, by dsimp only; omega⟩
  | lostMaster | lostSlave => exact ⟨by decide, by decide⟩

/-- The end of interrupt clears whatever bits the interrupt had set. -/
theorem Serving.eoi {v : Service} (h : Serving p (some v)) (offset : s.slavePicOffset = 0x28)
    {inb : Nat → BitVec 8} :
    Serving (p.writes ((PicCall.eoi (BitVec.ofNat 8 v.vector)).writes s inb)) none := by
  rw [eoi_effect h.bounds.2 offset]
  have zero : (0#8 &&& (0#8 - 1)) = 0#8 := rfl
  cases h with
  | master i line device inService slave =>
    have below : ¬ 40 ≤ 32 + i := by omega
    rw [if_neg below, inService]
    exact .idle (single_bit_cleared i line) slave
  | slave j line cascade inService =>
    have above : 40 ≤ 40 + j := by omega
    rw [if_pos above, cascade, inService]
    exact .idle rfl (single_bit_cleared j line)
  | lostMaster master slave =>
    have below : ¬ 40 ≤ 39 := by decide
    rw [if_neg below, master]
    exact .idle zero slave
  | lostSlave cascade slave =>
    have above : 40 ≤ 47 := by decide
    rw [if_pos above, cascade, slave]
    exact .idle rfl zero

/-- The line's own handler is running. -/
def handling (current : Option Service) (line : Nat) : Bool :=
  decide (current = some ⟨32 + line, true⟩)

structure Board.Good (b : Board) : Prop where
  wired : Wired b.kernel b.calls
  filled : Filled b.kernel b.calls
  tracks : Tracks b.kernel b.pics
  masterBase : b.pics.master.base = 0x20
  slaveBase : b.pics.slave.base = 0x28
  serving : Serving b.pics b.current
  known : ∀ v, b.current = some v → v.genuine = true → Registered b.calls v.vector
  cascaded : ∀ v, b.current = some v → 40 ≤ v.vector → Registered b.calls 34
  answered : ∀ line < 16, b.served line ≠ 0 → Registered b.calls (32 + line)
  /-- no request is lost and none is served twice -/
  counts : ∀ line < 16, line ≠ 2 → b.raised line =
    b.served line + (b.pics.pending line).toNat + (handling b.current line).toNat

variable {b b' : Board}

theorem Pics.SameVectors.bases (same : p.SameVectors q) :
    q.master.base = p.master.base ∧ q.slave.base = p.slave.base := by
  unfold Chip.base
  rw [same.1, same.2]
  exact ⟨rfl, rfl⟩

theorem Board.Good.masterOpen (g : b.Good) {i : Nat} (hi : i < 8) :
    b.pics.master.imr.getLsbD i = false ↔ Registered b.calls (32 + i) := by
  rw [← g.wired.mask i (by omega), masked, if_pos hi, g.tracks.masterMask]

theorem Board.Good.slaveOpen (g : b.Good) {j : Nat} (hj : j < 8) :
    b.pics.slave.imr.getLsbD j = false ↔ Registered b.calls (32 + (8 + j)) := by
  have below : ¬ 8 + j < 8 := by omega
  rw [← g.wired.mask (8 + j) (by omega), masked, if_neg below, g.tracks.slaveMask,
    Nat.add_sub_cancel_left]

theorem Board.Good.request (g : b.Good) {line : Nat} (device : line < 16 ∧ line ≠ 2) :
    Board.Good { b with
      pics := b.pics.request line
      raised := if b.pics.pending line then b.raised else bump b.raised line } := by
  have shape : ∀ q, q = b.pics.request line → Tracks b.kernel q ∧ q.master.base = b.pics.master.base ∧
      q.slave.base = b.pics.slave.base ∧ q.master.isr = b.pics.master.isr ∧
      q.slave.isr = b.pics.slave.isr := by
    rintro q rfl
    have t := g.tracks
    unfold Pics.request
    split <;> exact ⟨⟨t.1, t.2, t.3, t.4⟩, rfl, rfl, rfl, rfl⟩
  obtain ⟨t, mbase, sbase, misr, sisr⟩ := shape _ rfl
  refine ⟨g.wired, g.filled, t, mbase.trans g.masterBase, sbase.trans g.slaveBase,
    g.serving.sameIsr misr sisr, g.known, g.cascaded, g.answered, fun l hl h2 => ?_⟩
  have old := g.counts l hl h2
  dsimp only
  rw [pending_request device.1 hl]
  by_cases same : l = line
  · subst same
    by_cases already : b.pics.pending l = true
    · rw [if_pos already]
      simpa [already] using old
    · have bumped : bump b.raised l l = b.raised l + 1 := Function.update_self _ _ _
      rw [if_neg already, bumped, old]
      simp [already]
      omega
  · have kept : (if b.pics.pending line then b.raised else bump b.raised line) l = b.raised l := by
      split
      · rfl
      · exact Function.update_of_ne same _ _
    rw [kept, old]
    simp [same]

theorem Board.Good.register (g : b.Good) {reg : Registration} (idle : b.current = none)
    (nonnull : reg.handler ≠ 0)
    (returns : interruptsRegisterHandler b.kernel reg.vector reg.handler = .ok k) :
    Board.Good { b with
      kernel := k
      pics := b.pics.writes (registerWrites b.kernel b.pics.inb reg.vector)
      calls := b.calls ++ [reg] } := by
  obtain ⟨wired, filled, tracks, vectors, lines⟩ :=
    register_keeps g.wired g.filled g.tracks nonnull returns
  obtain ⟨mbase, sbase⟩ := vectors.bases
  refine ⟨wired, filled, tracks, mbase.trans g.masterBase, sbase.trans g.slaveBase,
    g.serving.sameIsr lines.masterIsr lines.slaveIsr, fun v h => ?_, fun v h => ?_,
    fun l hl some => registered_concat.mpr (Or.inl (g.answered l hl some)), fun l hl h2 => ?_⟩
  · cases idle.symm.trans h
  · cases idle.symm.trans h
  · dsimp only
    rw [lines.pending]
    exact g.counts l hl h2

/-- What `accept` puts in service was pending, and its handler is registered. -/
theorem Board.Good.accept (g : b.Good) {vector : Nat} (idle : b.current = none)
    (answer : b.pics.acknowledge = some (vector, q)) :
    Board.Good { b with pics := q, enabled := false, current := some ⟨vector, true⟩ } := by
  have isrs := (idle ▸ g.serving).isIdle
  have t := g.tracks
  have before : ∀ l, (handling b.current l).toNat = 0 := by
    intro l
    rw [idle]
    rfl
  have during : ∀ line l, handling (some ⟨32 + line, true⟩) l = decide (l = line) := by
    intro line l
    simp only [handling, Option.some.injEq, Service.mk.injEq, and_true]
    congr 1
    rw [eq_iff_iff]
    omega
  have moved : ∀ line < 16, b.pics.pending line = true →
      (∀ l < 16, l ≠ 2 → q.pending l = (b.pics.pending l && decide (l ≠ line))) →
      ∀ l < 16, l ≠ 2 → b.raised l =
        b.served l + (q.pending l).toNat + (handling (some ⟨32 + line, true⟩) l).toNat := by
    intro line hline pending after l hl h2
    rw [g.counts l hl h2, before, after l hl h2, during]
    by_cases same : l = line
    · subst same
      simp [pending]
    · simp [same]
  rcases acknowledge_cases isrs ⟨g.masterBase, g.slaveBase⟩ answer with
    ⟨i, hi, h2, rfl, irr, imr, rfl⟩ | ⟨j, hj, rfl, opened, irr, imr, rfl⟩
  · have known : Registered b.calls (32 + i) := by
      rw [← g.wired.mask i (by omega), masked, if_pos hi, ← t.masterMask]
      exact imr
    have inService : b.pics.master.isr ||| (1#8 <<< i) = 1#8 <<< i := by simp [isrs.1]
    refine ⟨g.wired, g.filled, ⟨t.1, t.2, t.3, t.4⟩, g.masterBase, g.slaveBase,
      .master i hi h2 inService isrs.2, fun v h _ => ?_, fun v h above => ?_, g.answered, ?_⟩
    · cases h
      exact known
    · cases h
      have below : ¬ 40 ≤ 32 + i := by omega
      exact absurd above below
    · apply moved i (by omega)
      · rw [Pics.pending, if_pos hi]
        exact irr
      · exact fun l _ _ => pending_accept_master hi
  · have known : Registered b.calls (40 + j) := by
      have mask := g.wired.mask (8 + j) (by omega)
      have below : ¬ 8 + j < 8 := by omega
      rw [masked, if_neg below, ← t.slaveMask, Nat.add_sub_cancel_left,
        show 32 + (8 + j) = 40 + j by omega] at mask
      exact mask.mp imr
    have cascade : b.pics.master.isr ||| (1#8 <<< 2) = 1#8 <<< 2 := by
      rw [isrs.1]
      rfl
    have inService : b.pics.slave.isr ||| (1#8 <<< j) = 1#8 <<< j := by simp [isrs.2]
    refine ⟨g.wired, g.filled, ⟨t.1, t.2, t.3, t.4⟩, g.masterBase, g.slaveBase,
      .slave j hj cascade inService, fun v h _ => ?_, fun _ _ _ => ?_, g.answered, ?_⟩
    · cases h
      exact known
    · exact (g.masterOpen (show 2 < 8 by decide)).mp opened
    · have place : 40 + j = 32 + (8 + j) := by omega
      rw [place]
      apply moved (8 + j) (by omega)
      · have below : ¬ 8 + j < 8 := by omega
        rw [Pics.pending, if_neg below, Nat.add_sub_cancel_left]
        exact irr
      · exact fun l hl h2 => pending_accept_slave hj hl h2

/-- A lost request moves no count. -/
theorem Board.Good.spurious (g : b.Good) (idle : b.current = none) {vector : Nat} {on : Bool}
    (serving : Serving q (some ⟨vector, false⟩)) (tracks : Tracks b.kernel q)
    (bases : q.master.base = b.pics.master.base ∧ q.slave.base = b.pics.slave.base)
    (pending : ∀ l < 16, l ≠ 2 → q.pending l = b.pics.pending l)
    (cascaded : 40 ≤ vector → Registered b.calls 34) :
    Board.Good { b with pics := q, enabled := on, current := some ⟨vector, false⟩ } := by
  refine ⟨g.wired, g.filled, tracks, bases.1.trans g.masterBase, bases.2.trans g.slaveBase, serving,
    fun v h genuine => ?_, fun v h above => ?_, g.answered, fun l hl h2 => ?_⟩
  · cases h
    cases genuine
  · cases h
    exact cascaded above
  · have before : handling b.current l = false := by
      rw [idle]
      rfl
    have after : handling (some ⟨vector, false⟩) l = false := by simp [handling]
    rw [g.counts l hl h2, before, after, pending l hl h2]

theorem Board.Good.elsewhere (g : b.Good) {port : Nat} (val : BitVec 8)
    (other : port ∉ [masterPicCmd, masterPicData, slavePicCmd, slavePicData]) :
    Board.Good { b with kernel := outb b.kernel port val, pics := b.pics.outb port val } := by
  simp only [List.mem_cons, List.not_mem_nil, or_false, not_or] at other
  obtain ⟨h1, h2, h3, h4⟩ := other
  have chips : b.pics.outb port val = b.pics := by
    rw [Pics.outb, if_neg h1, if_neg h2, if_neg h3, if_neg h4]
  have ports : ∀ p, p ≠ port → (outb b.kernel port val).ports p = b.kernel.ports p :=
    fun p h => Function.update_of_ne h _ _
  have masks : ∀ i, masked (outb b.kernel port val) i = masked b.kernel i := by
    intro i
    rw [masked, masked, ports _ (Ne.symm h2), ports _ (Ne.symm h4)]
  have t := g.tracks
  have wired : Wired (outb b.kernel port val) b.calls :=
    ⟨g.wired.master, g.wired.slave, fun i hi => by rw [masks]; exact g.wired.mask i hi,
      g.wired.handler⟩
  have tracks : Tracks (outb b.kernel port val) b.pics :=
    ⟨t.1, t.2, t.3.trans (ports _ (Ne.symm h2)).symm, t.4.trans (ports _ (Ne.symm h4)).symm⟩
  rw [chips]
  exact ⟨wired, g.filled, tracks, g.masterBase, g.slaveBase, g.serving, g.known, g.cascaded,
    g.answered, g.counts⟩

theorem Board.Good.finish (g : b.Good) (calm : Calm call) {v : Service} (current : b.current = some v)
    (returns : interruptHandler call b.kernel (BitVec.ofNat 64 v.vector) = .ok k) :
    Board.Good { b with
      kernel := k
      pics := b.pics.writes ((PicCall.eoi (BitVec.ofNat 8 v.vector)).writes b.kernel b.pics.inb)
      enabled := true
      current := none
      served := if v.genuine then bump b.served (v.vector - 32) else b.served } := by
  obtain ⟨wired, handlers, tracks, vectors⟩ := handler_finishes calm g.wired g.tracks returns
  obtain ⟨mbase, sbase⟩ := vectors.bases
  have serving := g.serving
  rw [current] at serving
  obtain ⟨lo, hi⟩ := serving.bounds
  have pending : ∀ l, (b.pics.writes ((PicCall.eoi (BitVec.ofNat 8 v.vector)).writes b.kernel
      b.pics.inb)).pending l = b.pics.pending l := by
    intro l
    rw [eoi_effect hi g.wired.slave]
    unfold Pics.pending
    dsimp only
    split
    · rfl
    · split <;> rfl
  refine ⟨wired, fun i hi set => g.filled i hi (handlers ▸ set), tracks, mbase.trans g.masterBase,
    sbase.trans g.slaveBase, serving.eoi g.wired.slave, fun v h => ?_, fun v h => ?_, fun l hl some => ?_,
    fun l hl h2 => ?_⟩
  · cases h
  · cases h
  · obtain ⟨vector, genuine⟩ := v
    cases genuine with
    | false => exact g.answered l hl some
    | true =>
      by_cases same : l = vector - 32
      · have place : 32 + l = vector := by
          dsimp only at lo
          omega
        rw [place]
        exact g.known _ current rfl
      · have kept : bump b.served (vector - 32) l = b.served l := Function.update_of_ne same _ _
        exact g.answered l hl (kept ▸ some)
  have old := g.counts l hl h2
  rw [current] at old
  have after : handling none l = false := rfl
  dsimp only
  rw [pending, after, old]
  obtain ⟨vector, genuine⟩ := v
  cases genuine with
  | false => simp [handling]
  | true =>
    rw [if_pos rfl]
    dsimp only at lo hi ⊢
    by_cases same : l = vector - 32
    · have bumped : bump b.served (vector - 32) l = b.served l + 1 := by
        rw [same]
        exact Function.update_self _ _ _
      have place : vector = 32 + l := by omega
      have was : handling (some ⟨vector, true⟩) l = true := by simp [handling, place]
      rw [bumped, was]
      simp
      omega
    · have bumped : bump b.served (vector - 32) l = b.served l := Function.update_of_ne same _ _
      have place : vector ≠ 32 + l := by omega
      have was : handling (some ⟨vector, true⟩) l = false := by simp [handling, place]
      rw [bumped, was]

theorem idtFill_handlers (s : Interrupts) (vectors : List Nat) (routine : Nat → BitVec 64)
    (flags : BitVec 8) : (idtFill s vectors routine flags).isrHandlers = s.isrHandlers := by
  induction vectors generalizing s with
  | nil => rfl
  | cons v vs ih => exact ih _

theorem Board.Good.start (stubs : Stubs) (s : Interrupts) (p : Pics)
    (nulls : ∀ i, s.isrHandlers i = 0) : (Board.start stubs s p).Good := by
  generalize hs₁ : idtFill s (List.range 32) stubs.exc (0x80 ||| 0x0F) = s₁
  have frame := idtFill_frame (picInit s₁ 0x20) (List.range' 32 16)
    (fun irqNum => stubs.isr (irqNum - 32)) (0x80 ||| 0x0E)
  have kernel : (Board.start stubs s p).kernel = idtFill (picInit s₁ 0x20) (List.range' 32 16)
      (fun irqNum => stubs.isr (irqNum - 32)) (0x80 ||| 0x0E) := by
    rw [← hs₁]
    rfl
  have handlers : (Board.start stubs s p).kernel.isrHandlers = s.isrHandlers := by
    rw [kernel, idtFill_handlers, picInit_writes, (writes_frame _ _).2.2, ← hs₁]
    exact idtFill_handlers s _ _ _
  obtain ⟨master, slave⟩ := picInit_programs p 0x20
  have t := tracks_init s₁ p 0x20
  refine ⟨wired_init stubs s, fun i _ set => ?_,
    ⟨t.1, t.2, t.3.trans ?_, t.4.trans ?_⟩, congrArg Chip.base master, congrArg Chip.base slave,
    .idle (congrArg Chip.isr master) (congrArg Chip.isr slave), fun v h => ?_, fun v h => ?_,
    fun l _ some => absurd rfl some, fun l hl h2 => ?_⟩
  · rw [handlers] at set
    exact absurd (nulls i) set
  · rw [kernel, frame.1]
  · rw [kernel, frame.1]
  · cases h
  · cases h
  · have quiet : (p.writes (picInitWrites 0x20)).pending l = false := by
      unfold Pics.pending
      rw [congrArg Chip.irr master, congrArg Chip.irr slave]
      simp
    have pics : (Board.start stubs s p).pics = p.writes (picInitWrites 0x20) := rfl
    rw [pics, quiet]
    rfl

theorem Board.Good.step (g : b.Good) (calm : Calm call) (h : Board.Step call b b') : b'.Good := by
  cases h with
  | request line device => exact g.request device
  | register reg idle nonnull returns => exact g.register idle nonnull returns
  | switch on idle => exact ⟨g.1, g.2, g.3, g.4, g.5, g.6, g.7, g.8, g.9, g.10⟩
  | elsewhere val other => exact g.elsewhere val other
  | accept on idle answer => exact g.accept idle answer
  | spuriousMaster on idle =>
    obtain ⟨master, slave⟩ := (idle ▸ g.serving).isIdle
    have vector : b.pics.master.base.toNat + 7 = 39 := by rw [g.masterBase]; rfl
    rw [vector]
    exact g.spurious idle (.lostMaster master slave) g.tracks ⟨rfl, rfl⟩ (fun _ _ _ => rfl)
      (fun above => absurd above (by decide))
  | spuriousSlave on idle cascade =>
    obtain ⟨master, slave⟩ := (idle ▸ g.serving).isIdle
    have vector : b.pics.slave.base.toNat + 7 = 47 := by rw [g.slaveBase]; rfl
    have inService : b.pics.master.isr ||| (1#8 <<< 2) = 1#8 <<< 2 := by
      rw [master]
      rfl
    have t := g.tracks
    rw [vector]
    refine g.spurious idle (.lostSlave inService slave) ⟨t.1, t.2, t.3, t.4⟩ ⟨rfl, rfl⟩
      (fun l _ h2 => ?_) (fun _ => (g.masterOpen (by decide)).mp cascade)
    rw [pending_accept_master (by decide)]
    simp [h2]
  | finish serving returns => exact g.finish calm serving returns

theorem Board.Run.good (calm : Calm call) (run : Board.Run call b) : b.Good := by
  induction run with
  | start stubs s p nulls => exact .start stubs s p nulls
  | step _ h ih => exact ih.step calm h

/-- `interrupt_handler` returns if the assertion on the handler table holds. -/
theorem Board.Good.returns_iff (g : b.Good) (calm : Calm call) {v : Service}
    (current : b.current = some v) :
    (∃ k, interruptHandler call b.kernel (BitVec.ofNat 64 v.vector) = .ok k) ↔
      v.genuine = true ∨ Registered b.calls v.vector := by
  have serving := g.serving
  rw [current] at serving
  obtain ⟨lo, hi⟩ := serving.bounds
  have place : 32 + (v.vector - 32) = v.vector := by omega
  have number : (BitVec.ofNat 64 v.vector).toNat = v.vector := by
    rw [BitVec.toNat_ofNat, Nat.mod_eq_of_lt (by omega)]
  have byte : (BitVec.ofNat 8 v.vector).toNat = v.vector := by
    rw [BitVec.toNat_ofNat, Nat.mod_eq_of_lt (by omega)]
  have either : v.genuine = true ∨ Registered b.calls v.vector ↔ Registered b.calls v.vector := by
    constructor
    · rintro (genuine | reg)
      · exact g.known v current genuine
      · exact reg
    · exact Or.inr
  have set : b.kernel.isrHandlers (v.vector - 32) ≠ 0 ↔ Registered b.calls v.vector := by
    have bound : v.vector - 32 < 16 := by omega
    have both : b.kernel.isrHandlers (v.vector - 32) ≠ 0 ↔
        Registered b.calls (32 + (v.vector - 32)) := ⟨g.filled _ bound, g.wired.handler _ bound⟩
    rw [both, place]
  rw [either, ← set]
  simp only [interruptHandler, assert_bind_eq_ok, vector_byte, number]
  constructor
  · rintro ⟨k, -, handler, -⟩
    exact handler
  · intro handler
    simp only [picEoi, assert_bind_eq_ok]
    refine ⟨_, ⟨lo, hi⟩, handler, ⟨?_, ?_⟩, rfl⟩
    · rw [calm.master, g.wired.master, byte]
      exact lo
    · rw [calm.slave, g.wired.slave, byte]
      exact hi

/-- Handlers that do nothing. -/
def noHandlers (_ : Nat) (s : Interrupts) : Interrupts := s

theorem noHandlers_calm : Calm noHandlers :=
  ⟨fun _ _ => rfl, fun _ _ => rfl, fun _ _ => rfl, fun _ _ => rfl, fun _ _ => rfl⟩

/-- The timer gets its handler and ticks, with the chips taken over midway. -/
theorem timer_ticks : ∃ b, Board.Run noHandlers b ∧ b.current = none ∧ b.enabled = true ∧
    b.raised 0 = 1 ∧ b.calls = [⟨32, 0x1000⟩] ∧ b.pics.pending 0 = true := by
  obtain ⟨k, returns, -⟩ := (wired_init ⟨fun _ => 0, fun _ => 0⟩ interruptsAtReset).register
    ⟨32, 0x1000⟩ (by decide)
  have start : Board.Run noHandlers (.start ⟨fun _ => 0, fun _ => 0⟩ interruptsAtReset picsMidway) :=
    .start _ _ _ fun _ => rfl
  have opened := (start.step (.register ⟨32, 0x1000⟩ rfl (by decide) returns)).step (.switch true rfl)
  have ticked := opened.step (.request 0 (by decide))
  have counted := (ticked.good noHandlers_calm).counts 0 (by decide) (by decide)
  have pending : ∀ p : Pics, (p.request 0).pending 0 = true := fun p =>
    (pending_request (by decide) (by decide)).trans (Bool.or_true _)
  refine ⟨_, ticked, rfl, rfl, ?_, rfl, pending _⟩
  rw [counted, pending]
  rfl

/-- The place of a line in the order of priority. The slave's lines come where
the master's line 2 is. -/
def priority (line : Nat) : Nat :=
  if line < 2 then line else if line < 8 then line + 8 else line - 6

/-- The line has a request that the kernel's registrations let through. -/
structure Board.Ready (b : Board) (line : Nat) : Prop where
  bound : line < 16
  device : line ≠ 2
  pending : b.pics.pending line = true
  registered : Registered b.calls (32 + line)
  cascade : 8 ≤ line → Registered b.calls 34

theorem Board.Good.ready_master (g : b.Good) {i : Nat} (hi : i < 8) (h2 : i ≠ 2) :
    b.Ready i ↔ (b.pics.master.irr.getLsbD i && !b.pics.master.imr.getLsbD i) = true := by
  have pending : b.pics.pending i = b.pics.master.irr.getLsbD i := if_pos hi
  rw [Bool.and_eq_true, Bool.not_eq_true', g.masterOpen hi, ← pending]
  constructor
  · exact fun r => ⟨r.pending, r.registered⟩
  · exact fun h => ⟨by omega, h2, h.1, h.2, fun h => absurd h (by omega)⟩

theorem Board.Good.ready_slave (g : b.Good) {j : Nat} (hj : j < 8) : b.Ready (8 + j) ↔
    (b.pics.slave.irr.getLsbD j && !b.pics.slave.imr.getLsbD j) = true ∧
      b.pics.master.imr.getLsbD 2 = false := by
  have below : ¬ 8 + j < 8 := by omega
  have pending : b.pics.pending (8 + j) = b.pics.slave.irr.getLsbD j := by
    rw [Pics.pending, if_neg below, Nat.add_sub_cancel_left]
  rw [Bool.and_eq_true, Bool.not_eq_true', g.slaveOpen hj, g.masterOpen (by omega), ← pending]
  constructor
  · exact fun r => ⟨⟨r.pending, r.registered⟩, r.cascade (by omega)⟩
  · exact fun h => ⟨by omega, by omega, h.1.1, h.1.2, fun _ => h.2⟩

/-- The first ready line is the one that the controllers answer with. -/
theorem Board.Good.answers (g : b.Good) (idle : b.current = none) {line : Nat} (ready : b.Ready line)
    (first : ∀ l, b.Ready l → priority line ≤ priority l) :
    ∃ q, b.pics.acknowledge = some (32 + line, q) := by
  obtain ⟨misr, sisr⟩ := (idle ▸ g.serving).isIdle
  have cisr : b.pics.cascaded.isr = 0 := misr
  have speaks : ∀ i < 8, b.pics.cascaded.speaks i = ((if i = 2 then b.pics.slave.next.isSome
      else b.pics.master.irr.getLsbD i) && !b.pics.master.imr.getLsbD i) := by
    intro i hi
    rw [speaks_idle cisr, cascaded_irr hi]
    rfl
  have spoken : ∀ i < 8, i ≠ 2 → (b.pics.cascaded.speaks i = true ↔ b.Ready i) := by
    intro i hi h2
    rw [speaks i hi, if_neg h2, g.ready_master hi h2]
  have drawn : b.pics.cascaded.speaks 2 = true → ∃ j < 8, b.Ready (8 + j) := by
    intro h
    rw [speaks 2 (by decide), if_pos rfl, Bool.and_eq_true, Bool.not_eq_true',
      Option.isSome_iff_exists] at h
    obtain ⟨⟨j, next⟩, cascade⟩ := h
    obtain ⟨hj, -, slaveSpeaks, -⟩ := next_eq_some.mp next
    rw [speaks_idle sisr] at slaveSpeaks
    exact ⟨j, hj, (g.ready_slave hj).mpr ⟨slaveSpeaks, cascade⟩⟩
  by_cases hline : line < 8
  · have next : b.pics.cascaded.next = some line := by
      rw [next_eq_some]
      refine ⟨hline, by rw [cisr]; simp, (spoken line hline ready.device).mpr ready, fun j hj => ?_⟩
      by_contra loud
      rw [Bool.not_eq_false] at loud
      by_cases h2 : j = 2
      · subst h2
        obtain ⟨m, hm, slaveReady⟩ := drawn loud
        have order := first _ slaveReady
        unfold priority at order
        split_ifs at order <;> omega
      · have order := first j ((spoken j (by omega) h2).mp loud)
        unfold priority at order
        split_ifs at order <;> omega
    refine ⟨{ b.pics with master := b.pics.master.accept line }, ?_⟩
    rw [Pics.acknowledge, next]
    dsimp only
    rw [if_neg ready.device, g.masterBase]
    rfl
  · obtain ⟨j, rfl⟩ : ∃ j, line = 8 + j := ⟨line - 8, by omega⟩
    have hj : j < 8 := by
      have := ready.bound
      omega
    obtain ⟨slaveReady, cascade⟩ := (g.ready_slave hj).mp ready
    have slaveNext : b.pics.slave.next = some j := by
      rw [next_eq_some]
      refine ⟨hj, by rw [sisr]; simp, by rw [speaks_idle sisr]; exact slaveReady, fun m hm => ?_⟩
      by_contra loud
      rw [Bool.not_eq_false, speaks_idle sisr] at loud
      have order := first _ ((g.ready_slave (by omega)).mpr ⟨loud, cascade⟩)
      unfold priority at order
      split_ifs at order <;> omega
    have next : b.pics.cascaded.next = some 2 := by
      rw [next_eq_some]
      refine ⟨by decide, by rw [cisr]; simp, ?_, fun i hi => ?_⟩
      · rw [speaks 2 (by decide), if_pos rfl, slaveNext, cascade]
        rfl
      · by_contra loud
        rw [Bool.not_eq_false] at loud
        have order := first i ((spoken i (by omega) (by omega)).mp loud)
        unfold priority at order
        split_ifs at order <;> omega
    refine ⟨⟨b.pics.master.accept 2, b.pics.slave.accept j⟩, ?_⟩
    have base : b.pics.slave.base.toNat = 40 := by
      rw [g.slaveBase]
      rfl
    have place : 40 + j = 32 + (8 + j) := by omega
    rw [Pics.acknowledge, next]
    dsimp only
    rw [if_pos rfl, slaveNext]
    dsimp only
    rw [base, place]

/-- In every run each request latched for a line has been served once, is still
pending, or is the one being handled. Between handlers no line is in service,
so none is blocked by an interrupt whose end was not signalled. -/
theorem service_exact (calm : Calm call) (run : Board.Run call b) :
    (∀ line < 16, line ≠ 2 → b.raised line =
      b.served line + (b.pics.pending line).toNat + (handling b.current line).toNat) ∧
    (b.current = none → b.pics.master.isr = 0 ∧ b.pics.slave.isr = 0) := by
  have g := run.good calm
  exact ⟨g.counts, fun idle => (idle ▸ g.serving).isIdle⟩

/-- The tick is taken, its handler returns, and nothing is left of it. -/
theorem service_exact_timer : ∃ b, Board.Run noHandlers b ∧ b.raised 0 = 1 ∧ b.served 0 = 1 ∧
    b.pics.pending 0 = false ∧ b.pics.master.isr = 0 := by
  obtain ⟨b, run, idle, on, raised, calls, pending⟩ := timer_ticks
  have before := (service_exact noHandlers_calm run).1 0 (by decide) (by decide)
  rw [raised, pending, idle] at before
  have ready : b.Ready 0 := by
    refine ⟨by decide, by decide, pending, ?_, fun slave => absurd slave (by decide)⟩
    rw [calls]
    exact ⟨_, List.mem_singleton_self _, rfl⟩
  obtain ⟨q, answer⟩ := (run.good noHandlers_calm).answers idle ready fun _ _ => Nat.zero_le _
  have taken := run.step (.accept on idle answer)
  obtain ⟨k, returns⟩ := ((taken.good noHandlers_calm).returns_iff noHandlers_calm rfl).mpr (.inl rfl)
  have done := taken.step (.finish rfl returns)
  obtain ⟨counts, rest⟩ := service_exact noHandlers_calm done
  have after := counts 0 (by decide) (by decide)
  have served : bump b.served 0 0 = 1 := by
    rw [bump, Function.update_self]
    change 1 = b.served 0 + 1 + 0 at before
    omega
  change b.raised 0 = bump b.served 0 0 + _ + 0 at after
  rw [raised, served] at after
  refine ⟨_, done, raised, served, ?_, (rest rfl).1⟩
  rw [← Bool.not_eq_true]
  intro left
  rw [left] at after
  cases after

/-- Between handlers the controllers put a line forward if and only if it is the
first of those that have a request and a handler, where a line of the slave also
needs a handler for the cascade line. -/
theorem offers_iff (calm : Calm call) (run : Board.Run call b) (idle : b.current = none) (line : Nat) :
    (∃ q, b.pics.acknowledge = some (32 + line, q)) ↔
      b.Ready line ∧ ∀ l, b.Ready l → priority line ≤ priority l := by
  have g := run.good calm
  constructor
  · rintro ⟨q, answer⟩
    have ready : b.Ready line := by
      rcases acknowledge_cases (idle ▸ g.serving).isIdle ⟨g.masterBase, g.slaveBase⟩ answer with
        ⟨i, hi, h2, vector, irr, imr, -⟩ | ⟨j, hj, vector, cascade, irr, imr, -⟩
      · obtain rfl : line = i := by omega
        exact (g.ready_master hi h2).mpr (by rw [irr, imr]; rfl)
      · obtain rfl : line = 8 + j := by omega
        exact (g.ready_slave hj).mpr ⟨by rw [irr, imr]; rfl, cascade⟩
    obtain ⟨l, least, minimal⟩ := exists_minimalFor_of_wellFoundedLT b.Ready priority ⟨line, ready⟩
    have first : ∀ m, b.Ready m → priority l ≤ priority m := fun m hm =>
      (Nat.le_total (priority l) (priority m)).elim id (minimal hm)
    obtain ⟨q', answer'⟩ := g.answers idle least first
    rw [answer] at answer'
    have same := (Prod.mk.inj (Option.some.inj answer')).1
    obtain rfl : line = l := by omega
    exact ⟨ready, first⟩
  · rintro ⟨ready, first⟩
    exact g.answers idle ready first

theorem offers_timer : ∃ b, Board.Run noHandlers b ∧ ∃ q, b.pics.acknowledge = some (32, q) := by
  obtain ⟨b, run, idle, -, -, calls, pending⟩ := timer_ticks
  have only : ∀ l, b.Ready l → l = 0 := by
    intro l ready
    obtain ⟨reg, hreg, vector⟩ := ready.registered
    rw [calls, List.mem_singleton] at hreg
    have timer : reg.vector.toNat = 32 := by
      rw [hreg]
      rfl
    omega
  have ready : b.Ready 0 := ⟨by decide, by decide, pending,
    ⟨⟨32, 0x1000⟩, by rw [calls]; exact List.mem_singleton_self _, rfl⟩, fun h => by omega⟩
  exact ⟨b, run, (offers_iff noHandlers_calm run idle 0).mpr
    ⟨ready, fun l hl => by rw [only l hl]⟩⟩

/-- In every run `interrupt_handler` returns for an interrupt if and only if the
request was genuine or the vector has a handler. A request that is dropped too
late halts the kernel unless line 7, or line 15 of the slave, has one. -/
theorem handler_returns_iff (calm : Calm call) (run : Board.Run call b) (v : Service)
    (current : b.current = some v) :
    (∃ k, interruptHandler call b.kernel (BitVec.ofNat 64 v.vector) = .ok k) ↔
      v.genuine = true ∨ Registered b.calls v.vector :=
  (run.good calm).returns_iff calm current

/-- With the timer alone registered, a request that the master loses halts the kernel. -/
theorem handler_returns_lost : ∃ b, Board.Run noHandlers b ∧ b.current = some ⟨39, false⟩ ∧
    ¬ ∃ k, interruptHandler noHandlers b.kernel 39 = .ok k := by
  obtain ⟨b, run, idle, on, -, calls, -⟩ := timer_ticks
  have base : b.pics.master.base.toNat + 7 = 39 := by
    rw [(run.good noHandlers_calm).masterBase]
    rfl
  have lost := run.step (.spuriousMaster on idle)
  rw [base] at lost
  refine ⟨_, lost, rfl, fun returns => ?_⟩
  rcases (handler_returns_iff noHandlers_calm lost ⟨39, false⟩ rfl).mp returns with genuine | reg
  · cases genuine
  · obtain ⟨call, hcall, vector⟩ := reg
    dsimp only at hcall
    rw [calls, List.mem_singleton] at hcall
    rw [hcall] at vector
    exact absurd vector (by decide)

end WaddleOS
