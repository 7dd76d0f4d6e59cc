import WaddleOS.Drivers.Interrupts

/-!
# Which interrupt lines get through

Registering a handler clears the line's own mask bit. A line of the slave
controller also needs line 2 of the master, to which the slave is wired, and
nothing clears that bit but a registration for line 2 itself.
-/

namespace WaddleOS

/-- The mask bit of line `i`, 0 to 7 on the master and 8 to 15 on the slave. -/
def masked (s : Interrupts) (i : Nat) : Bool :=
  if i < 8 then (s.ports masterPicData).getLsbD i else (s.ports slavePicData).getLsbD (i - 8)

/-- The controllers let the vector through to the processor. -/
def Deliverable (s : Interrupts) (v : Nat) : Prop :=
  if v < 40 then (s.ports masterPicData).getLsbD (v - 32) = false
  else (s.ports slavePicData).getLsbD (v - 40) = false ∧
    (s.ports masterPicData).getLsbD 2 = false

/-- Some call registered a handler for the vector. -/
def Registered (calls : List Registration) (v : Nat) : Prop :=
  ∃ call ∈ calls, call.vector.toNat = v

variable {s s' : Interrupts}

theorem deliverable_iff {v : Nat} (hlo : 32 ≤ v) :
    Deliverable s v ↔ masked s (v - 32) = false ∧ (40 ≤ v → masked s 2 = false) := by
  by_cases hv : v < 40
  · have hi : v - 32 < 8 := by omega
    simp [Deliverable, masked, hv, hi, Nat.not_le.mpr hv]
  · have hi : ¬ v - 32 < 8 := by omega
    have hsub : v - 32 - 8 = v - 40 := by omega
    simp [Deliverable, masked, hv, hi, hsub, Nat.le_of_not_lt hv]

@[simp] theorem ports_outbWait_other {port p : Nat} {val : BitVec 8} (hp : p ≠ port)
    (hp' : p ≠ 0x80) : (outbWait s port val).ports p = s.ports p := by
  simp [outbWait, ioWait, outb, hp, hp']

@[simp] theorem ports_outbWait_same {port : Nat} {val : BitVec 8} (hp : port ≠ 0x80) :
    (outbWait s port val).ports port = val := by
  simp [outbWait, ioWait, outb, hp]

theorem getLsbD_clear (m : BitVec 8) {i j : Nat} (hi : i < 8) :
    (m &&& ~~~(1#8 <<< j)).getLsbD i = (m.getLsbD i && decide (i ≠ j)) := by
  simp only [BitVec.getLsbD_and, BitVec.getLsbD_not, BitVec.getLsbD_shiftLeft, BitVec.getLsbD_one,
    hi, decide_true, Bool.true_and]
  by_cases hij : i = j
  · simp [hij]
  · by_cases hlt : i < j
    · simp [hlt, hij]
    · have : i - j ≠ 0 := by omega
      simp [hlt, hij, this]

/-- The controllers and the handler table agree on what was registered. -/
structure Wired (s : Interrupts) (calls : List Registration) : Prop where
  master : s.masterPicOffset = 0x20
  slave : s.slavePicOffset = 0x28
  mask : ∀ i < 16, masked s i = false ↔ Registered calls (32 + i)
  handler : ∀ i < 16, Registered calls (32 + i) → s.isrHandlers i ≠ 0

/-- `pic_clear_mask` clears the mask bit of its vector and no other. -/
theorem picClearMask_spec {v : BitVec 8} (hm : s.masterPicOffset = 0x20)
    (hs : s.slavePicOffset = 0x28) (hlo : 32 ≤ v.toNat) (hhi : v.toNat < 48) :
    ∃ s', picClearMask s v = .ok s' ∧ s'.masterPicOffset = 0x20 ∧ s'.slavePicOffset = 0x28 ∧
      s'.isrHandlers = s.isrHandlers ∧
      ∀ i < 16, masked s' i = (masked s i && decide (32 + i ≠ v.toNat)) := by
  have hbounds : picInBounds s v := by
    constructor
    · rw [hm]; exact hlo
    · rw [hs]; exact hhi
  have hline : (v - 0x20).toNat = v.toNat - 32 := by bv_omega
  simp only [picClearMask, assert_bind_eq_ok, hm, hline]
  by_cases hside : v.toNat - 32 ≥ 8
  · have hline' : (v - 0x20 - 8).toNat = v.toNat - 40 := by bv_omega
    simp only [hside, ite_true, hline']
    refine ⟨_, ⟨hbounds, by omega, rfl⟩, hm, hs, rfl, fun i hi => ?_⟩
    by_cases hlow : i < 8
    · simp only [masked, hlow, ite_true]
      rw [ports_outbWait_other (by decide) (by decide)]
      have hne : 32 + i ≠ v.toNat := by omega
      simp [ioWait, outb, masterPicData, hne]
    · simp only [masked, hlow, ite_false]
      rw [ports_outbWait_same (by decide), getLsbD_clear _ (by omega)]
      have hiff : i - 8 ≠ v.toNat - 40 ↔ 32 + i ≠ v.toNat := by omega
      simp [inb, hiff]
  · simp only [hside, ite_false, hline]
    refine ⟨_, ⟨hbounds, by omega, rfl⟩, hm, hs, rfl, fun i hi => ?_⟩
    by_cases hlow : i < 8
    · simp only [masked, hlow, ite_true]
      rw [ports_outbWait_same (by decide), getLsbD_clear _ (by omega)]
      have hiff : i ≠ v.toNat - 32 ↔ 32 + i ≠ v.toNat := by omega
      simp [inb, hiff]
    · simp only [masked, hlow, ite_false]
      rw [ports_outbWait_other (by decide) (by decide)]
      have hne : 32 + i ≠ v.toNat := by omega
      simp [ioWait, outb, slavePicData, hne]

theorem registered_concat {calls : List Registration} {call : Registration} {v : Nat} :
    Registered (calls ++ [call]) v ↔ Registered calls v ∨ call.vector.toNat = v := by
  simp only [Registered, List.mem_append, List.mem_singleton]
  constructor
  · rintro ⟨c, hc | rfl, hv⟩
    · exact Or.inl ⟨c, hc, hv⟩
    · exact Or.inr hv
  · rintro (⟨c, hc, hv⟩ | hv)
    · exact ⟨c, Or.inl hc, hv⟩
    · exact ⟨call, Or.inr rfl, hv⟩

/-- A call outside the controllers' vectors registers none of their lines. -/
theorem registered_outside {calls : List Registration} {call : Registration} {i : Nat} (hi : i < 16)
    (hout : call.vector.toNat < 32 ∨ 48 ≤ call.vector.toNat) :
    Registered (calls ++ [call]) (32 + i) ↔ Registered calls (32 + i) := by
  rw [registered_concat]
  constructor
  · rintro (h | h)
    · exact h
    · omega
  · exact Or.inl

theorem Wired.register {calls : List Registration} (w : Wired s calls) (call : Registration)
    (nonnull : call.handler ≠ 0) :
    ∃ s', interruptsRegisterHandler s call.vector call.handler = .ok s' ∧
      Wired s' (calls ++ [call]) := by
  unfold interruptsRegisterHandler
  by_cases hexc : call.vector.toNat < 32
  · refine ⟨_, if_pos hexc, w.master, w.slave, fun i hi => ?_, fun i hi => ?_⟩
    · rw [registered_outside hi (Or.inl hexc)]
      exact w.mask i hi
    · rw [registered_outside hi (Or.inl hexc)]
      exact w.handler i hi
  · rw [if_neg hexc]
    by_cases hisr : call.vector.toNat < 48
    · rw [if_pos hisr]
      obtain ⟨s', hs', hm, hsl, hisrs, hmask⟩ := picClearMask_spec (v := call.vector)
        (s := { s with isrHandlers :=
          Function.update s.isrHandlers (call.vector.toNat - 32) call.handler })
        w.master w.slave (by omega) hisr
      refine ⟨s', hs', hm, hsl, fun i hi => ?_, fun i hi hreg => ?_⟩
      · have hold : masked s i = false ↔ Registered calls (32 + i) := w.mask i hi
        rw [hmask i hi, registered_concat, Bool.and_eq_false_iff, ← hold]
        have hbit : decide (32 + i ≠ call.vector.toNat) = false ↔ call.vector.toNat = 32 + i := by
          rw [decide_eq_false_iff_not, not_not]
          exact eq_comm
        rw [hbit]
        rfl
      · rw [hisrs]
        by_cases hline : i = call.vector.toNat - 32
        · simpa [hline] using nonnull
        · rw [registered_concat] at hreg
          have hold : Registered calls (32 + i) := hreg.resolve_right (by omega)
          simpa [hline] using w.handler i hi hold
    · refine ⟨s, if_neg hisr, w.master, w.slave, fun i hi => ?_, fun i hi => ?_⟩
      · rw [registered_outside hi (Or.inr (by omega))]
        exact w.mask i hi
      · rw [registered_outside hi (Or.inr (by omega))]
        exact w.handler i hi

theorem Wired.registerAll {calls more : List Registration} (w : Wired s calls)
    (nonnull : ∀ call ∈ more, call.handler ≠ 0) :
    ∃ s', WaddleOS.registerAll s more = .ok s' ∧ Wired s' (calls ++ more) := by
  induction more generalizing s calls with
  | nil => exact ⟨s, rfl, by simpa using w⟩
  | cons call more ih =>
    obtain ⟨s₁, hs₁, w₁⟩ := w.register call (nonnull call List.mem_cons_self)
    obtain ⟨s', hs', w'⟩ := ih w₁ (fun c hc => nonnull c (List.mem_cons_of_mem call hc))
    refine ⟨s', ?_, by simpa using w'⟩
    rw [WaddleOS.registerAll, List.foldlM_cons, hs₁]
    exact hs'

/-- Filling the descriptor table touches nothing else. -/
theorem idtFill_frame (s : Interrupts) (vectors : List Nat) (routine : Nat → BitVec 64)
    (flags : BitVec 8) :
    (idtFill s vectors routine flags).ports = s.ports ∧
      (idtFill s vectors routine flags).masterPicOffset = s.masterPicOffset ∧
      (idtFill s vectors routine flags).slavePicOffset = s.slavePicOffset := by
  induction vectors generalizing s with
  | nil => exact ⟨rfl, rfl, rfl⟩
  | cons v vs ih => exact ih _

theorem picInit_masks (offset : BitVec 8) :
    (picInit s offset).ports masterPicData = 0xFF ∧ (picInit s offset).ports slavePicData = 0xFF := by
  constructor
  · rw [picInit, picDisable, ports_outbWait_other (by decide) (by decide),
      ports_outbWait_same (by decide)]
  · rw [picInit, picDisable, ports_outbWait_same (by decide)]

/-- After initialisation every line is masked. -/
theorem wired_init (stubs : Stubs) (s : Interrupts) : Wired (interruptsInit stubs s) [] := by
  obtain ⟨hmaster, hslave⟩ := picInit_masks (s := idtFill s (List.range 32) stubs.exc (0x80 ||| 0x0F))
    0x20
  obtain ⟨hports, hm, hs⟩ := idtFill_frame
    (picInit (idtFill s (List.range 32) stubs.exc (0x80 ||| 0x0F)) 0x20) (List.range' 32 16)
    (fun irqNum => stubs.isr (irqNum - 32)) (0x80 ||| 0x0E)
  have empty : ∀ v, ¬ Registered [] v := by
    rintro v ⟨c, hc, -⟩
    cases hc
  have ones : ∀ i < 8, (0xFF : BitVec 8).getLsbD i = true := by decide
  refine ⟨hm, hs, fun i hi => ?_, fun i _ hreg => absurd hreg (empty _)⟩
  have hset : masked (interruptsInit stubs s) i = true := by
    simp only [masked, interruptsInit, hports, hmaster, hslave]
    split
    · exact ones i (by omega)
    · exact ones (i - 8) (by omega)
  rw [hset]
  exact iff_of_false (by decide) (empty _)

/-- The stub address a gate leads to. -/
def IdtEntry.routine (e : IdtEntry) : BitVec 64 := e.isrHigh ++ e.isrMid ++ e.isrLow

theorem routine_halves (r : BitVec 64) :
    (r >>> 32).setWidth 32 ++ (r >>> 16).setWidth 16 ++ r.setWidth 16 = r := by
  apply BitVec.eq_of_getLsbD_eq
  intro i hi
  simp only [BitVec.getLsbD_append, BitVec.getLsbD_setWidth, BitVec.getLsbD_ushiftRight]
  split_ifs with h1 h2
  · simp [h1]
  · have : 16 + (i - 16) = i := by omega
    simp [h2, this]
  · have h3 : i - 16 - 16 < 32 := by omega
    have : 32 + (i - 16 - 16) = i := by omega
    simp [h3, this]

theorem routine_idtFill {routine : Nat → BitVec 64} {flags : BitVec 8} {vectors : List Nat} {v : Nat} :
    ((idtFill s vectors routine flags).idt v).routine =
      if v ∈ vectors then routine v else (s.idt v).routine := by
  induction vectors generalizing s with
  | nil => rfl
  | cons w ws ih =>
    have hstep : ((idtSetDescriptor s w (routine w) flags).idt v).routine =
        if v = w then routine v else (s.idt v).routine := by
      by_cases hv : v = w
      · subst hv
        simp [idtSetDescriptor, IdtEntry.routine, routine_halves]
      · simp [idtSetDescriptor, hv]
    rw [idtFill, List.foldl_cons]
    have hrest := ih (s := idtSetDescriptor s w (routine w) flags)
    rw [idtFill] at hrest
    rw [hrest, hstep]
    by_cases hmem : v ∈ ws <;> by_cases hv : v = w <;> simp [hmem, hv]

/-- Every vector of the kernel enters its own stub. -/
theorem gates_lead_to_stubs (stubs : Stubs) (s : Interrupts) {v : Nat} (hv : v < 48) :
    ((interruptsInit stubs s).idt v).routine =
      if v < 32 then stubs.exc v else stubs.isr (v - 32) := by
  rw [interruptsInit, routine_idtFill]
  by_cases hexc : v < 32
  · have hout : v ∉ List.range' 32 16 := by
      rw [List.mem_range'_1]
      omega
    have hin : v ∈ List.range 32 := List.mem_range.mpr hexc
    have hold : ((picInit (idtFill s (List.range 32) stubs.exc (0x80 ||| 0x0F)) 0x20).idt v).routine =
        ((idtFill s (List.range 32) stubs.exc (0x80 ||| 0x0F)).idt v).routine := rfl
    rw [if_neg hout, if_pos hexc, hold, routine_idtFill, if_pos hin]
  · have hin : v ∈ List.range' 32 16 := by
      rw [List.mem_range'_1]
      omega
    rw [if_pos hin, if_neg hexc]

/-- A line that gets through has a handler, so the assertion on it holds. -/
theorem Wired.handled {calls : List Registration} (w : Wired s calls) {v : Nat} (hlo : 32 ≤ v)
    (hhi : v < 48) (through : Deliverable s v) {call : Nat → Interrupts → Interrupts}
    (keeps : ∀ h t, (call h t).masterPicOffset = t.masterPicOffset ∧
      (call h t).slavePicOffset = t.slavePicOffset) :
    ∃ s', interruptHandler call s (BitVec.ofNat 64 v) = .ok s' := by
  have hline := (deliverable_iff hlo).mp through
  have hreg := (w.mask (v - 32) (by omega)).mp hline.1
  have hnum : (BitVec.ofNat 64 v).toNat = v := by
    rw [BitVec.toNat_ofNat, Nat.mod_eq_of_lt (by omega)]
  have hbyte : ((BitVec.ofNat 64 v).setWidth 8).toNat = v := by
    rw [BitVec.toNat_setWidth, hnum, Nat.mod_eq_of_lt (by omega)]
  obtain ⟨hm, hs⟩ := keeps (s.isrHandlers (v - 32)) s
  simp only [interruptHandler, assert_bind_eq_ok, hnum, picEoi]
  refine ⟨_, ⟨hlo, hhi⟩, w.handler (v - 32) (by omega) hreg, ⟨?_, ?_⟩, rfl⟩
  · rw [hm, w.master, hbyte]
    exact hlo
  · rw [hs, w.slave, hbyte]
    exact hhi

/-- The vectors whose delivery the property is about. -/
def IrqVector (v : Nat) : Prop := 32 ≤ v ∧ v < 48 ∧ v ≠ 34

/-- After any registrations every line that gets through has its handler, and
exactly the registered lines get through if none of them is on the slave
controller or the cascade line is registered too. -/
theorem irqs_deliverable_iff (stubs : Stubs) (s : Interrupts) (calls : List Registration)
    (nonnull : ∀ call ∈ calls, call.handler ≠ 0) :
    ∃ s', registerAll (interruptsInit stubs s) calls = .ok s' ∧
      (∀ v, IrqVector v → Deliverable s' v → s'.isrHandlers (v - 32) ≠ 0 ∧
        ∀ call : Nat → Interrupts → Interrupts,
          (∀ h t, (call h t).masterPicOffset = t.masterPicOffset ∧
            (call h t).slavePicOffset = t.slavePicOffset) →
          ∃ s'', interruptHandler call s' (BitVec.ofNat 64 v) = .ok s'') ∧
      ((∀ v, IrqVector v → (Deliverable s' v ↔ Registered calls v)) ↔
        (∀ v, 40 ≤ v → v < 48 → ¬ Registered calls v) ∨ Registered calls 34) := by
  obtain ⟨s', hs', w⟩ := (wired_init stubs s).registerAll nonnull
  rw [List.nil_append] at w
  have hline : ∀ v, 32 ≤ v → v < 48 → (masked s' (v - 32) = false ↔ Registered calls v) := by
    intro v hlo hhi
    rw [w.mask (v - 32) (by omega), show 32 + (v - 32) = v by omega]
  refine ⟨s', hs', fun v hv through => ⟨?_, fun call keeps => w.handled hv.1 hv.2.1 through keeps⟩, ?_⟩
  · have hreg := (w.mask (v - 32) (by have := hv.2.1; omega)).mp ((deliverable_iff hv.1).mp through).1
    exact w.handler (v - 32) (by have := hv.2.1; omega) hreg
  · constructor
    · intro law
      by_contra hnone
      rw [not_or, not_forall] at hnone
      obtain ⟨⟨v, hv⟩, hcascade⟩ := hnone
      simp only [not_forall, not_not] at hv
      obtain ⟨hlo, hhi, hreg⟩ := hv
      have through := (law v ⟨by omega, hhi, by omega⟩).mpr hreg
      have hmask := ((deliverable_iff (by omega)).mp through).2 hlo
      exact hcascade ((w.mask 2 (by omega)).mp hmask)
    · rintro condition v ⟨hlo, hhi, -⟩
      rw [deliverable_iff hlo, hline v hlo hhi]
      constructor
      · exact fun h => h.1
      · intro hreg
        refine ⟨hreg, fun hslave => ?_⟩
        rcases condition with hnone | hcascade
        · exact absurd hreg (hnone v hslave hhi)
        · exact (w.mask 2 (by omega)).mpr hcascade

/-- The controllers as they are before initialisation, all registers zero. -/
def interruptsAtReset : Interrupts :=
  ⟨fun _ => 0, 0, 0, fun _ => ⟨0, 0, 0, 0, 0, 0, 0⟩, fun _ => 0, fun _ => 0⟩

/-- The timer on the master, the only handler the kernel registers. -/
theorem irqs_deliverable_timer :
    ∃ s', registerAll (interruptsInit ⟨fun _ => 0, fun _ => 0⟩ interruptsAtReset)
        [⟨32, 0x1000⟩] = .ok s' ∧
      ∀ v, IrqVector v → (Deliverable s' v ↔ Registered [⟨32, 0x1000⟩] v) := by
  obtain ⟨s', hs', -, law⟩ := irqs_deliverable_iff ⟨fun _ => 0, fun _ => 0⟩ interruptsAtReset
    [⟨32, 0x1000⟩] (by decide)
  refine ⟨s', hs', law.mpr (Or.inl ?_)⟩
  rintro v hlo hhi ⟨call, hcall, hv⟩
  rw [List.mem_singleton.mp hcall] at hv
  have : v = 32 := hv.symm
  omega

/-- A handler for the mouse, on the slave, is registered and never reached. -/
theorem irq_mouse_blocked :
    ∃ s', registerAll (interruptsInit ⟨fun _ => 0, fun _ => 0⟩ interruptsAtReset)
        [⟨44, 0x1000⟩] = .ok s' ∧
      Registered [⟨44, 0x1000⟩] 44 ∧ ¬ Deliverable s' 44 := by
  have nonnull : ∀ call ∈ [Registration.mk 44 0x1000], call.handler ≠ 0 := by decide
  obtain ⟨s', hs', w⟩ :=
    (wired_init ⟨fun _ => 0, fun _ => 0⟩ interruptsAtReset).registerAll nonnull
  refine ⟨s', hs', ⟨⟨44, 0x1000⟩, List.mem_singleton.mpr rfl, rfl⟩, fun through => ?_⟩
  have hmask := ((deliverable_iff (by omega)).mp through).2 (by omega)
  obtain ⟨call, hcall, hv⟩ := (w.mask 2 (by omega)).mp hmask
  rw [List.mem_singleton.mp hcall] at hv
  exact absurd hv (by decide)

end WaddleOS
