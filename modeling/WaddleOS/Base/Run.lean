/-!
# Runs of a guarded, fallible machine

`Reach start allowed next` are the states that a machine reaches from a start
state by steps that were allowed where they were taken and did not fail.
-/

namespace WaddleOS

variable {State Act Err : Type}

inductive Reach (start : State → Prop) (allowed : State → Act → Prop)
    (next : State → Act → Except Err State) : State → Prop
  | start {s : State} : start s → Reach start allowed next s
  | step {s t : State} {a : Act} : Reach start allowed next s → allowed s a → next s a = .ok t →
      Reach start allowed next t

variable {start : State → Prop} {allowed : State → Act → Prop}
variable {next : State → Act → Except Err State}

/-- What holds at the start and survives every allowed step holds throughout. -/
theorem Reach.invariant {P : State → Prop} (first : ∀ s, start s → P s)
    (keep : ∀ s a t, P s → allowed s a → next s a = .ok t → P t) {s : State}
    (h : Reach start allowed next s) : P s := by
  induction h with
  | start hs => exact first _ hs
  | step _ ha hn ih => exact keep _ _ _ ih ha hn

/-- Play a list of actions, checking each where it is taken and the last state. -/
def checkRun (check : State → Act → Bool) (next : State → Act → Except Err State)
    (last : State → Bool) : State → List Act → Bool
  | s, [] => last s
  | s, a :: as => check s a &&
    match next s a with
    | .ok t => checkRun check next last t as
    | .error _ => false

theorem Reach.of_check (check : State → Act → Bool) (last : State → Bool) (acts : List Act)
    (sound : ∀ s a, check s a = true → allowed s a) {s : State} (h : Reach start allowed next s)
    (run : checkRun check next last s acts = true) :
    ∃ t, Reach start allowed next t ∧ last t = true := by
  induction acts generalizing s with
  | nil => exact ⟨s, h, run⟩
  | cons a as ih =>
    rw [checkRun, Bool.and_eq_true] at run
    obtain ⟨hc, hrest⟩ := run
    cases hn : next s a with
    | ok t =>
      rw [hn] at hrest
      exact ih (h.step (sound s a hc) hn) hrest
    | error e =>
      rw [hn] at hrest
      cases hrest

/-! ### A program that is interrupted -/

/-- `n` steps of a program with any number of interruptions between them. -/
inductive Interleaved (program : State → State) (interrupt : State → State → Prop) :
    Nat → State → State → Prop
  | start (s : State) : Interleaved program interrupt 0 s s
  | step {n : Nat} {s t : State} : Interleaved program interrupt n s t →
      Interleaved program interrupt (n + 1) s (program t)
  | interrupt {n : Nat} {s t u : State} : Interleaved program interrupt n s t → interrupt t u →
      Interleaved program interrupt n s u

/-- What the program alone does, from one state after another. -/
def steps (program : State → State) : Nat → State → State
  | 0, s => s
  | n + 1, s => program (steps program n s)

/-- Interruptions that the program cannot see do not change what it does. -/
theorem Interleaved.unseen {program : State → State} {interrupt : State → State → Prop}
    {Same : State → State → Prop} (refl : ∀ s, Same s s)
    (trans : ∀ s t u, Same s t → Same t u → Same s u)
    (hidden : ∀ s t, interrupt s t → Same s t)
    (kept : ∀ s t, Same s t → Same (program s) (program t)) {n : Nat} {s t : State}
    (run : Interleaved program interrupt n s t) : Same (steps program n s) t := by
  induction run with
  | start => exact refl _
  | step _ ih => exact kept _ _ ih
  | interrupt _ h ih => exact trans _ _ _ ih (hidden _ _ h)

end WaddleOS
