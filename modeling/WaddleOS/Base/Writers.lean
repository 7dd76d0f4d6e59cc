import Mathlib.Data.List.Basic
import Mathlib.Logic.Relation

/-!
# Writers that preempt one another on one device

A device holds what it is given until it has sent it on, in order, and has room
for `depth` items. A writer waits until the device holds nothing and then
stores its next item. These are two steps, and between any two steps another
writer may start, which ends before the writer it preempted goes on. At most
`levels` writers are nested.

* `wrote_owed`: what a writer has stored and what it still owes is what it was
  given, whatever the others do;
* `keeps_all_iff`: no run loses an item exactly if `levels ≤ depth`;
* `Line.Work.less`, `works_or_rests`: a run without new writers comes to rest
  after at most `work` steps that get on.
-/

namespace WaddleOS

/-- What the writers use of the device. -/
structure Sink (D α : Type) where
  held : D → List α
  sent : D → List α
  lost : D → Nat
  idle : D → Bool
  store : D → α → D
  send : D → D
  /-- what else the device may do -/
  noise : D → D → Prop
  depth : Nat
  idle_iff : ∀ d, idle d = true ↔ held d = []
  store_fits : ∀ d a, (held d).length < depth →
    held (store d a) = held d ++ [a] ∧ sent (store d a) = sent d ∧ lost (store d a) = lost d
  store_full : ∀ d a, depth ≤ (held d).length → lost (store d a) = lost d + 1
  send_first : ∀ d a as, held d = a :: as →
    held (send d) = as ∧ sent (send d) = sent d ++ [a] ∧ lost (send d) = lost d
  noise_keeps : ∀ d d', noise d d' → held d' = held d ∧ sent d' = sent d ∧ lost d' = lost d

/-- `ready` once the writer has seen the device idle. -/
structure Writer (α : Type) where
  name : Nat
  todo : List α
  ready : Bool
  deriving DecidableEq, Repr

/-- The device and the nested writers, the running one first. What was stored
and what each writer was given, by its name, is recorded. -/
structure Line (D α : Type) where
  writers : List (Writer α)
  device : D
  stored : List (Nat × α)
  given : List (List α)

variable {D α : Type} (S : Sink D α) (levels : Nat)

/-- The steps that get on. -/
inductive Line.Work : Line D α → Line D α → Prop
  | see {l : Line D α} {n : Nat} {a : α} {as : List α} {ws : List (Writer α)}
      (top : l.writers = ⟨n, a :: as, false⟩ :: ws) (idle : S.idle l.device = true) :
      Work l { l with writers := ⟨n, a :: as, true⟩ :: ws }
  | store {l : Line D α} {n : Nat} {a : α} {as : List α} {ws : List (Writer α)}
      (top : l.writers = ⟨n, a :: as, true⟩ :: ws) :
      Work l { l with
        writers := ⟨n, as, false⟩ :: ws
        device := S.store l.device a
        stored := l.stored ++ [(n, a)] }
  | send {l : Line D α} (busy : S.held l.device ≠ []) :
      Work l { l with device := S.send l.device }
  | finish {l : Line D α} {n : Nat} {w : Writer α} {ws : List (Writer α)}
      (top : l.writers = ⟨n, [], false⟩ :: w :: ws) :
      Work l { l with writers := w :: ws }

inductive Line.Step : Line D α → Line D α → Prop
  | work {l l' : Line D α} : Line.Work S l l' → Step l l'
  /-- the writer looks and the device is not idle -/
  | wait (l : Line D α) : Step l l
  | noise {l : Line D α} {d : D} (quiet : S.noise l.device d) : Step l { l with device := d }
  | preempt {l : Line D α} (items : List α) (room : l.writers.length < levels) :
      Step l { l with
        writers := ⟨l.given.length, items, false⟩ :: l.writers
        given := l.given ++ [items] }

def Line.start (d : D) (items : List α) : Line D α := ⟨[⟨0, items, false⟩], d, [], [items]⟩

/-- A run from a device with one writer. -/
inductive Line.Run (d : D) (items : List α) : Line D α → Prop
  | start : Run d items (.start d items)
  | step {l l' : Line D α} : Run d items l → Line.Step S levels l l' → Run d items l'

variable {S levels} {l l' : Line D α} {d : D} {items : List α}

/-- What the writer of this name has stored. -/
def wrote (stored : List (Nat × α)) (n : Nat) : List α :=
  (stored.filter fun p => p.1 = n).map Prod.snd

/-- What the writers of this name have still to store. -/
def owed (ws : List (Writer α)) (n : Nat) : List α :=
  (ws.filter fun w => w.name = n).flatMap Writer.todo

/-! ### Every writer's items, in its order -/

theorem owed_cons (w : Writer α) (ws : List (Writer α)) (n : Nat) :
    owed (w :: ws) n = (if w.name = n then w.todo else []) ++ owed ws n := by
  by_cases h : w.name = n <;> simp [owed, h]

theorem wrote_concat (stored : List (Nat × α)) (m : Nat) (a : α) (n : Nat) :
    wrote (stored ++ [(m, a)]) n = wrote stored n ++ if m = n then [a] else [] := by
  by_cases h : m = n <;> simp [wrote, h]

/-- Each writer has stored or owes what it was given. -/
def Line.Accounts (l : Line D α) : Prop :=
  ∀ n, wrote l.stored n ++ owed l.writers n = l.given.getD n []

theorem work_accounts (h : Line.Work S l l') (acc : l.Accounts) : l'.Accounts := by
  intro n
  have before := acc n
  cases h with
  | see top _ =>
    rw [top, owed_cons] at before
    rw [owed_cons]
    exact before
  | store top =>
    rw [top, owed_cons] at before
    rw [owed_cons, wrote_concat, ← before]
    dsimp only
    split <;> simp
  | send => exact before
  | finish top =>
    rw [top, owed_cons] at before
    simpa using before

theorem step_accounts (h : Line.Step S levels l l') (acc : l.Accounts) : l'.Accounts := by
  cases h with
  | work h => exact work_accounts h acc
  | wait | noise => exact acc
  | preempt items =>
    intro n
    have before := acc n
    rw [owed_cons]
    by_cases hn : l.given.length = n
    · -- the name is new: nothing is stored under it and nobody owes
      subst hn
      have none : wrote l.stored l.given.length ++ owed l.writers l.given.length = [] := by
        simpa using before
      obtain ⟨hw, ho⟩ := List.append_eq_nil_iff.mp none
      simp [hw, ho]
    · have same : (l.given ++ [items]).getD n [] = l.given.getD n [] := by
        rw [List.getD_eq_getElem?_getD, List.getD_eq_getElem?_getD]
        rcases Nat.lt_or_ge n l.given.length with h | h
        · rw [List.getElem?_append_left h]
        · rw [List.getElem?_eq_none h, List.getElem?_eq_none (by simp; omega)]
      rw [if_neg hn, List.nil_append, before]
      exact same.symm

theorem run_accounts (h : Line.Run S levels d items l) : l.Accounts := by
  induction h with
  | start =>
    intro n
    rcases n with _ | n <;> simp [Line.start, wrote, owed]
  | step _ step ih => exact step_accounts step ih

/-! ### When nothing is lost -/

/-- How many writers have seen the device idle and not stored since. -/
def Line.pending (l : Line D α) : Nat := l.writers.countP Writer.ready

/-- There is room for every store that is pending. -/
structure Line.Safe (S : Sink D α) (levels : Nat) (d : D) (l : Line D α) : Prop where
  nested : l.writers.length ≤ levels
  room : (S.held l.device).length + l.pending ≤ levels
  lost : S.lost l.device = S.lost d
  sent : S.sent l.device ++ S.held l.device = S.sent d ++ l.stored.map Prod.snd

theorem work_safe (fits : levels ≤ S.depth) (h : Line.Work S l l') (safe : l.Safe S levels d) :
    l'.Safe S levels d := by
  obtain ⟨nested, room, lost, sent⟩ := safe
  cases h with
  | @see _ _ _ ws top idle =>
    have empty := (S.idle_iff _).mp idle
    have counted := List.countP_le_length (p := Writer.ready) (l := ws)
    rw [top, List.length_cons] at nested
    refine ⟨nested, ?_, lost, sent⟩
    simp only [Line.pending, List.countP_cons, empty, List.length_nil, if_true]
    omega
  | @store n a as ws top =>
    simp only [Line.pending, top, List.countP_cons, if_true] at room
    obtain ⟨hheld, hsent, hlost⟩ := S.store_fits l.device a (by omega)
    rw [top] at nested
    refine ⟨nested, ?_, hlost.trans lost, ?_⟩
    · simp only [Line.pending, List.countP_cons, hheld, List.length_append, List.length_singleton,
        Bool.false_eq_true, if_false]
      omega
    · simp only [hheld, hsent, List.map_append, List.map_cons, List.map_nil]
      rw [← List.append_assoc, sent, List.append_assoc]
  | send busy =>
    obtain ⟨a, as, held⟩ := List.exists_cons_of_ne_nil busy
    obtain ⟨hheld, hsent, hlost⟩ := S.send_first _ _ _ held
    rw [held] at room sent
    refine ⟨nested, ?_, hlost.trans lost, ?_⟩
    · simp only [Line.pending, hheld, List.length_cons] at room ⊢
      omega
    · simpa [hheld, hsent] using sent
  | finish top =>
    rw [top, List.length_cons] at nested
    simp only [Line.pending, top, List.countP_cons, Bool.false_eq_true, if_false] at room
    exact ⟨by dsimp only; omega, by simpa [Line.pending, List.countP_cons] using room, lost, sent⟩

theorem step_safe (fits : levels ≤ S.depth) (h : Line.Step S levels l l')
    (safe : l.Safe S levels d) : l'.Safe S levels d := by
  cases h with
  | work h => exact work_safe fits h safe
  | wait => exact safe
  | noise quiet =>
    obtain ⟨hheld, hsent, hlost⟩ := S.noise_keeps _ _ quiet
    obtain ⟨nested, room, lost, sent⟩ := safe
    exact ⟨nested, by rw [hheld]; exact room, hlost.trans lost, by rw [hheld, hsent]; exact sent⟩
  | preempt items room =>
    obtain ⟨_, pending, lost, sent⟩ := safe
    exact ⟨room, by simpa [Line.pending] using pending, lost, sent⟩

theorem run_safe (fits : levels ≤ S.depth) (one : 1 ≤ levels) (empty : S.held d = [])
    (h : Line.Run S levels d items l) : l.Safe S levels d := by
  induction h with
  | start => exact ⟨one, by simp [Line.start, Line.pending, empty], rfl, by simp [Line.start, empty]⟩
  | step _ step ih => exact step_safe fits step ih

/-- Writers below one another, each of which has seen the device idle. -/
def armed (ns : List Nat) (a : α) (items : List α) : List (Writer α) :=
  ns.map (fun n => ⟨n, [a], true⟩) ++ [⟨0, items, true⟩]

/-- Every writer looks and is preempted before it stores. -/
theorem nest {a : α} {as : List α} (empty : S.held d = []) {k : Nat} (hk : k < levels) :
    ∃ (l : Line D α) (ns : List Nat), Line.Run S levels d (a :: as) l ∧ l.device = d ∧
      ns.length = k ∧ l.writers = armed ns a (a :: as) := by
  have idle := (S.idle_iff d).mpr empty
  induction k with
  | zero =>
    have first : Line.Run S levels d (a :: as) (.start d (a :: as)) := .start
    exact ⟨_, [], first.step (.work (.see rfl idle)), rfl, rfl, rfl⟩
  | succ k ih =>
    obtain ⟨l, ns, run, device, len, writers⟩ := ih (by omega)
    have room : l.writers.length < levels := by
      simp only [writers, armed, List.length_append, List.length_map, List.length_singleton]
      omega
    have entered := run.step (.preempt [a] room)
    have still : S.idle l.device = true := by rw [device]; exact idle
    have seen := entered.step (.work (.see rfl still))
    exact ⟨_, l.given.length :: ns, seen, device, by simp [len], by simp [armed, writers]⟩

/-- When more writers are armed than there is room, one of the stores finds none. -/
theorem spill {a : α} {as : List α} {ns : List Nat} (run : Line.Run S levels d (a :: as) l)
    (writers : l.writers = armed ns a (a :: as)) (held : (S.held l.device).length ≤ S.depth)
    (excess : S.depth ≤ (S.held l.device).length + ns.length) :
    ∃ l', Line.Run S levels d (a :: as) l' ∧ S.lost l'.device = S.lost l.device + 1 := by
  induction ns generalizing l with
  | nil =>
    have full := S.store_full l.device a (by simpa using excess)
    exact ⟨_, run.step (.work (.store writers)), full⟩
  | cons n ns ih =>
    have top : l.writers = ⟨n, [a], true⟩ :: armed ns a (a :: as) := writers
    have stored := run.step (.work (.store top))
    by_cases full : S.depth ≤ (S.held l.device).length
    · exact ⟨_, stored, S.store_full l.device a full⟩
    · obtain ⟨hheld, -, hlost⟩ := S.store_fits l.device a (by omega)
      obtain ⟨w, ws, below⟩ : ∃ w ws, armed ns a (a :: as) = w :: ws :=
        List.exists_cons_of_ne_nil (by simp [armed])
      rw [below] at stored
      have finished := stored.step (.work (.finish rfl))
      obtain ⟨l', run', lost⟩ := ih finished below.symm (by simp [hheld]; omega)
        (by simp [hheld] at excess ⊢; omega)
      exact ⟨l', run', by rw [lost]; exact congrArg (· + 1) hlost⟩

/-- No run loses an item exactly if there is room for one of each nested writer. -/
theorem keeps_all_iff {a : α} {as : List α} (one : 1 ≤ levels) (empty : S.held d = []) :
    (∀ l, Line.Run S levels d (a :: as) l → S.lost l.device = S.lost d) ↔ levels ≤ S.depth := by
  constructor
  · intro keeps
    by_contra excess
    have below : levels - 1 < levels := by omega
    obtain ⟨l, ns, run, device, len, writers⟩ := nest (S := S) (a := a) empty below
    have excess' : S.depth ≤ (S.held l.device).length + ns.length := by omega
    obtain ⟨l', run', lost⟩ := spill run writers (by simp [device, empty]) excess'
    rw [keeps l' run', device] at lost
    omega
  · intro fits l run
    exact (run_safe fits one empty run).lost

/-! ### Coming to rest -/

/-- What is left to do: a store is worth looking, storing and sending. -/
def Line.work (S : Sink D α) (l : Line D α) : Nat :=
  (S.held l.device).length + 3 * (l.writers.flatMap Writer.todo).length +
    l.writers.countP fun w => !w.ready

theorem Line.Work.less (fits : levels ≤ S.depth) (safe : l.Safe S levels d)
    (h : Line.Work S l l') : l'.work S < l.work S := by
  cases h with
  | see top => simp [Line.work, top]
  | @store n a as ws top =>
    have room := safe.room
    simp only [Line.pending, top, List.countP_cons, if_true] at room
    obtain ⟨hheld, -, -⟩ := S.store_fits l.device a (by omega)
    simp only [Line.work, top, hheld, List.flatMap_cons, List.length_append, List.length_cons,
      List.length_nil, List.countP_cons, Bool.not_true, Bool.not_false, Bool.false_eq_true,
      if_true, if_false]
    omega
  | send busy =>
    obtain ⟨a, as, held⟩ := List.exists_cons_of_ne_nil busy
    simp [Line.work, held, (S.send_first _ _ _ held).1]
  | finish top => simp [Line.work, top]

/-- `n` steps that get on. -/
inductive Line.Works (S : Sink D α) : Nat → Line D α → Line D α → Prop
  | none (l : Line D α) : Works S 0 l l
  | more {n : Nat} {l l' l'' : Line D α} : Works S n l l' → Line.Work S l' l'' →
      Works S (n + 1) l l''

/-- A writer that is ready has something to store. -/
def Line.Sane (l : Line D α) : Prop :=
  l.writers ≠ [] ∧ ∀ w ∈ l.writers, w.ready = true → w.todo ≠ []

theorem step_sane (h : Line.Step S levels l l') (sane : l.Sane) : l'.Sane := by
  obtain ⟨some, ready⟩ := sane
  cases h with
  | work h =>
    cases h with
    | see top | store top | finish top =>
      rw [top] at ready
      simp_all [Line.Sane]
    | send => exact ⟨some, ready⟩
  | wait | noise => exact ⟨some, ready⟩
  | preempt items =>
    refine ⟨by simp, fun w hw => ?_⟩
    rcases List.mem_cons.mp hw with rfl | hw
    · exact fun h => absurd h (by simp)
    · exact ready w hw

theorem run_sane (h : Line.Run S levels d items l) : l.Sane := by
  induction h with
  | start => exact ⟨by simp [Line.start], by simp [Line.start]⟩
  | step _ step ih => exact step_sane step ih

/-- The last writer has stored all it was given and the device has sent it on. -/
def Line.AtRest (S : Sink D α) (l : Line D α) : Prop :=
  S.held l.device = [] ∧ ∃ n, l.writers = [⟨n, [], false⟩]

theorem works_or_rests (sane : l.Sane) : (∃ l', Line.Work S l l') ∨ l.AtRest S := by
  by_cases held : S.held l.device = []
  · have idle := (S.idle_iff _).mpr held
    obtain ⟨⟨n, todo, ready⟩, ws, top⟩ := List.exists_cons_of_ne_nil sane.1
    have nonempty := sane.2 ⟨n, todo, ready⟩ (by simp [top])
    cases todo with
    | nil =>
      cases ready with
      | true => exact absurd rfl (nonempty rfl)
      | false =>
        cases ws with
        | nil => exact Or.inr ⟨held, n, top⟩
        | cons w ws => exact Or.inl ⟨_, .finish top⟩
    | cons a as =>
      cases ready with
      | true => exact Or.inl ⟨_, .store top⟩
      | false => exact Or.inl ⟨_, .see top idle⟩
  · exact Or.inl ⟨_, .send held⟩

theorem Line.Works.run {n : Nat} (h : Line.Works S n l l') (run : Line.Run S levels d items l) :
    Line.Run S levels d items l' := by
  induction h with
  | none => exact run
  | more _ step ih => exact (ih run).step (.work step)

theorem Line.Works.bound {n : Nat} (fits : levels ≤ S.depth) (one : 1 ≤ levels)
    (empty : S.held d = []) (h : Line.Works S n l l') (run : Line.Run S levels d items l) :
    n + l'.work S ≤ l.work S := by
  induction h with
  | none => omega
  | more before step ih =>
    have less := step.less fits (run_safe fits one empty (before.run run))
    have bound := ih run
    omega

theorem Line.Works.given {n : Nat} (h : Line.Works S n l l') : l'.given = l.given := by
  induction h with
  | none => rfl
  | more _ step ih =>
    rw [← ih]
    cases step <;> rfl

/-- At rest everything that was given has been sent, each writer's items in its order. -/
theorem rest_complete (fits : levels ≤ S.depth) (one : 1 ≤ levels) (empty : S.held d = [])
    (run : Line.Run S levels d items l) (rest : l.AtRest S) :
    S.sent l.device = S.sent d ++ l.stored.map Prod.snd ∧
      ∀ n, wrote l.stored n = l.given.getD n [] := by
  obtain ⟨held, m, writers⟩ := rest
  constructor
  · have sent := (run_safe fits one empty run).sent
    rwa [held, List.append_nil] at sent
  · intro n
    have acc := run_accounts run n
    rw [writers, owed_cons] at acc
    simpa [owed] using acc

end WaddleOS
