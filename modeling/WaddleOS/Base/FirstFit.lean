import Mathlib.Tactic.Basic

/-!
# First fit

The first window of `num` consecutive positions that satisfy a predicate, and
what a scan knows that counts its current streak and starts again at a
position that fails.
-/

namespace WaddleOS

/-- `r` starts the first window of `num` positions in `[start, stop)` that all
satisfy `p`. -/
structure FirstFit (p : Nat → Prop) (start stop num r : Nat) : Prop where
  start_le : start ≤ r
  le_stop : r + num ≤ stop
  all : ∀ j, r ≤ j → j < r + num → p j
  least : ∀ q, start ≤ q → q < r → ∃ j, q ≤ j ∧ j < q + num ∧ ¬ p j

def NoFit (p : Nat → Prop) (start stop num : Nat) : Prop :=
  ∀ q, start ≤ q → q + num ≤ stop → ∃ j, q ≤ j ∧ j < q + num ∧ ¬ p j

/-- The streak before position `i`: `iter` positions that satisfy `p`, from
`cand` on, and no window anywhere before it. -/
structure Streak (p : Nat → Prop) (start num i iter cand : Nat) : Prop where
  le_num : iter ≤ num
  cand_eq : 0 < iter → cand + iter = i
  start_le : start + iter ≤ i
  all : ∀ j, i - iter ≤ j → j < i → p j
  none_before : ∀ q, start ≤ q → q + iter < i → ∃ j, q ≤ j ∧ j < q + num ∧ j < i ∧ ¬ p j

theorem Streak.first {p : Nat → Prop} {start num : Nat} (cand : Nat) :
    Streak p start num start 0 cand where
  le_num := Nat.zero_le _
  cand_eq := by omega
  start_le := by omega
  all := by omega
  none_before := by omega

theorem Streak.extend {p : Nat → Prop} {start num i iter cand : Nat}
    (h : Streak p start num i iter cand) (hlt : iter < num) (hp : p i) :
    Streak p start num (i + 1) (iter + 1) (if iter = 0 then i else cand) where
  le_num := hlt
  cand_eq := by
    intro _
    split
    · omega
    · have := h.cand_eq (by omega)
      omega
  start_le := by have := h.start_le; omega
  all := by
    intro j hj hji
    by_cases hij : j = i
    · exact hij ▸ hp
    · exact h.all j (by omega) (by omega)
  none_before := by
    intro q hq hqi
    obtain ⟨j, hqj, hjn, hji, hpj⟩ := h.none_before q hq (by omega)
    exact ⟨j, hqj, hjn, by omega, hpj⟩

theorem Streak.reset {p : Nat → Prop} {start num i iter cand : Nat}
    (h : Streak p start num i iter cand) (hlt : iter < num) (hp : ¬ p i) :
    Streak p start num (i + 1) 0 cand where
  le_num := Nat.zero_le _
  cand_eq := by omega
  start_le := by have := h.start_le; omega
  all := by omega
  none_before := by
    intro q hq hqi
    by_cases hold : q + iter < i
    · obtain ⟨j, hqj, hjn, hji, hpj⟩ := h.none_before q hq hold
      exact ⟨j, hqj, hjn, by omega, hpj⟩
    · exact ⟨i, by omega, by omega, by omega, hp⟩

/-- A full streak is the first fit. -/
theorem Streak.firstFit {p : Nat → Prop} {start stop num i cand : Nat}
    (h : Streak p start num i num cand) (hnum : 0 < num) (hi : i ≤ stop) :
    FirstFit p start stop num cand where
  start_le := by have := h.start_le; have := h.cand_eq hnum; omega
  le_stop := by have := h.cand_eq hnum; omega
  all := by
    intro j hj hjn
    have := h.cand_eq hnum
    exact h.all j (by omega) (by omega)
  least := by
    intro q hq hqr
    have := h.cand_eq hnum
    obtain ⟨j, hqj, hjn, -, hpj⟩ := h.none_before q hq (by omega)
    exact ⟨j, hqj, hjn, hpj⟩

theorem Streak.noFit {p : Nat → Prop} {start stop num iter cand : Nat}
    (h : Streak p start num stop iter cand) (hlt : iter < num) : NoFit p start stop num := by
  intro q hq hqs
  obtain ⟨j, hqj, hjn, -, hpj⟩ := h.none_before q hq (by omega)
  exact ⟨j, hqj, hjn, hpj⟩

theorem FirstFit.not_noFit {p : Nat → Prop} {start stop num r : Nat}
    (h : FirstFit p start stop num r) : ¬ NoFit p start stop num := by
  intro hno
  obtain ⟨j, hrj, hjn, hpj⟩ := hno r h.start_le h.le_stop
  exact hpj (h.all j hrj hjn)

theorem FirstFit.unique {p : Nat → Prop} {start stop num r q : Nat}
    (h : FirstFit p start stop num r) (h' : FirstFit p start stop num q) : r = q := by
  rcases Nat.lt_trichotomy r q with hlt | heq | hlt
  · obtain ⟨j, hj, hjn, hpj⟩ := h'.least r h.start_le hlt
    exact absurd (h.all j hj hjn) hpj
  · exact heq
  · obtain ⟨j, hj, hjn, hpj⟩ := h.least q h'.start_le hlt
    exact absurd (h'.all j hj hjn) hpj

end WaddleOS
