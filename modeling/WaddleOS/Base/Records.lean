import WaddleOS.Base.Chain

/-!
# Rows of padded records

Records of different sizes stand one behind the other in an address space of
`top` addresses. Each starts at a multiple of 8 and is padded to one, and a
record that `ends` the row closes it. A reader that adds sizes and rounds up in
an arithmetic modulo `top` follows the row from record to record.
-/

namespace WaddleOS

/-- Where the record behind one of `n` bytes at `a` starts. -/
def padded (a n : Nat) : Nat := (a + n + 7) / 8 * 8

/-- From `a` on stand the records at `xs`, each with room for its own header of
8 bytes, and the one at `b` ends the row. -/
inductive Records (size : Nat → Nat) (ends : Nat → Prop) (top : Nat) : Nat → List Nat → Nat → Prop
  | last {b : Nat} (aligned : b % 8 = 0) (fits : b + 8 ≤ top) (ended : ends b) :
      Records size ends top b [] b
  | more {a b : Nat} {xs : List Nat} (aligned : a % 8 = 0) (goesOn : ¬ ends a) (header : 8 ≤ size a)
      (rest : Records size ends top (padded a (size a)) xs b) : Records size ends top a (a :: xs) b

variable {size : Nat → Nat} {ends : Nat → Prop} {top a b : Nat} {xs : List Nat}

theorem le_padded (a n : Nat) : a + n ≤ padded a n := by
  unfold padded
  omega

namespace Records

theorem fits (h : Records size ends top a xs b) : b + 8 ≤ top := by
  induction h with
  | last _ fits _ => exact fits
  | more _ _ _ _ ih => exact ih

theorem start_le (h : Records size ends top a xs b) : a ≤ b := by
  induction h with
  | last _ _ _ => exact Nat.le_refl _
  | @more a b xs _ _ _ _ ih =>
    have hnext := le_padded a (size a)
    omega

theorem ended (h : Records size ends top a xs b) : ends b := by
  induction h with
  | last _ _ ended => exact ended
  | more _ _ _ _ ih => exact ih

theorem goesOn (h : Records size ends top a xs b) : ∀ x ∈ xs, ¬ ends x := by
  induction h with
  | last _ _ _ => exact fun x hx => absurd hx List.not_mem_nil
  | more _ goesOn _ _ ih => exact List.forall_mem_cons.mpr ⟨goesOn, ih⟩

/-- Every record lies between the start of the row and its end. -/
theorem between (h : Records size ends top a xs b) :
    ∀ x ∈ xs, a ≤ x ∧ 8 ≤ size x ∧ x + size x ≤ b := by
  induction h with
  | last _ _ _ => exact fun x hx => absurd hx List.not_mem_nil
  | @more a b xs _ _ header rest ih =>
    have hnext := le_padded a (size a)
    have hend := rest.start_le
    refine List.forall_mem_cons.mpr ⟨⟨Nat.le_refl _, header, by omega⟩, fun x hx => ?_⟩
    obtain ⟨hlo, hx8, hhi⟩ := ih x hx
    exact ⟨by omega, hx8, hhi⟩

/-- No record starts inside an earlier one. -/
theorem apart (h : Records size ends top a xs b) : xs.Pairwise fun x y => x + size x ≤ y := by
  induction h with
  | last _ _ _ => exact List.Pairwise.nil
  | @more a b xs _ _ _ rest ih =>
    refine List.Pairwise.cons (fun y hy => ?_) ih
    have hnext := le_padded a (size a)
    have hy' := (rest.between y hy).1
    omega

/-- The reader's next record is the next record of the row. -/
theorem seg (h : Records size ends top a xs b) :
    Seg (fun x => (x + size x + 7) % top / 8 * 8) a xs b := by
  induction h with
  | last _ _ _ => exact rfl
  | @more a b xs _ _ _ rest ih =>
    have hfits := rest.fits
    have hend := rest.start_le
    have hnext : (a + size a + 7) % top / 8 * 8 = padded a (size a) := by
      unfold padded at hend
      rw [padded, Nat.mod_eq_of_lt (by omega)]
    refine ⟨rfl, ?_⟩
    dsimp only
    rw [hnext]
    exact ih

end Records

end WaddleOS
