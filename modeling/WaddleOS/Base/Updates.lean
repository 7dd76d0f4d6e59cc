import Mathlib.Logic.Function.Basic

/-!
# A partial function written by a list of bindings

`assign f l` is `f` after the bindings of `l`, one after the other; of the
bindings of one key the last counts.
-/

namespace WaddleOS

variable {α β κ γ : Type} [DecidableEq α] [DecidableEq κ]

/-- `f` after the bindings of `l`. -/
def assign (f : α → Option β) : List (α × β) → α → Option β
  | [] => f
  | b :: l => assign (Function.update f b.1 (some b.2)) l

theorem assign_append (f : α → Option β) (l l' : List (α × β)) :
    assign f (l ++ l') = assign (assign f l) l' := by
  induction l generalizing f with
  | nil => rfl
  | cons b l ih => exact ih _

/-- A key without a binding keeps its value. -/
theorem assign_of_unbound {f : α → Option β} {l : List (α × β)} {k : α}
    (h : ∀ b ∈ l, b.1 ≠ k) : assign f l k = f k := by
  induction l generalizing f with
  | nil => rfl
  | cons b l ih =>
    have hne : k ≠ b.1 := (h b (List.mem_cons_self ..)).symm
    rw [assign, ih (fun c hc => h c (List.mem_cons_of_mem _ hc)), Function.update_of_ne hne]

/-- The last binding of a key gives its value. -/
theorem assign_last (f : α → Option β) (l : List (α × β)) {l' : List (α × β)} {k : α} (v : β)
    (h : ∀ b ∈ l', b.1 ≠ k) : assign f (l ++ (k, v) :: l') k = some v := by
  rw [assign_append, assign, assign_of_unbound h, Function.update_self]

/-- Bindings of renamed keys and values are read through the renaming. -/
theorem assign_rename {e : α → κ} (he : Function.Injective e) (g : β → γ) {f : α → Option β}
    {φ : κ → Option γ} (hf : ∀ k, φ (e k) = (f k).map g) (l : List (α × β)) (k : α) :
    assign φ (l.map (Prod.map e g)) (e k) = (assign f l k).map g := by
  induction l generalizing f φ with
  | nil => exact hf k
  | cons b l ih =>
    apply ih
    intro x
    by_cases hx : x = b.1
    · subst hx
      simp
    · have hex : e x ≠ e b.1 := fun heq => hx (he heq)
      rw [Prod.map_fst, Function.update_of_ne hex, Function.update_of_ne hx, hf x]

end WaddleOS
