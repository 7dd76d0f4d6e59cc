import Mathlib.Data.List.Nodup
import Mathlib.Logic.Function.Iterate

/-!
# Chains threaded through a link function

`Seg next a l b` says that following `next` from `a` visits the nodes `l` in
order and then stands at `b`. A null-terminated list is a segment that ends
at its null. `Seg.redirect` is the one edit from which unlinking a node and
putting another in its place follow.
-/

namespace WaddleOS

variable {Node : Type}

/-- Following `next` from `a` visits `l` and then stands at `b`. -/
def Seg (next : Node → Node) (a : Node) : List Node → Node → Prop
  | [], b => a = b
  | x :: xs, b => a = x ∧ Seg next (next x) xs b

theorem seg_append {next : Node → Node} {a b : Node} {xs ys : List Node} :
    Seg next a (xs ++ ys) b ↔ ∃ c, Seg next a xs c ∧ Seg next c ys b := by
  induction xs generalizing a with
  | nil => simp [Seg]
  | cons x xs ih =>
    simp only [List.cons_append, Seg, ih]
    constructor
    · rintro ⟨ha, c, h1, h2⟩; exact ⟨c, ⟨ha, h1⟩, h2⟩
    · rintro ⟨c, ⟨ha, h1⟩, h2⟩; exact ⟨ha, c, h1, h2⟩

/-- The node behind `l` is as many links away. -/
theorem Seg.iterate {next : Node → Node} {a b y : Node} {l r : List Node}
    (h : Seg next a (l ++ y :: r) b) : next^[l.length] a = y := by
  induction l generalizing a with
  | nil => exact h.1
  | cons x l ih =>
    obtain ⟨rfl, hrest⟩ := h
    exact ih hrest

/-- A segment depends only on the links of its own nodes. -/
theorem Seg.congr {next next' : Node → Node} {a b : Node} {xs : List Node}
    (h : Seg next a xs b) (agree : ∀ x ∈ xs, next' x = next x) : Seg next' a xs b := by
  induction xs generalizing a with
  | nil => exact h
  | cons x xs ih =>
    refine ⟨h.1, ?_⟩
    rw [agree x List.mem_cons_self]
    exact ih h.2 (fun y hy => agree y (List.mem_cons_of_mem x hy))

theorem Seg.uncons {next : Node → Node} {a b : Node} {xs : List Node} (h : Seg next a xs b)
    (hab : a ≠ b) : ∃ ys, xs = a :: ys ∧ Seg next (next a) ys b := by
  cases xs with
  | nil => exact absurd h hab
  | cons x xs =>
    obtain ⟨rfl, hrest⟩ := h
    exact ⟨xs, rfl, hrest⟩

/-- What holds of the end of a segment and of all its nodes holds of its start. -/
theorem Seg.start_of_all {next : Node → Node} {a b : Node} {xs : List Node} {P : Node → Prop}
    (h : Seg next a xs b) (hend : P b) (hall : ∀ x ∈ xs, P x) : P a := by
  cases xs with
  | nil => exact h ▸ hend
  | cons x xs => exact h.1 ▸ hall x List.mem_cons_self

/-- The node before the end of `xs`, or `z` when there is none. -/
def lastOr (z : Node) : List Node → Node
  | [] => z
  | x :: xs => lastOr x xs

theorem lastOr_append_cons (z x : Node) (xs ys : List Node) :
    lastOr z (xs ++ x :: ys) = lastOr x ys := by
  induction xs generalizing z with
  | nil => rfl
  | cons y ys' ih => exact ih y

theorem lastOr_mem {z : Node} {xs : List Node} (h : xs ≠ []) : lastOr z xs ∈ xs := by
  induction xs generalizing z with
  | nil => exact absurd rfl h
  | cons x xs ih =>
    by_cases hx : xs = []
    · subst hx; exact List.mem_cons_self
    · exact List.mem_cons_of_mem x (ih hx)

/-- Two segments from one node to one end that neither passes are the same. -/
theorem Seg.unique_to {next : Node → Node} {a b : Node} {xs ys : List Node} (h : Seg next a xs b)
    (h' : Seg next a ys b) (hx : b ∉ xs) (hy : b ∉ ys) : xs = ys := by
  induction xs generalizing a ys with
  | nil =>
    cases ys with
    | nil => rfl
    | cons y ys =>
      have hby : b = y := (show a = b from h).symm.trans h'.1
      exact absurd (hby ▸ List.mem_cons_self) hy
  | cons x xs ih =>
    obtain ⟨rfl, hrest⟩ := h
    obtain ⟨ys, rfl, hrest'⟩ := h'.uncons (fun e => hx (e ▸ List.mem_cons_self))
    rw [ih hrest hrest' (fun hm => hx (List.mem_cons_of_mem _ hm))
      (fun hm => hy (List.mem_cons_of_mem _ hm))]

/-- The last node of a segment leads to its end. -/
theorem Seg.last {next : Node → Node} {a b z : Node} {xs : List Node} (h : Seg next a xs b)
    (hne : xs ≠ []) : next (lastOr z xs) = b := by
  induction xs generalizing a z with
  | nil => exact absurd rfl hne
  | cons x xs ih =>
    by_cases hx : xs = []
    · subst hx
      exact h.2
    · exact ih h.2 hx

/-- Two segments through the same nodes start at the same one. -/
theorem Seg.start_eq {next next' : Node → Node} {a a' b b' : Node} {xs : List Node}
    (h : Seg next a xs b) (h' : Seg next' a' xs b') (hb : xs = [] → b' = b) : a' = a := by
  cases xs with
  | nil => exact (show a' = b' from h').trans ((hb rfl).trans (show a = b from h).symm)
  | cons x xs => exact h'.1.trans h.1.symm

/-- Two segments through the same nodes agree on all links but the last. -/
theorem Seg.agree {next next' : Node → Node} {a a' b b' x : Node} (z : Node) {xs : List Node}
    (h : Seg next a xs b) (h' : Seg next' a' xs b') (hx : x ∈ xs) (hb : x = lastOr z xs → b' = b) :
    next' x = next x := by
  induction xs generalizing a a' z with
  | nil => cases hx
  | cons y ys ih =>
    rcases List.mem_cons.mp hx with rfl | hx
    · exact h.2.start_eq h'.2 (fun hys => hb (by rw [hys]; rfl))
    · exact ih y h.2 h'.2 hx hb

/-- Redirecting the link out of `before`, the head when `before` is empty and
the link of its last node otherwise, makes the segment end at `v`. -/
theorem Seg.redirect {next next' : Node → Node} {a c v z : Node} {before : List Node}
    (h : Seg next a before c) (nodup : before.Nodup)
    (last : before ≠ [] → next' (lastOr z before) = v)
    (rest : ∀ y ∈ before, y ≠ lastOr z before → next' y = next y) [Decidable (before = [])] :
    Seg next' (if before = [] then v else a) before v := by
  rcases List.eq_nil_or_concat' before with rfl | ⟨xs, x, rfl⟩
  · simp [Seg]
  · have hlast : lastOr z (xs ++ [x]) = x := lastOr_append_cons z x xs []
    have hx : next' x = v := by simpa [hlast] using last (by simp)
    obtain ⟨d, h1, h2⟩ := seg_append.mp h
    rw [if_neg (by simp), seg_append]
    refine ⟨d, h1.congr ?_, h2.1, hx⟩
    intro y hy
    apply rest y (List.mem_append_left [x] hy)
    rw [hlast]
    rintro rfl
    exact (List.nodup_append.mp nodup).2.2 y hy y (by simp) rfl

end WaddleOS
