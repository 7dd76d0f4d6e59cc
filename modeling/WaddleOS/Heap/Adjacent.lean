import WaddleOS.Heap.Realloc

/-!
# Adjacent free blocks

A row is `Spread` when no two of its neighbours are both free. Allocation and
release keep a row spread. Of the ways to grow a block only one does not: over
the block before it, with a rest split off, while the block behind is free.
-/

namespace WaddleOS

/-- No two neighbouring blocks are both free. -/
def Spread : List Block → Prop
  | [] => True
  | b :: bs => (b.used = false → ¬ StartsFree bs) ∧ Spread bs

theorem startsFree_cons {n : Nat} {u : Bool} {bs : List Block} :
    StartsFree (⟨n, u⟩ :: bs) ↔ u = false := by
  constructor
  · rintro ⟨k, post, he⟩
    simp only [List.cons.injEq, Block.mk.injEq] at he
    exact he.1.2
  · rintro rfl
    exact ⟨n, bs, rfl⟩

theorem not_startsFree_nil : ¬ StartsFree [] := by
  rintro ⟨k, post, he⟩
  cases he

theorem startsFree_append {xs ys : List Block} (h : xs ≠ []) :
    StartsFree (xs ++ ys) ↔ StartsFree xs := by
  cases xs with
  | nil => exact absurd rfl h
  | cons x xs => exact startsFree_cons.trans startsFree_cons.symm

theorem not_endsFree_nil : ¬ EndsFree [] := by
  rintro ⟨pre, p, he⟩
  simp at he

theorem endsFree_concat (bs : List Block) {n : Nat} {u : Bool} :
    EndsFree (bs ++ [⟨n, u⟩]) ↔ u = false := by
  constructor
  · rintro ⟨pre, p, he⟩
    have := (List.append_inj' he rfl).2
    simp only [List.cons.injEq, Block.mk.injEq] at this
    exact this.1.2
  · rintro rfl
    exact ⟨bs, n, rfl⟩

theorem endsFree_cons {b : Block} {bs : List Block} (h : bs ≠ []) :
    EndsFree (b :: bs) ↔ EndsFree bs := by
  rcases List.eq_nil_or_concat' bs with rfl | ⟨xs, x, rfl⟩
  · exact absurd rfl h
  · exact (endsFree_concat (b :: xs)).trans (endsFree_concat xs).symm

theorem spread_append {xs ys : List Block} :
    Spread (xs ++ ys) ↔ Spread xs ∧ Spread ys ∧ ¬ (EndsFree xs ∧ StartsFree ys) := by
  induction xs with
  | nil => simp [Spread, not_endsFree_nil]
  | cons x xs ih =>
    rw [List.cons_append, Spread, Spread, ih]
    by_cases hx : xs = []
    · subst hx
      have he : EndsFree [x] ↔ x.used = false := endsFree_concat []
      simp only [List.nil_append, he, not_endsFree_nil, not_startsFree_nil, Spread]
      tauto
    · rw [startsFree_append hx, endsFree_cons hx]
      tauto

/-- The row around one block. -/
theorem spread_mid {pre post : List Block} {n : Nat} {u : Bool} :
    Spread (pre ++ ⟨n, u⟩ :: post) ↔ Spread pre ∧ Spread post ∧
      (u = false → ¬ EndsFree pre ∧ ¬ StartsFree post) := by
  rw [spread_append, Spread, startsFree_cons]
  tauto

theorem spread_cons {post : List Block} {n : Nat} {u : Bool} :
    Spread (⟨n, u⟩ :: post) ↔ Spread post ∧ (u = false → ¬ StartsFree post) := by
  rw [Spread, and_comm]

theorem Malloc.spread {start n p : Nat} {A A' : Abs} (hm : Malloc start n A p A')
    (hs : Spread A.blocks) : Spread A'.blocks := by
  cases hm with
  | fail none => exact hs
  | carve room first least =>
    simp only [spread_mid, spread_cons, startsFree_cons] at hs ⊢
    tauto
  | whole room tight first least =>
    simp only [spread_mid] at hs ⊢
    tauto

/-- A release merges with both neighbours, so it keeps a row spread. -/
theorem Release.spread {start s : Nat} {pre post : List Block} {fl : List Nat} {A' : Abs}
    (hr : Release start s pre post fl A') (hs : Spread (pre ++ ⟨s, true⟩ :: post)) :
    Spread A'.blocks := by
  cases hr with
  | both =>
    simp only [spread_cons, spread_append, endsFree_concat, startsFree_cons] at hs ⊢
    tauto
  | prev next =>
    simp only [spread_cons, spread_append, endsFree_concat, startsFree_cons] at hs ⊢
    tauto
  | next prev =>
    simp only [spread_mid, spread_cons, startsFree_cons] at hs ⊢
    tauto
  | none prev next =>
    simp only [spread_mid] at hs ⊢
    tauto

theorem regrown_spread {start B n : Nat} {pre post : List Block} {fl : List Nat}
    (hpre : Spread pre) (hpost : Spread post) (hnext : n + 16 ≤ B → ¬ StartsFree post) :
    Spread (regrown start pre B n post fl).blocks := by
  unfold regrown
  by_cases hb : n + 16 ≤ B
  · rw [if_pos hb]
    simp only [spread_mid, spread_cons, startsFree_cons]
    exact ⟨hpre, ⟨hpost, fun _ => hnext hb⟩, by simp⟩
  · rw [if_neg hb]
    simp only [spread_mid]
    exact ⟨hpre, hpost, by simp⟩

/-- The one growth that leaves two free neighbours. -/
def Strands (n c : Nat) (pre post : List Block) : Prop :=
  c < n ∧ ¬ NextFits n c post ∧ StartsFree post ∧
    ∃ pre' p, pre = pre' ++ [⟨p, false⟩] ∧ n + 16 ≤ p + 12 + c

theorem Realloc.spread {start n c r : Nat} {pre post : List Block} {fl : List Nat} {A' : Abs}
    (hr : Realloc start n c pre post fl r A') (hs : Spread (pre ++ ⟨c, true⟩ :: post))
    (ok : ¬ Strands n c pre post) : Spread A'.blocks := by
  have hrow := spread_mid.mp hs
  cases hr with
  | full empty => exact hs
  | same ready eq => exact hs
  | growNext larger next fits =>
    subst next
    rw [spread_cons] at hrow
    exact regrown_spread hrow.1 hrow.2.1.1 fun _ => hrow.2.1.2 rfl
  | growPrev larger noNext prev fits =>
    subst prev
    rw [spread_append] at hrow
    refine regrown_spread hrow.1.1 hrow.2.1 fun hb hstart => ok ?_
    exact ⟨larger, noNext, hstart, _, _, rfl, hb⟩
  | growBoth larger noNext noPrev prev next fits =>
    subst prev
    subst next
    have hpre := spread_append.mp hrow.1
    have hpost := spread_cons.mp hrow.2.1
    exact regrown_spread hpre.1 hpost.1 fun _ => hpost.2 rfl
  | fail larger noNext noPrev noBoth none => exact hs
  | moved larger noNext noPrev noBoth malloc found place release =>
    exact release.spread (malloc.spread hs)
  | leaked larger noNext noPrev noBoth malloc found stuck => exact malloc.spread hs
  | release zero larger gone => exact gone.spread hs
  | keep ready nonzero smaller tight => exact hs
  | shrink nonzero room rest =>
    apply rest.spread
    rw [spread_mid, spread_append, startsFree_cons]
    exact ⟨⟨hrow.1, ⟨by simp, trivial⟩, by simp⟩, hrow.2.1, by simp⟩

end WaddleOS
