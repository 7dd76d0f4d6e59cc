import Mathlib.Data.List.Chain
import WaddleOS.Base.Chain

/-!
# Rings threaded through two link functions

`Ring next prev xs` says that the nodes `xs` are joined in a circle: each
node's `next` is the one after it, the last one's is the first, and `prev`
leads back. A ring has no distinguished start, so an edit anywhere is an edit
before the first node of some rotation.
-/

namespace WaddleOS

variable {Node : Type}

def Joined (next prev : Node → Node) (a b : Node) : Prop := next a = b ∧ prev b = a

/-- The nodes `xs` form a circle in this order. -/
def Ring (next prev : Node → Node) : List Node → Prop
  | [] => True
  | x :: xs => (x :: xs ++ [x]).IsChain (Joined next prev)

variable {next prev next' prev' : Node → Node}

theorem Ring.rotate {l r : List Node} (h : Ring next prev (l ++ r)) : Ring next prev (r ++ l) := by
  cases l with
  | nil => simpa using h
  | cons x l =>
    cases r with
    | nil => simpa using h
    | cons y r =>
      have hsplit : (x :: l ++ y :: (r ++ [x])).IsChain (Joined next prev) := by
        simpa [Ring] using h
      obtain ⟨hl, hr⟩ := List.isChain_split.mp hsplit
      have hback : (y :: r ++ x :: (l ++ [y])).IsChain (Joined next prev) :=
        List.isChain_split.mpr ⟨hr, hl⟩
      simpa [Ring] using hback

/-- A ring depends only on the links of its own nodes. -/
theorem Ring.congr {xs : List Node} (h : Ring next prev xs) (hn : ∀ x ∈ xs, next' x = next x)
    (hp : ∀ x ∈ xs, prev' x = prev x) : Ring next' prev' xs := by
  cases xs with
  | nil => trivial
  | cons x xs =>
    refine List.IsChain.imp_of_mem_imp ?_ h
    intro a b ha hb hj
    have ha' : a ∈ x :: xs := by simpa [or_comm] using ha
    have hb' : b ∈ x :: xs := by simpa [or_comm] using hb
    exact ⟨(hn a ha').trans hj.1, (hp b hb').trans hj.2⟩

/-- Neighbours in the circle's list are joined. -/
theorem Ring.joined {xs : List Node} {i : Nat} {a b : Node} (h : Ring next prev xs)
    (ha : xs[i]? = some a) (hb : xs[i + 1]? = some b) : Joined next prev a b := by
  cases xs with
  | nil => simp at ha
  | cons x xs =>
    have hchain := (List.isChain_append.mp h).1
    obtain ⟨hi, rfl⟩ := List.getElem?_eq_some_iff.mp ha
    obtain ⟨hi', rfl⟩ := List.getElem?_eq_some_iff.mp hb
    exact List.isChain_iff_getElem.mp hchain i hi'

/-- A chain survives a change of links out of its last node and back from its first. -/
theorem chain_kept {ys : List Node} (hc : ys.IsChain (Joined next prev)) (nodup : ys.Nodup)
    (nextKept : ∀ y ∈ ys, ys.getLast? ≠ some y → next' y = next y)
    (prevKept : ∀ y ∈ ys, ys.head? ≠ some y → prev' y = prev y) :
    ys.IsChain (Joined next' prev') := by
  rw [List.isChain_iff_getElem] at hc ⊢
  intro i hi
  have old := hc i hi
  have inner : ys.getLast? ≠ some ys[i] := by
    rw [List.getLast?_eq_getElem?, List.getElem?_eq_getElem (by omega), Ne, Option.some_inj,
      nodup.getElem_inj_iff]
    omega
  have later : ys.head? ≠ some ys[i + 1] := by
    rw [List.head?_eq_getElem?, List.getElem?_eq_getElem (by omega), Ne, Option.some_inj,
      nodup.getElem_inj_iff]
    omega
  exact ⟨(nextKept _ (List.getElem_mem _) inner).trans old.1,
    (prevKept _ (List.getElem_mem _) later).trans old.2⟩

theorem ring_iff {l : List Node} {x z : Node} (hx : (l ++ [z]).head? = some x) :
    Ring next prev (l ++ [z]) ↔
      (l ++ [z]).IsChain (Joined next prev) ∧ Joined next prev z x := by
  have hsplit : (l ++ z :: [x]).IsChain (Joined next prev) ↔
      (l ++ [z]).IsChain (Joined next prev) ∧ Joined next prev z x := by
    rw [List.isChain_split, List.isChain_pair]
  rw [← hsplit]
  cases l with
  | nil =>
    obtain rfl : z = x := by simpa using hx
    simp [Ring]
  | cons y l =>
    obtain rfl : y = x := by simpa using hx
    simp [Ring]

/-- The node before the first is the last one. -/
theorem Ring.pred {x : Node} {xs : List Node} (h : Ring next prev (x :: xs)) :
    next (prev x) = x ∧ (x :: xs).getLast? = some (prev x) := by
  obtain ⟨l, z, hlz⟩ := (List.eq_nil_or_concat' (x :: xs)).resolve_left (by simp)
  have hx : (l ++ [z]).head? = some x := by rw [← hlz]; rfl
  obtain ⟨-, hnext, hprev⟩ := (ring_iff hx).mp (hlz ▸ h)
  rw [hlz, hprev]
  exact ⟨hnext, by simp⟩

/-- The node after the first is the second, or the first again when it is alone. -/
theorem Ring.succ {x : Node} {xs : List Node} (h : Ring next prev (x :: xs)) :
    prev (next x) = x ∧ next x = xs.headD x := by
  cases xs with
  | nil =>
    have hj : Joined next prev x x := by simpa [Ring] using h
    exact ⟨by rw [hj.1, hj.2], hj.1⟩
  | cons y xs =>
    have hj : Joined next prev x y := (List.isChain_cons_cons.mp h).1
    exact ⟨by rw [hj.1, hj.2], hj.1⟩

/-- Put `n` between the first node and the one before it. -/
theorem Ring.insert {x n : Node} {xs : List Node} (h : Ring next prev (x :: xs))
    (nodup : (x :: xs).Nodup) (before : next' (prev x) = n)
    (after : prev' x = n) (linkNext : next' n = x) (linkPrev : prev' n = prev x)
    (nextKept : ∀ y ∈ x :: xs, y ≠ prev x → next' y = next y)
    (prevKept : ∀ y ∈ x :: xs, y ≠ x → prev' y = prev y) :
    Ring next' prev' (x :: xs ++ [n]) := by
  obtain ⟨l, z, hlz⟩ := (List.eq_nil_or_concat' (x :: xs)).resolve_left (by simp)
  have hx : (l ++ [z]).head? = some x := by rw [← hlz]; rfl
  rw [hlz] at h nodup nextKept prevKept ⊢
  obtain ⟨hchain, hclose⟩ := (ring_iff hx).mp h
  have hz : prev x = z := hclose.2
  have kept : (l ++ [z]).IsChain (Joined next' prev') := by
    apply chain_kept hchain nodup
    · intro y hy hne
      refine nextKept y hy (fun heq => hne ?_)
      simp [heq, hz]
    · intro y hy hne
      refine prevKept y hy (fun heq => hne ?_)
      rw [heq, hx]
  rw [ring_iff (x := x) (by simpa using hx), List.append_assoc, List.singleton_append,
    List.isChain_split, List.isChain_pair]
  exact ⟨⟨kept, by rw [← hz]; exact ⟨before, linkPrev⟩⟩, linkNext, after⟩

/-- Join the neighbours of the first node past it. -/
theorem Ring.remove {x : Node} {xs : List Node} (h : Ring next prev (x :: xs))
    (nodup : (x :: xs).Nodup) (before : next' (prev x) = next x) (after : prev' (next x) = prev x)
    (nextKept : ∀ y ∈ xs, y ≠ prev x → next' y = next y)
    (prevKept : ∀ y ∈ xs, y ≠ next x → prev' y = prev y) : Ring next' prev' xs := by
  rcases List.eq_nil_or_concat' xs with rfl | ⟨l, z, rfl⟩
  · trivial
  · obtain ⟨y, hy⟩ : ∃ y, (l ++ [z]).head? = some y := by
      cases l <;> simp
    obtain ⟨hchain, hclose⟩ := (ring_iff (l := x :: l) (x := x) rfl).mp h
    have hz : prev x = z := hclose.2
    rw [List.cons_append, List.isChain_cons] at hchain
    have hnext : next x = y := (hchain.1 y hy).1
    rw [ring_iff hy]
    refine ⟨?_, by rw [← hz, before, hnext], by rw [← hnext, after, hz]⟩
    apply chain_kept hchain.2 (List.nodup_cons.mp nodup).2
    · intro w hw hne
      refine nextKept w hw (fun heq => hne ?_)
      simp [heq, hz]
    · intro w hw hne
      refine prevKept w hw (fun heq => hne ?_)
      rw [heq, hnext, hy]

theorem seg_of_chain {l : List Node} {a b : Node}
    (h : (a :: l ++ [b]).IsChain (Joined next prev)) : Seg next a (a :: l) b := by
  induction l generalizing a with
  | nil =>
    have hj : Joined next prev a b := List.isChain_pair.mp h
    exact ⟨rfl, hj.1⟩
  | cons y l ih =>
    obtain ⟨hj, hrest⟩ := List.isChain_cons_cons.mp h
    refine ⟨rfl, ?_⟩
    rw [hj.1]
    exact ih hrest

/-- Following `next` from the first node visits the circle and comes back to it. -/
theorem Ring.seg_next {x : Node} {xs : List Node} (h : Ring next prev (x :: xs)) :
    Seg next x (x :: xs) x :=
  seg_of_chain h

theorem Ring.next_mem {y : Node} {xs : List Node} (h : Ring next prev xs) (hy : y ∈ xs) :
    next y ∈ xs := by
  obtain ⟨l, r, rfl⟩ := List.append_of_mem hy
  have hsucc : next y = (r ++ l).headD y := h.rotate.succ.2
  cases hrest : r ++ l with
  | nil =>
    rw [hrest, List.headD_nil] at hsucc
    rwa [hsucc]
  | cons z t =>
    have hz : z ∈ r ++ l := hrest ▸ List.mem_cons_self
    rw [hrest, List.headD_cons] at hsucc
    rw [hsucc]
    rcases List.mem_append.mp hz with hz | hz
    · exact List.mem_append_right l (List.mem_cons_of_mem y hz)
    · exact List.mem_append_left _ hz

/-- The nodes of a circle are those that following `next` leads to. -/
theorem Ring.mem_iff_iterate {x y : Node} {xs : List Node} (h : Ring next prev (x :: xs)) :
    y ∈ x :: xs ↔ ∃ k, next^[k] x = y := by
  constructor
  · intro hy
    obtain ⟨l, r, hsplit⟩ := List.append_of_mem hy
    have hseg := h.seg_next
    rw [hsplit] at hseg
    exact ⟨l.length, hseg.iterate⟩
  · rintro ⟨k, rfl⟩
    induction k with
    | zero => exact List.mem_cons_self
    | succ k ih =>
      rw [Function.iterate_succ_apply']
      exact h.next_mem ih

/-- Read backwards, a circle is one of the links exchanged. -/
theorem Ring.reverse {xs : List Node} (h : Ring next prev xs) : Ring prev next xs.reverse := by
  cases xs with
  | nil => trivial
  | cons x xs =>
    have hflip : (x :: xs ++ [x]).reverse.IsChain (Joined prev next) := by
      rw [List.isChain_reverse]
      exact List.IsChain.imp (fun a b hj => ⟨hj.2, hj.1⟩) h
    have hring : Ring prev next ([x] ++ xs.reverse) := by
      simpa [Ring] using hflip
    simpa using hring.rotate

end WaddleOS
