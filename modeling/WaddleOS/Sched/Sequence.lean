import Mathlib.Data.List.InsertIdx
import Mathlib.Data.Set.Basic
import WaddleOS.Base.Ring
import WaddleOS.Base.Run
import WaddleOS.Sched.List

/-!
# The circular list is a sequence

Each list head stands for a sequence of elements. `ListHolds s h xs` ties the
memory to it: the elements of `xs` form a ring, know their head, and the head
knows the first of them and how many there are. Every call is one `Edit` of
one sequence; an `Edit` leaves every other list and every other element alone.
-/

namespace WaddleOS

/-- An element in no list: `head`, `prev` and `next` are null. -/
def detached : ListElem := ⟨0, 0, 0⟩

/-- The elements `xs` are linked in a circle that belongs to the head `h`. -/
structure Circle (s : Lists) (h : Nat) (xs : List Nat) : Prop where
  len : (s.heads h).len = xs.length
  room : (xs.length : Int) ≤ intMax
  ring : Ring (fun e => (s.elems e).next) (fun e => (s.elems e).prev) xs
  nodup : xs.Nodup
  owner : ∀ e ∈ xs, (s.elems e).head = h

/-- The list at `h` holds the sequence `xs`. -/
structure ListHolds (s : Lists) (h : Nat) (xs : List Nat) : Prop extends Circle s h xs where
  first : (s.heads h).first = xs.headD 0

/-- From `s` to `s'` the circle at `h` went from `xs` to `xs'` and no other list changed. -/
structure Relinked (s s' : Lists) (h : Nat) (xs xs' : List Nat) : Prop where
  circle : Circle s' h xs'
  heads : ∀ h', h' ≠ h → s'.heads h' = s.heads h'
  elems : ∀ e, e ∉ xs → e ∉ xs' → s'.elems e = s.elems e
  dropped : ∀ e ∈ xs, e ∉ xs' → s'.elems e = detached
  added : ∀ e ∈ xs', e ∉ xs → s.elems e = detached

/-- From `s` to `s'` the list at `h` went from `xs` to `xs'`. -/
structure Edit (s s' : Lists) (h : Nat) (xs xs' : List Nat) : Prop
    extends Relinked s s' h xs xs' where
  first : (s'.heads h).first = xs'.headD 0

theorem Edit.holds {s s' : Lists} {h : Nat} {xs xs' : List Nat} (d : Edit s s' h xs xs') :
    ListHolds s' h xs' :=
  ⟨d.circle, d.first⟩

section Circle

variable {s s' : Lists} {h : Nat} {xs l r : List Nat}

theorem Circle.rotate (c : Circle s h (l ++ r)) : Circle s h (r ++ l) where
  len := by simpa [Int.add_comm] using c.len
  room := by simpa [Int.add_comm] using c.room
  ring := c.ring.rotate
  nodup := List.nodup_append_comm.mp c.nodup
  owner := fun e he => c.owner e (by simpa [or_comm] using he)

/-- A detached element is in no circle. -/
theorem Circle.not_mem {n : Nat} (c : Circle s h xs) (hh : h ≠ 0) (hn : s.elems n = detached) :
    n ∉ xs := by
  intro hmem
  have howner := c.owner n hmem
  rw [hn] at howner
  exact hh howner.symm

theorem listInsertBetween_eq {p x n : Nat} (hp : (s.elems p).next = x) (hx : (s.elems x).prev = p)
    (hn : (s.elems n).head = 0) (hnp : n ≠ p) (hnx : n ≠ x) (hroom : (s.heads h).len < intMax) :
    listInsertBetween s h p x n = .ok
      ⟨Function.update s.heads h ⟨(s.heads h).first, (s.heads h).len + 1⟩,
        fun y => if y = n then ⟨h, p, x⟩
          else ⟨(s.elems y).head, if y = x then n else (s.elems y).prev,
            if y = p then n else (s.elems y).next⟩⟩ := by
  simp only [listInsertBetween, assert_ok hp, assert_ok hx, assert_ok hn, Lists.setNext,
    Lists.setPrev, Lists.setHead]
  refine incLen_eq_ok.mpr ⟨hroom, congrArg₂ Lists.mk rfl (funext fun y => ?_)⟩
  by_cases hy : y = n
  · subst hy
    simp [Function.update_apply]
  · by_cases hyx : y = x <;> by_cases hyp : y = p <;> simp_all [Function.update_apply]

theorem listRemoveElem_eq {p x e : Nat} (hp : (s.elems e).prev = p) (hx : (s.elems e).next = x) :
    listRemoveElem s h e =
      ⟨Function.update s.heads h ⟨(s.heads h).first, (s.heads h).len - 1⟩,
        fun y => if y = e then detached
          else ⟨(s.elems y).head, if y = x then p else (s.elems y).prev,
            if y = p then x else (s.elems y).next⟩⟩ := by
  simp only [listRemoveElem, hp, hx, Lists.setNext, Lists.setPrev, Lists.setHead, Lists.setLen]
  refine congrArg₂ Lists.mk rfl (funext fun y => ?_)
  by_cases hy : y = e
  · subst hy
    simp [Function.update_apply, detached]
  · by_cases hyx : y = x <;> by_cases hyp : y = p <;> simp_all [Function.update_apply]

/-- Only the head `h` and the elements `touched` may differ, and `h` keeps its first. -/
structure Around (s s' : Lists) (h : Nat) (touched : List Nat) : Prop where
  first : (s'.heads h).first = (s.heads h).first
  heads : ∀ h', h' ≠ h → s'.heads h' = s.heads h'
  elems : ∀ e, e ∉ touched → s'.elems e = s.elems e

/-- `_list_insert` before the first element of a circle puts the new one last. -/
theorem Circle.insert {x n : Nat} (c : Circle s h (x :: xs)) (hh : h ≠ 0)
    (hn : s.elems n = detached) (hroom : (s.heads h).len < intMax) :
    ∃ s', listInsertBetween s h (s.elems x).prev x n = .ok s' ∧
      Circle s' h (x :: xs ++ [n]) ∧ Around s s' h (x :: xs ++ [n]) := by
  obtain ⟨hnext, hlast⟩ := c.ring.pred
  have hp : (s.elems x).prev ∈ x :: xs := List.mem_of_getLast? hlast
  have hfresh : n ∉ x :: xs := c.not_mem hh hn
  have hnp : n ≠ (s.elems x).prev := fun heq => hfresh (heq ▸ hp)
  have hnx : n ≠ x := fun heq => hfresh (heq ▸ List.mem_cons_self)
  refine ⟨_, listInsertBetween_eq hnext rfl (by rw [hn]; rfl) hnp hnx hroom, ?_, ?_⟩
  · constructor
    · simp [c.len]
    · rw [c.len] at hroom
      rw [List.length_append, List.length_singleton]
      omega
    · have old : ∀ y ∈ x :: xs, y ≠ n := fun y hy heq => hfresh (heq ▸ hy)
      apply c.ring.insert c.nodup
      · simp [hnp.symm]
      · simp [hnx.symm]
      · simp
      · simp
      · intro y hy hne
        simp only [old y hy, hne, ite_false]
      · intro y hy hne
        simp only [old y hy, hne, ite_false]
    · rw [List.nodup_append]
      refine ⟨c.nodup, List.nodup_singleton n, ?_⟩
      rintro a ha b hb rfl
      exact hfresh (List.mem_singleton.mp hb ▸ ha)
    · intro e he
      by_cases hen : e = n
      · simp [hen]
      · have hmem : e ∈ x :: xs := by simpa [hen] using he
        simp [hen, c.owner e hmem]
  · constructor
    · simp
    · intro h' hne
      simp [hne]
    · intro e he
      have hout : e ∉ x :: xs ∧ e ≠ n := by simpa [and_assoc] using he
      have hex : e ≠ x := fun heq => hout.1 (heq ▸ List.mem_cons_self)
      have hep : e ≠ (s.elems x).prev := fun heq => hout.1 (heq ▸ hp)
      simp only [hout.2, hex, hep, ite_false]

/-- `_list_remove` of the first element of a circle leaves the rest of it. -/
theorem Circle.remove {x : Nat} (c : Circle s h (x :: xs)) :
    Circle (listRemoveElem s h x) h xs ∧ Around s (listRemoveElem s h x) h (x :: xs) ∧
      (listRemoveElem s h x).elems x = detached := by
  obtain ⟨-, hlast⟩ := c.ring.pred
  obtain ⟨-, hhead⟩ := c.ring.succ
  have hp : (s.elems x).prev ∈ x :: xs := List.mem_of_getLast? hlast
  have hnx : (s.elems x).next ∈ x :: xs := by
    rw [hhead]
    cases xs <;> simp
  obtain ⟨hnot, hnodup⟩ := List.nodup_cons.mp c.nodup
  have old : ∀ y ∈ xs, y ≠ x := fun y hy heq => hnot (heq ▸ hy)
  rw [listRemoveElem_eq rfl rfl]
  refine ⟨?_, ?_, by simp⟩
  · constructor
    · simp [c.len]
    · have hroom := c.room
      rw [List.length_cons] at hroom
      omega
    · cases xs with
      | nil => trivial
      | cons y t =>
        have hny : (s.elems x).next = y := hhead
        have hpx : (s.elems x).prev ≠ x := by
          intro heq
          have hmem : (s.elems x).prev ∈ y :: t := List.mem_of_getLast? (by simpa using hlast)
          exact old _ hmem heq
        have hyx : (s.elems x).next ≠ x := by
          rw [hny]
          exact old y List.mem_cons_self
        apply c.ring.remove c.nodup
        · simp [hpx]
        · simp [hyx]
        · intro w hw hne
          simp only [old w hw, hne, ite_false]
        · intro w hw hne
          simp only [old w hw, hne, ite_false]
    · exact hnodup
    · intro e he
      simp [old e he, c.owner e (List.mem_cons_of_mem x he)]
  · constructor
    · simp
    · intro h' hne
      simp [hne]
    · intro e he
      have hex : e ≠ x := fun heq => he (heq ▸ List.mem_cons_self)
      have hep : e ≠ (s.elems x).prev := fun heq => he (heq ▸ hp)
      have hen : e ≠ (s.elems x).next := fun heq => he (heq ▸ hnx)
      simp only [hex, hep, hen, ite_false]

theorem Circle.setFirst (c : Circle s h xs) (v : Nat) : Circle (s.setFirst h v) h xs where
  len := by simpa [Lists.setFirst] using c.len
  room := c.room
  ring := c.ring
  nodup := c.nodup
  owner := c.owner

/-- The element before the first one is the last. -/
theorem ListHolds.last {z : Nat} (c : ListHolds s h (l ++ [z])) : (s.elems (s.heads h).first).prev = z := by
  obtain ⟨x, t, hxt⟩ := List.exists_cons_of_ne_nil (l := l ++ [z]) (by simp)
  have hring := c.ring
  rw [hxt] at hring
  have hlast := hring.pred.2
  rw [c.first, hxt]
  rw [← hxt] at hlast
  simpa using hlast.symm

/-- The element at `i` of `l ++ e :: r`, rotated to the front. -/
theorem Circle.toFront {e : Nat} (c : Circle s h (l ++ e :: r)) : Circle s h (e :: (r ++ l)) := by
  simpa using c.rotate

end Circle

section Calls

variable {s s' : Lists} {h n e : Nat} {xs l r : List Nat}

theorem Circle.relinked_insert {touched : List Nat} (c' : Circle s' h (l ++ n :: r))
    (a : Around s s' h touched) (inside : ∀ y ∈ touched, y ∈ l ++ n :: r)
    (hn : s.elems n = detached) : Relinked s s' h (l ++ r) (l ++ n :: r) where
  circle := c'
  heads := a.heads
  elems := fun y _ hy => a.elems y (fun hmem => hy (inside y hmem))
  dropped := by
    intro y hy hout
    simp only [List.mem_append, List.mem_cons, not_or] at hy hout
    exact absurd hy (by simp [hout])
  added := by
    intro y hy hout
    simp only [List.mem_append, List.mem_cons, not_or] at hy hout
    have hyn : y = n := by simpa [hout] using hy
    rw [hyn, hn]

theorem Circle.relinked_remove {touched : List Nat} (c' : Circle s' h (l ++ r))
    (a : Around s s' h touched) (inside : ∀ y ∈ touched, y ∈ l ++ e :: r)
    (gone : s'.elems e = detached) : Relinked s s' h (l ++ e :: r) (l ++ r) where
  circle := c'
  heads := a.heads
  elems := fun y hy _ => a.elems y (fun hmem => hy (inside y hmem))
  dropped := by
    intro y hy hout
    simp only [List.mem_append, List.mem_cons, not_or] at hy hout
    have hye : y = e := by simpa [hout] using hy
    rw [hye, gone]
  added := by
    intro y hy hout
    simp only [List.mem_append, List.mem_cons, not_or] at hy hout
    exact absurd hy (by simp [hout])

/-- Choosing the first element of a circle settles which sequence it is. -/
theorem Relinked.setFirst {xs' ys : List Nat} {v : Nat} (d : Relinked s s' h xs xs')
    (c : Circle s' h ys) (same : ∀ y, y ∈ ys ↔ y ∈ xs') (hv : v = ys.headD 0) :
    Edit s (s'.setFirst h v) h xs ys where
  circle := c.setFirst v
  first := by simpa [Lists.setFirst] using hv
  heads := by
    intro h' hne
    simp [Lists.setFirst, hne, d.heads h' hne]
  elems := fun y hy hy' => d.elems y hy (fun hmem => hy' ((same y).mpr hmem))
  dropped := fun y hy hy' => d.dropped y hy (fun hmem => hy' ((same y).mpr hmem))
  added := fun y hy hy' => d.added y ((same y).mp hy) hy'

theorem listPush_spec (c : ListHolds s h xs) (hh : h ≠ 0) (hn : s.elems n = detached) (hn0 : n ≠ 0)
    (hroom : (s.heads h).len < intMax) :
    ∃ s', listPush s h n = .ok s' ∧ Edit s s' h xs (xs ++ [n]) := by
  simp only [listPush, assert_bind_eq_ok]
  cases xs with
  | nil =>
    have hlen : (s.heads h).len = 0 := c.len
    refine ⟨⟨Function.update s.heads h ⟨n, 1⟩, Function.update s.elems n ⟨h, n, n⟩⟩,
      ⟨hh, hn0, ?_⟩, ?_⟩
    · rw [if_pos hlen, incLen_eq_ok]
      constructor
      · simpa [Lists.setFirst, Lists.setNext, Lists.setPrev, Lists.setHead] using hroom
      · simp [hlen, Lists.setFirst, Lists.setNext, Lists.setPrev, Lists.setHead, Lists.setLen]
    · refine ⟨⟨⟨by simp, by simp [intMax], by simp [Ring, Joined], by simp, by simp⟩, ?_, ?_,
        by simp, ?_⟩, by simp⟩
      · intro h' hne
        simp [hne]
      · intro y _ hy
        simp only [List.nil_append, List.mem_singleton] at hy
        simp [hy]
      · intro y hy _
        simp only [List.nil_append, List.mem_singleton] at hy
        rw [hy, hn]
  | cons x t =>
    have hlen : (s.heads h).len ≠ 0 := by
      rw [c.len, List.length_cons]
      omega
    have hfirst : (s.heads h).first = x := c.first
    obtain ⟨s', hs', hc, ha⟩ := c.toCircle.insert hh hn hroom
    refine ⟨s', ⟨hh, hn0, by rw [if_neg hlen, hfirst, hs']⟩, ?_⟩
    have hlink := Circle.relinked_insert (l := x :: t) (r := []) hc ha (fun y hy => hy) hn
    rw [List.append_nil] at hlink
    exact ⟨hlink, ha.first.trans hfirst⟩

theorem listPushFirst_spec (c : ListHolds s h xs) (hh : h ≠ 0) (hn : s.elems n = detached)
    (hn0 : n ≠ 0) (hroom : (s.heads h).len < intMax) :
    ∃ s', listPushFirst s h n = .ok s' ∧ Edit s s' h xs (n :: xs) := by
  obtain ⟨s', hs', hd⟩ := listPush_spec c hh hn hn0 hroom
  have hlast := hd.holds.last
  simp only [listPushFirst, assert_bind_eq_ok]
  refine ⟨s'.setFirst h n, ⟨hh, hn0, bind_eq_ok.mpr ⟨s', hs', by rw [hlast]; rfl⟩⟩, ?_⟩
  exact hd.setFirst hd.circle.rotate (by simp [or_comm]) rfl

theorem listPop_spec {z : Nat} (c : ListHolds s h (l ++ [z])) (hh : h ≠ 0) :
    ∃ s', listPop s h = .ok s' ∧ Edit s s' h (l ++ [z]) l := by
  have hlen : (s.heads h).len = l.length + 1 := by simpa using c.len
  obtain ⟨hc, ha, hgone⟩ := c.toCircle.toFront.remove
  rw [List.nil_append] at hc ha
  have hlen' : ((listRemoveElem s h z).heads h).len = l.length := hc.len
  have hlink := Circle.relinked_remove (e := z) (r := []) (by simpa using hc) ha
    (by simp [or_comm]) hgone
  rw [List.append_nil] at hlink
  simp only [listPop, assert_bind_eq_ok, c.last, hlen']
  cases l with
  | nil =>
    exact ⟨_, ⟨hh, by omega, rfl⟩, hlink.setFirst hc (by simp) rfl⟩
  | cons x t =>
    refine ⟨_, ⟨hh, by omega, rfl⟩, ?_⟩
    rw [if_neg (by simp; omega)]
    exact ⟨hlink, ha.first.trans c.first⟩

theorem listPopFirst_spec {x : Nat} (c : ListHolds s h (x :: xs)) (hh : h ≠ 0) :
    ∃ s', listPopFirst s h = .ok s' ∧ Edit s s' h (x :: xs) xs := by
  have hlen : (s.heads h).len = xs.length + 1 := by simpa using c.len
  have hfirst : (s.heads h).first = x := c.first
  obtain ⟨hc, ha, hgone⟩ := c.toCircle.remove
  have hlen' : ((listRemoveElem s h x).heads h).len = xs.length := hc.len
  have hlink := Circle.relinked_remove (l := []) (r := xs) hc ha (fun y hy => hy) hgone
  simp only [listPopFirst, assert_bind_eq_ok, hfirst, hlen']
  refine ⟨_, ⟨hh, by omega, rfl⟩, hlink.setFirst hc (fun y => Iff.rfl) ?_⟩
  cases xs with
  | nil => rfl
  | cons y t =>
    rw [if_neg (by simp; omega)]
    exact c.ring.succ.2

theorem insertIdx_middle (l r : List Nat) (n : Nat) :
    (l ++ r).insertIdx l.length n = l ++ n :: r := by
  induction l with
  | nil => rfl
  | cons x l ih => rw [List.cons_append, List.length_cons, List.insertIdx_succ_cons, ih]; rfl

theorem exists_split {i : Nat} (hi : i < xs.length) :
    ∃ l b r, xs = l ++ b :: r ∧ i = l.length :=
  ⟨xs.take i, xs[i], xs.drop (i + 1), by simp, by simp; omega⟩

/-- Walking forwards from the element at `k` reaches the one at `i`. -/
theorem listWalk_forwards {i k fuel : Nat} {a b : Nat} (c : Circle s h xs) (ha : xs[k]? = some a)
    (hb : xs[i]? = some b) (hki : k ≤ i) (hfuel : i - k ≤ fuel) :
    listWalk s false i fuel k a = .ok b := by
  induction fuel generalizing k a with
  | zero =>
    obtain rfl : k = i := by omega
    rw [listWalk, if_pos rfl, Option.some_inj.mp (ha.symm.trans hb)]
  | succ fuel ih =>
    by_cases hk : k = i
    · subst hk
      rw [listWalk, if_pos rfl, Option.some_inj.mp (ha.symm.trans hb)]
    · have hlt : k + 1 < xs.length := by
        have := (List.getElem?_eq_some_iff.mp hb).1
        omega
      have hnext : (s.elems a).next = xs[k + 1] :=
        (c.ring.joined ha (List.getElem?_eq_getElem hlt)).1
      rw [listWalk, if_neg (by omega)]
      have hrest := ih (k := k + 1) (List.getElem?_eq_getElem hlt) (by omega) (by omega)
      simpa [hnext] using hrest

/-- Walking backwards from the element at `k` reaches the one at `i`. -/
theorem listWalk_backwards {i k fuel : Nat} {a b : Nat} (c : Circle s h xs) (ha : xs[k]? = some a)
    (hb : xs[i]? = some b) (hki : i ≤ k) (hfuel : k - i ≤ fuel) :
    listWalk s true i fuel k a = .ok b := by
  induction fuel generalizing k a with
  | zero =>
    obtain rfl : k = i := by omega
    rw [listWalk, if_pos rfl, Option.some_inj.mp (ha.symm.trans hb)]
  | succ fuel ih =>
    by_cases hk : k = i
    · subst hk
      rw [listWalk, if_pos rfl, Option.some_inj.mp (ha.symm.trans hb)]
    · obtain ⟨k, rfl⟩ : ∃ k', k = k' + 1 := ⟨k - 1, by omega⟩
      have hlt : k < xs.length := by
        have := (List.getElem?_eq_some_iff.mp ha).1
        omega
      have hprev : (s.elems a).prev = xs[k] :=
        (c.ring.joined (List.getElem?_eq_getElem hlt) ha).2
      rw [listWalk, if_neg (by omega)]
      have hrest := ih (k := k) (List.getElem?_eq_getElem hlt) (by omega) (by omega)
      simpa [hprev] using hrest

/-- `list_get` finds the element at every index, whichever way it walks. -/
theorem listGet_spec {i b : Nat} (c : ListHolds s h xs) (hh : h ≠ 0) (hb : xs[i]? = some b) :
    listGet s h i = .ok b := by
  have hi : i < xs.length := (List.getElem?_eq_some_iff.mp hb).1
  have hlen : (s.heads h).len = xs.length := c.len
  simp only [listGet, assert_bind_eq_ok, hlen]
  refine ⟨hh, by omega, by omega, ?_⟩
  by_cases hdir : (i : Int) > (xs.length : Int).tdiv 2
  · -- the first step backwards goes from the first element to the last
    obtain ⟨l, z, rfl⟩ := (List.eq_nil_or_concat' xs).resolve_left (by rintro rfl; simp at hi)
    have hlast : (l ++ [z])[l.length]? = some z := by simp
    simp only [List.length_append, List.length_singleton] at hi hdir ⊢
    have hstep := listWalk_backwards c.toCircle hlast hb (by omega)
      (by omega : l.length - i ≤ l.length)
    simp only [hdir, decide_true, ite_true, Int.toNat_natCast]
    rw [listWalk, if_neg (by omega)]
    simpa [c.last] using hstep
  · obtain ⟨x, t, rfl⟩ := List.exists_cons_of_ne_nil (l := xs) (by rintro rfl; simp at hi)
    have hstep := listWalk_forwards (k := 0) (a := x) c.toCircle rfl hb (Nat.zero_le i)
      (by omega : i - 0 ≤ (x :: t).length)
    have hfirst : (s.heads h).first = x := c.first
    simp only [hdir, decide_false, Bool.false_eq_true, ite_false, hfirst, Int.toNat_natCast]
    exact hstep

theorem listInsert_spec {i : Nat} (c : ListHolds s h xs) (hh : h ≠ 0) (hn : s.elems n = detached)
    (hn0 : n ≠ 0) (hi : i ≤ xs.length) (hroom : (s.heads h).len < intMax) :
    ∃ s', listInsert s h n i = .ok s' ∧ Edit s s' h xs (xs.insertIdx i n) := by
  have hlen : (s.heads h).len = xs.length := c.len
  simp only [listInsert, assert_bind_eq_ok, hlen]
  by_cases hzero : i = 0
  · subst hzero
    obtain ⟨s', hs', hd⟩ := listPushFirst_spec c hh hn hn0 hroom
    exact ⟨s', ⟨hh, by omega, by omega, hn0, by simpa using hs'⟩, hd⟩
  by_cases hfull : i = xs.length
  · subst hfull
    obtain ⟨s', hs', hd⟩ := listPush_spec c hh hn hn0 hroom
    rw [List.insertIdx_length_self]
    exact ⟨s', ⟨hh, by omega, by omega, hn0, by
      rw [if_neg (by omega), if_pos rfl, hs']⟩, hd⟩
  -- in the middle, at `b` of `l ++ b :: r`: before the first of the rotation `b :: r ++ l`
  obtain ⟨l, b, r, rfl, rfl⟩ := exists_split (by omega : i < xs.length)
  obtain ⟨s', hs', hc, ha⟩ := c.toCircle.toFront.insert hh hn hroom
  have hget := listGet_spec (i := l.length) (b := b) c hh (by simp)
  have hc' : Circle s' h (l ++ n :: (b :: r)) := by
    have hback : Circle s' h ((b :: r) ++ (l ++ [n])) := by simpa using hc
    simpa using hback.rotate
  have hlink := hc'.relinked_insert ha (by simp; tauto) hn
  rw [insertIdx_middle l (b :: r) n]
  refine ⟨s', ⟨hh, by omega, by omega, hn0, ?_⟩, hlink, ?_⟩
  · rw [if_neg (by omega), if_neg (by omega), bind_eq_ok]
    exact ⟨b, hget, hs'⟩
  · obtain ⟨x, t, rfl⟩ := List.exists_cons_of_ne_nil (l := l) (by rintro rfl; simp at hzero)
    exact ha.first.trans c.first

theorem listRemove_spec {i : Nat} (c : ListHolds s h xs) (hh : h ≠ 0) (hi : i < xs.length) :
    ∃ s', listRemove s h i = .ok s' ∧ Edit s s' h xs (xs.eraseIdx i) := by
  have hlen : (s.heads h).len = xs.length := c.len
  simp only [listRemove, assert_bind_eq_ok, hlen]
  by_cases hzero : i = 0
  · subst hzero
    obtain ⟨x, t, rfl⟩ := List.exists_cons_of_ne_nil (l := xs) (by rintro rfl; simp at hi)
    obtain ⟨s', hs', hd⟩ := listPopFirst_spec c hh
    exact ⟨s', ⟨hh, by omega, by omega, by simpa using hs'⟩, hd⟩
  by_cases hlast : i + 1 = xs.length
  · obtain ⟨l, z, rfl⟩ := (List.eq_nil_or_concat' xs).resolve_left (by rintro rfl; simp at hi)
    obtain ⟨s', hs', hd⟩ := listPop_spec c hh
    have hi' : i = l.length := by simpa using hlast
    subst hi'
    have herase : (l ++ [z]).eraseIdx l.length = l := by
      simp [List.eraseIdx_append_of_length_le]
    rw [herase]
    refine ⟨s', ⟨hh, by omega, by omega, ?_⟩, hd⟩
    rw [if_neg (by omega), if_pos (by simp), hs']
  obtain ⟨l, b, r, rfl, rfl⟩ := exists_split hi
  have hget := listGet_spec (i := l.length) (b := b) c hh (by simp)
  obtain ⟨hc, ha, hgone⟩ := c.toCircle.toFront.remove
  have hlink := hc.rotate.relinked_remove ha (by simp; tauto) hgone
  have herase : (l ++ b :: r).eraseIdx l.length = l ++ r := by
    simp [List.eraseIdx_append_of_length_le]
  rw [herase]
  refine ⟨_, ⟨hh, by omega, by omega, ?_⟩, hlink, ?_⟩
  · rw [if_neg (by omega), if_neg (by omega), bind_eq_ok]
    exact ⟨b, hget, rfl⟩
  · obtain ⟨x, t, rfl⟩ := List.exists_cons_of_ne_nil (l := l) (by rintro rfl; simp at hzero)
    exact ha.first.trans c.first

/-- With a callback that leaves the links alone, the loop visits the rest of the list. -/
theorem foreachLoop_spec {σ : Type} {func : Nat → Int → Lists × σ → Lists × σ}
    (keeps : ∀ e i p, (func e i p).1 = p.1) (c : ListHolds s h (l ++ r)) (nonzero : ∀ e ∈ r, e ≠ 0)
    {fuel : Nat} (hfuel : r.length ≤ fuel) {curr : Nat} (hcurr : r.head? = none ∨ r.head? = some curr)
    (a : σ) : foreachLoop h func fuel l.length curr (s, a) =
      .ok ((r.zipIdx l.length).foldl (fun p v => func v.1 v.2 p) (s, a)) := by
  induction r generalizing l fuel curr a with
  | nil =>
    have hlen : (s.heads h).len = l.length := by simpa using c.len
    have hdone : ¬ ((l.length : Int) < (s.heads h).len ∧ curr ≠ 0) := by omega
    cases fuel <;> simp [foreachLoop, hdone]
  | cons x r ih =>
    obtain rfl : x = curr := by simpa using hcurr
    have hlen : (s.heads h).len = l.length + (r.length + 1) := by simpa using c.len
    obtain ⟨fuel, rfl⟩ : ∃ f, fuel = f + 1 := ⟨fuel - 1, by simp at hfuel; omega⟩
    have hx := nonzero x List.mem_cons_self
    obtain ⟨b, hb⟩ : ∃ b, func x l.length (s, a) = (s, b) :=
      ⟨(func x l.length (s, a)).2, Prod.ext (keeps x l.length (s, a)) rfl⟩
    have c' : ListHolds s h ((l ++ [x]) ++ r) := by simpa using c
    have hnext : r.head? = none ∨ r.head? = some (s.elems x).next := by
      cases r with
      | nil => exact Or.inl rfl
      | cons y r =>
        have hj := c.ring.joined (i := l.length) (a := x) (b := y) (by simp) (by simp)
        exact Or.inr (congrArg some hj.1.symm)
    have hrest := ih c' (fun e he => nonzero e (List.mem_cons_of_mem x he))
      (by simpa using hfuel) hnext b
    rw [foreachLoop, if_pos ⟨by rw [hlen]; omega, hx⟩, List.zipIdx_cons, List.foldl_cons]
    simp only [hb]
    simpa using hrest

end Calls

/-- The heads and the elements the callers own; none of them is at address 0. -/
structure ListStorage where
  heads : List Nat
  elems : Set Nat
  head_ne : ∀ h ∈ heads, h ≠ 0
  elem_ne : ∀ e ∈ elems, e ≠ 0

/-- What the calls mean on the sequences. -/
def seqStep (q : Nat → List Nat) : ListOp → Nat → List Nat
  | .push h n => Function.update q h (q h ++ [n])
  | .pushFirst h n => Function.update q h (n :: q h)
  | .insert h n i => Function.update q h ((q h).insertIdx i.toNat n)
  | .remove h i => Function.update q h ((q h).eraseIdx i.toNat)
  | .pop h => Function.update q h (q h).dropLast
  | .popFirst h => Function.update q h (q h).tail

def ListOp.list : ListOp → Nat
  | .push h _ | .pushFirst h _ | .insert h _ _ | .remove h _ | .pop h | .popFirst h => h

/-- The list has fewer than `INT_MAX` elements, and the new one is detached. -/
def Insertable (st : ListStorage) (s : Lists) (h n : Nat) : Prop :=
  (s.heads h).len < intMax ∧ n ∈ st.elems ∧ s.elems n = detached

/-- The call meets the assertions and inserts only what may be inserted. -/
def ListOp.Allowed (st : ListStorage) (s : Lists) : ListOp → Prop
  | .push h n => h ∈ st.heads ∧ Insertable st s h n
  | .pushFirst h n => h ∈ st.heads ∧ Insertable st s h n
  | .insert h n i => h ∈ st.heads ∧ Insertable st s h n ∧ 0 ≤ i ∧ i ≤ (s.heads h).len
  | .remove h i => h ∈ st.heads ∧ 0 ≤ i ∧ i < (s.heads h).len
  | .pop h => h ∈ st.heads ∧ (s.heads h).len > 0
  | .popFirst h => h ∈ st.heads ∧ (s.heads h).len > 0

/-- Every list holds its sequence, and elements outside all of them are detached. -/
structure Represents (st : ListStorage) (s : Lists) (q : Nat → List Nat) : Prop where
  holds : ∀ h ∈ st.heads, ListHolds s h (q h)
  known : ∀ h ∈ st.heads, ∀ e ∈ q h, e ∈ st.elems
  outside : ∀ e ∈ st.elems, (∀ h ∈ st.heads, e ∉ q h) → s.elems e = detached

variable {st : ListStorage} {s s' : Lists} {q : Nat → List Nat}

/-- An edit of one list leaves the elements of the others alone. -/
theorem Represents.untouched {h h' : Nat} {xs' : List Nat} (rep : Represents st s q)
    (hh : h ∈ st.heads) (hh' : h' ∈ st.heads) (hne : h' ≠ h) (d : Edit s s' h (q h) xs') :
    ∀ e ∈ q h', e ∉ xs' ∧ s'.elems e = s.elems e := by
  intro e he
  have howner : (s.elems e).head = h' := (rep.holds h' hh').owner e he
  have hold : e ∉ q h := fun hmem => hne (howner.symm.trans ((rep.holds h hh).owner e hmem))
  have hnew : e ∉ xs' := by
    intro hmem
    have hdet := d.added e hmem hold
    rw [hdet] at howner
    exact st.head_ne h' hh' howner.symm
  exact ⟨hnew, d.elems e hold hnew⟩

theorem Represents.edit {h : Nat} {xs' : List Nat} (rep : Represents st s q) (hh : h ∈ st.heads)
    (d : Edit s s' h (q h) xs') (known : ∀ e ∈ xs', e ∈ st.elems) :
    Represents st s' (Function.update q h xs') where
  holds := by
    intro h' hh'
    by_cases hne : h' = h
    · subst hne
      simpa using d.holds
    · have same := rep.untouched hh hh' hne d
      have c := rep.holds h' hh'
      rw [Function.update_of_ne hne]
      refine ⟨⟨by rw [d.heads h' hne, c.len], c.room, ?_, c.nodup, fun e he => ?_⟩,
        by rw [d.heads h' hne, c.first]⟩
      · exact c.ring.congr (fun e he => by rw [(same e he).2]) (fun e he => by rw [(same e he).2])
      · rw [(same e he).2, c.owner e he]
  known := by
    intro h' hh' e he
    by_cases hne : h' = h
    · subst hne
      exact known e (by simpa using he)
    · rw [Function.update_of_ne hne] at he
      exact rep.known h' hh' e he
  outside := by
    intro e he hout
    have hnew : e ∉ xs' := by simpa using hout h hh
    by_cases hold : e ∈ q h
    · exact d.dropped e hold hnew
    · rw [d.elems e hold hnew]
      apply rep.outside e he
      intro h' hh'
      by_cases hne : h' = h
      · rwa [hne]
      · simpa [hne] using hout h' hh'

theorem ListOp.Allowed.mem_heads {op : ListOp} (ok : op.Allowed st s) : op.list ∈ st.heads := by
  cases op <;> exact ok.1

/-- An operation puts no element in its list but the one it is given. -/
theorem seqStep_elems (rep : Represents st s q) {op : ListOp} (ok : op.Allowed st s) :
    ∀ e ∈ seqStep q op op.list, e ∈ st.elems := by
  have known := rep.known op.list ok.mem_heads
  intro e he
  cases op with
  | push h n =>
    rcases (by simpa [seqStep, ListOp.list] using he : e ∈ q h ∨ e = n) with hmem | rfl
    · exact known e hmem
    · exact ok.2.2.1
  | pushFirst h n =>
    rcases (by simpa [seqStep, ListOp.list] using he : e = n ∨ e ∈ q h) with rfl | hmem
    · exact ok.2.2.1
    · exact known e hmem
  | insert h n i =>
    have he' : e ∈ (q h).insertIdx i.toNat n := by simpa [seqStep, ListOp.list] using he
    rcases List.eq_or_mem_of_mem_insertIdx he' with rfl | hmem
    · exact ok.2.1.2.1
    · exact known e hmem
  | remove h i =>
    have he' : e ∈ (q h).eraseIdx i.toNat := by simpa [seqStep, ListOp.list] using he
    exact known e (List.mem_of_mem_eraseIdx he')
  | pop h =>
    have he' : e ∈ (q h).dropLast := by simpa [seqStep, ListOp.list] using he
    exact known e (List.dropLast_subset _ he')
  | popFirst h =>
    have he' : e ∈ (q h).tail := by simpa [seqStep, ListOp.list] using he
    exact known e (List.mem_of_mem_tail he')

/-- A call with good arguments returns, and does to the list what it means. -/
theorem Represents.call (rep : Represents st s q) {op : ListOp} (ok : op.Allowed st s) :
    ∃ s', listStep s op = .ok s' ∧ Edit s s' op.list (q op.list) (seqStep q op op.list) := by
  cases op with
  | push h n =>
    obtain ⟨hh, hroom, hn, hdet⟩ := ok
    obtain ⟨s', hs', d⟩ :=
      listPush_spec (rep.holds h hh) (st.head_ne h hh) hdet (st.elem_ne n hn) hroom
    exact ⟨s', hs', by simpa [seqStep, ListOp.list] using d⟩
  | pushFirst h n =>
    obtain ⟨hh, hroom, hn, hdet⟩ := ok
    obtain ⟨s', hs', d⟩ :=
      listPushFirst_spec (rep.holds h hh) (st.head_ne h hh) hdet (st.elem_ne n hn) hroom
    exact ⟨s', hs', by simpa [seqStep, ListOp.list] using d⟩
  | insert h n i =>
    obtain ⟨hh, ⟨hroom, hn, hdet⟩, hi, hlen⟩ := ok
    obtain ⟨k, rfl⟩ := Int.eq_ofNat_of_zero_le hi
    rw [(rep.holds h hh).len] at hlen
    obtain ⟨s', hs', d⟩ := listInsert_spec (i := k) (rep.holds h hh) (st.head_ne h hh) hdet
      (st.elem_ne n hn) (by omega) hroom
    exact ⟨s', hs', by simpa [seqStep, ListOp.list] using d⟩
  | remove h i =>
    obtain ⟨hh, hi, hlen⟩ := ok
    obtain ⟨k, rfl⟩ := Int.eq_ofNat_of_zero_le hi
    rw [(rep.holds h hh).len] at hlen
    obtain ⟨s', hs', d⟩ := listRemove_spec (i := k) (rep.holds h hh) (st.head_ne h hh) (by omega)
    exact ⟨s', hs', by simpa [seqStep, ListOp.list] using d⟩
  | pop h =>
    obtain ⟨hh, hlen⟩ := ok
    have c := rep.holds h hh
    rw [c.len] at hlen
    obtain ⟨l, z, hlz⟩ :=
      (List.eq_nil_or_concat' (q h)).resolve_left (by rintro heq; simp [heq] at hlen)
    rw [hlz] at c
    obtain ⟨s', hs', d⟩ := listPop_spec c (st.head_ne h hh)
    exact ⟨s', hs', by simpa [seqStep, ListOp.list, hlz] using d⟩
  | popFirst h =>
    obtain ⟨hh, hlen⟩ := ok
    have c := rep.holds h hh
    rw [c.len] at hlen
    obtain ⟨x, t, hxt⟩ :=
      List.exists_cons_of_ne_nil (l := q h) (by rintro heq; simp [heq] at hlen)
    rw [hxt] at c
    obtain ⟨s', hs', d⟩ := listPopFirst_spec c (st.head_ne h hh)
    exact ⟨s', hs', by simpa [seqStep, ListOp.list, hxt] using d⟩

/-- A call changes the sequence of its own list only. -/
theorem seqStep_eq_update (op : ListOp) :
    seqStep q op = Function.update q op.list (seqStep q op op.list) := by
  cases op <;> simp [seqStep, ListOp.list]

theorem Represents.step (rep : Represents st s q) {op : ListOp} (ok : op.Allowed st s) :
    ∃ s', listStep s op = .ok s' ∧ Represents st s' (seqStep q op) ∧
      ∀ h ∈ st.heads, h ≠ op.list →
        s'.heads h = s.heads h ∧ ∀ e ∈ q h, s'.elems e = s.elems e := by
  have hh := ok.mem_heads
  obtain ⟨s', hs', d⟩ := rep.call ok
  refine ⟨s', hs', ?_, fun h hmem hne => ⟨d.heads h hne, fun e he => ?_⟩⟩
  · rw [seqStep_eq_update]
    exact rep.edit hh d (seqStep_elems rep ok)
  · exact (rep.untouched hh hmem hne d e he).2

/-- The lists have been initialised and the elements are in none. -/
def ListsStart (st : ListStorage) (s : Lists) : Prop :=
  ∃ s₀ : Lists, s = st.heads.foldl listInit s₀ ∧ ∀ e ∈ st.elems, s₀.elems e = detached

theorem listInit_elems (s : Lists) (hs : List Nat) : (hs.foldl listInit s).elems = s.elems := by
  induction hs generalizing s with
  | nil => rfl
  | cons h hs ih => rw [List.foldl_cons, ih]; rfl

theorem listInit_heads {hs : List Nat} {h : Nat} (s : Lists) (hh : h ∈ hs ∨ s.heads h = ⟨0, 0⟩) :
    (hs.foldl listInit s).heads h = ⟨0, 0⟩ := by
  induction hs generalizing s with
  | nil => simpa using hh
  | cons k hs ih =>
    rw [List.foldl_cons]
    apply ih
    by_cases hk : h = k
    · subst hk
      exact Or.inr (by simp [listInit, Lists.setFirst, Lists.setLen])
    · rcases hh with hmem | hzero
      · exact Or.inl (by simpa [hk] using hmem)
      · exact Or.inr (by simp [listInit, Lists.setFirst, Lists.setLen, hk, hzero])

theorem represents_start (start : ListsStart st s) : Represents st s (fun _ => []) := by
  obtain ⟨s₀, rfl, hdet⟩ := start
  refine ⟨fun h hh => ?_, by simp, fun e he _ => by rw [listInit_elems, hdet e he]⟩
  have hhead := listInit_heads s₀ (Or.inl hh)
  exact ⟨⟨by rw [hhead]; rfl, by decide, trivial, List.nodup_nil, by simp⟩, by rw [hhead]; rfl⟩

/-- The memory and the sequences, a call at a time. -/
def pairStep (p : Lists × (Nat → List Nat)) (op : ListOp) :
    Except Fault (Lists × (Nat → List Nat)) := do
  let s ← listStep p.1 op
  return (s, seqStep p.2 op)

/-- The calls so far left the memory `s` and mean the sequences `q`. -/
def ListRun (st : ListStorage) (s : Lists) (q : Nat → List Nat) : Prop :=
  Reach (fun p => ListsStart st p.1 ∧ p.2 = fun _ => []) (fun p op => op.Allowed st p.1) pairStep
    (s, q)

theorem ListRun.represents (run : ListRun st s q) : Represents st s q := by
  refine Reach.invariant (P := fun p => Represents st p.1 p.2) ?_ ?_ run
  · rintro ⟨s, q⟩ ⟨start, hq⟩
    rw [hq]
    exact represents_start start
  · rintro ⟨s, q⟩ op t rep ok hstep
    obtain ⟨s', hs', hrep, -⟩ := rep.step ok
    simp only [pairStep, hs'] at hstep
    cases hstep
    exact hrep

/-- The list at `h` seen from outside: its length, which is an `int`, the two ways around
it, its owner. -/
structure ListIs (s : Lists) (h : Nat) (xs : List Nat) : Prop where
  len : (s.heads h).len = xs.length
  room : (s.heads h).len ≤ intMax
  next : Seg (fun e => (s.elems e).next) (s.heads h).first xs (s.heads h).first
  prev : Seg (fun e => (s.elems e).prev) (s.elems (s.heads h).first).prev xs.reverse
    (s.elems (s.heads h).first).prev
  null : (s.heads h).first = 0 ↔ (s.heads h).len = 0
  owner : ∀ e ∈ xs, (s.elems e).head = h
  nodup : xs.Nodup

theorem ListHolds.listIs {h : Nat} {xs : List Nat} (c : ListHolds s h xs) (nonzero : ∀ e ∈ xs, e ≠ 0) :
    ListIs s h xs := by
  cases xs with
  | nil =>
    have hlen : (s.heads h).len = 0 := c.len
    have hfirst : (s.heads h).first = 0 := c.first
    exact ⟨c.len, c.len ▸ c.room, rfl, rfl, by simp [hlen, hfirst], c.owner, c.nodup⟩
  | cons x xs =>
    have hfirst : (s.heads h).first = x := c.first
    have hlen : (s.heads h).len ≠ 0 := by
      rw [c.len, List.length_cons]
      omega
    have hx := nonzero x List.mem_cons_self
    obtain ⟨y, t, hyt⟩ := List.exists_cons_of_ne_nil (l := (x :: xs).reverse) (by simp)
    have hback := c.ring.reverse
    have hlast : (s.elems x).prev = y := by
      have hget := c.ring.pred.2
      rw [List.getLast?_eq_head?_reverse, hyt] at hget
      exact (Option.some_inj.mp hget).symm
    refine ⟨c.len, c.len ▸ c.room, ?_, ?_, by simp [hfirst, hlen, hx], c.owner, c.nodup⟩
    · rw [hfirst]
      exact c.ring.seg_next
    · rw [hyt] at hback
      rw [hfirst, hlast, hyt]
      exact hback.seg_next

/-- After any calls with good arguments every list is its sequence, the next
call acts on it as meant and on nothing else, `list_get` reads it, and
`list_foreach` visits it. -/
theorem lists_are_sequences (run : ListRun st s q) :
    (∀ h ∈ st.heads, ListIs s h (q h)) ∧
    (∀ e ∈ st.elems, (∀ h ∈ st.heads, e ∉ q h) → s.elems e = ⟨0, 0, 0⟩) ∧
    (∀ op : ListOp, op.Allowed st s → ∃ s', listStep s op = .ok s' ∧
      ListRun st s' (seqStep q op) ∧ ∀ h ∈ st.heads, h ≠ op.list →
        s'.heads h = s.heads h ∧ ∀ e ∈ q h, s'.elems e = s.elems e) ∧
    (∀ h ∈ st.heads, ∀ i (hi : i < (q h).length), listGet s h i = .ok (q h)[i]) ∧
    (∀ h ∈ st.heads, ∀ (σ : Type) (func : Nat → Int → Lists × σ → Lists × σ) (aux : σ) (fuel : Nat),
      (∀ e i p, (func e i p).1 = p.1) → (q h).length ≤ fuel →
      listForeach fuel s h func aux =
        .ok ((q h).zipIdx.foldl (fun p v => func v.1 v.2 p) (s, aux))) := by
  have rep := run.represents
  have nonzero : ∀ h ∈ st.heads, ∀ e ∈ q h, e ≠ 0 :=
    fun h hh e he => st.elem_ne e (rep.known h hh e he)
  refine ⟨fun h hh => (rep.holds h hh).listIs (nonzero h hh), rep.outside, ?_, ?_, ?_⟩
  · intro op ok
    obtain ⟨s', hs', -, frame⟩ := rep.step ok
    exact ⟨s', hs', run.step ok (by simp [pairStep, hs', bind, Except.bind, pure, Except.pure]), frame⟩
  · intro h hh i hi
    exact listGet_spec (rep.holds h hh) (st.head_ne h hh) (List.getElem?_eq_getElem hi)
  · intro h hh σ func aux fuel keeps hfuel
    have hfirst : (q h).head? = none ∨ (q h).head? = some (s.heads h).first := by
      rw [(rep.holds h hh).first]
      cases q h <;> simp
    have hloop := foreachLoop_spec (l := []) (r := q h) keeps (rep.holds h hh) (nonzero h hh) hfuel
      hfirst aux
    rw [listForeach, assert_bind_eq_ok]
    exact ⟨st.head_ne h hh, hloop⟩

/-- Two heads and two elements. -/
def twoLists : ListStorage := ⟨[16, 40], {64, 96}, by decide, by simp⟩

/-- From uninitialised heads: initialise both, push one element, prepend the other. -/
theorem lists_are_sequences_two : ∃ s, ListRun twoLists s
      (seqStep (seqStep (fun _ => []) (.push 16 64)) (.pushFirst 16 96)) ∧
    listGet s 16 0 = .ok 96 ∧ listGet s 16 1 = .ok 64 ∧ (s.heads 40).len = 0 := by
  have run₀ : ListRun twoLists
      (twoLists.heads.foldl listInit ⟨fun _ => ⟨5, 7⟩, fun _ => detached⟩) (fun _ => []) :=
    Reach.start ⟨⟨_, rfl, fun _ _ => rfl⟩, rfl⟩
  obtain ⟨-, -, call₀, -, -⟩ := lists_are_sequences run₀
  obtain ⟨s₁, -, run₁, -⟩ := call₀ (.push 16 64) ⟨by decide, by decide, Or.inl rfl, rfl⟩
  obtain ⟨lists₁, free₁, call₁, -, -⟩ := lists_are_sequences run₁
  have room : (s₁.heads 16).len < intMax := by
    rw [(lists₁ 16 (by decide)).len]
    decide
  have free : s₁.elems 96 = detached := free₁ 96 (Or.inr rfl) (by decide)
  obtain ⟨s₂, -, run₂, -⟩ := call₁ (.pushFirst 16 96) ⟨by decide, room, Or.inr rfl, free⟩
  obtain ⟨lists, -, -, get, -⟩ := lists_are_sequences run₂
  have h16 : 16 ∈ twoLists.heads := by decide
  exact ⟨s₂, run₂, get 16 h16 0 (by decide), get 16 h16 1 (by decide),
    (lists 40 (by decide)).len⟩

end WaddleOS
