import WaddleOS.Sched.Sequence

/-!
# An element is in one list

`_list_insert` asserts that the new element has no head. The first element of a
list does not go through it, so an empty list takes an element that is in
another one. As long as that is not tried, an attempt to insert an element
twice halts, and halts before anything is written.
-/

namespace WaddleOS

/-! ## Where a call halts

The insertions once more, with the memory that a failed assertion leaves. -/

def assertAt (s : Lists) (p : Prop) [Decidable p] : Except (Fault × Lists) Unit :=
  if p then .ok () else .error (.assertFailed, s)

def listInsertBetweenAt (s : Lists) (head prev next new : Nat) : Except (Fault × Lists) Lists := do
  assertAt s ((s.elems prev).next = next)
  assertAt s ((s.elems next).prev = prev)
  assertAt s ((s.elems new).head = 0)
  let s := s.setNext prev new
  let s := s.setPrev next new
  let s := s.setPrev new prev
  let s := s.setNext new next
  let s := s.setHead new head
  (incLen s head).mapError fun fault => (fault, s)

def listPushAt (s : Lists) (head new : Nat) : Except (Fault × Lists) Lists := do
  assertAt s (head ≠ 0)
  assertAt s (new ≠ 0)
  if (s.heads head).len = 0 then
    let s := s.setFirst head new
    let s := s.setNext new new
    let s := s.setPrev new new
    let s := s.setHead new head
    (incLen s head).mapError fun fault => (fault, s)
  else
    listInsertBetweenAt s head (s.elems (s.heads head).first).prev (s.heads head).first new

def listPushFirstAt (s : Lists) (head new : Nat) : Except (Fault × Lists) Lists := do
  assertAt s (head ≠ 0)
  assertAt s (new ≠ 0)
  let s ← listPushAt s head new
  return s.setFirst head (s.elems (s.heads head).first).prev

def listInsertAt (s : Lists) (head new : Nat) (index : Int) : Except (Fault × Lists) Lists := do
  assertAt s (head ≠ 0)
  assertAt s (index ≥ 0)
  assertAt s (index ≤ (s.heads head).len)
  assertAt s (new ≠ 0)
  if index = 0 then listPushFirstAt s head new
  else if index = (s.heads head).len then listPushAt s head new
  else
    let elem ← (listGet s head index).mapError fun fault => (fault, s)
    listInsertBetweenAt s head (s.elems elem).prev elem new

/-- A call, with the memory where it halts. The removals write nothing before
their last assertion. -/
def listStepAt (s : Lists) : ListOp → Except (Fault × Lists) Lists
  | .push head new => listPushAt s head new
  | .pushFirst head new => listPushFirstAt s head new
  | .insert head new index => listInsertAt s head new index
  | op => (listStep s op).mapError fun fault => (fault, s)

/-- Forget the memory of the halt. -/
def forget {α : Type} (x : Except (Fault × Lists) α) : Except Fault α := x.mapError Prod.fst

section Forget

variable {α β : Type} {s : Lists}

theorem forget_bind (x : Except (Fault × Lists) α) (f : α → Except (Fault × Lists) β) :
    forget (x >>= f) = forget x >>= fun a => forget (f a) := by
  cases x <;> rfl

theorem forget_pure (a : α) : forget (pure a) = pure a := rfl

theorem forget_mapError (x : Except Fault α) :
    forget (x.mapError fun fault => (fault, s)) = x := by
  cases x <;> rfl

theorem forget_assertAt (p : Prop) [Decidable p] : forget (assertAt s p) = assert p := by
  unfold assertAt assert
  split <;> rfl

theorem forget_ite (p : Prop) [Decidable p] (x y : Except (Fault × Lists) α) :
    forget (if p then x else y) = if p then forget x else forget y := by
  split <;> rfl

theorem forget_listInsertBetweenAt (head prev next new : Nat) :
    forget (listInsertBetweenAt s head prev next new) = listInsertBetween s head prev next new := by
  simp only [listInsertBetweenAt, listInsertBetween, forget_bind, forget_assertAt, forget_mapError]

theorem forget_listPushAt (head new : Nat) : forget (listPushAt s head new) = listPush s head new := by
  simp only [listPushAt, listPush, forget_bind, forget_assertAt, forget_ite, forget_mapError,
    forget_listInsertBetweenAt]

theorem forget_listPushFirstAt (head new : Nat) :
    forget (listPushFirstAt s head new) = listPushFirst s head new := by
  simp only [listPushFirstAt, listPushFirst, forget_bind, forget_assertAt, forget_pure,
    forget_listPushAt]

/-- The two ways to write a call agree on what it returns. -/
theorem forget_listStepAt (op : ListOp) : forget (listStepAt s op) = listStep s op := by
  cases op with
  | push head new => exact forget_listPushAt head new
  | pushFirst head new => exact forget_listPushFirstAt head new
  | insert head new index =>
    simp only [listStepAt, listStep, listInsertAt, listInsert, forget_bind, forget_assertAt,
      forget_ite, forget_mapError, forget_listPushAt, forget_listPushFirstAt,
      forget_listInsertBetweenAt]
  | remove head index => exact forget_mapError _
  | pop head => exact forget_mapError _
  | popFirst head => exact forget_mapError _

end Forget

/-- The computation halts in an assertion with the memory `s`. -/
def HaltsAt {α : Type} (s : Lists) (x : Except (Fault × Lists) α) : Prop :=
  x = .error (.assertFailed, s)

section Halts

variable {α β : Type} {s : Lists} {head new : Nat}

theorem HaltsAt.assertAt {p : Prop} [Decidable p] {f : Unit → Except (Fault × Lists) α}
    (h : p → HaltsAt s (f ())) : HaltsAt s (assertAt s p >>= f) := by
  unfold WaddleOS.assertAt
  split
  next hp => exact h hp
  next => rfl

theorem HaltsAt.bind {x : Except (Fault × Lists) α} (hx : HaltsAt s x)
    (f : α → Except (Fault × Lists) β) : HaltsAt s (x >>= f) := by
  rw [hx]
  rfl

/-- The last of the three assertions fails on an element that has a head. -/
theorem listInsertBetweenAt_halts (howned : (s.elems new).head ≠ 0) (prev next : Nat) :
    HaltsAt s (listInsertBetweenAt s head prev next new) :=
  .assertAt fun _ => .assertAt fun _ => .assertAt fun hfree => absurd hfree howned

theorem listPushAt_halts (hfull : (s.heads head).len ≠ 0) (howned : (s.elems new).head ≠ 0) :
    HaltsAt s (listPushAt s head new) := by
  refine .assertAt fun _ => .assertAt fun _ => ?_
  rw [if_neg hfull]
  exact listInsertBetweenAt_halts howned _ _

theorem listPushFirstAt_halts (hfull : (s.heads head).len ≠ 0) (howned : (s.elems new).head ≠ 0) :
    HaltsAt s (listPushFirstAt s head new) :=
  .assertAt fun _ => .assertAt fun _ => (listPushAt_halts hfull howned).bind _

end Halts

/-! ## Who owns an element -/

/-- The element that a call inserts. -/
def ListOp.new : ListOp → Option Nat
  | .push _ n | .pushFirst _ n | .insert _ n _ => some n
  | .remove _ _ | .pop _ | .popFirst _ => none

/-- Following `next` from the first element of the list at `h` leads to `n`. -/
def ReachedFrom (s : Lists) (h n : Nat) : Prop :=
  (s.heads h).first ≠ 0 ∧ ∃ k, (fun e => (s.elems e).next)^[k] (s.heads h).first = n

/-- `n` is in one of the lists. -/
def Member (st : ListStorage) (s : Lists) (n : Nat) : Prop := ∃ h ∈ st.heads, ReachedFrom s h n

/-- A call on one of the lists, with one of the elements. -/
def ListOp.Given (st : ListStorage) (op : ListOp) : Prop :=
  op.list ∈ st.heads ∧ ∀ n, op.new = some n → n ∈ st.elems

/-- The call does not put a member of a list into an empty one. -/
def Spared (st : ListStorage) (s : Lists) (op : ListOp) : Prop :=
  op.Given st ∧ ∀ n, op.new = some n → Member st s n → (s.heads op.list).len ≠ 0

/-- No element is reached from two heads, and each knows the head that it is
reached from. -/
def OneOwner (st : ListStorage) (s : Lists) : Prop :=
  ∀ n ∈ st.elems, ∀ h ∈ st.heads, ReachedFrom s h n →
    (s.elems n).head = h ∧ ∀ h' ∈ st.heads, ReachedFrom s h' n → h' = h

section Ownership

variable {st : ListStorage} {s s' : Lists} {q : Nat → List Nat}

theorem Represents.reaches_iff (rep : Represents st s q) {h n : Nat} (hh : h ∈ st.heads) :
    ReachedFrom s h n ↔ n ∈ q h := by
  have c := rep.holds h hh
  have hknown := rep.known h hh
  rw [ReachedFrom, c.first]
  generalize q h = xs at *
  cases xs with
  | nil => simp
  | cons x xs =>
    have hx : x ≠ 0 := st.elem_ne x (hknown x List.mem_cons_self)
    rw [List.headD_cons, c.ring.mem_iff_iterate]
    exact and_iff_right hx

/-- An element without a head is in no list. -/
theorem Represents.detached_of_head (rep : Represents st s q) {n : Nat} (hn : n ∈ st.elems)
    (hhead : (s.elems n).head = 0) : s.elems n = detached := by
  refine rep.outside n hn fun h hh hmem => ?_
  have howner := (rep.holds h hh).owner n hmem
  exact st.head_ne h hh (howner.symm.trans hhead)

theorem Represents.oneOwner (rep : Represents st s q) : OneOwner st s := by
  intro n _ h hh hreach
  have howner := (rep.holds h hh).owner n ((rep.reaches_iff hh).mp hreach)
  refine ⟨howner, fun h' hh' hreach' => ?_⟩
  have howner' := (rep.holds h' hh').owner n ((rep.reaches_iff hh').mp hreach')
  exact howner'.symm.trans howner

/-- What an insertion that returned says of its element: the list had room for
it, and it had no head or went into an empty list. -/
structure Inserted (s : Lists) (head new : Nat) : Prop where
  room : (s.heads head).len < intMax
  free : (s.heads head).len = 0 ∨ (s.elems new).head = 0

theorem listInsertBetween_new {head prev next new : Nat}
    (h : listInsertBetween s head prev next new = .ok s') : Inserted s head new := by
  unfold listInsertBetween at h
  rw [assert_bind_eq_ok, assert_bind_eq_ok, assert_bind_eq_ok, incLen_eq_ok] at h
  obtain ⟨-, -, hfree, hroom, -⟩ := h
  exact ⟨hroom, .inr hfree⟩

theorem listPush_new {head new : Nat} (h : listPush s head new = .ok s') :
    Inserted s head new := by
  unfold listPush at h
  rw [assert_bind_eq_ok, assert_bind_eq_ok] at h
  obtain ⟨-, -, h⟩ := h
  split at h
  next hlen => exact ⟨hlen ▸ by decide, .inl hlen⟩
  next => exact listInsertBetween_new h

theorem listPushFirst_new {head new : Nat} (h : listPushFirst s head new = .ok s') :
    Inserted s head new := by
  unfold listPushFirst at h
  rw [assert_bind_eq_ok, assert_bind_eq_ok, bind_eq_ok] at h
  obtain ⟨-, -, s₁, h₁, -⟩ := h
  exact listPush_new h₁

theorem listInsert_new {head new : Nat} {index : Int} (h : listInsert s head new index = .ok s') :
    (0 ≤ index ∧ index ≤ (s.heads head).len) ∧ Inserted s head new := by
  unfold listInsert at h
  rw [assert_bind_eq_ok, assert_bind_eq_ok, assert_bind_eq_ok, assert_bind_eq_ok] at h
  obtain ⟨-, hlo, hhi, -, h⟩ := h
  refine ⟨⟨hlo, hhi⟩, ?_⟩
  split at h
  · exact listPushFirst_new h
  · split at h
    · exact listPush_new h
    · obtain ⟨elem, -, h⟩ := bind_eq_ok.mp h
      exact listInsertBetween_new h

theorem listStep_new {op : ListOp} (h : listStep s op = .ok s') {n : Nat} (hnew : op.new = some n) :
    Inserted s op.list n := by
  cases op with
  | push head new =>
    cases hnew
    exact listPush_new h
  | pushFirst head new =>
    cases hnew
    exact listPushFirst_new h
  | insert head new index =>
    cases hnew
    exact (listInsert_new h).2
  | remove head index => cases hnew
  | pop head => cases hnew
  | popFirst head => cases hnew

/-- What a spared call inserts, if it returns, was in no list. -/
theorem Represents.insertable (rep : Represents st s q) {op : ListOp} (hop : Spared st s op)
    (h : listStep s op = .ok s') {n : Nat} (hnew : op.new = some n) :
    Insertable st s op.list n := by
  have hn := hop.1.2 n hnew
  obtain ⟨hroom, hlen | hhead⟩ := listStep_new h hnew
  · refine ⟨hroom, hn, rep.outside n hn fun h' hh' hmem => ?_⟩
    exact hop.2 n hnew ⟨h', hh', (rep.reaches_iff hh').mpr hmem⟩ hlen
  · exact ⟨hroom, hn, rep.detached_of_head hn hhead⟩

/-- A spared call that returns had good arguments. -/
theorem Represents.allowed (rep : Represents st s q) {op : ListOp} (hop : Spared st s op)
    (h : listStep s op = .ok s') : op.Allowed st s := by
  have hhead := hop.1.1
  have hnew := fun n => rep.insertable hop h (n := n)
  cases op with
  | push head new => exact ⟨hhead, hnew new rfl⟩
  | pushFirst head new => exact ⟨hhead, hnew new rfl⟩
  | insert head new index => exact ⟨hhead, hnew new rfl, (listInsert_new h).1⟩
  | remove head index =>
    simp only [listStep, listRemove, assert_bind_eq_ok] at h
    exact ⟨hhead, h.2.1, h.2.2.1⟩
  | pop head =>
    simp only [listStep, listPop, assert_bind_eq_ok] at h
    exact ⟨hhead, h.2.1⟩
  | popFirst head =>
    simp only [listStep, listPopFirst, assert_bind_eq_ok] at h
    exact ⟨hhead, h.2.1⟩

/-- An attempt to insert a member into a list that is not empty halts in an
assertion, and nothing has been written. -/
theorem Represents.member_halts (rep : Represents st s q) {op : ListOp} (hop : Spared st s op)
    {n : Nat} (hnew : op.new = some n) (hmem : Member st s n) :
    listStepAt s op = .error (.assertFailed, s) := by
  have hfull := hop.2 n hnew hmem
  have howned : (s.elems n).head ≠ 0 := by
    obtain ⟨h, hh, hreach⟩ := hmem
    rw [(rep.oneOwner n (hop.1.2 n hnew) h hh hreach).1]
    exact st.head_ne h hh
  cases op with
  | push head new =>
    cases hnew
    exact listPushAt_halts hfull howned
  | pushFirst head new =>
    cases hnew
    exact listPushFirstAt_halts hfull howned
  | insert head new index =>
    cases hnew
    refine HaltsAt.assertAt fun hhead => .assertAt fun hlo => .assertAt fun hhi =>
      .assertAt fun _ => ?_
    split
    · exact listPushFirstAt_halts hfull howned
    · split
      · exact listPushAt_halts hfull howned
      · -- the index is inside the list, so `list_get` finds an element
        next hzero hlen =>
        have c := rep.holds head hop.1.1
        obtain ⟨i, rfl⟩ := Int.eq_ofNat_of_zero_le hlo
        have hi : i < (q head).length := by
          have hlen' := c.len
          omega
        have hget := listGet_spec c hhead (List.getElem?_eq_getElem hi)
        rw [hget]
        exact listInsertBetweenAt_halts howned _ _
  | remove head index => cases hnew
  | pop head => cases hnew
  | popFirst head => cases hnew

/-- In every run in which no call puts a member of a list into an empty one,
each element has one owner at most, and every attempt to insert a member
halts with the memory as it was. -/
theorem one_owner_in_runs (run : Reach (ListsStart st) (Spared st) listStep s) :
    OneOwner st s ∧
    ∀ op n, Spared st s op → op.new = some n → Member st s n →
      listStepAt s op = .error (.assertFailed, s) := by
  obtain ⟨q, rep⟩ : ∃ q, Represents st s q := by
    refine run.invariant (P := fun s => ∃ q, Represents st s q) ?_ ?_
    · exact fun s start => ⟨_, represents_start start⟩
    · rintro s op t ⟨q, rep⟩ hop hstep
      obtain ⟨s', hs', hrep, -⟩ := rep.step (rep.allowed hop hstep)
      obtain rfl := Except.ok.inj (hstep.symm.trans hs')
      exact ⟨_, hrep⟩
  exact ⟨rep.oneOwner, fun op n hop hnew hmem => rep.member_halts hop hnew hmem⟩

end Ownership

/-- Two lists just initialised, and two detached elements. -/
def twoEmpty : Lists := twoLists.heads.foldl listInit ⟨fun _ => ⟨5, 7⟩, fun _ => detached⟩

theorem twoEmpty_start : ListsStart twoLists twoEmpty := ⟨_, rfl, fun _ _ => rfl⟩

/-- Push one element, and try to push it again. -/
theorem one_owner_in_runs_pushed :
    ∃ s, OneOwner twoLists s ∧ ReachedFrom s 16 64 ∧
      listStepAt s (.push 16 64) = .error (.assertFailed, s) := by
  have hlen : (twoEmpty.heads 16).len = 0 := rfl
  have hnone : ¬ Member twoLists twoEmpty 64 := by
    rintro ⟨h, hh, hfirst, -⟩
    have hhead : twoEmpty.heads h = ⟨0, 0⟩ := listInit_heads _ (.inl hh)
    exact hfirst (congrArg ListHead.first hhead)
  have hgiven : (ListOp.push 16 64).Given twoLists :=
    ⟨by decide, fun n hn => by cases hn; exact Or.inl rfl⟩
  have hspared : Spared twoLists twoEmpty (.push 16 64) :=
    ⟨hgiven, fun n hn hmem => by cases hn; exact absurd hmem hnone⟩
  obtain ⟨s, hs⟩ : ∃ s, listStep twoEmpty (.push 16 64) = .ok s := ⟨_, rfl⟩
  have run := Reach.step (.start twoEmpty_start) hspared hs
  obtain ⟨hone, hhalts⟩ := one_owner_in_runs run
  have hreach : ReachedFrom s 16 64 := by
    cases hs
    exact ⟨by decide, 0, rfl⟩
  have hfull : (s.heads 16).len ≠ 0 := by
    cases hs
    decide
  refine ⟨s, hone, hreach, hhalts (.push 16 64) 64 ⟨hgiven, fun _ _ _ => hfull⟩ rfl ?_⟩
  exact ⟨16, by decide, hreach⟩

/-- Pushed to one list and then to an empty one, an element is in both. -/
theorem empty_list_takes_member :
    ¬ ∀ (st : ListStorage) (s : Lists),
      Reach (ListsStart st) (fun _ op => op.Given st) listStep s → OneOwner st s := by
  intro oneOwner
  have hgiven : ∀ h ∈ twoLists.heads, (ListOp.push h 64).Given twoLists :=
    fun h hh => ⟨hh, fun n hn => by cases hn; exact Or.inl rfl⟩
  obtain ⟨s₁, hs₁⟩ : ∃ s, listStep twoEmpty (.push 16 64) = .ok s := ⟨_, rfl⟩
  obtain ⟨s₂, hs₂⟩ : ∃ s, listStep s₁ (.push 40 64) = .ok s := by
    cases hs₁
    exact ⟨_, rfl⟩
  have run : Reach (ListsStart twoLists) (fun _ op => op.Given twoLists) listStep s₂ :=
    .step (.step (.start twoEmpty_start) (hgiven 16 (by decide)) hs₁) (hgiven 40 (by decide)) hs₂
  have hfirst : (s₂.heads 16).first = 64 ∧ (s₂.heads 40).first = 64 := by
    cases hs₁
    cases hs₂
    decide
  have hreach : ReachedFrom s₂ 16 64 ∧ ReachedFrom s₂ 40 64 := by
    refine ⟨⟨?_, 0, hfirst.1⟩, ?_, 0, hfirst.2⟩
    · rw [hfirst.1]
      decide
    · rw [hfirst.2]
      decide
  have hone := oneOwner twoLists s₂ run 64 (Or.inl rfl) 16 (by decide) hreach.1
  exact absurd (hone.2 40 (by decide) hreach.2) (by decide)

end WaddleOS
