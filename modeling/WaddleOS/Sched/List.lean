import WaddleOS.Base.Memory

/-!
# `kernel/sched/list.c`

The intrusive circular list of the scheduler. Heads and elements are objects
the caller owns; a pointer is an address and null is 0. `len` and the indices
are C `int`s. `len++` is the only step that could leave their range, which C
gives no meaning, and is a fault there.
-/

namespace WaddleOS

/-- `list_head_t`. -/
structure ListHead where
  first : Nat
  len : Int
  deriving DecidableEq, Repr

/-- `list_elem_t`. -/
structure ListElem where
  head : Nat
  prev : Nat
  next : Nat
  deriving DecidableEq, Repr

/-- The list heads and list elements in memory, by address. -/
structure Lists where
  heads : Nat → ListHead
  elems : Nat → ListElem

namespace Lists

def setFirst (s : Lists) (h v : Nat) : Lists :=
  { s with heads := Function.update s.heads h { s.heads h with first := v } }

def setLen (s : Lists) (h : Nat) (v : Int) : Lists :=
  { s with heads := Function.update s.heads h { s.heads h with len := v } }

def setHead (s : Lists) (e v : Nat) : Lists :=
  { s with elems := Function.update s.elems e { s.elems e with head := v } }

def setPrev (s : Lists) (e v : Nat) : Lists :=
  { s with elems := Function.update s.elems e { s.elems e with prev := v } }

def setNext (s : Lists) (e v : Nat) : Lists :=
  { s with elems := Function.update s.elems e { s.elems e with next := v } }

end Lists

/-- `INT_MAX`. -/
def intMax : Int := 2 ^ 31 - 1

/-- `head->len++`. -/
def incLen (s : Lists) (head : Nat) : Except Fault Lists :=
  if (s.heads head).len < intMax then .ok (s.setLen head ((s.heads head).len + 1))
  else .error .overflow

theorem incLen_eq_ok {s s' : Lists} {head : Nat} :
    incLen s head = .ok s' ↔
      (s.heads head).len < intMax ∧ s.setLen head ((s.heads head).len + 1) = s' := by
  unfold incLen
  split <;> simp_all

def listInit (s : Lists) (head : Nat) : Lists :=
  (s.setFirst head 0).setLen head 0

/-- `_list_insert`: put `new` between `prev` and `next`. -/
def listInsertBetween (s : Lists) (head prev next new : Nat) : Except Fault Lists := do
  assert ((s.elems prev).next = next)
  assert ((s.elems next).prev = prev)
  assert ((s.elems new).head = 0)
  let s := s.setNext prev new
  let s := s.setPrev next new
  let s := s.setPrev new prev
  let s := s.setNext new next
  let s := s.setHead new head
  incLen s head

/-- `_list_remove`: join the neighbours of `elem` and detach it. -/
def listRemoveElem (s : Lists) (head elem : Nat) : Lists :=
  let prev := (s.elems elem).prev
  let next := (s.elems elem).next
  let s := s.setNext prev next
  let s := s.setPrev next prev
  let s := s.setNext elem 0
  let s := s.setPrev elem 0
  let s := s.setHead elem 0
  s.setLen head ((s.heads head).len - 1)

/-- The walk of `list_get`, one unit of fuel a step. -/
def listWalk (s : Lists) (backwards : Bool) (index : Int) :
    Nat → (ctr : Int) → (curr : Nat) → Except Fault Nat
  | fuel, ctr, curr =>
    if ctr = index then .ok curr
    else match fuel with
      | 0 => .error .outOfFuel
      | fuel + 1 =>
        listWalk s backwards index fuel (ctr + if backwards then -1 else 1)
          (if backwards then (s.elems curr).prev else (s.elems curr).next)

def listGet (s : Lists) (head : Nat) (index : Int) : Except Fault Nat := do
  assert (head ≠ 0)
  assert (index ≥ 0)
  assert (index < (s.heads head).len)
  -- traverse in the direction that's closest; the assertions bound the walk by `len`
  let backwards := decide (index > (s.heads head).len.tdiv 2)
  let ctr := if backwards then (s.heads head).len else 0
  listWalk s backwards index (s.heads head).len.toNat ctr (s.heads head).first

def listPush (s : Lists) (head new : Nat) : Except Fault Lists := do
  assert (head ≠ 0)
  assert (new ≠ 0)
  if (s.heads head).len = 0 then
    let s := s.setFirst head new
    let s := s.setNext new new
    let s := s.setPrev new new
    let s := s.setHead new head
    incLen s head
  else
    listInsertBetween s head (s.elems (s.heads head).first).prev (s.heads head).first new

def listPushFirst (s : Lists) (head new : Nat) : Except Fault Lists := do
  assert (head ≠ 0)
  assert (new ≠ 0)
  let s ← listPush s head new
  return s.setFirst head (s.elems (s.heads head).first).prev

def listPop (s : Lists) (head : Nat) : Except Fault Lists := do
  assert (head ≠ 0)
  assert ((s.heads head).len > 0)
  let s := listRemoveElem s head (s.elems (s.heads head).first).prev
  return if (s.heads head).len = 0 then s.setFirst head 0 else s

def listPopFirst (s : Lists) (head : Nat) : Except Fault Lists := do
  assert (head ≠ 0)
  assert ((s.heads head).len > 0)
  let newFirst := (s.elems (s.heads head).first).next
  let s := listRemoveElem s head (s.heads head).first
  return s.setFirst head (if (s.heads head).len = 0 then 0 else newFirst)

def listInsert (s : Lists) (head new : Nat) (index : Int) : Except Fault Lists := do
  assert (head ≠ 0)
  assert (index ≥ 0)
  assert (index ≤ (s.heads head).len)
  assert (new ≠ 0)
  if index = 0 then listPushFirst s head new
  else if index = (s.heads head).len then listPush s head new
  else
    let elem ← listGet s head index
    listInsertBetween s head (s.elems elem).prev elem new

def listRemove (s : Lists) (head : Nat) (index : Int) : Except Fault Lists := do
  assert (head ≠ 0)
  assert (index ≥ 0)
  assert (index < (s.heads head).len)
  if index = 0 then listPopFirst s head
  else if index = (s.heads head).len - 1 then listPop s head
  else
    let elem ← listGet s head index
    return listRemoveElem s head elem

/-- The loop of `list_foreach`: `func` sees the memory and its own data `aux`
and may change both, so `len` and `next` are read again at every turn. -/
def foreachLoop {σ : Type} (head : Nat) (func : Nat → Int → Lists × σ → Lists × σ) :
    Nat → (i : Int) → (curr : Nat) → Lists × σ → Except Fault (Lists × σ)
  | fuel, i, curr, st =>
    if i < (st.1.heads head).len ∧ curr ≠ 0 then
      match fuel with
      | 0 => .error .outOfFuel
      | fuel + 1 =>
        let st := func curr i st
        foreachLoop head func fuel (i + 1) (st.1.elems curr).next st
    else .ok st

def listForeach {σ : Type} (fuel : Nat) (s : Lists) (head : Nat)
    (func : Nat → Int → Lists × σ → Lists × σ) (aux : σ) : Except Fault (Lists × σ) := do
  assert (head ≠ 0)
  foreachLoop head func fuel 0 (s.heads head).first (s, aux)

/-- A call that changes a list. -/
inductive ListOp where
  | push (head new : Nat)
  | pushFirst (head new : Nat)
  | insert (head new : Nat) (index : Int)
  | remove (head : Nat) (index : Int)
  | pop (head : Nat)
  | popFirst (head : Nat)
  deriving DecidableEq, Repr

def listStep (s : Lists) : ListOp → Except Fault Lists
  | .push head new => listPush s head new
  | .pushFirst head new => listPushFirst s head new
  | .insert head new index => listInsert s head new index
  | .remove head index => listRemove s head index
  | .pop head => listPop s head
  | .popFirst head => listPopFirst s head

end WaddleOS
