import Mathlib.Data.Finset.Card
import Mathlib.Data.Finset.Image
import WaddleOS.Paging.Tables

/-!
# The tree that the page tables form

A table is reached by a path of at most three indices from the PML4 and
occupies a page of the kernel pool. `PageTree` says which paths have a table,
in which page, and what every entry of every table holds. A table is added in
a page that holds no table, a leaf is written into one entry; both keep the
tree. `Tree` adds that the pages come from those below a bound whose
allocation bits were clear.
-/

namespace WaddleOS

/-- Page `r` of the kernel pool. -/
def tableAddr (free r : Nat) : Nat := (free + 4096 * r) % 2 ^ 64

/-- What entry `ρ` holds: the base of its table, a leaf, or nothing. -/
def slot (free : Nat) (D : Finset (List Nat)) (tab : List Nat → Nat)
    (leaf : List Nat → Option Nat) (ρ : List Nat) : BitVec 64 :=
  if ρ ∈ D then entryWord (kVtop (tableAddr free (tab ρ))) false
  else match leaf ρ with
    | some p => entryWord p false
    | none => 0#64

/-- The tables in `m`: which paths have one, in which pages, and what their
entries hold. -/
structure PageTree (free : Nat) (m : Mem) (D : Finset (List Nat)) (tab : List Nat → Nat)
    (leaf : List Nat → Option Nat) : Prop where
  aligned : free % 4096 = 0
  root : [] ∈ D
  bound : ∀ π ∈ D, 4096 * (tab π + 1) ≤ 2 ^ 64
  base : ∀ π ∈ D, π ≠ [] → kVtop (tableAddr free (tab π)) < 2 ^ 51
  inj : ∀ π ∈ D, ∀ ρ ∈ D, tab π = tab ρ → π = ρ
  closed : ∀ π i, π ++ [i] ∈ D → π ∈ D
  short : ∀ π ∈ D, π.length ≤ 3
  deep : ∀ ρ, leaf ρ ≠ none → ρ.length = 4
  under : ∀ π i, leaf (π ++ [i]) ≠ none → π ∈ D
  entries : ∀ π ∈ D, ∀ i, i < 512 →
    loadWord m (free + (4096 * tab π + 8 * i)) = slot free D tab leaf (π ++ [i])

/-- The pages below `B` that are clear in `m` can hold tables: they are past the
bits of those pages and their physical address fits the base field. -/
structure Reserve (free B : Nat) (m : Mem) : Prop where
  aligned : free % 4096 = 0
  bound : 4096 * B ≤ 2 ^ 64
  apart : ∀ q, q < B → bitAt m free q = false → B ≤ 32768 * q
  base : ∀ q, q < B → bitAt m free q = false → kVtop (tableAddr free q) < 2 ^ 51

/-- The tables in `m`, all of them in pages that were clear in `m₀`. -/
structure Tree (free B : Nat) (m₀ m : Mem) (D : Finset (List Nat)) (tab : List Nat → Nat)
    (leaf : List Nat → Option Nat) : Prop where
  root : [] ∈ D
  lt : ∀ π ∈ D, tab π < B
  inj : ∀ π ∈ D, ∀ ρ ∈ D, tab π = tab ρ → π = ρ
  fresh : ∀ π ∈ D, bitAt m₀ free (tab π) = false
  bits : ∀ q, q < B → (bitAt m free q = false ↔ bitAt m₀ free q = false ∧ ∀ π ∈ D, tab π ≠ q)
  closed : ∀ π i, π ++ [i] ∈ D → π ∈ D
  short : ∀ π ∈ D, π.length ≤ 3
  deep : ∀ ρ, leaf ρ ≠ none → ρ.length = 4
  under : ∀ π i, leaf (π ++ [i]) ≠ none → π ∈ D
  entries : ∀ π ∈ D, ∀ i, i < 512 →
    loadWord m (free + (4096 * tab π + 8 * i)) = slot free D tab leaf (π ++ [i])

theorem loadWord_same {m m' : Mem} {b o : Nat}
    (h : ∀ g, 8 * o ≤ g → g < 8 * o + 64 → bitAt m' b g = bitAt m b g) :
    loadWord m' (b + o) = loadWord m (b + o) := by
  apply loadWord_congr
  intro i hi
  rw [bitAt_add, bitAt_add]
  exact h _ (by omega) (by omega)

theorem loadWord_entryInit (m : Mem) {entry b o : Nat} (p : Nat) (u : Bool)
    (he : entry % 2 ^ 64 = (b + o) % 2 ^ 64) (ho : o + 8 ≤ 2 ^ 64) :
    loadWord (entryInit m entry p u) (b + o) = entryWord p u := by
  apply BitVec.eq_of_getLsbD_eq
  intro i hi
  rw [getLsbD_loadWord, bitAt_add, bitAt_entryInit m p u he ho _ (by omega), if_pos (by omega),
    Nat.add_sub_cancel_left]
  simp [hi]

section Pages

variable {free : Nat} {m : Mem} {D : Finset (List Nat)} {tab : List Nat → Nat}
variable {leaf : List Nat → Option Nat} {π : List Nat} {i : Nat}

/-- Writing one entry leaves the words of the others. -/
theorem loadWord_entryInit_other {m : Mem} {entry r j x y p : Nat} {u : Bool}
    (he : entry % 2 ^ 64 = (free + (4096 * r + 8 * j)) % 2 ^ 64) (hr : 4096 * (r + 1) ≤ 2 ^ 64)
    (hj : j < 512) (hx : 4096 * (x + 1) ≤ 2 ^ 64) (hy : y < 512) (hne : ¬ (x = r ∧ y = j)) :
    loadWord (entryInit m entry p u) (free + (4096 * x + 8 * y)) =
      loadWord m (free + (4096 * x + 8 * y)) := by
  apply loadWord_same
  intro g hlo hhi
  rw [bitAt_entryInit m p u he (by omega) g (by omega), if_neg (by omega)]

/-- A leaf below a table of the last level. -/
theorem PageTree.setLeaf (h : PageTree free m D tab leaf) (hπ : π ∈ D) (hlen : π.length = 3)
    (hi : i < 512) {entry : Nat} (p : Nat)
    (he : entry % 2 ^ 64 = (free + (4096 * tab π + 8 * i)) % 2 ^ 64) :
    PageTree free (entryInit m entry p false) D tab
      (Function.update leaf (π ++ [i]) (some p)) where
  aligned := h.aligned
  root := h.root
  bound := h.bound
  base := h.base
  inj := h.inj
  closed := h.closed
  short := h.short
  deep ρ hρ := by
    by_cases heq : ρ = π ++ [i]
    · simp [heq, hlen]
    · rw [Function.update_of_ne heq] at hρ
      exact h.deep ρ hρ
  under ρ j hρ := by
    by_cases heq : ρ ++ [j] = π ++ [i]
    · rwa [(List.append_inj' heq rfl).1]
    · rw [Function.update_of_ne heq] at hρ
      exact h.under ρ j hρ
  entries ρ hρ j hj := by
    have hbound := h.bound π hπ
    have hbound' := h.bound ρ hρ
    by_cases heq : ρ ++ [j] = π ++ [i]
    · obtain ⟨rfl, hji⟩ := List.append_inj' heq rfl
      obtain rfl : j = i := by simpa using hji
      have hno : ρ ++ [j] ∉ D := by
        intro hin
        have := h.short _ hin
        simp only [List.length_append, List.length_singleton] at this
        omega
      rw [loadWord_entryInit _ _ _ he (by omega), slot, if_neg hno, Function.update_self]
    · have hne : ¬ (tab ρ = tab π ∧ j = i) := by
        rintro ⟨ht, rfl⟩
        exact heq (by rw [h.inj ρ hρ π hπ ht])
      rw [loadWord_entryInit_other he (by omega) hi (by omega) hj hne, h.entries ρ hρ j hj,
        slot, slot, Function.update_of_ne heq]

/-- `m₁` is `m` after page `q` was taken and zeroed. -/
structure TakenPage (free q : Nat) (m m₁ : Mem) : Prop where
  bit : bitAt m₁ free q = true
  zero : ∀ g, 32768 * q ≤ g → g < 32768 * (q + 1) → bitAt m₁ free g = false
  same : ∀ g, g < 2 ^ 67 → g ≠ q → ¬ (32768 * q ≤ g ∧ g < 32768 * (q + 1)) →
    bitAt m₁ free g = bitAt m free g

/-- The words of a zeroed page. -/
theorem loadWord_zeroed {q j : Nat}
    (hzero : ∀ g, 32768 * q ≤ g → g < 32768 * (q + 1) → bitAt m free g = false) (hj : j < 512) :
    loadWord m (free + (4096 * q + 8 * j)) = 0#64 := by
  apply BitVec.eq_of_getLsbD_eq
  intro x hx
  rw [getLsbD_loadWord, bitAt_add, hzero _ (by omega) (by omega)]
  simp

/-- The PML4 alone, zeroed. -/
theorem PageTree.init {q : Nat} (haligned : free % 4096 = 0) (hq : 4096 * (q + 1) ≤ 2 ^ 64)
    (hzero : ∀ g, 32768 * q ≤ g → g < 32768 * (q + 1) → bitAt m free g = false) :
    PageTree free m {[]} (fun _ => q) (fun _ => none) := by
  have hnil : ∀ π : List Nat, π ∈ ({[]} : Finset (List Nat)) → π = [] := by simp
  refine ⟨haligned, by simp, fun _ _ => hq, fun π hπ hne => absurd (hnil π hπ) hne, ?_, ?_, ?_,
    by simp, by simp, ?_⟩
  · intro π hπ ρ hρ _
    rw [hnil π hπ, hnil ρ hρ]
  · intro π i hπ
    have := hnil _ hπ
    simp at this
  · intro π hπ
    simp [hnil π hπ]
  · intro π hπ i hi
    have hnot : π ++ [i] ∉ ({[]} : Finset (List Nat)) := by simp
    rw [loadWord_zeroed hzero hi, slot, if_neg hnot]

section NewKey
variable {α β : Type} [DecidableEq α] {D : Finset α} {f : α → β} {k : α} {v : β}

theorem update_of_mem (hk : k ∉ D) {ρ : α} (hρ : ρ ∈ D) : Function.update f k v ρ = f ρ := by
  have hne : ρ ≠ k := fun e => hk (e ▸ hρ)
  exact Function.update_of_ne hne ..

/-- A property of all values of a function that is set at a new key. -/
theorem forall_mem_insert_update {P : β → Prop} (hk : k ∉ D) :
    (∀ ρ ∈ insert k D, P (Function.update f k v ρ)) ↔ P v ∧ ∀ ρ ∈ D, P (f ρ) := by
  rw [Finset.forall_mem_insert, Function.update_self]
  exact and_congr_right' (forall₂_congr fun ρ hρ => by rw [update_of_mem hk hρ])

/-- A function stays injective when a new key gets a new value. -/
theorem injOn_insert_update (hk : k ∉ D) (inj : ∀ π ∈ D, ∀ ρ ∈ D, f π = f ρ → π = ρ)
    (hv : ∀ ρ ∈ D, f ρ ≠ v) :
    ∀ π ∈ insert k D, ∀ ρ ∈ insert k D,
      Function.update f k v π = Function.update f k v ρ → π = ρ := by
  intro π hπ ρ hρ heq
  rcases Finset.mem_insert.mp hπ with rfl | hπD
  · rcases Finset.mem_insert.mp hρ with rfl | hρD
    · rfl
    · rw [Function.update_self, update_of_mem hk hρD] at heq
      exact absurd heq.symm (hv ρ hρD)
  · rcases Finset.mem_insert.mp hρ with rfl | hρD
    · rw [Function.update_self, update_of_mem hk hπD] at heq
      exact absurd heq (hv π hπD)
    · rw [update_of_mem hk hπD, update_of_mem hk hρD] at heq
      exact inj π hπD ρ hρD heq

end NewKey

section NewTable
variable {q : Nat} {m₁ : Mem} {entry : Nat}

/-- The words of a new table are those of one without entries. -/
theorem PageTree.entries_new (h : PageTree free m D tab leaf) (hπ : π ∈ D) (hi : i < 512)
    (hnew : π ++ [i] ∉ D) (hq : 4096 * (q + 1) ≤ 2 ^ 64) (hother : ∀ π ∈ D, tab π ≠ q)
    (htaken : TakenPage free q m m₁)
    (he : entry % 2 ^ 64 = (free + (4096 * tab π + 8 * i)) % 2 ^ 64) {j : Nat} (hj : j < 512) :
    loadWord (entryInit m₁ entry (kVtop (tableAddr free q)) false) (free + (4096 * q + 8 * j)) =
      slot free (insert (π ++ [i]) D) (Function.update tab (π ++ [i]) q) leaf (π ++ [i] ++ [j]) := by
  have hbound := h.bound π hπ
  have hne : ¬ (q = tab π ∧ j = i) := fun e => hother π hπ e.1.symm
  have hnot : π ++ [i] ++ [j] ∉ insert (π ++ [i]) D := by
    intro hin
    rcases Finset.mem_insert.mp hin with heq | hin
    · have := congrArg List.length heq
      simp only [List.length_append, List.length_singleton] at this
      omega
    · exact hnew (h.closed _ _ hin)
  have hleaf : leaf (π ++ [i] ++ [j]) = none := by
    by_contra hne
    exact hnew (h.under _ _ hne)
  rw [loadWord_entryInit_other he hbound hi hq hj hne, slot, if_neg hnot, hleaf]
  exact loadWord_zeroed htaken.zero hj

/-- Of the words of the other tables only the one that leads to it changes. -/
theorem PageTree.entries_old (h : PageTree free m D tab leaf) (hπ : π ∈ D) (hi : i < 512)
    (hnew : π ++ [i] ∉ D) (hq : 4096 * (q + 1) ≤ 2 ^ 64) (hother : ∀ π ∈ D, tab π ≠ q)
    (hbelow : ∀ π ∈ D, q < 32768 * tab π) (htaken : TakenPage free q m m₁)
    (he : entry % 2 ^ 64 = (free + (4096 * tab π + 8 * i)) % 2 ^ 64) {ρ : List Nat} {j : Nat}
    (hρ : ρ ∈ D) (hj : j < 512) :
    loadWord (entryInit m₁ entry (kVtop (tableAddr free q)) false)
        (free + (4096 * tab ρ + 8 * j)) =
      slot free (insert (π ++ [i]) D) (Function.update tab (π ++ [i]) q) leaf (ρ ++ [j]) := by
  have hbound := h.bound π hπ
  have hρbound := h.bound ρ hρ
  by_cases heq : ρ ++ [j] = π ++ [i]
  · obtain ⟨rfl, hji⟩ := List.append_inj' heq rfl
    obtain rfl : j = i := by simpa using hji
    rw [loadWord_entryInit _ _ _ he (by omega), slot, if_pos (Finset.mem_insert_self ..),
      Function.update_self]
  · have hne : ¬ (tab ρ = tab π ∧ j = i) := by
      rintro ⟨ht, hji⟩
      exact heq (by rw [h.inj ρ hρ π hπ ht, hji])
    have hbefore : loadWord m₁ (free + (4096 * tab ρ + 8 * j)) =
        loadWord m (free + (4096 * tab ρ + 8 * j)) := by
      have hρq := hother ρ hρ
      have hbit := hbelow ρ hρ
      apply loadWord_same
      intro g hlo hhi
      exact htaken.same g (by omega) (by omega) (by omega)
    rw [loadWord_entryInit_other he hbound hi hρbound hj hne, hbefore, h.entries ρ hρ j hj,
      slot, slot]
    by_cases hin : ρ ++ [j] ∈ D
    · rw [if_pos hin, if_pos (Finset.mem_insert_of_mem hin), Function.update_of_ne heq]
    · have hout : ρ ++ [j] ∉ insert (π ++ [i]) D := by
        intro hcon
        rcases Finset.mem_insert.mp hcon with e | e
        · exact heq e
        · exact hin e
      rw [if_neg hin, if_neg hout]

/-- A new table, in a page that held none and whose bit lies below the
tables. -/
theorem PageTree.addTable (h : PageTree free m D tab leaf) (hπ : π ∈ D) (hlen : π.length < 3)
    (hi : i < 512) (hnew : π ++ [i] ∉ D) (hq : 4096 * (q + 1) ≤ 2 ^ 64)
    (hbase : kVtop (tableAddr free q) < 2 ^ 51) (hother : ∀ π ∈ D, tab π ≠ q)
    (hbelow : ∀ π ∈ D, q < 32768 * tab π) (htaken : TakenPage free q m m₁)
    (he : entry % 2 ^ 64 = (free + (4096 * tab π + 8 * i)) % 2 ^ 64) :
    PageTree free (entryInit m₁ entry (kVtop (tableAddr free q)) false) (insert (π ++ [i]) D)
      (Function.update tab (π ++ [i]) q) leaf where
  aligned := h.aligned
  root := Finset.mem_insert_of_mem h.root
  bound := (forall_mem_insert_update (P := fun x => 4096 * (x + 1) ≤ 2 ^ 64) hnew).mpr ⟨hq, h.bound⟩
  base ρ hρ hne := by
    rcases Finset.mem_insert.mp hρ with rfl | hmem
    · rwa [Function.update_self]
    · rw [update_of_mem hnew hmem]
      exact h.base ρ hmem hne
  inj := injOn_insert_update hnew h.inj hother
  closed ρ j hρ := by
    rcases Finset.mem_insert.mp hρ with heq | hρ
    · rw [(List.append_inj' heq rfl).1]
      exact Finset.mem_insert_of_mem hπ
    · exact Finset.mem_insert_of_mem (h.closed ρ j hρ)
  short ρ hρ := by
    rcases Finset.mem_insert.mp hρ with rfl | hρ
    · simp only [List.length_append, List.length_singleton]
      omega
    · exact h.short ρ hρ
  deep := h.deep
  under ρ j hρ := Finset.mem_insert_of_mem (h.under ρ j hρ)
  entries ρ hρ j hj := by
    rcases Finset.mem_insert.mp hρ with rfl | hmem
    · rw [Function.update_self]
      exact h.entries_new hπ hi hnew hq hother htaken he hj
    · rw [update_of_mem hnew hmem]
      exact h.entries_old hπ hi hnew hq hother hbelow htaken he hmem hj

end NewTable

end Pages

section Steps

variable {free B : Nat} {m₀ m : Mem} {D : Finset (List Nat)} {tab : List Nat → Nat}
variable {leaf : List Nat → Option Nat} {π : List Nat} {i : Nat}

theorem Tree.pageTree (hr : Reserve free B m₀) (h : Tree free B m₀ m D tab leaf) :
    PageTree free m D tab leaf where
  aligned := hr.aligned
  root := h.root
  bound π hπ := by
    have hlt := h.lt π hπ
    have hbound := hr.bound
    omega
  base π hπ _ := hr.base _ (h.lt π hπ) (h.fresh π hπ)
  inj := h.inj
  closed := h.closed
  short := h.short
  deep := h.deep
  under := h.under
  entries := h.entries

/-- A table stands past the bits below `B`. -/
theorem Tree.apart (hr : Reserve free B m₀) (h : Tree free B m₀ m D tab leaf) (hπ : π ∈ D) :
    B ≤ 32768 * tab π :=
  hr.apart _ (h.lt π hπ) (h.fresh π hπ)

/-- A write to one entry changes no bit below `B`. -/
theorem Tree.bit_entryInit (hr : Reserve free B m₀) (h : Tree free B m₀ m D tab leaf) (hπ : π ∈ D)
    (hi : i < 512) {m₁ : Mem} {entry p : Nat} {u : Bool}
    (he : entry % 2 ^ 64 = (free + (4096 * tab π + 8 * i)) % 2 ^ 64) {q : Nat} (hq : q < B) :
    bitAt (entryInit m₁ entry p u) free q = bitAt m₁ free q := by
  have hapart := h.apart hr hπ
  have hlt := h.lt π hπ
  have hbound := hr.bound
  rw [bitAt_entryInit m₁ p u he (by omega) q (by omega), if_neg (by omega)]

/-- A leaf keeps the tree: no bit below `B` changes. -/
theorem Tree.setLeaf (hr : Reserve free B m₀) (h : Tree free B m₀ m D tab leaf) (hπ : π ∈ D)
    (hlen : π.length = 3) (hi : i < 512) {entry : Nat} (p : Nat)
    (he : entry % 2 ^ 64 = (free + (4096 * tab π + 8 * i)) % 2 ^ 64) :
    Tree free B m₀ (entryInit m entry p false) D tab
      (Function.update leaf (π ++ [i]) (some p)) := by
  have hpages := (h.pageTree hr).setLeaf hπ hlen hi p he
  refine ⟨h.root, h.lt, h.inj, h.fresh, fun q hq => ?_, h.closed, h.short, hpages.deep,
    hpages.under, hpages.entries⟩
  rw [h.bit_entryInit hr hπ hi he hq, h.bits q hq]

/-- A page that is clear holds no table. -/
theorem Tree.not_table (h : Tree free B m₀ m D tab leaf) {q : Nat} (hq : q < B)
    (hclear : bitAt m free q = false) : bitAt m₀ free q = false ∧ ∀ π ∈ D, tab π ≠ q :=
  (h.bits q hq).mp hclear

/-- A new table, in a page that was clear. -/
theorem Tree.addTable {q : Nat} {m₁ : Mem} {entry : Nat} (hr : Reserve free B m₀)
    (h : Tree free B m₀ m D tab leaf) (hπ : π ∈ D) (hlen : π.length < 3) (hi : i < 512)
    (hnew : π ++ [i] ∉ D) (hq : q < B) (hclear : bitAt m free q = false)
    (htaken : TakenPage free q m m₁)
    (he : entry % 2 ^ 64 = (free + (4096 * tab π + 8 * i)) % 2 ^ 64) :
    Tree free B m₀ (entryInit m₁ entry (kVtop (tableAddr free q)) false) (insert (π ++ [i]) D)
      (Function.update tab (π ++ [i]) q) leaf := by
  obtain ⟨hclear₀, hother⟩ := h.not_table hq hclear
  have hbound := hr.bound
  have hapart := hr.apart q hq hclear₀
  have hbelow : ∀ ρ ∈ D, q < 32768 * tab ρ := fun ρ hρ => by
    have := h.apart hr hρ
    omega
  have hpages := (h.pageTree hr).addTable hπ hlen hi hnew (by omega) (hr.base q hq hclear₀) hother
    hbelow htaken he
  refine ⟨hpages.root, ?_, hpages.inj, ?_, ?_, hpages.closed, hpages.short, hpages.deep,
    hpages.under, hpages.entries⟩
  · exact (forall_mem_insert_update (P := (· < B)) hnew).mpr ⟨hq, h.lt⟩
  · exact (forall_mem_insert_update (P := fun x => bitAt m₀ free x = false) hnew).mpr
      ⟨hclear₀, h.fresh⟩
  · intro x hx
    rw [h.bit_entryInit hr hπ hi he hx, forall_mem_insert_update (P := (· ≠ x)) hnew]
    by_cases hxq : x = q
    · subst hxq
      rw [htaken.bit]
      simp
    · rw [htaken.same x (by omega) hxq (by omega), h.bits x hx]
      have hqx : q ≠ x := fun e => hxq e.symm
      simp only [hqx, ne_eq, not_false_eq_true, true_and]

end Steps

end WaddleOS
