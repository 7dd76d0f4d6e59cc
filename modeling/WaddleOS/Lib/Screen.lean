import WaddleOS.Lib.Term

/-!
# A reference 80x25 terminal

`Screen` is the terminal `term.c` is meant to be. The code differs from it in
two ways. The bounds check of `_vga_write` and `_vga_read` has rows and
columns exchanged, so the columns from 25 on are neither written nor moved;
and a character from 0x80 on is widened with its sign and loses its colours.
`Fits` names the characters that neither difference touches.
-/

namespace WaddleOS

structure Screen where
  cell : Nat → Nat → BitVec 16
  row : Nat
  col : Nat

/-- The space in white on black. -/
def blank : BitVec 16 := 0x0F20

def Screen.clear (row col : Nat) : Screen := ⟨fun _ _ => blank, row, col⟩

/-- The character in white on black at the cursor. -/
def Screen.place (t : Screen) (c : BitVec 8) : Screen :=
  { t with cell := fun r k =>
      if r = t.row ∧ k = t.col then 0x0F00 ||| c.setWidth 16 else t.cell r k }

def Screen.advance (t : Screen) : Screen :=
  if t.col + 1 < 80 then { t with col := t.col + 1 } else { t with row := t.row + 1, col := 0 }

/-- Passing the last row moves all rows up and blanks the last. -/
def Screen.settle (t : Screen) : Screen :=
  if t.row < 25 then t
  else ⟨fun r k => if r < 24 then t.cell (r + 1) k else blank, 24, 0⟩

def Screen.putc (t : Screen) (c : BitVec 8) : Screen :=
  if c = newline then ({ t with row := t.row + 1, col := 0 } : Screen).settle
  else (t.place c).advance.settle

def Screen.putcs (t : Screen) (cs : List (BitVec 8)) : Screen := cs.foldl Screen.putc t

@[simp] theorem Screen.putcs_nil (t : Screen) : t.putcs [] = t := rfl

@[simp] theorem Screen.putcs_cons (t : Screen) (c : BitVec 8) (cs : List (BitVec 8)) :
    t.putcs (c :: cs) = (t.putc c).putcs cs := rfl

def Term.cell (s : Term) (r k : Nat) : BitVec 16 := s.vgaBuffer (80 * r + k)

/-- The buffer and the cursor are those of the reference. -/
structure Shows (s : Term) (t : Screen) : Prop where
  row : s.termRow = t.row
  col : s.termCol = t.col
  cells : ∀ r < 25, ∀ k < 80, s.cell r k = t.cell r k

/-- A character that the terminal shows right at column `col`. -/
def Fits (col : Nat) (c : BitVec 8) : Prop :=
  c = newline ∨ (col < 25 ∧ c.toNat < 128) ∨ (25 ≤ col ∧ c = space)

instance (col : Nat) (c : BitVec 8) : Decidable (Fits col c) :=
  inferInstanceAs (Decidable (_ ∨ _ ∨ _))

section Cells

variable (s : Term)

theorem cell_vgaWriteRaw {row col r k : Nat} (raw : BitVec 16) (hrow : row < 25) (hk : k < 80) :
    (vgaWriteRaw s row col raw).cell r k =
      if r = row ∧ k = col ∧ col < 25 then raw else s.cell r k := by
  unfold vgaWriteRaw
  by_cases hcol : col < 25
  · rw [if_neg (by omega)]
    have hsame : 80 * r + k = vgaCols * row + col ↔ r = row ∧ k = col ∧ col < 25 := by
      unfold vgaCols
      omega
    simp only [Term.cell, Function.update_apply, hsame]
  · rw [if_pos (by omega), if_neg (by omega)]

/-- The cursor is where it was. -/
def SameCursor (s s' : Term) : Prop := s'.termRow = s.termRow ∧ s'.termCol = s.termCol

theorem sameCursor_vgaWriteRaw (row col : Nat) (raw : BitVec 16) :
    SameCursor s (vgaWriteRaw s row col raw) := by
  unfold vgaWriteRaw
  split <;> exact ⟨rfl, rfl⟩

/-- A loop whose every turn leaves the cursor alone leaves it alone. -/
theorem sameCursor_foldl {ι : Type} {f : Term → ι → Term} (h : ∀ s i, SameCursor s (f s i))
    (is : List ι) : SameCursor s (is.foldl f s) := by
  induction is generalizing s with
  | nil => exact ⟨rfl, rfl⟩
  | cons i is ih =>
    have hrest := ih (f s i)
    exact ⟨hrest.1.trans (h s i).1, hrest.2.trans (h s i).2⟩

theorem entry_space : vgaEntry 0x0 0xF space = blank := by decide

theorem cell_clearColumn {col r k : Nat} (n : Nat) (hn : n ≤ 25) (hk : k < 80) :
    ((List.range n).foldl (fun s row => vgaWrite s row col 0x0 0xF space) s).cell r k =
      if r < n ∧ k = col ∧ col < 25 then blank else s.cell r k := by
  induction n with
  | zero => simp
  | succ n ih =>
    rw [List.range_succ, List.foldl_append, List.foldl_cons, List.foldl_nil, vgaWrite,
      cell_vgaWriteRaw _ _ (by omega) hk, ih (by omega), entry_space]
    split_ifs <;> first | omega | rfl

theorem cell_termClear {r k : Nat} (hr : r < 25) (hk : k < 80) :
    (termClear s).cell r k = if k < 25 then blank else s.cell r k := by
  have hloop : ∀ n, ((List.range n).foldl (fun s col =>
      (List.range vgaRows).foldl (fun s row => vgaWrite s row col 0x0 0xF space) s) s).cell r k =
        if k < n ∧ k < 25 then blank else s.cell r k := by
    intro n
    induction n with
    | zero => simp
    | succ n ih =>
      rw [List.range_succ, List.foldl_append, List.foldl_cons, List.foldl_nil,
        cell_clearColumn _ vgaRows (Nat.le_refl _) hk, ih, vgaRows]
      split_ifs <;> first | omega | rfl
  rw [termClear, hloop vgaCols, vgaCols]
  split_ifs <;> first | omega | rfl

theorem cell_clearRow {r k : Nat} (hk : k < 80) :
    ((List.range vgaCols).foldl
      (fun s col => vgaWrite s (vgaRows - 1) col 0x0 0xF space) s).cell r k =
        if r = 24 ∧ k < 25 then blank else s.cell r k := by
  have hloop : ∀ n, ((List.range n).foldl
      (fun s col => vgaWrite s (vgaRows - 1) col 0x0 0xF space) s).cell r k =
        if r = 24 ∧ k < n ∧ k < 25 then blank else s.cell r k := by
    intro n
    induction n with
    | zero => simp
    | succ n ih =>
      rw [List.range_succ, List.foldl_append, List.foldl_cons, List.foldl_nil, vgaWrite,
        cell_vgaWriteRaw _ _ (by decide) hk, ih, entry_space, vgaRows]
      split_ifs <;> first | omega | rfl
  rw [hloop vgaCols, vgaCols]
  split_ifs <;> first | omega | rfl

/-- Rows are moved from the top down, so a row is read before it is overwritten. -/
theorem cell_shiftRows {col r k : Nat} (n : Nat) (hn : n ≤ 24) (hcol : col < 80) (hk : k < 80) :
    ((List.range' 1 n).foldl (fun s row =>
      vgaWriteRaw s (row - 1) col (vgaReadRaw s row col)) s).cell r k =
        if r < n ∧ k = col ∧ col < 25 then s.cell (r + 1) k else s.cell r k := by
  induction n generalizing r k with
  | zero => simp
  | succ n ih =>
    rw [List.range'_1_concat, List.foldl_append, List.foldl_cons, List.foldl_nil,
      cell_vgaWriteRaw _ _ (by omega) hk, ih (by omega) hk]
    by_cases hhere : r = 1 + n - 1 ∧ k = col ∧ col < 25
    · obtain ⟨hr, rfl, hlt⟩ := hhere
      have hread := ih (r := 1 + n) (k := k) (by omega) hcol
      rw [if_neg (by omega)] at hread
      rw [if_pos ⟨hr, rfl, hlt⟩, if_pos (by omega), vgaReadRaw, if_neg (by omega)]
      rw [show r + 1 = 1 + n by omega]
      exact hread
    · rw [if_neg hhere]
      split_ifs <;> first | omega | rfl

theorem cell_shift {r k : Nat} (hk : k < 80) :
    ((List.range vgaCols).foldl shiftColumn s).cell r k =
      if r < 24 ∧ k < 25 then s.cell (r + 1) k else s.cell r k := by
  have hloop : ∀ n, n ≤ 80 → ∀ r, ((List.range n).foldl shiftColumn s).cell r k =
      if r < 24 ∧ k < n ∧ k < 25 then s.cell (r + 1) k else s.cell r k := by
    intro n
    induction n with
    | zero => simp
    | succ n ih =>
      intro hn r
      rw [List.range_succ, List.foldl_append, List.foldl_cons, List.foldl_nil, shiftColumn,
        cell_shiftRows _ (vgaRows - 1) (Nat.le_refl _) (by omega) hk, ih (by omega), ih (by omega),
        vgaRows]
      split_ifs <;> first | omega | rfl
  rw [hloop vgaCols (by decide), vgaCols]
  split_ifs <;> first | omega | rfl

/-- The scroll moves and blanks the first 25 columns only. -/
theorem cell_termScroll {r k : Nat} (hk : k < 80) :
    (termScroll s).cell r k =
      if k < 25 then if r = 24 then blank else if r < 24 then s.cell (r + 1) k else s.cell r k
      else s.cell r k := by
  have hcell : (termScroll s).cell r k = ((List.range vgaCols).foldl
      (fun s col => vgaWrite s (vgaRows - 1) col 0x0 0xF space)
      ((List.range vgaCols).foldl shiftColumn s)).cell r k := by
    simp only [termScroll, Term.cell]
  rw [hcell, cell_clearRow _ hk, cell_shift _ hk]
  split_ifs <;> first | omega | rfl

end Cells

section Cursor

variable {s : Term} {t : Screen} {c : BitVec 8}

theorem sameCursor_termClear (s : Term) : SameCursor s (termClear s) :=
  sameCursor_foldl s (fun s col =>
    sameCursor_foldl s (fun s row => sameCursor_vgaWriteRaw s row col _) _) _

theorem termPutc_newline (hrow : s.termRow < 25) :
    termPutc s newline =
      if s.termRow + 1 < 25 then { s with termCol := 0, termRow := s.termRow + 1 }
      else termScroll { s with termCol := 0, termRow := s.termRow + 1 } := by
  have hmod : (s.termRow + 1) % 256 = s.termRow + 1 := Nat.mod_eq_of_lt (by omega)
  have hwrap : termWrap (termSwitch s newline) =
      { s with termCol := 0, termRow := s.termRow + 1 } := by
    rw [termSwitch, if_pos rfl, termWrap, if_neg (by simp [vgaCols]), hmod]
  simp only [termPutc, hwrap, vgaRows]
  by_cases hlast : s.termRow + 1 < 25
  · rw [if_neg (by omega), if_pos hlast]
  · rw [if_pos (by omega), if_neg hlast]

theorem termPutc_char (hrow : s.termRow < 25) (hcol : s.termCol < 80) (hc : c ≠ newline) :
    termPutc s c =
      let w := vgaWrite s s.termRow s.termCol 0x0 0xF c
      if s.termCol + 1 < 80 then { w with termCol := s.termCol + 1 }
      else if s.termRow + 1 < 25 then { w with termCol := 0, termRow := s.termRow + 1 }
      else termScroll { w with termCol := 0, termRow := s.termRow + 1 } := by
  have hmod : (s.termRow + 1) % 256 = s.termRow + 1 := Nat.mod_eq_of_lt (by omega)
  have hmod' : (s.termCol + 1) % 256 = s.termCol + 1 := Nat.mod_eq_of_lt (by omega)
  have hcur : (vgaWrite s s.termRow s.termCol 0x0 0xF c).termRow = s.termRow :=
    (sameCursor_vgaWriteRaw s _ _ _).1
  simp only [termPutc, termSwitch, if_neg hc, hmod', vgaRows]
  generalize vgaWrite s s.termRow s.termCol 0x0 0xF c = w at hcur ⊢
  by_cases hwrap : s.termCol + 1 < 80
  · have hstay : termWrap { w with termCol := s.termCol + 1 } =
        { w with termCol := s.termCol + 1 } := by
      rw [termWrap, if_neg (by simp only [vgaCols]; omega)]
    rw [hstay, if_neg (by simp only; omega), if_pos hwrap]
  · have hnext : termWrap { w with termCol := s.termCol + 1 } =
        { w with termCol := 0, termRow := s.termRow + 1 } := by
      rw [termWrap, if_pos (by simp only [vgaCols]; omega), hcur, hmod]
    rw [hnext, if_neg hwrap]
    by_cases hlast : s.termRow + 1 < 25
    · rw [if_neg (by simp only; omega), if_pos hlast]
    · rw [if_pos (by simp only; omega), if_neg hlast]

/-- The column after a character. -/
def nextCol (col : Nat) (c : BitVec 8) : Nat :=
  if c = newline then 0 else if col + 1 < 80 then col + 1 else 0

theorem nextCol_lt (col : Nat) (c : BitVec 8) : nextCol col c < 80 := by
  unfold nextCol
  split_ifs <;> omega

theorem termPutc_termCol (hrow : s.termRow < 25) (hcol : s.termCol < 80) :
    (termPutc s c).termCol = nextCol s.termCol c := by
  have hscroll : ∀ w : Term, (termScroll w).termCol = 0 := fun w => by simp [termScroll]
  unfold nextCol
  by_cases hc : c = newline
  · subst hc
    rw [termPutc_newline hrow, if_pos rfl]
    split
    · rfl
    · exact hscroll _
  · rw [termPutc_char hrow hcol hc, if_neg hc]
    dsimp only
    split
    · rfl
    · split
      · rfl
      · exact hscroll _

/-- The cursor stays on the screen. -/
theorem termPutc_cursor (hrow : s.termRow < 25) (hcol : s.termCol < 80) :
    (termPutc s c).termRow < 25 ∧ (termPutc s c).termCol < 80 := by
  refine ⟨?_, by rw [termPutc_termCol hrow hcol]; exact nextCol_lt _ _⟩
  have hscroll : ∀ w : Term, (termScroll w).termRow < 25 := fun w => by simp [termScroll, vgaRows]
  by_cases hc : c = newline
  · subst hc
    rw [termPutc_newline hrow]
    split
    · assumption
    · exact hscroll _
  · rw [termPutc_char hrow hcol hc]
    have hcur := (sameCursor_vgaWriteRaw s s.termRow s.termCol (vgaEntry 0x0 0xF c)).1
    dsimp only
    split
    · exact lt_of_eq_of_lt hcur hrow
    · split
      · assumption
      · exact hscroll _

theorem termPutcs_cursor (hrow : s.termRow < 25) (hcol : s.termCol < 80) (cs : List (BitVec 8)) :
    (termPutcs s cs).termRow < 25 ∧ (termPutcs s cs).termCol < 80 := by
  induction cs generalizing s with
  | nil => exact ⟨hrow, hcol⟩
  | cons c cs ih =>
    obtain ⟨hrow', hcol'⟩ := termPutc_cursor (c := c) hrow hcol
    exact ih hrow' hcol'

/-- The column depends on the characters alone, not on what the screen shows. -/
theorem termPutcs_termCol (hrow : s.termRow < 25) (hcol : s.termCol < 80) (cs : List (BitVec 8)) :
    (termPutcs s cs).termCol = cs.foldl nextCol s.termCol := by
  induction cs generalizing s with
  | nil => rfl
  | cons c cs ih =>
    obtain ⟨hrow', hcol'⟩ := termPutc_cursor (c := c) hrow hcol
    rw [termPutcs_cons, ih hrow' hcol', termPutc_termCol hrow hcol, List.foldl_cons]

/-- On one row each character moves the cursor one column. -/
theorem foldl_nextCol_replicate {col n : Nat} (hcol : col + n < 80) (hc : c ≠ newline) :
    (List.replicate n c).foldl nextCol col = col + n := by
  induction n generalizing col with
  | zero => rfl
  | succ n ih =>
    have hstep : nextCol col c = col + 1 := by rw [nextCol, if_neg hc, if_pos (by omega)]
    rw [List.replicate_succ, List.foldl_cons, hstep, ih (by omega)]
    omega

/-- A text whose every character fits, put from column `col` on. -/
def FitsFrom : Nat → List (BitVec 8) → Prop
  | _, [] => True
  | col, c :: cs => Fits col c ∧ FitsFrom (nextCol col c) cs

instance FitsFrom.decidable : (col : Nat) → (cs : List (BitVec 8)) → Decidable (FitsFrom col cs)
  | _, [] => isTrue trivial
  | col, c :: cs =>
    have := FitsFrom.decidable (nextCol col c) cs
    inferInstanceAs (Decidable (Fits col c ∧ FitsFrom (nextCol col c) cs))

theorem foldl_fits_iff {col : Nat} {cs : List (BitVec 8)} :
    (∀ pre c, pre ++ [c] <+: cs → Fits (pre.foldl nextCol col) c) ↔ FitsFrom col cs := by
  induction cs generalizing col with
  | nil =>
    constructor
    · intro _
      exact trivial
    · intro _ pre c hpre
      simp at hpre
  | cons d cs ih =>
    constructor
    · intro fits
      refine ⟨fits [] d (by simp), ih.mp fun pre c hpre => ?_⟩
      exact fits (d :: pre) c (List.cons_prefix_cons.mpr ⟨rfl, hpre⟩)
    · rintro ⟨hfits, hrest⟩ pre c hpre
      cases pre with
      | nil =>
        have hc : c = d := by simpa using hpre
        rw [hc]
        exact hfits
      | cons e pre =>
        obtain ⟨rfl, htail⟩ := List.cons_prefix_cons.mp hpre
        exact ih.mpr hrest pre c htail

/-- Whether the characters fit as they are put can be read off the text. -/
theorem fits_iff (hrow : s.termRow < 25) (hcol : s.termCol < 80) {cs : List (BitVec 8)} :
    (∀ pre c, pre ++ [c] <+: cs → Fits (termPutcs s pre).termCol c) ↔
      FitsFrom s.termCol cs := by
  rw [← foldl_fits_iff]
  exact forall_congr' fun pre => by rw [termPutcs_termCol hrow hcol pre]

end Cursor

section Step

variable {s : Term} {t : Screen} {c : BitVec 8}

/-- The columns no write reaches are blank. -/
def WideBlank (s : Term) : Prop := ∀ r < 25, ∀ k < 80, 25 ≤ k → s.cell r k = blank

/-- The terminal shows the reference's screen, and still will in the columns it cannot reach. -/
structure Faithful (s : Term) (t : Screen) : Prop extends Shows s t where
  wide : WideBlank s
  rowBound : s.termRow < 25
  colBound : s.termCol < 80

theorem entry_ascii : ∀ c : BitVec 8, c.toNat < 128 →
    vgaEntry 0x0 0xF c = 0x0F00 ||| c.setWidth 16 := by
  decide +kernel

theorem entry_high : ∀ c : BitVec 8, ¬ c.toNat < 128 →
    vgaEntry 0x0 0xF c ≠ 0x0F00 ||| c.setWidth 16 := by
  decide +kernel

theorem ref_space : ∀ c : BitVec 8, blank = 0x0F00 ||| c.setWidth 16 ↔ c = space := by
  decide +kernel

/-- The write at the cursor shows the character exactly if it fits there. -/
theorem write_shows_iff (f : Faithful s t) (hc : c ≠ newline) :
    (vgaWrite s s.termRow s.termCol 0x0 0xF c).cell s.termRow s.termCol =
      (t.place c).cell s.termRow s.termCol ↔ Fits s.termCol c := by
  have hplace : (t.place c).cell s.termRow s.termCol = 0x0F00 ||| c.setWidth 16 := by
    simp [Screen.place, f.row, f.col]
  rw [vgaWrite, cell_vgaWriteRaw s _ f.rowBound f.colBound, hplace]
  by_cases hcol : s.termCol < 25
  · rw [if_pos ⟨rfl, rfl, hcol⟩]
    constructor
    · intro heq
      exact Or.inr (Or.inl ⟨hcol, not_not.mp (fun hhigh => entry_high c hhigh heq)⟩)
    · rintro (rfl | ⟨-, hascii⟩ | ⟨hwide, -⟩)
      · exact absurd rfl hc
      · exact entry_ascii c hascii
      · omega
  · rw [if_neg (by omega), f.wide _ f.rowBound _ f.colBound (by omega), ref_space]
    constructor
    · intro heq
      exact Or.inr (Or.inr ⟨by omega, heq⟩)
    · rintro (rfl | ⟨hlow, -⟩ | ⟨-, heq⟩)
      · exact absurd rfl hc
      · omega
      · exact heq

/-- Away from the cursor the write changes neither screen. -/
theorem write_elsewhere (f : Faithful s t) {r k : Nat} (hk : k < 80)
    (away : ¬ (r = s.termRow ∧ k = s.termCol)) :
    (vgaWrite s s.termRow s.termCol 0x0 0xF c).cell r k = s.cell r k ∧
      (t.place c).cell r k = t.cell r k := by
  constructor
  · rw [vgaWrite, cell_vgaWriteRaw s _ f.rowBound hk, if_neg (fun h => away ⟨h.1, h.2.1⟩)]
  · rw [f.row, f.col] at away
    simp [Screen.place, away]

theorem write_shows (f : Faithful s t) (hc : c ≠ newline) (fits : Fits s.termCol c) :
    (∀ r < 25, ∀ k < 80, (vgaWrite s s.termRow s.termCol 0x0 0xF c).cell r k =
      (t.place c).cell r k) ∧ WideBlank (vgaWrite s s.termRow s.termCol 0x0 0xF c) := by
  constructor
  · intro r hr k hk
    by_cases here : r = s.termRow ∧ k = s.termCol
    · rw [here.1, here.2]
      exact (write_shows_iff f hc).mpr fits
    · obtain ⟨h1, h2⟩ := write_elsewhere (c := c) f hk here
      rw [h1, h2, f.cells r hr k hk]
  · intro r hr k hk hwide
    rw [vgaWrite, cell_vgaWriteRaw s _ f.rowBound hk, if_neg (by omega), f.wide r hr k hk hwide]

/-- Scrolling keeps two screens that agree in agreement. -/
theorem scroll_shows {cells : Nat → Nat → BitVec 16}
    (agree : ∀ r < 25, ∀ k < 80, s.cell r k = cells r k) (wide : WideBlank s) :
    (∀ r < 25, ∀ k < 80, (termScroll s).cell r k =
      if r < 24 then cells (r + 1) k else blank) ∧ WideBlank (termScroll s) := by
  constructor
  · intro r hr k hk
    rw [cell_termScroll s hk]
    by_cases hcol : k < 25
    · rw [if_pos hcol]
      by_cases hlast : r = 24
      · rw [if_pos hlast, if_neg (by omega)]
      · rw [if_neg hlast, if_pos (by omega), if_pos (by omega), agree (r + 1) (by omega) k hk]
    · rw [if_neg hcol, wide r hr k hk (by omega)]
      by_cases hlast : r < 24
      · rw [if_pos hlast, ← agree (r + 1) (by omega) k hk, wide (r + 1) (by omega) k hk (by omega)]
      · rw [if_neg hlast]
  · intro r hr k hk hwide
    rw [cell_termScroll s hk, if_neg (by omega), wide r hr k hk hwide]

theorem faithful_newline (f : Faithful s t) : Faithful (termPutc s newline) (t.putc newline) := by
  have hbound := termPutc_cursor (c := newline) f.rowBound f.colBound
  have hrow := f.row
  rw [termPutc_newline f.rowBound] at hbound ⊢
  by_cases hlast : s.termRow + 1 < 25
  · rw [if_pos hlast] at hbound ⊢
    have href : t.putc newline = { t with row := t.row + 1, col := 0 } := by
      simp [Screen.putc, Screen.settle, ← hrow, hlast]
    rw [href]
    exact ⟨⟨by simp [hrow], rfl, f.cells⟩, f.wide, hbound.1, hbound.2⟩
  · rw [if_neg hlast] at hbound ⊢
    have href : t.putc newline =
        ⟨fun r k => if r < 24 then t.cell (r + 1) k else blank, 24, 0⟩ := by
      simp [Screen.putc, Screen.settle, ← hrow, hlast]
    obtain ⟨cells, wide⟩ :=
      scroll_shows (s := { s with termCol := 0, termRow := s.termRow + 1 }) f.cells f.wide
    rw [href]
    exact ⟨⟨rfl, rfl, cells⟩, wide, hbound.1, hbound.2⟩

/-- The cursor after a character, in the reference. -/
theorem putc_char (hrow : s.termRow = t.row) (hcol : s.termCol = t.col) (hr : s.termRow < 25)
    (hc : c ≠ newline) : t.putc c =
      if s.termCol + 1 < 80 then { t.place c with col := s.termCol + 1 }
      else if s.termRow + 1 < 25 then { t.place c with row := s.termRow + 1, col := 0 }
      else ⟨fun r k => if r < 24 then (t.place c).cell (r + 1) k else blank, 24, 0⟩ := by
  have hplace : (t.place c).row = s.termRow ∧ (t.place c).col = s.termCol := ⟨hrow.symm, hcol.symm⟩
  rw [Screen.putc, if_neg hc, Screen.advance, hplace.2, hplace.1]
  by_cases hwrap : s.termCol + 1 < 80
  · rw [if_pos hwrap, if_pos hwrap, Screen.settle, if_pos (by simpa [hplace.1] using hr),
      ← hplace.1]
  · rw [if_neg hwrap, if_neg hwrap, Screen.settle]

theorem faithful_char (f : Faithful s t) (hc : c ≠ newline) (fits : Fits s.termCol c) :
    Faithful (termPutc s c) (t.putc c) := by
  have hbound := termPutc_cursor (c := c) f.rowBound f.colBound
  obtain ⟨cells, wide⟩ := write_shows f hc fits
  have hcur : (vgaWrite s s.termRow s.termCol 0x0 0xF c).termRow = s.termRow :=
    (sameCursor_vgaWriteRaw s _ _ _).1
  rw [putc_char f.row f.col f.rowBound hc]
  rw [termPutc_char f.rowBound f.colBound hc] at hbound ⊢
  dsimp only at hbound ⊢
  by_cases hwrap : s.termCol + 1 < 80
  · rw [if_pos hwrap] at hbound ⊢
    rw [if_pos hwrap]
    exact ⟨⟨hcur.trans f.row, rfl, cells⟩, wide, hbound.1, hbound.2⟩
  · rw [if_neg hwrap] at hbound ⊢
    rw [if_neg hwrap]
    by_cases hlast : s.termRow + 1 < 25
    · rw [if_pos hlast] at hbound ⊢
      rw [if_pos hlast]
      exact ⟨⟨rfl, rfl, cells⟩, wide, hbound.1, hbound.2⟩
    · rw [if_neg hlast] at hbound ⊢
      rw [if_neg hlast]
      obtain ⟨cells', wide'⟩ := scroll_shows
        (s := { vgaWrite s s.termRow s.termCol 0x0 0xF c with
          termCol := 0, termRow := s.termRow + 1 }) cells wide
      exact ⟨⟨rfl, rfl, cells'⟩, wide', hbound.1, hbound.2⟩

/-- A character that fits keeps the terminal faithful. -/
theorem faithful_step (f : Faithful s t) (fits : Fits s.termCol c) :
    Faithful (termPutc s c) (t.putc c) := by
  by_cases hc : c = newline
  · rw [hc]
    exact faithful_newline f
  · exact faithful_char f hc fits

/-- A character that does not fit is shown wrong at once. -/
theorem misfit_step (f : Faithful s t) (misfit : ¬ Fits s.termCol c) :
    ¬ Shows (termPutc s c) (t.putc c) := by
  intro shows
  have hc : c ≠ newline := fun h => misfit (Or.inl h)
  have hdiff := mt (write_shows_iff f hc).mp misfit
  have cells := shows.cells
  rw [putc_char f.row f.col f.rowBound hc, termPutc_char f.rowBound f.colBound hc] at cells
  dsimp only at cells
  by_cases hwrap : s.termCol + 1 < 80
  · rw [if_pos hwrap, if_pos hwrap] at cells
    exact hdiff (cells s.termRow f.rowBound s.termCol f.colBound)
  · rw [if_neg hwrap, if_neg hwrap] at cells
    by_cases hlast : s.termRow + 1 < 25
    · rw [if_pos hlast, if_pos hlast] at cells
      exact hdiff (cells s.termRow f.rowBound s.termCol f.colBound)
    · -- the corner: the reference moves the character up, the code cannot
      rw [if_neg hlast, if_neg hlast] at cells
      have hcol : s.termCol = 79 := by have := f.colBound; omega
      have hrow : s.termRow = 24 := by have := f.rowBound; omega
      have hcell : _ = (t.place c).cell 24 79 := cells 23 (by omega) 79 (by omega)
      have hold := (write_elsewhere (c := c) (r := 23) (k := 79) f (by omega) (by omega)).1
      have hplace : (t.place c).cell 24 79 = 0x0F00 ||| c.setWidth 16 := by
        simp [Screen.place, ← f.row, ← f.col, hrow, hcol]
      rw [cell_termScroll _ (by omega), if_neg (by omega), hplace] at hcell
      have hblank : blank = 0x0F00 ||| c.setWidth 16 := by
        rw [← hcell, ← f.wide 23 (by omega) 79 (by omega) (by omega), ← hold]
        rfl
      exact misfit (Or.inr (Or.inr ⟨by omega, (ref_space c).mp hblank⟩))

/-- Along a run the terminal is right exactly as long as every character fits. -/
theorem run_shows_iff (f : Faithful s t) (cs : List (BitVec 8)) :
    (∀ pre, pre <+: cs → Shows (termPutcs s pre) (t.putcs pre)) ↔
      ∀ pre c, pre ++ [c] <+: cs → Fits (termPutcs s pre).termCol c := by
  induction cs generalizing s t with
  | nil =>
    constructor
    · intro _ pre c hpre
      simp at hpre
    · intro _ pre hpre
      rw [List.prefix_nil.mp hpre]
      exact f.toShows
  | cons c cs ih =>
    constructor
    · intro shows
      have hfits : Fits s.termCol c := by
        by_contra misfit
        exact misfit_step f misfit (shows [c] (by simp))
      have hrest := (ih (faithful_step f hfits)).mp
        (fun pre hpre => shows (c :: pre) (List.cons_prefix_cons.mpr ⟨rfl, hpre⟩))
      intro pre d hpre
      cases pre with
      | nil =>
        have hd : d = c := by simpa using hpre
        rw [hd]
        exact hfits
      | cons e pre =>
        obtain ⟨rfl, htail⟩ := List.cons_prefix_cons.mp hpre
        exact hrest pre d htail
    · intro fits
      have hfits : Fits s.termCol c := fits [] c (by simp)
      have hrest := (ih (faithful_step f hfits)).mpr
        (fun pre d hpre => fits (c :: pre) d (List.cons_prefix_cons.mpr ⟨rfl, hpre⟩))
      intro pre hpre
      cases pre with
      | nil => exact f.toShows
      | cons e pre =>
        obtain ⟨rfl, htail⟩ := List.cons_prefix_cons.mp hpre
        exact hrest pre htail

/-- `term_clear` leaves the columns it does not reach as they were. -/
theorem wideBlank_of_shows {row col : Nat} (shows : Shows (termClear s) (.clear row col)) :
    WideBlank s := by
  intro r hr k hk hwide
  have hcell : (termClear s).cell r k = blank := shows.cells r hr k hk
  rwa [cell_termClear s hr hk, if_neg (by omega)] at hcell

theorem clear_faithful (hrow : s.termRow < 25) (hcol : s.termCol < 80) (wide : WideBlank s) :
    Faithful (termClear s) (.clear s.termRow s.termCol) := by
  obtain ⟨hr, hc⟩ := sameCursor_termClear s
  have cells : ∀ r < 25, ∀ k < 80, (termClear s).cell r k = blank := by
    intro r hr k hk
    rw [cell_termClear s hr hk]
    split
    · rfl
    · exact wide r hr k hk (by omega)
  exact ⟨⟨hr, hc, cells⟩, fun r hr k hk _ => cells r hr k hk, by omega, by omega⟩

end Step

/-- After `term_clear` and along any characters the cursor stays on the screen,
and the terminal is the reference's exactly if the columns from 25 on were
blank to begin with and every character fits where it is put. -/
theorem terminal_shows_iff (s : Term) (hrow : s.termRow < 25) (hcol : s.termCol < 80)
    (cs : List (BitVec 8)) :
    (∀ pre, pre <+: cs → (termPutcs (termClear s) pre).termRow < 25 ∧
      (termPutcs (termClear s) pre).termCol < 80) ∧
    ((∀ pre, pre <+: cs → Shows (termPutcs (termClear s) pre)
        ((Screen.clear s.termRow s.termCol).putcs pre)) ↔
      WideBlank s ∧
        ∀ pre c, pre ++ [c] <+: cs → Fits (termPutcs (termClear s) pre).termCol c) := by
  obtain ⟨hr, hc⟩ := sameCursor_termClear s
  refine ⟨fun pre _ => termPutcs_cursor (by omega) (by omega) pre, ?_⟩
  constructor
  · intro shows
    have hclear := shows [] List.nil_prefix
    rw [termPutcs_nil, Screen.putcs_nil] at hclear
    have wide := wideBlank_of_shows hclear
    exact ⟨wide, (run_shows_iff (clear_faithful hrow hcol wide) cs).mp shows⟩
  · rintro ⟨wide, fits⟩
    exact (run_shows_iff (clear_faithful hrow hcol wide) cs).mpr fits

/-- A letter, spaces to the end of its line, a second letter and a newline. -/
def wrapped : List (BitVec 8) := 0x48 :: List.replicate 79 space ++ [0x69, newline]

/-- From row 23 a full line wraps onto the last row, and the newline after the letter
there scrolls both rows up. -/
theorem terminal_shows_scrolled :
    (∀ pre, pre <+: wrapped → Shows (termPutcs (termClear ⟨fun _ => blank, 23, 0⟩) pre)
      ((Screen.clear 23 0).putcs pre)) ∧
    (termPutcs (termClear ⟨fun _ => blank, 23, 0⟩) wrapped).cell 22 0 = 0x0F48 ∧
    (termPutcs (termClear ⟨fun _ => blank, 23, 0⟩) wrapped).cell 23 0 = 0x0F69 := by
  have shows := (terminal_shows_iff ⟨fun _ => blank, 23, 0⟩ (by decide) (by decide) wrapped).2.mpr
  obtain ⟨hrow, hcol⟩ := sameCursor_termClear ⟨fun _ => blank, 23, 0⟩
  generalize termClear ⟨fun _ => blank, 23, 0⟩ = s at shows hrow hcol ⊢
  have fits : ∀ pre c, pre ++ [c] <+: wrapped → Fits (termPutcs s pre).termCol c := by
    rw [fits_iff (hrow ▸ by decide) (hcol ▸ by decide), hcol]
    decide
  have shown := shows ⟨fun _ _ _ _ _ => rfl, fits⟩
  refine ⟨shown, ?_, ?_⟩
  · rw [(shown wrapped (List.prefix_refl _)).cells 22 (by decide) 0 (by decide)]
    decide +kernel
  · rw [(shown wrapped (List.prefix_refl _)).cells 23 (by decide) 0 (by decide)]
    decide +kernel

/-- The 26th letter of a line on a blank screen is not shown, and neither is
the code 0xE9 in the corner. -/
theorem terminal_differs :
    (¬ ∀ pre, pre <+: List.replicate 26 0x41 →
      Shows (termPutcs (termClear ⟨fun _ => blank, 0, 0⟩) pre) ((Screen.clear 0 0).putcs pre)) ∧
    ¬ Shows (termPutcs (termClear ⟨fun _ => blank, 0, 0⟩) [0xE9])
      ((Screen.clear 0 0).putcs [0xE9]) := by
  have start : Faithful (termClear ⟨fun _ => blank, 0, 0⟩) (.clear 0 0) :=
    clear_faithful (by decide) (by decide) (fun _ _ _ _ _ => rfl)
  generalize termClear ⟨fun _ => blank, 0, 0⟩ = s at start ⊢
  have hrow : s.termRow = 0 := start.row
  have hcol : s.termCol = 0 := start.col
  constructor
  · intro shows
    have fits := (run_shows_iff start _).mp shows (List.replicate 25 0x41) 0x41 (by simp)
    rw [termPutcs_termCol (by omega) (by omega), foldl_nextCol_replicate (by omega) (by decide),
      hcol] at fits
    rcases fits with h | ⟨h, -⟩ | ⟨-, h⟩
    · exact absurd h (by decide)
    · omega
    · exact absurd h (by decide)
  · rw [termPutcs_cons, termPutcs_nil, Screen.putcs_cons, Screen.putcs_nil]
    apply misfit_step start
    rw [hcol]
    rintro (h | ⟨-, h⟩ | ⟨h, -⟩)
    · exact absurd h (by decide)
    · exact absurd h (by decide)
    · omega

end WaddleOS
