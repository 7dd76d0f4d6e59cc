import Mathlib.Data.List.Infix
import Mathlib.Logic.Function.Basic

/-!
# `lib/term.c`

The VGA text terminal. The buffer is `vga_buffer` by cell index, the cursor is
`term_row` and `term_col`, two `uint8_t`s. Characters are C `char`s, signed on
this machine, given by their 8-bit code.
-/

namespace WaddleOS

structure Term where
  vgaBuffer : Nat → BitVec 16
  termRow : Nat
  termCol : Nat

def vgaCols : Nat := 80
def vgaRows : Nat := 25

/-- `_vga_write`. -/
def vgaWriteRaw (s : Term) (row col : Nat) (raw : BitVec 16) : Term :=
  -- bounds check
  if row > 79 ∨ col > 24 then s
  else { s with vgaBuffer := Function.update s.vgaBuffer (vgaCols * row + col) raw }

/-- The cell `vga_write` stores: the `char` is widened with its sign before it is or-ed in. -/
def vgaEntry (bg fg c : BitVec 8) : BitVec 16 :=
  ((bg &&& 0xF).setWidth 16 <<< 12) ||| ((fg &&& 0xF).setWidth 16 <<< 8) ||| c.signExtend 16

def vgaWrite (s : Term) (row col : Nat) (bg fg c : BitVec 8) : Term :=
  vgaWriteRaw s row col (vgaEntry bg fg c)

/-- `_vga_read`. -/
def vgaReadRaw (s : Term) (row col : Nat) : BitVec 16 :=
  if row > 79 ∨ col > 24 then 0 else s.vgaBuffer (vgaCols * row + col)

def space : BitVec 8 := 0x20
def newline : BitVec 8 := 0x0A

def termClear (s : Term) : Term :=
  (List.range vgaCols).foldl (fun s col =>
    (List.range vgaRows).foldl (fun s row => vgaWrite s row col 0x0 0xF space) s) s

/-- One column of the scroll: each row takes the row below it. -/
def shiftColumn (s : Term) (col : Nat) : Term :=
  (List.range' 1 (vgaRows - 1)).foldl (fun s row =>
    vgaWriteRaw s (row - 1) col (vgaReadRaw s row col)) s

/-- What `term_putc` does when the cursor has left the last row. -/
def termScroll (s : Term) : Term :=
  let s := (List.range vgaCols).foldl shiftColumn s
  let s := (List.range vgaCols).foldl (fun s col => vgaWrite s (vgaRows - 1) col 0x0 0xF space) s
  { s with termCol := 0, termRow := vgaRows - 1 }

/-- The `switch` of `term_putc`. -/
def termSwitch (s : Term) (c : BitVec 8) : Term :=
  if c = newline then { s with termCol := 0, termRow := (s.termRow + 1) % 256 }
  else { vgaWrite s s.termRow s.termCol 0x0 0xF c with termCol := (s.termCol + 1) % 256 }

/-- Leave the last column for the next row. -/
def termWrap (s : Term) : Term :=
  if s.termCol ≥ vgaCols then { s with termCol := 0, termRow := (s.termRow + 1) % 256 } else s

def termPutc (s : Term) (c : BitVec 8) : Term :=
  let s := termWrap (termSwitch s c)
  if s.termRow ≥ vgaRows then termScroll s else s

def termPutcs (s : Term) (cs : List (BitVec 8)) : Term := cs.foldl termPutc s

@[simp] theorem termPutcs_nil (s : Term) : termPutcs s [] = s := rfl

@[simp] theorem termPutcs_cons (s : Term) (c : BitVec 8) (cs : List (BitVec 8)) :
    termPutcs s (c :: cs) = termPutcs (termPutc s c) cs := rfl

end WaddleOS
