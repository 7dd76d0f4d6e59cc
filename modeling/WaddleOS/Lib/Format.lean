import Mathlib.Algebra.Group.Even
import Mathlib.Data.List.DropRight
import WaddleOS.Lib.Printf

/-!
# The format strings that `vprintf_to_device` interprets

`Interprets` reads a format string with its arguments as a list of items, each
with the text it is to print. The scanner agrees with it as long as no `%`
stands last: there it takes the NUL for a directive's letter, and goes on
behind it. From index 2^32 - 1 on it prints nothing, and a directive across
that index makes it start again.
-/

namespace WaddleOS

/-- What a place in a format string asks for. -/
inductive Item where
  | plain (c : UInt8)
  | string (text : List UInt8)
  | decimal (a : BitVec 32)
  | hex (v : BitVec 64)
  | other (c : UInt8)
  | cut
  deriving DecidableEq, Repr

namespace Item

def spelled : Item → List UInt8
  | plain c => [c]
  | string _ => [percent, 115]
  | decimal _ => [percent, 100]
  | hex _ => [percent, 120]
  | other c => [percent, c]
  | cut => [percent]

/-- What is to be printed. -/
def text : Item → List UInt8
  | plain c => [c]
  | string text => text
  | decimal a => numeral a.toInt
  | hex v => [48, 120] ++ (digitsOf 16 16 v.toNat).map digitChar
  | other _ => [88]
  | cut => [88]

/-- What is printed: the smallest `int` loses its digits. -/
def sent : Item → List UInt8
  | decimal a => putDecimal a
  | it => it.text

end Item

/-- The characters that a list of items takes in a format string. -/
def spelling (items : List Item) : List UInt8 := items.flatMap Item.spelled

/-- The format string asks for the items, and every `%s`, `%d` and `%x` finds
its argument. -/
inductive Interprets (m : Mem) : List UInt8 → List VaArg → List Item → Prop where
  | nil {args : List VaArg} : Interprets m [] args []
  | plain {c : UInt8} {cs : List UInt8} {args : List VaArg} {items : List Item}
      (hc : c ≠ percent) (rest : Interprets m cs args items) :
      Interprets m (c :: cs) args (.plain c :: items)
  | string {p : Nat} {text cs : List UInt8} {args : List VaArg} {items : List Item}
      (hp : CString (fun i => m.get (p + i)) text) (rest : Interprets m cs args items) :
      Interprets m (percent :: 115 :: cs) (.str p :: args) (.string text :: items)
  | decimal {a : BitVec 32} {cs : List UInt8} {args : List VaArg} {items : List Item}
      (rest : Interprets m cs args items) :
      Interprets m (percent :: 100 :: cs) (.int a :: args) (.decimal a :: items)
  | hex {v : BitVec 64} {cs : List UInt8} {args : List VaArg} {items : List Item}
      (rest : Interprets m cs args items) :
      Interprets m (percent :: 120 :: cs) (.uint64 v :: args) (.hex v :: items)
  | other {c : UInt8} {cs : List UInt8} {args : List VaArg} {items : List Item}
      (hc : c ≠ 115 ∧ c ≠ 100 ∧ c ≠ 120) (rest : Interprets m cs args items) :
      Interprets m (percent :: c :: cs) args (.other c :: items)
  | cut {args : List VaArg} : Interprets m [percent] args [.cut]

/-- The call returns, with the items' texts one behind the other, and has read
the format string no further than its NUL. -/
def PrintsExactly (m : Mem) (str : Nat) (fmt : List UInt8) (args : List VaArg)
    (items : List Item) : Prop :=
  ∃ enough r, (∀ fuel, enough ≤ fuel → vprintfToDevice fuel m str args = .ok r) ∧
    (∀ i ∈ r.reads, i ≤ fmt.length) ∧ r.sent = items.flatMap Item.text

/-! ## More steps -/

section Fuel

variable {m : Mem} {str i fuel fuel' : Nat} {args : List VaArg}

theorem print_mono {s : Nat → UInt8} {cs : List UInt8} (h : print s fuel i = .ok cs)
    (hle : fuel ≤ fuel') : print s fuel' i = .ok cs := by
  induction fuel generalizing fuel' i cs with
  | zero => cases h
  | succ fuel ih =>
    obtain ⟨more, rfl⟩ := Nat.exists_eq_add_of_le' hle
    have hle' : fuel ≤ more + fuel := Nat.le_add_left ..
    rw [← Nat.add_assoc, print]
    rw [print] at h
    split at h
    next hc =>
      obtain ⟨rest, hrest, h⟩ := bind_eq_ok.mp h
      rw [if_pos hc]
      exact bind_eq_ok.mpr ⟨rest, ih hrest hle', h⟩
    next hc =>
      rw [if_neg hc]
      exact h

theorem putDirective_mono {c : UInt8} {r : List UInt8 × List VaArg}
    (h : putDirective m fuel c args = .ok r) (hle : fuel ≤ fuel') :
    putDirective m fuel' c args = .ok r := by
  unfold putDirective at h ⊢
  split at h
  next hs =>
    rw [if_pos hs]
    match args with
    | .str p :: args =>
      obtain ⟨out, hout, h⟩ := bind_eq_ok.mp h
      exact bind_eq_ok.mpr ⟨out, print_mono hout hle, h⟩
    | [] | .int _ :: _ | .uint64 _ :: _ => cases h
  next hs =>
    rw [if_neg hs]
    exact h

theorem vprintfLoop_mono {r : Printed} (h : vprintfLoop m str fuel i args = .ok r)
    (hle : fuel ≤ fuel') : vprintfLoop m str fuel' i args = .ok r := by
  induction fuel generalizing fuel' i args r with
  | zero => cases h
  | succ fuel ih =>
    obtain ⟨more, rfl⟩ := Nat.exists_eq_add_of_le' hle
    have hle' : fuel ≤ more + fuel := Nat.le_add_left ..
    rw [← Nat.add_assoc, vprintfLoop]
    rw [vprintfLoop] at h
    dsimp only at h ⊢
    split at h
    next hc =>
      rw [if_pos hc]
      split at h
      next hp =>
        rw [if_pos hp]
        obtain ⟨⟨out, args'⟩, hdir, h⟩ := bind_eq_ok.mp h
        obtain ⟨rest, hrest, h⟩ := bind_eq_ok.mp h
        exact bind_eq_ok.mpr ⟨_, putDirective_mono hdir hle',
          bind_eq_ok.mpr ⟨rest, ih hrest hle', h⟩⟩
      next hp =>
        rw [if_neg hp]
        obtain ⟨rest, hrest, h⟩ := bind_eq_ok.mp h
        exact bind_eq_ok.mpr ⟨rest, ih hrest hle', h⟩
    next hc =>
      rw [if_neg hc]
      exact h

end Fuel

/-- From index `i` on the loop ends with `r`. -/
def Runs (m : Mem) (str i : Nat) (args : List VaArg) (r : Printed) : Prop :=
  ∃ fuel, vprintfLoop m str fuel i args = .ok r

/-- The directive with the letter `c` prints `out`. -/
def Does (m : Mem) (c : UInt8) (args : List VaArg) (out : List UInt8) (args' : List VaArg) : Prop :=
  ∃ fuel, putDirective m fuel c args = .ok (out, args')

section Steps

variable {m : Mem} {str i : Nat} {args : List VaArg} {r : Printed}

theorem Runs.unique {r' : Printed} (h : Runs m str i args r) (h' : Runs m str i args r') :
    r = r' := by
  obtain ⟨f, hf⟩ := h
  obtain ⟨f', hf'⟩ := h'
  have hl := vprintfLoop_mono hf (Nat.le_max_left f f')
  have hr := vprintfLoop_mono hf' (Nat.le_max_right f f')
  exact Except.ok.inj (hl.symm.trans hr)

theorem printsExactly_iff {fmt : List UInt8} {items : List Item} :
    PrintsExactly m str fmt args items ↔ ∃ r, Runs m str 0 args r ∧
      (∀ i ∈ r.reads, i ≤ fmt.length) ∧ r.sent = items.flatMap Item.text := by
  constructor
  · rintro ⟨enough, r, hrun, hreads, hsent⟩
    exact ⟨r, ⟨enough, hrun enough (Nat.le_refl _)⟩, hreads, hsent⟩
  · rintro ⟨r, ⟨enough, hrun⟩, hreads, hsent⟩
    exact ⟨enough, r, fun fuel hfuel => vprintfLoop_mono hrun hfuel, hreads, hsent⟩

/-- The loop ends at the NUL and at `MAX_PRINTF_LEN`. -/
theorem runs_stop (h : m.get (str + i) = 0 ∨ maxPrintfLen ≤ i) :
    Runs m str i args r ↔ r = ⟨[], [i]⟩ := by
  have hstop : ¬ (m.get (str + i) ≠ 0 ∧ i < maxPrintfLen) := by
    rintro ⟨hc, hi⟩
    rcases h with h | h
    · exact hc h
    · omega
  constructor
  · rintro ⟨fuel, hrun⟩
    cases fuel with
    | zero => cases hrun
    | succ fuel =>
      rw [vprintfLoop, if_neg hstop] at hrun
      exact (Except.ok.inj hrun).symm
  · rintro rfl
    refine ⟨1, ?_⟩
    rw [vprintfLoop, if_neg hstop]
    rfl

theorem vprintfLoop_plain {c : UInt8} (fuel : Nat) (hc : m.get (str + i) = c) (hne : c ≠ 0)
    (hp : c ≠ percent) (hi : i < maxPrintfLen) :
    vprintfLoop m str (fuel + 1) i args =
      (vprintfLoop m str fuel (i + 1) args >>= fun rest =>
        pure ⟨c :: rest.sent, i :: rest.reads⟩) := by
  have hnext : (i + 1) % 2 ^ 32 = i + 1 := by
    unfold maxPrintfLen at hi
    omega
  rw [vprintfLoop, hc, if_pos ⟨hne, hi⟩, if_neg hp, hnext]

theorem vprintfLoop_percent (fuel : Nat) (hp : m.get (str + i) = percent) (hi : i < maxPrintfLen) :
    vprintfLoop m str (fuel + 1) i args =
      (putDirective m fuel (m.get (str + (i + 1))) args >>= fun d =>
        vprintfLoop m str fuel ((i + 2) % 2 ^ 32) d.2 >>= fun rest =>
          pure ⟨d.1 ++ rest.sent, i :: (i + 1) :: rest.reads⟩) := by
  have hnext : (i + 1) % 2 ^ 32 = i + 1 := by
    unfold maxPrintfLen at hi
    omega
  have hne : percent ≠ 0 := by decide
  rw [vprintfLoop, hp, if_pos ⟨hne, hi⟩, if_pos rfl]
  dsimp only
  rw [hnext]

/-- From index `i` on the loop prints `out`, having read at `reads`, and goes on
at index `j` with the arguments `args'`. -/
def Continues (m : Mem) (str i : Nat) (args : List VaArg) (out : List UInt8) (reads : List Nat)
    (j : Nat) (args' : List VaArg) : Prop :=
  ∀ r, Runs m str i args r ↔ ∃ r', Runs m str j args' r' ∧ r = ⟨out ++ r'.sent, reads ++ r'.reads⟩

theorem Continues.refl : Continues m str i args [] [] i args := by
  intro r
  constructor
  · exact fun hr => ⟨r, hr, rfl⟩
  · rintro ⟨r', hr', rfl⟩
    exact hr'

theorem Continues.trans {j k : Nat} {args₁ args₂ : List VaArg} {out out' : List UInt8}
    {reads reads' : List Nat} (h : Continues m str i args out reads j args₁)
    (h' : Continues m str j args₁ out' reads' k args₂) :
    Continues m str i args (out ++ out') (reads ++ reads') k args₂ := by
  intro r
  rw [h r]
  simp only [List.append_assoc]
  constructor
  · rintro ⟨r₁, hr₁, rfl⟩
    obtain ⟨r₂, hr₂, rfl⟩ := (h' r₁).mp hr₁
    exact ⟨r₂, hr₂, rfl⟩
  · rintro ⟨r₂, hr₂, rfl⟩
    exact ⟨_, (h' _).mpr ⟨r₂, hr₂, rfl⟩, rfl⟩

theorem continues_plain {c : UInt8} (hc : m.get (str + i) = c) (hne : c ≠ 0) (hp : c ≠ percent)
    (hi : i < maxPrintfLen) : Continues m str i args [c] [i] (i + 1) args := by
  intro r
  constructor
  · rintro ⟨fuel, hrun⟩
    cases fuel with
    | zero => cases hrun
    | succ fuel =>
      rw [vprintfLoop_plain fuel hc hne hp hi] at hrun
      obtain ⟨r', hr', hr⟩ := bind_eq_ok.mp hrun
      exact ⟨r', ⟨fuel, hr'⟩, (Except.ok.inj hr).symm⟩
  · rintro ⟨r', ⟨fuel, hr'⟩, rfl⟩
    refine ⟨fuel + 1, ?_⟩
    rw [vprintfLoop_plain fuel hc hne hp hi]
    exact bind_eq_ok.mpr ⟨r', hr', rfl⟩

theorem continues_directive {c : UInt8} {out : List UInt8} {args' : List VaArg}
    (hp : m.get (str + i) = percent) (hi : i < maxPrintfLen) (hc : m.get (str + (i + 1)) = c)
    (hdoes : Does m c args out args') :
    Continues m str i args out [i, i + 1] ((i + 2) % 2 ^ 32) args' := by
  subst hc
  obtain ⟨fuel₁, hdoes⟩ := hdoes
  intro r
  constructor
  · rintro ⟨fuel, hrun⟩
    cases fuel with
    | zero => cases hrun
    | succ fuel =>
      rw [vprintfLoop_percent fuel hp hi] at hrun
      obtain ⟨d, hd, hrun⟩ := bind_eq_ok.mp hrun
      have hl := putDirective_mono hd (Nat.le_max_left fuel fuel₁)
      have hr := putDirective_mono hdoes (Nat.le_max_right fuel fuel₁)
      obtain rfl := Except.ok.inj (hl.symm.trans hr)
      obtain ⟨r', hr', hr⟩ := bind_eq_ok.mp hrun
      exact ⟨r', ⟨fuel, hr'⟩, (Except.ok.inj hr).symm⟩
  · rintro ⟨r', ⟨fuel, hr'⟩, rfl⟩
    refine ⟨max fuel fuel₁ + 1, ?_⟩
    rw [vprintfLoop_percent _ hp hi]
    exact bind_eq_ok.mpr ⟨_, putDirective_mono hdoes (Nat.le_max_right ..),
      bind_eq_ok.mpr ⟨r', vprintfLoop_mono hr' (Nat.le_max_left ..), rfl⟩⟩

/-- The character at the index itself is always read. -/
theorem Runs.mem_reads (h : Runs m str i args r) : i ∈ r.reads := by
  obtain ⟨fuel, h⟩ := h
  cases fuel with
  | zero => cases h
  | succ fuel =>
    rw [vprintfLoop] at h
    dsimp only at h
    split at h
    · split at h
      · obtain ⟨_, _, h⟩ := bind_eq_ok.mp h
        obtain ⟨_, _, h⟩ := bind_eq_ok.mp h
        cases h
        exact List.mem_cons_self
      · obtain ⟨_, _, h⟩ := bind_eq_ok.mp h
        cases h
        exact List.mem_cons_self
    · cases h
      exact List.mem_cons_self

end Steps

/-! ## Items -/

section Items

variable {m : Mem} {str i : Nat} {fmt : List UInt8} {args : List VaArg}
  {before after items : List Item} {it : Item}

theorem spelling_cons : spelling (it :: items) = it.spelled ++ spelling items := rfl

theorem spelling_append : spelling (before ++ after) = spelling before ++ spelling after :=
  List.flatMap_append

theorem Interprets.spelling_eq (h : Interprets m fmt args items) : spelling items = fmt := by
  induction h with
  | nil | cut => rfl
  | plain _ _ ih | string _ _ ih | decimal _ ih | hex _ ih | other _ _ ih =>
    rw [spelling_cons, ih]
    rfl

theorem Interprets.plain_ne (h : Interprets m fmt args items) {c : UInt8}
    (hc : .plain c ∈ items) : c ≠ percent := by
  induction h with
  | nil => cases hc
  | cut => cases List.mem_singleton.mp hc
  | plain hne _ ih =>
    rcases List.mem_cons.mp hc with heq | hmem
    · cases heq
      exact hne
    · exact ih hmem
  | string _ _ ih | decimal _ ih | hex _ ih | other _ _ ih =>
    rcases List.mem_cons.mp hc with heq | hmem
    · cases heq
    · exact ih hmem

/-- A `%` that is cut off is the last character. -/
theorem Interprets.cut_last (h : Interprets m fmt args items)
    (hcut : items = before ++ .cut :: after) : after = [] := by
  induction h generalizing before with
  | nil => exact absurd hcut (by simp)
  | cut =>
    cases before with
    | nil => exact (List.cons.inj hcut).2.symm
    | cons it before => exact absurd (List.cons.inj hcut).2 (by simp)
  | plain _ _ ih | string _ _ ih | decimal _ ih | hex _ ih | other _ _ ih =>
    cases before with
    | nil => cases (List.cons.inj hcut).1
    | cons it before => exact ih (List.cons.inj hcut).2

/-- The directives print what their items say. -/
theorem Interprets.uncons (h : Interprets m fmt args (it :: items)) (hcut : it ≠ .cut) :
    (∃ c cs, it = .plain c ∧ c ≠ percent ∧ fmt = c :: cs ∧ Interprets m cs args items) ∨
      ∃ c cs args', it.spelled = [percent, c] ∧ fmt = percent :: c :: cs ∧
        Does m c args it.sent args' ∧ Interprets m cs args' items := by
  cases h with
  | plain hne rest => exact .inl ⟨_, _, rfl, hne, rfl, rest⟩
  | cut => exact absurd rfl hcut
  | @string p text cs args' _ hp rest =>
    refine .inr ⟨_, _, _, rfl, rfl, ⟨text.length + 1, ?_⟩, rest⟩
    have hprint : print (fun k => m.get (p + k)) (text.length + 1) 0 = .ok text :=
      print_eq hp.start (Nat.lt_succ_self _)
    exact bind_eq_ok.mpr ⟨text, hprint, rfl⟩
  | decimal rest => exact .inr ⟨_, _, _, rfl, rfl, ⟨0, rfl⟩, rest⟩
  | @hex v _ _ _ rest =>
    exact .inr ⟨_, _, _, rfl, rfl, ⟨0, bind_eq_ok.mpr ⟨_, putHex_eq v, rfl⟩⟩, rest⟩
  | other hne rest =>
    refine .inr ⟨_, _, _, rfl, rfl, ⟨0, ?_⟩, rest⟩
    unfold putDirective
    rw [if_neg hne.1, if_neg hne.2.1, if_neg hne.2.2]
    rfl

/-- The loop gets through one item. -/
theorem Interprets.step (h : Interprets m fmt args (it :: items)) (hcut : it ≠ .cut)
    (hstr : CString (fun k => m.get (str + (i + k))) fmt)
    (hend : i + it.spelled.length ≤ maxPrintfLen) :
    ∃ args' reads rest, fmt = it.spelled ++ rest ∧ Interprets m rest args' items ∧
      (∀ j ∈ reads, j < i + it.spelled.length) ∧
      Continues m str i args it.sent reads (i + it.spelled.length) args' := by
  rcases h.uncons hcut with ⟨c, cs, rfl, hne, rfl, hrest⟩ | ⟨c, cs, args', hsp, rfl, hdoes, hrest⟩
  · obtain ⟨hc, hc0⟩ : m.get (str + i) = c ∧ c ≠ 0 := hstr.head
    refine ⟨args, [i], cs, rfl, hrest, fun j hj => ?_, continues_plain hc hc0 hne hend⟩
    rw [List.mem_singleton.mp hj]
    exact Nat.lt_succ_self i
  · have hc : m.get (str + i) = percent := hstr.head.1
    have hnext : m.get (str + (i + 1)) = c := (hstr.next (s := fun k => m.get (str + k))).head.1
    rw [hsp] at hend ⊢
    have hend : i + 2 ≤ maxPrintfLen := hend
    have hwrap : (i + 2) % 2 ^ 32 = i + 2 := by
      unfold maxPrintfLen at hend
      omega
    have hgoes := continues_directive hc (by omega) hnext hdoes
    rw [hwrap] at hgoes
    refine ⟨args', [i, i + 1], cs, rfl, hrest, fun j hj => ?_, hgoes⟩
    change j < i + 2
    rcases List.mem_pair.mp hj with rfl | rfl <;> omega

/-- The loop gets through the items up to `MAX_PRINTF_LEN`. -/
theorem Interprets.runs (h : Interprets m fmt args (before ++ after))
    (hstr : CString (fun k => m.get (str + (i + k))) fmt) (hcut : .cut ∉ before)
    (hend : i + (spelling before).length ≤ maxPrintfLen) :
    ∃ args' reads rest, fmt = spelling before ++ rest ∧ Interprets m rest args' after ∧
      (∀ j ∈ reads, j < i + (spelling before).length) ∧
      Continues m str i args (before.flatMap Item.sent) reads (i + (spelling before).length)
        args' := by
  induction before generalizing i fmt args with
  | nil => exact ⟨args, [], fmt, rfl, h, fun j hj => absurd hj List.not_mem_nil, .refl⟩
  | cons it before ih =>
    have hit : it ≠ .cut := fun heq => hcut (heq ▸ List.mem_cons_self)
    have hcut' : .cut ∉ before := fun hmem => hcut (List.mem_cons_of_mem _ hmem)
    rw [spelling_cons, List.length_append, ← Nat.add_assoc] at hend ⊢
    obtain ⟨args₁, reads₁, rest₁, rfl, hrest₁, hreads₁, hgoes₁⟩ := h.step hit hstr (by omega)
    obtain ⟨args', reads, rest, rfl, hrest, hreads, hgoes⟩ :=
      ih hrest₁ (hstr.drop (s := fun k => m.get (str + k))) hcut' hend
    refine ⟨args', reads₁ ++ reads, rest, (List.append_assoc ..).symm, hrest, fun j hj => ?_,
      hgoes₁.trans hgoes⟩
    rcases List.mem_append.mp hj with hj | hj
    · exact Nat.lt_of_lt_of_le (hreads₁ j hj) (Nat.le_add_right ..)
    · exact hreads j hj

theorem Item.spelled_cases (it : Item) :
    (∃ c, it = .plain c) ∨ it = .cut ∨ ∃ c, it.spelled = [percent, c] := by
  cases it with
  | plain c => exact .inl ⟨c, rfl⟩
  | cut => exact .inr (.inl rfl)
  | string | decimal | hex | other => exact .inr (.inr ⟨_, rfl⟩)

/-- What stands at the beginning of an item. -/
theorem char_at_item (hstr : CString (fun k => m.get (str + k)) fmt)
    (hfmt : fmt = spelling (before ++ it :: after)) {c : UInt8} {cs : List UInt8}
    (hit : it.spelled = c :: cs) : m.get (str + (spelling before).length) = c := by
  rw [spelling_append, spelling_cons, hit] at hfmt
  have hchar := hstr.chars (spelling before).length (by simp [hfmt])
  rw [hfmt, List.getD_append_right _ _ _ _ (Nat.le_refl _), Nat.sub_self] at hchar
  exact hchar

/-- An item begins at index `i`, or the string ends there. -/
def BeginsAt (items : List Item) (i : Nat) : Prop :=
  ∃ before after, items = before ++ after ∧ .cut ∉ before ∧ (spelling before).length = i

theorem beginsAt_zero (items : List Item) : BeginsAt items 0 :=
  ⟨[], items, rfl, List.not_mem_nil, rfl⟩

theorem beginsAt_next (hsplit : items = before ++ it :: after) (hcut : .cut ∉ before)
    (hit : it ≠ .cut) : BeginsAt items ((spelling before).length + it.spelled.length) := by
  refine ⟨before ++ [it], after, by rw [hsplit, List.append_cons], ?_, by simp [spelling]⟩
  rw [List.mem_append, List.mem_singleton]
  rintro (hmem | heq)
  · exact hcut hmem
  · exact hit heq.symm

/-- Where no item begins at `MAX_PRINTF_LEN` the loop goes on to the next item,
or over that index and back to the first. -/
theorem BeginsAt.step (h : Interprets m fmt args items)
    (hstr : CString (fun k => m.get (str + k)) fmt) (hlen : maxPrintfLen ≤ fmt.length)
    (hover : ¬ BeginsAt items maxPrintfLen) (hbegins : BeginsAt items i) (hi : i < maxPrintfLen)
    {fuel : Nat} {args' : List VaArg} {r : Printed}
    (hrun : vprintfLoop m str (fuel + 1) i args' = .ok r) :
    ∃ j args₁ r₁, BeginsAt items j ∧ j < maxPrintfLen ∧
      vprintfLoop m str fuel j args₁ = .ok r₁ := by
  have hmax : 0 < maxPrintfLen := by decide
  have hfmt := h.spelling_eq
  obtain ⟨before, after, hsplit, hcut, rfl⟩ := hbegins
  cases after with
  | nil =>
    rw [List.append_nil] at hsplit
    rw [← hfmt, hsplit] at hlen
    omega
  | cons it after =>
    have hchar {c : UInt8} {cs : List UInt8} (hit : it.spelled = c :: cs) :=
      char_at_item hstr (hsplit ▸ hfmt.symm) hit
    have hbelow {j : Nat} (hj : BeginsAt items j) (hle : j ≤ maxPrintfLen) : j < maxPrintfLen :=
      Nat.lt_of_le_of_ne hle fun heq => hover (heq ▸ hj)
    rcases it.spelled_cases with ⟨c, rfl⟩ | rfl | ⟨c, hc⟩
    · have hmem : .plain c ∈ items := hsplit ▸ List.mem_append_right _ List.mem_cons_self
      have hne : c ≠ 0 := by
        rintro rfl
        exact hstr.nonzero (hfmt ▸ List.mem_flatMap.mpr ⟨_, hmem, List.mem_singleton_self _⟩)
      have hnext := beginsAt_next hsplit hcut nofun
      rw [vprintfLoop_plain fuel (hchar rfl) hne (h.plain_ne hmem) hi] at hrun
      obtain ⟨r', hr', -⟩ := bind_eq_ok.mp hrun
      exact ⟨_, _, r', hnext, hbelow hnext hi, hr'⟩
    · -- the last character, so the string ends at `MAX_PRINTF_LEN`
      have hlast : after = [] := h.cut_last hsplit
      have hend : fmt.length = (spelling before).length + 1 := by
        rw [← hfmt, hsplit, hlast, spelling_append, List.length_append]
        rfl
      have hwrap : ((spelling before).length + 2) % 2 ^ 32 = 0 := by
        unfold maxPrintfLen at hi hlen
        omega
      rw [vprintfLoop_percent fuel (hchar rfl) hi, hwrap] at hrun
      obtain ⟨d, -, hrun⟩ := bind_eq_ok.mp hrun
      obtain ⟨r', hr', -⟩ := bind_eq_ok.mp hrun
      exact ⟨0, _, r', beginsAt_zero items, hmax, hr'⟩
    · have hit : it ≠ .cut := by
        rintro rfl
        cases hc
      have hnext := beginsAt_next hsplit hcut hit
      rw [hc] at hnext
      rw [vprintfLoop_percent fuel (hchar hc) hi] at hrun
      obtain ⟨d, -, hrun⟩ := bind_eq_ok.mp hrun
      obtain ⟨r', hr', -⟩ := bind_eq_ok.mp hrun
      by_cases hwrap : (spelling before).length + 2 = 2 ^ 32
      · rw [hwrap, Nat.mod_self] at hr'
        exact ⟨0, _, r', beginsAt_zero items, hmax, hr'⟩
      · have hle : (spelling before).length + 2 ≤ maxPrintfLen := by
          unfold maxPrintfLen at hi ⊢
          omega
        have hmod : ((spelling before).length + 2) % 2 ^ 32 = (spelling before).length + 2 := by
          unfold maxPrintfLen at hi
          omega
        rw [hmod] at hr'
        exact ⟨_, _, r', hnext, hbelow hnext hle, hr'⟩

/-- It never ends then. -/
theorem never_returns (h : Interprets m fmt args items)
    (hstr : CString (fun k => m.get (str + k)) fmt) (hlen : maxPrintfLen ≤ fmt.length)
    (hover : ¬ BeginsAt items maxPrintfLen) (hbegins : BeginsAt items i) (hi : i < maxPrintfLen)
    {fuel : Nat} {args' : List VaArg} {r : Printed} : vprintfLoop m str fuel i args' ≠ .ok r := by
  induction fuel generalizing i args' r with
  | zero =>
    intro hrun
    cases hrun
  | succ fuel ih =>
    intro hrun
    obtain ⟨j, args₁, r₁, hbegins₁, hj, hrun₁⟩ := hbegins.step h hstr hlen hover hi hrun
    exact ih hbegins₁ hj hrun₁

/-! ## Texts -/

theorem Item.sent_eq_text_iff :
    it.sent = it.text ↔ ∀ a, it = .decimal a → a.toInt ≠ -2 ^ 31 := by
  constructor
  · rintro heq a rfl hmin
    have hsent : [minusChar] = numeral a.toInt := (putDecimal_min hmin).symm.trans heq
    rw [numeral, if_pos (by omega)] at hsent
    exact numeralNat_ne_nil _ (List.cons.inj hsent).2.symm
  · intro h
    cases it with
    | decimal a => exact putDecimal_eq (h a rfl)
    | plain | string | hex | other | cut => rfl

theorem Item.text_eq_nil_iff : it.text = [] ↔ it = .string [] := by
  constructor
  · intro h
    cases it with
    | string text => exact congrArg Item.string h
    | decimal a =>
      change numeral a.toInt = [] at h
      rw [numeral] at h
      split at h
      · cases h
      · exact absurd h (numeralNat_ne_nil _)
    | plain | hex | other | cut => cases h
  · rintro rfl
    rfl

theorem Item.length_sent_le : it.sent.length ≤ it.text.length := by
  cases it with
  | decimal a =>
    by_cases hmin : a.toInt = -2 ^ 31
    · have hone : (Item.sent (.decimal a)).length = 1 := congrArg List.length (putDecimal_min hmin)
      have hne : Item.text (.decimal a) ≠ [] := fun hnil => by
        cases Item.text_eq_nil_iff.mp hnil
      rw [hone]
      exact List.length_pos_iff.mpr hne
    · exact Nat.le_of_eq (congrArg List.length (putDecimal_eq hmin))
  | plain | string | hex | other | cut => exact Nat.le_refl _

theorem length_flatMap_sent_le :
    (items.flatMap Item.sent).length ≤ (items.flatMap Item.text).length := by
  induction items with
  | nil => exact Nat.le_refl _
  | cons it items ih =>
    rw [List.flatMap_cons, List.flatMap_cons, List.length_append, List.length_append]
    exact Nat.add_le_add Item.length_sent_le ih

/-- What was printed is all that was to be printed if and only if nothing was
lost on the way and nothing to be printed is left. -/
theorem flatMap_sent_eq_iff :
    before.flatMap Item.sent = (before ++ after).flatMap Item.text ↔
      (∀ it ∈ before, it.sent = it.text) ∧ ∀ it ∈ after, it.text = [] := by
  constructor
  · intro h
    induction before with
    | nil => exact ⟨fun it hit => absurd hit List.not_mem_nil, List.flatMap_eq_nil_iff.mp h.symm⟩
    | cons it before ih =>
      rw [List.cons_append, List.flatMap_cons, List.flatMap_cons] at h
      have hle : it.sent.length ≤ it.text.length := Item.length_sent_le
      have hrest : (before.flatMap Item.sent).length ≤
          ((before ++ after).flatMap Item.text).length := by
        rw [List.flatMap_append, List.length_append]
        exact Nat.le_trans length_flatMap_sent_le (Nat.le_add_right ..)
      have hlen := congrArg List.length h
      rw [List.length_append, List.length_append] at hlen
      obtain ⟨hit, htail⟩ := List.append_inj h (by omega)
      obtain ⟨hbefore, hafter⟩ := ih htail
      exact ⟨List.forall_mem_cons.mpr ⟨hit, hbefore⟩, hafter⟩
  · rintro ⟨hbefore, hafter⟩
    have hnil : after.flatMap Item.text = [] := List.flatMap_eq_nil_iff.mpr hafter
    rw [List.flatMap_append, hnil, List.append_nil]
    exact List.flatMap_congr hbefore

/-! ## The last `%` -/

/-- How many `%` the format string ends in. -/
def percentsAtEnd (fmt : List UInt8) : Nat := (fmt.rtakeWhile fun c => c = percent).length

theorem percentsAtEnd_all (front : List UInt8) {cs : List UInt8} (h : ∀ c ∈ cs, c = percent) :
    percentsAtEnd (front ++ cs) = percentsAtEnd front + cs.length := by
  unfold percentsAtEnd
  induction cs using List.reverseRecOn with
  | nil => rw [List.append_nil, List.length_nil, Nat.add_zero]
  | append_singleton cs c ih =>
    have hc : c = percent := h c (List.mem_append_right _ (List.mem_singleton_self c))
    rw [← List.append_assoc, List.rtakeWhile_concat, if_pos (decide_eq_true hc),
      List.length_append, ih fun c hc => h c (List.mem_append_left _ hc), List.length_append,
      Nat.add_assoc]

theorem percentsAtEnd_other (front : List UInt8) {cs : List UInt8} (h : ¬ ∀ c ∈ cs, c = percent) :
    percentsAtEnd (front ++ cs) = percentsAtEnd cs := by
  unfold percentsAtEnd
  induction cs using List.reverseRecOn with
  | nil => exact absurd (fun c hc => absurd hc List.not_mem_nil) h
  | append_singleton cs c ih =>
    rw [← List.append_assoc, List.rtakeWhile_concat, List.rtakeWhile_concat]
    by_cases hc : c = percent
    · have hcs : ¬ ∀ c ∈ cs, c = percent := fun hall =>
        h (List.forall_mem_append.mpr ⟨hall, List.forall_mem_singleton.mpr hc⟩)
      rw [if_pos (decide_eq_true hc), if_pos (decide_eq_true hc), List.length_append,
        List.length_append, ih hcs]
    · rw [if_neg (by simpa using hc), if_neg (by simpa using hc)]

theorem percentsAtEnd_plain {c : UInt8} (hc : c ≠ percent) (cs : List UInt8) :
    percentsAtEnd (c :: cs) = percentsAtEnd cs := by
  by_cases hcs : ∀ d ∈ cs, d = percent
  · have hzero : percentsAtEnd [c] = 0 := by simp [percentsAtEnd, List.rtakeWhile, hc]
    have hboth : percentsAtEnd (c :: cs) = percentsAtEnd [c] + cs.length :=
      percentsAtEnd_all [c] hcs
    exact hboth.trans (hzero ▸ (percentsAtEnd_all [] hcs).symm)
  · exact percentsAtEnd_other [c] hcs

/-- A directive takes two of them or ends their row. -/
theorem percentsAtEnd_directive (c : UInt8) (cs : List UInt8) :
    Even (percentsAtEnd (percent :: c :: cs)) ↔ Even (percentsAtEnd cs) := by
  by_cases hcs : ∀ d ∈ cs, d = percent
  · have hpair : Even (percentsAtEnd [percent, c]) := by
      by_cases hc : c = percent
      · rw [hc]
        decide
      · have hzero : percentsAtEnd [percent, c] = 0 := by simp [percentsAtEnd, List.rtakeWhile, hc]
        rw [hzero]
        decide
    have hboth : percentsAtEnd (percent :: c :: cs) = percentsAtEnd [percent, c] + cs.length :=
      percentsAtEnd_all [percent, c] hcs
    have hrest : percentsAtEnd cs = 0 + cs.length := percentsAtEnd_all [] hcs
    rw [hboth, hrest, Nat.zero_add, Nat.even_add, iff_true_left hpair]
  · have hboth : percentsAtEnd (percent :: c :: cs) = percentsAtEnd cs :=
      percentsAtEnd_other [percent, c] hcs
    rw [hboth]

/-- An item is cut off where an odd number of `%` ends the string. -/
theorem Interprets.even_iff (h : Interprets m fmt args items) :
    Even (percentsAtEnd fmt) ↔ .cut ∉ items := by
  induction h with
  | nil => decide
  | cut => decide
  | plain hc _ ih =>
    rw [percentsAtEnd_plain hc, ih]
    simp
  | string _ _ ih | decimal _ ih | hex _ ih | other _ _ ih =>
    rw [percentsAtEnd_directive, ih]
    simp

/-! ## What a call prints -/

theorem eq_nil_of_spelling (h : spelling items = []) : items = [] := by
  cases items with
  | nil => rfl
  | cons it items =>
    have hit : it.spelled = [] := (List.append_eq_nil_iff.mp h).1
    cases it <;> cases hit

/-- Items begin at different places. -/
theorem split_unique {before' after' : List Item} (h : before ++ after = before' ++ after')
    (hlen : (spelling before).length = (spelling before').length) : before = before' := by
  have hmid {mid front : List Item}
      (hlen : (spelling (front ++ mid)).length = (spelling front).length) : mid = [] := by
    rw [spelling_append, List.length_append] at hlen
    exact eq_nil_of_spelling (List.length_eq_zero_iff.mp (by omega))
  rcases List.append_eq_append_iff.mp h with ⟨mid, rfl, -⟩ | ⟨mid, rfl, -⟩
  · rw [hmid hlen.symm, List.append_nil]
  · rw [hmid hlen, List.append_nil]

/-- Where the loop stops behind whole items, these have been printed. -/
theorem printsExactly_stop (h : Interprets m fmt args (before ++ after))
    (hstr : CString (fun k => m.get (str + k)) fmt) (hcut : .cut ∉ before)
    (hend : (spelling before).length ≤ maxPrintfLen)
    (hstop : after = [] ∨ (spelling before).length = maxPrintfLen) :
    PrintsExactly m str fmt args (before ++ after) ↔
      (∀ it ∈ before, it.sent = it.text) ∧ ∀ it ∈ after, it.text = [] := by
  obtain ⟨args', reads, rest, rfl, hrest, hreads, hgoes⟩ := h.runs hstr.start hcut (by omega)
  have hrest_str := hstr.start.drop (s := fun k => m.get (str + k))
  simp only [Nat.zero_add] at hreads hgoes hrest_str
  have hends : m.get (str + (spelling before).length) = 0 ∨
      maxPrintfLen ≤ (spelling before).length := by
    rcases hstop with rfl | hmax
    · cases hrest
      exact .inl (hrest_str.chars 0 (Nat.le_refl _))
    · exact .inr (Nat.le_of_eq hmax.symm)
  have hle : (spelling before).length ≤ (spelling before ++ rest).length := by simp
  rw [printsExactly_iff, ← flatMap_sent_eq_iff]
  constructor
  · rintro ⟨r, hr, -, hsent⟩
    obtain ⟨r', hr', rfl⟩ := (hgoes r).mp hr
    rw [(runs_stop hends).mp hr'] at hsent
    simpa using hsent
  · intro hsent
    refine ⟨_, (hgoes _).mpr ⟨_, (runs_stop hends).mpr rfl, rfl⟩, fun j hj => ?_, ?_⟩
    · rcases List.mem_append.mp hj with hj | hj
      · exact Nat.le_trans (Nat.le_of_lt (hreads j hj)) hle
      · rwa [List.mem_singleton.mp hj]
    · rw [List.append_nil, hsent]

/-- A `%` that stands last takes the scanner past the NUL. -/
theorem not_printsExactly_cut (h : Interprets m fmt args (before ++ [.cut]))
    (hstr : CString (fun k => m.get (str + k)) fmt) (hcut : .cut ∉ before)
    (hlen : fmt.length < maxPrintfLen) : ¬ PrintsExactly m str fmt args (before ++ [.cut]) := by
  have hlt : (spelling before).length < fmt.length := by
    rw [← h.spelling_eq, spelling_append, List.length_append]
    exact Nat.lt_succ_self _
  obtain ⟨args', reads, rest, rfl, hrest, -, hgoes⟩ := h.runs hstr.start hcut (by omega)
  have hrest_str := hstr.start.drop (s := fun k => m.get (str + k))
  simp only [Nat.zero_add] at hgoes hrest_str
  cases hrest
  rw [List.length_append, List.length_singleton] at hlen
  have hpercent : m.get (str + (spelling before).length) = percent := hrest_str.head.1
  have hnul : m.get (str + ((spelling before).length + 1)) = 0 :=
    hrest_str.chars 1 (Nat.le_refl _)
  have hdoes : Does m 0 args' [88] args' := ⟨0, rfl⟩
  have hpast := hgoes.trans (continues_directive hpercent (by omega) hnul hdoes)
  have hwrap : ((spelling before).length + 2) % 2 ^ 32 = (spelling before).length + 2 := by
    unfold maxPrintfLen at hlen
    omega
  rw [hwrap] at hpast
  rw [printsExactly_iff]
  rintro ⟨r, hr, hreads, -⟩
  obtain ⟨r', hr', rfl⟩ := (hpast r).mp hr
  have hbad := hreads _ (List.mem_append_right _ hr'.mem_reads)
  rw [List.length_append, List.length_singleton] at hbad
  omega

/-- The call prints what the format string asks for if and only if the string
ends in an even number of `%`, no argument of a `%d` is the smallest `int`,
and the string is shorter than 2^32 or asks for nothing visible from index
2^32 - 1 on. -/
theorem vprintf_prints_iff (hstr : CString (fun k => m.get (str + k)) fmt)
    (h : Interprets m fmt args items) :
    PrintsExactly m str fmt args items ↔
      Even (percentsAtEnd fmt) ∧ (∀ a, .decimal a ∈ items → a.toInt ≠ -2 ^ 31) ∧
        (fmt.length < 2 ^ 32 ∨ ∃ before after, items = before ++ after ∧
          (spelling before).length = 2 ^ 32 - 1 ∧ ∀ it ∈ after, it = .string []) := by
  have hmax : maxPrintfLen = 2 ^ 32 - 1 := rfl
  have hfmt := h.spelling_eq
  rw [h.even_iff]
  -- `sent = text` on a list of items says that no `%d` there has lost its digits
  have hkept {its : List Item} : (∀ it ∈ its, it.sent = it.text) ↔
      ∀ a, .decimal a ∈ its → a.toInt ≠ -2 ^ 31 := by
    simp only [Item.sent_eq_text_iff]
    exact ⟨fun hall a ha => hall _ ha a rfl, fun hall it hit a ha => hall a (ha ▸ hit)⟩
  by_cases hover : BeginsAt items maxPrintfLen
  · -- the loop stops in front of an item, or at the end
    obtain ⟨before, after, rfl, hcut, hw⟩ := hover
    rw [printsExactly_stop h hstr hcut (Nat.le_of_eq hw) (.inr hw), hkept]
    simp only [Item.text_eq_nil_iff]
    constructor
    · rintro ⟨hbefore, hafter⟩
      refine ⟨fun hmem => ?_, fun a ha => ?_, .inr ⟨before, after, rfl, hw, hafter⟩⟩
      · rcases List.mem_append.mp hmem with hmem | hmem
        · exact hcut hmem
        · cases hafter _ hmem
      · rcases List.mem_append.mp ha with ha | ha
        · exact hbefore a ha
        · cases hafter _ ha
    · rintro ⟨-, hdecimal, hlong⟩
      refine ⟨fun a ha => hdecimal a (List.mem_append_left _ ha), ?_⟩
      rcases hlong with hshort | ⟨before', after', hsplit, hw', hafter⟩
      · rw [← hfmt, spelling_append, List.length_append] at hshort
        have hafter : after = [] :=
          eq_nil_of_spelling (List.length_eq_zero_iff.mp (by omega))
        rw [hafter]
        exact fun it hit => absurd hit List.not_mem_nil
      · obtain rfl := split_unique hsplit (hw.trans hw'.symm)
        rw [List.append_cancel_left hsplit]
        exact hafter
  · by_cases hlen : maxPrintfLen ≤ fmt.length
    · -- the index wraps
      refine iff_of_false ?_ ?_
      · rw [printsExactly_iff]
        rintro ⟨r, ⟨fuel, hrun⟩, -⟩
        exact never_returns h hstr hlen hover (beginsAt_zero items) (by decide) hrun
      · rintro ⟨hcut, -, hshort | ⟨before, after, rfl, hw, -⟩⟩
        · refine hover ⟨items, [], (List.append_nil items).symm, hcut, ?_⟩
          rw [hfmt]
          omega
        · exact hover ⟨before, after, rfl, fun hmem => hcut (List.mem_append_left _ hmem), hw⟩
    · by_cases hcut : .cut ∈ items
      · obtain ⟨before, after, rfl, hcut'⟩ := List.eq_append_cons_of_mem hcut
        obtain rfl := h.cut_last rfl
        exact iff_of_false (not_printsExactly_cut h hstr hcut' (by omega)) fun hall => hall.1 hcut
      · rw [← List.append_nil items] at h ⊢
        rw [printsExactly_stop h hstr hcut (by rw [hfmt]; omega) (.inl rfl), hkept, List.append_nil]
        constructor
        · exact fun hall => ⟨hcut, hall.1, .inl (by omega)⟩
        · exact fun hall => ⟨hall.2.1, fun it hit => absurd hit List.not_mem_nil⟩

/-- `"%s=%d"` with the string `"ab"` and 5. -/
theorem vprintf_prints_pair :
    let m : Mem := ⟨literal [37, 115, 61, 37, 100, 0, 97, 98]⟩
    PrintsExactly m 0 [37, 115, 61, 37, 100] [.str 6, .int 5]
      [.string [97, 98], .plain 61, .decimal 5] := by
  intro m
  have hstr : CString (fun k => m.get (0 + k)) [37, 115, 61, 37, 100] := by
    refine ⟨fun k hk => ?_, by decide⟩
    have hall : ∀ k, k ≤ 5 → m.get (0 + k) = [37, 115, 61, 37, 100].getD k 0 := by decide
    exact hall k hk
  have htext : CString (fun k => m.get (6 + k)) [97, 98] := by
    refine ⟨fun k hk => ?_, by decide⟩
    have hall : ∀ k, k ≤ 2 → m.get (6 + k) = [97, 98].getD k 0 := by decide
    exact hall k hk
  have hitems : Interprets m [37, 115, 61, 37, 100] [.str 6, .int 5]
      [.string [97, 98], .plain 61, .decimal 5] :=
    .string htext (.plain (by decide) (.decimal .nil))
  refine (vprintf_prints_iff hstr hitems).mpr ⟨by decide, fun a ha => ?_, .inl (by decide)⟩
  have ha : a = 5 := by simpa using ha
  rw [ha]
  decide

/-- After `"%"` the scanner prints what lies behind the NUL. -/
theorem percent_at_end_reads_on :
    ¬ ∀ (m : Mem) (str : Nat) (fmt : List UInt8) (args : List VaArg) (items : List Item),
      CString (fun k => m.get (str + k)) fmt → Interprets m fmt args items →
        PrintsExactly m str fmt args items := by
  intro prints
  let m : Mem := ⟨literal [37, 0, 90]⟩
  have hstr : CString (fun k => m.get (0 + k)) [percent] := by
    refine ⟨fun k hk => ?_, by decide⟩
    have hall : ∀ k, k ≤ 1 → m.get (0 + k) = [percent].getD k 0 := by decide
    exact hall k hk
  obtain ⟨enough, r, hrun, hreads, -⟩ := prints m 0 [percent] [] [.cut] hstr .cut
  have hfour : vprintfLoop m 0 4 0 [] = .ok ⟨[88, 90], [0, 1, 2, 3]⟩ := by decide
  have hends := vprintfLoop_mono hfour (Nat.le_add_left 4 enough)
  obtain rfl := Except.ok.inj ((hrun (enough + 4) (Nat.le_add_right ..)).symm.trans hends)
  exact absurd (hreads 2 (by decide)) (by decide)

end Items

end WaddleOS
