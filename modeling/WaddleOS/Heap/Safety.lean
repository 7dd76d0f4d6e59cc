import Mathlib.Data.List.Perm.Subperm
import WaddleOS.Heap.Runs

/-!
# What holds of the heap in every run

A run starts from `wdmalloc_init` on memory of any contents. The heap is
well formed throughout and every admissible call ends. Three more properties
hold in the runs that avoid one kind of call each: every used block is held
(`Releases`), held blocks are isolated (`Call.NoWrap`) and no two free blocks
are neighbours (`Merges`).
-/

namespace WaddleOS

/-- The heap right after `wdmalloc_init(start, size)`. -/
def initHeap (m : Mem) (start size : Nat) : Heap :=
  ⟨setLom (setSz (setPrevSz m start 0) start (size - 12)) start 0, start, start, size⟩

theorem wdmallocInit_eq (m : Mem) (start : Nat) {size : Nat} (hsize : 12 < size) :
    wdmallocInit m start size = .ok (initHeap m start size) := by
  unfold wdmallocInit
  rw [assert_ok (by omega)]
  rfl

theorem init_layout (m : Mem) {start size : Nat} (hlarge : 12 < size) (hsmall : size ≤ 32779)
    (hwrap : start + size < 2 ^ 64) :
    Layout (initHeap m start size).mem start 0 [⟨size - 12, false⟩] := by
  unfold initHeap
  refine ⟨⟨?_, ?_, by simp⟩, trivial⟩
  · simp (disch := omega) only [prevSz_setLom, prevSz_setSz, prevSz_setPrevSz, Nat.zero_mod]
  · simp (disch := omega) only [sz_setLom, sz_setSz, raw_free, Nat.mod_eq_of_lt]

theorem init_rep (m : Mem) {start size : Nat} (ar : Arena start size) :
    Rep (initHeap m start size) ⟨[⟨size - 12, false⟩], [start]⟩ := by
  have h1 := ar.large
  refine ⟨ar, ?_, init_layout m ar.large ar.small ar.bound, ⟨rfl, ?_⟩, by simp, ?_⟩
  · simp only [span, initHeap]
    omega
  · have hb := ar.bound
    exact (lom_setLom _ _ (by omega)).trans (Nat.zero_mod _)
  · intro x
    simp only [List.mem_singleton, freeAt_cons, true_and]
    exact ⟨Or.inl, fun h => h.resolve_right (freeAt_nil _ _)⟩

/-- A world just after `wdmalloc_init(start, size)`. -/
def Booted (start size : Nat) (w : World) : Prop :=
  ∃ m, wdmallocInit m start size = .ok w.heap ∧ w.held = []

/-- The step of the walk over the physical blocks. -/
def walkNext (m : Mem) (a : Nat) : Nat := a + 12 + wdmActualSize m a

/-- The headers that the walk from `heap_start` visits; it ends exactly at the
end of the heap. -/
def Walk (h : Heap) (hs : List Nat) : Prop :=
  Seg (walkNext h.mem) h.heapStart hs (h.heapStart + h.heapSize)

structure WellFormed (h : Heap) (hs fl : List Nat) : Prop where
  walk : Walk h hs
  first : prevSz h.mem h.heapStart = 0
  prev : ∀ x ∈ hs, walkNext h.mem x ∈ hs → prevSz h.mem (walkNext h.mem x) = wdmActualSize h.mem x
  chain : Seg (lom h.mem) h.freelistHead fl 0
  nodup : fl.Nodup
  free : ∀ x, x ∈ fl ↔ x ∈ hs ∧ wdmIsFree h.mem x = true
  magic : ∀ x ∈ hs, wdmIsFree h.mem x = false → lom h.mem x = wdmMagic

/-- The used blocks of the walk are the pointers the client holds. -/
def AllHeld (w : World) : Prop :=
  ∃ hs, Walk w.heap hs ∧
    ((hs.filter fun x => !wdmIsFree w.heap.mem x).map (· + 12)).Perm w.ptrs

/-- No two free blocks of the walk are neighbours. -/
def NoFreePair (h : Heap) : Prop :=
  ∃ hs, Walk h hs ∧ ∀ x ∈ hs, walkNext h.mem x ∈ hs →
    ¬ (wdmIsFree h.mem x = true ∧ wdmIsFree h.mem (walkNext h.mem x) = true)

/-- The ranges the client asked for are inside the heap, apart from each other
and from every header, and hold what the client put there. -/
structure Isolated (w : World) : Prop where
  inside : ∀ e ∈ w.held, w.heap.heapStart ≤ e.ptr ∧
    e.ptr + e.req ≤ w.heap.heapStart + w.heap.heapSize
  apart : w.held.Pairwise fun e f => e.ptr + e.req ≤ f.ptr ∨ f.ptr + f.req ≤ e.ptr
  clear : ∃ hs, Walk w.heap hs ∧
    ∀ e ∈ w.held, ∀ x ∈ hs, e.ptr + e.req ≤ x ∨ x + 12 ≤ e.ptr
  reads : ∀ e ∈ w.held, ∀ i v, e.data i = some v → w.heap.mem.get (e.ptr + i) = v

section Walks
variable {m : Mem} {a p : Nat} {bs : List Block}

theorem layout_walk (hl : Layout m a p bs) (small : ∀ b ∈ bs, b.size < 2 ^ 15) :
    Seg (walkNext m) a (headers a bs) (a + span bs) := by
  induction bs generalizing a p with
  | nil => rfl
  | cons b bs ih =>
    obtain ⟨⟨-, hs, -⟩, hrest⟩ := hl
    have hact := actualSize_of_raw hs (small b List.mem_cons_self)
    refine ⟨rfl, ?_⟩
    have := ih hrest fun c hc => small c (List.mem_cons_of_mem b hc)
    rw [walkNext, hact, span, ← Nat.add_assoc, ← Nat.add_assoc]
    exact this

/-- In a row the block behind `x` has `x`'s size as its `prev_sz`. -/
theorem layout_prev (hl : Layout m a p bs) {x y : Nat} {b c : Block}
    (hx : (x, b) ∈ placed a bs) (hy : (y, c) ∈ placed a bs) (hxy : y = x + 12 + b.size) :
    prevSz m y = b.size := by
  obtain ⟨pre, post, rfl, rfl⟩ := placed_split hx
  obtain ⟨-, -, hrest⟩ := layout_append.mp hl
  have hloc := placed_mid hy
  cases post with
  | nil =>
    rcases hloc with ⟨h1, -⟩ | ⟨h1, -⟩ | ⟨-, h1⟩
    · omega
    · omega
    · cases h1
  | cons d ds =>
    rw [hxy]
    exact hrest.1.1

theorem spread_pair (hs : Spread bs) {x y : Nat} {b c : Block} (hx : (x, b) ∈ placed a bs)
    (hy : (y, c) ∈ placed a bs) (hxy : y = x + 12 + b.size) :
    ¬ (b.used = false ∧ c.used = false) := by
  rintro ⟨hb, hc⟩
  obtain ⟨pre, post, rfl, rfl⟩ := placed_split hx
  obtain ⟨n, u⟩ := b
  obtain ⟨k, v⟩ := c
  simp only at hb hc
  subst hb hc
  have hpost := ((spread_mid.mp hs).2.2 rfl).2
  have hloc := placed_mid hy
  cases post with
  | nil =>
    simp only at hloc hxy
    rcases hloc with ⟨h1, -⟩ | ⟨h1, -⟩ | ⟨-, h1⟩
    · omega
    · omega
    · cases h1
  | cons d ds =>
    simp only at hloc hxy
    rcases hloc with ⟨h1, -⟩ | ⟨h1, -⟩ | ⟨-, h1⟩
    · omega
    · omega
    · simp only [placed, List.mem_cons, Prod.mk.injEq] at h1
      rcases h1 with ⟨-, rfl⟩ | h1
      · exact hpost (startsFree_cons.mpr rfl)
      · have := placed_bounds h1
        omega

theorem headers_nodup : (headers a bs).Nodup := by
  induction bs generalizing a with
  | nil => exact List.nodup_nil
  | cons b bs ih =>
    refine List.nodup_cons.mpr ⟨fun hm => ?_, ih⟩
    obtain ⟨c, hc⟩ := mem_headers.mp hm
    have := placed_bounds hc
    omega

theorem length_headers : (headers a bs).length = bs.length := by
  rw [headers, List.length_map]
  induction bs generalizing a with
  | nil => rfl
  | cons b bs ih => rw [placed, List.length_cons, List.length_cons, ih]

theorem length_span (bs : List Block) : 12 * bs.length ≤ span bs := by
  induction bs with
  | nil => exact Nat.le_refl 0
  | cons b bs ih =>
    rw [span, List.length_cons]
    omega

end Walks

namespace Rep
variable {h : Heap} {A : Abs}

theorem walk (r : Rep h A) : Walk h (headers h.heapStart A.blocks) := by
  have hw := layout_walk r.layout fun b hb => ?_
  · rwa [r.total] at hw
  · obtain ⟨pre, post, he⟩ := List.append_of_mem hb
    exact r.size_lt (x := h.heapStart + span pre) (by rw [he]; exact mem_placed_mid _ _ _ _)

theorem wellFormed (r : Rep h A) : WellFormed h (headers h.heapStart A.blocks) A.free := by
  refine ⟨r.walk, ?_, ?_, r.chain, r.nodup, ?_, ?_⟩
  · have hl := r.layout
    have ht := r.total
    have hlarge := r.arena.large
    cases hb : A.blocks with
    | nil =>
      rw [hb] at ht
      simp only [span] at ht
      omega
    | cons b bs =>
      rw [hb] at hl
      exact hl.1.1
  · intro x hx hy
    obtain ⟨b, hb⟩ := mem_headers.mp hx
    obtain ⟨c, hc⟩ := mem_headers.mp hy
    have hact := r.actualSize hb
    rw [hact]
    exact layout_prev r.layout hb hc (by rw [walkNext, hact])
  · intro x
    rw [r.mem_free x]
    constructor
    · intro hf
      obtain ⟨b, hb, hu⟩ := hf
      refine ⟨mem_headers.mpr ⟨b, hb⟩, ?_⟩
      rw [r.isFree hb, hu]
      rfl
    · rintro ⟨hx, hf⟩
      obtain ⟨b, hb⟩ := mem_headers.mp hx
      rw [r.isFree hb] at hf
      exact ⟨b, hb, by simpa using hf⟩
  · intro x hx hu
    obtain ⟨b, hb⟩ := mem_headers.mp hx
    rw [r.isFree hb] at hu
    obtain ⟨pre, post, he, rfl⟩ := placed_split hb
    have hl := r.layout
    rw [he] at hl
    exact (layout_append.mp hl).2.1.2.2 (by simpa using hu)

theorem noFreePair (r : Rep h A) (hs : Spread A.blocks) : NoFreePair h := by
  refine ⟨_, r.walk, fun x hx hy => ?_⟩
  obtain ⟨b, hb⟩ := mem_headers.mp hx
  obtain ⟨c, hc⟩ := mem_headers.mp hy
  rw [r.isFree hb, r.isFree hc]
  have := spread_pair hs hb hc (by rw [walkNext, r.actualSize hb])
  simpa using this

theorem free_length_lt (r : Rep h A) : A.free.length < 2732 := by
  have hsub : A.free ⊆ headers h.heapStart A.blocks :=
    fun x hx => ((r.mem_free x).mp hx).mem_headers
  have hle := (r.nodup.subperm hsub).length_le
  rw [length_headers] at hle
  have h1 := length_span A.blocks
  have h2 := r.total
  have h3 := r.arena.small
  omega

end Rep

namespace Holds
variable {w : World} {A : Abs}

theorem allHeld (H : Holds w A) (hex : Exact w A) : AllHeld w := by
  refine ⟨_, H.rep.walk, ?_⟩
  have nodup : (((headers w.heap.heapStart A.blocks).filter
      fun x => !wdmIsFree w.heap.mem x).map (· + 12)).Nodup :=
    (headers_nodup.filter _).map fun x y h => Nat.add_right_cancel h
  refine (List.perm_ext_iff_of_nodup nodup H.nodup).mpr fun p => ?_
  constructor
  · intro hp
    obtain ⟨x, hx, rfl⟩ := List.mem_map.mp hp
    obtain ⟨hx, hu⟩ := List.mem_filter.mp hx
    obtain ⟨⟨s, u⟩, hb⟩ := mem_headers.mp hx
    rw [H.rep.isFree hb] at hu
    simp only [Bool.not_not] at hu
    subst hu
    exact hex x s hb
  · intro hp
    obtain ⟨e, he, rfl⟩ := List.mem_map.mp hp
    obtain ⟨x, s, hx, hu, -⟩ := H.stands e he
    refine List.mem_map.mpr ⟨x, List.mem_filter.mpr ⟨mem_headers.mpr ⟨_, hu⟩, ?_⟩, hx.symm⟩
    rw [H.rep.isFree hu]
    rfl

theorem isolated (H : Holds w A) (hfits : ∀ e ∈ w.held, e.Fits w.heap A) : Isolated w := by
  refine ⟨?_, ?_, ⟨_, H.rep.walk, ?_⟩, ?_⟩
  · intro e he
    obtain ⟨x, s, hx, hu, hr⟩ := hfits e he
    have hb := H.rep.bound hu
    simp only at hb
    omega
  · apply (List.pairwise_map.mp H.nodup).imp_of_mem
    intro e f he hf hne
    obtain ⟨x, s, hx, hu, hr⟩ := hfits e he
    obtain ⟨y, t, hy, hv, hq⟩ := hfits f hf
    have hap := placed_apart hu hv
    simp only at hap
    omega
  · intro e he y hy
    obtain ⟨x, s, hx, hu, hr⟩ := hfits e he
    obtain ⟨c, hc⟩ := mem_headers.mp hy
    have hap := placed_apart hu hc
    simp only at hap
    omega
  · intro e he i v hv
    obtain ⟨x, s, hx, hu, hd⟩ := H.stands e he
    exact (hd i v hv).2

end Holds

/-- A heap of `n` bytes at the null address: no call ever does anything. -/
structure Dead (n : Nat) (w : World) : Prop where
  start : w.heap.heapStart = 0
  size : w.heap.heapSize = n
  empty : w.held = []
  layout : Layout w.heap.mem 0 0 [⟨n - 12, false⟩]

theorem Dead.step {n fuel : Nat} {w : World} (d : Dead n w) {c : Call} (adm : Admissible w c) :
    w.step fuel c = .ok w := by
  have hr : notReady w.heap = true := by simp [notReady, d.start]
  have hptrs : w.ptrs = [] := by
    rw [World.ptrs, d.empty]
    rfl
  have hdrop : ∀ p, drop w.held p = w.held := by
    intro p
    rw [d.empty]
    rfl
  cases c with
  | malloc k =>
    simp only [World.step, wdmalloc, if_pos hr]
    rfl
  | calloc num k =>
    simp only [World.step, wdcalloc, if_pos hr]
    rfl
  | realloc p k =>
    simp only [World.step, wdrealloc, if_pos hr, hdrop]
    change (if 0 = 0 ∧ k.toNat ≠ 0 then _ else _) = _
    split <;> rfl
  | free p =>
    simp only [World.step, wdfree, if_pos hr, hdrop]
    rfl
  | write p i v =>
    rw [Admissible, hptrs] at adm
    cases adm.1

theorem Dead.walk {n : Nat} {w : World} (d : Dead n w) (hlarge : 12 < n) (hsmall : n ≤ 32779) :
    Walk w.heap [0] ∧ wdmIsFree w.heap.mem 0 = true ∧ walkNext w.heap.mem 0 = n := by
  have hw := layout_walk d.layout (by simp; omega)
  have hsz := d.layout.1.2.1
  have hact := actualSize_of_raw hsz (by simp only; omega)
  simp only [span] at hw
  refine ⟨?_, ?_, ?_⟩
  · rw [Walk, d.start, d.size]
    rwa [show 0 + (12 + (n - 12) + 0) = 0 + n by omega] at hw
  · rw [isFree_of_raw hsz (by simp only; omega)]
    rfl
  · rw [walkNext, hact]
    simp only
    omega

/-- The states of a run: a live heap whose row satisfies `P`, or a dead one. -/
def Sound (start size : Nat) (P : World → Abs → Prop) (w : World) : Prop :=
  (w.heap.heapStart = start ∧ w.heap.heapSize = size ∧ ∃ A, Holds w A ∧ P w A) ∨
    (start = 0 ∧ Dead size w)

section Run
variable {start size fuel : Nat} {P : World → Abs → Prop} {allowed : World → Call → Prop}

/-- A property of world and row that `wdmalloc_init` establishes and every
allowed move keeps holds throughout the run. -/
theorem run_sound (hwrap : start + size < 2 ^ 64) (hlarge : 12 < size) (hsmall : size ≤ 32779)
    (hfuel : 2732 ≤ fuel) (adm : ∀ w c, allowed w c → Admissible w c)
    (first : ∀ w, w.held = [] → P w ⟨[⟨size - 12, false⟩], [start]⟩)
    (keep : ∀ w A c w' A', allowed w c → Stepped w A c w' A' → P w A → P w' A') {w : World}
    (run : Reach (Booted start size) allowed (World.step fuel) w) : Sound start size P w := by
  apply run.invariant
  · rintro w ⟨m, hinit, hheld⟩
    rw [wdmallocInit_eq m start hlarge] at hinit
    obtain ⟨heap, held⟩ := w
    simp only [Except.ok.injEq] at hinit hheld
    subst hinit hheld
    by_cases hs : start = 0
    · subst hs
      exact Or.inr ⟨rfl, rfl, rfl, rfl, init_layout m hlarge hsmall hwrap⟩
    · have ar : Arena start size := ⟨by omega, hwrap, hlarge, hsmall⟩
      refine Or.inl ⟨rfl, rfl, _, ⟨init_rep m ar, ?_, ?_⟩, first _ rfl⟩
      · exact List.nodup_nil
      · intro e he
        cases he
  · rintro w c w' (⟨hst, hsi, A, H, hP⟩ | ⟨h0, d⟩) hall hstep
    · obtain ⟨w1, A', hcall, hs⟩ := w.step_spec H c (adm w c hall)
        (Nat.lt_of_lt_of_le H.rep.free_length_lt hfuel)
      rw [hstep] at hcall
      cases hcall
      exact Or.inl ⟨hs.start.trans hst, hs.size.trans hsi, A', hs.holds, keep w A c _ A' hall hs hP⟩
    · rw [d.step (adm w c hall)] at hstep
      cases hstep
      exact Or.inr ⟨h0, d⟩

/-- In every run of admissible calls the heap stands for a row, unless it was
set up at the null address. -/
theorem live_in_run (hwrap : start + size < 2 ^ 64) (hlarge : 12 < size) (hsmall : size ≤ 32779)
    (hfuel : 2732 ≤ fuel) {w : World}
    (run : Reach (Booted start size) Admissible (World.step fuel) w) :
    (∃ A, Holds w A ∧ A.free.length < fuel) ∨ (start = 0 ∧ Dead size w) := by
  have hs := run_sound (P := fun _ _ => True) hwrap hlarge hsmall hfuel (fun _ _ h => h)
    (fun _ _ => trivial) (fun _ _ _ _ _ _ _ _ => trivial) run
  rcases hs with ⟨-, -, A, H, -⟩ | hd
  · exact Or.inl ⟨A, H, Nat.lt_of_lt_of_le H.rep.free_length_lt hfuel⟩
  · exact Or.inr hd

end Run

instance (w : World) (c : Call) : Decidable (Admissible w c) := by
  cases c <;> unfold Admissible <;> infer_instance

instance (h : Heap) (c : Call) : Decidable (Merges h c) := by
  cases c <;> unfold Merges <;> infer_instance

instance (c : Call) : Decidable c.NoWrap := by
  cases c <;> unfold Call.NoWrap <;> infer_instance

/-- The world that `wdmalloc_init` makes of zeroed memory. -/
def bootWorld (start size : Nat) : World := ⟨initHeap ⟨fun _ => 0⟩ start size, []⟩

theorem booted_bootWorld (start : Nat) {size : Nat} (hsize : 12 < size) :
    Booted start size (bootWorld start size) :=
  ⟨_, wdmallocInit_eq _ start hsize, rfl⟩

/-- A played run from `bootWorld`. -/
theorem reach_played {allowed : World → Call → Prop} (start : Nat) {size : Nat} (hsize : 12 < size)
    (check : World → Call → Bool) (last : World → Bool) (acts : List Call)
    (sound : ∀ w c, check w c = true → allowed w c)
    (run : checkRun check (World.step 2732) last (bootWorld start size) acts = true) :
    ∃ w, Reach (Booted start size) allowed (World.step 2732) w ∧ last w = true :=
  (Reach.start (booted_bootWorld start hsize)).of_check check last acts sound run

/-- In every run the heap is well formed, and every call ends with no
assertion failed, its loops within 2732 iterations each. -/
theorem heap_wellFormed_in_runs {start size fuel : Nat} (hstart : 0 < start)
    (hwrap : start + size < 2 ^ 64) (hlarge : 12 < size) (hsmall : size ≤ 32779)
    (hfuel : 2732 ≤ fuel) {w : World}
    (run : Reach (Booted start size) Admissible (World.step fuel) w) :
    (∃ hs fl, WellFormed w.heap hs fl) ∧ ∀ c, Admissible w c → ∃ w', w.step fuel c = .ok w' := by
  rcases live_in_run hwrap hlarge hsmall hfuel run with ⟨A, H, hlen⟩ | ⟨h0, -⟩
  · refine ⟨⟨_, _, H.rep.wellFormed⟩, fun c adm => ?_⟩
    obtain ⟨w', A', hcall, -⟩ := w.step_spec H c adm hlen
    exact ⟨w', hcall⟩
  · omega

theorem heap_wellFormed_after_free :
    ∃ w, Reach (Booted 4096 64) Admissible (World.step 2732) w ∧ w.ptrs = [4144] ∧
      ∃ hs fl, WellFormed w.heap hs fl := by
  obtain ⟨w, run, hlast⟩ := reach_played 4096 (show 12 < 64 by decide)
    (fun w c => decide (Admissible w c)) (fun w => decide (w.ptrs = [4144]))
    [.malloc 16, .malloc 4, .free 4128] (fun _ _ h => of_decide_eq_true h) (by decide +kernel)
  exact ⟨w, run, of_decide_eq_true hlast,
    (heap_wellFormed_in_runs (by decide) (by decide) (by decide) (by decide) (by decide) run).1⟩

/-- In the runs whose releases can take effect, the used blocks are exactly
the held ones, and `wdrealloc(p, 0)` of a held block returns null. -/
theorem used_blocks_held {start size fuel : Nat} (hwrap : start + size < 2 ^ 64)
    (hlarge : 12 < size) (hsmall : size ≤ 32779) (hfuel : 2732 ≤ fuel) {w : World}
    (run : Reach (Booted start size) (fun w c => Admissible w c ∧ Releases w.heap c)
      (World.step fuel) w) :
    AllHeld w ∧ ∀ p ∈ w.ptrs, Releases w.heap (.realloc p 0) →
      ∃ h', wdrealloc fuel w.heap p 0 = .ok (0, h') := by
  have hs := run_sound (P := Exact) hwrap hlarge hsmall hfuel (fun _ _ h => h.1)
    (fun w _ x s hu => by simp at hu) (fun _ _ _ _ _ hall hst hex => hst.exact hall.2 hex) run
  rcases hs with ⟨-, -, A, H, hex⟩ | ⟨-, d⟩
  · refine ⟨H.allHeld hex, fun p hp hok => ?_⟩
    have hfree := Nat.lt_of_lt_of_le H.rep.free_length_lt hfuel
    obtain ⟨pre, c, post, hrow, rfl⟩ := H.locate hp
    obtain ⟨blocks, fl⟩ := A
    simp only at hrow hfree
    subst hrow
    obtain ⟨r, h', A', hcall, hr, -⟩ := wdrealloc_spec H.rep 0 hfree
    have hact := H.rep.actualSize (mem_placed_mid w.heap.heapStart pre post ⟨c, true⟩)
    have hc : c ≠ 0 := by
      rcases hok with h0 | ⟨hzero, -⟩
      · omega
      · have := (hzero rfl).2
        rwa [Nat.add_sub_cancel, hact] at this
    exact ⟨h', by rw [hcall, hr.zero hc]⟩
  · obtain ⟨hw, hf, -⟩ := d.walk hlarge hsmall
    refine ⟨⟨[0], hw, ?_⟩, fun p hp => ?_⟩
    · simp [hf, World.ptrs, d.empty]
    · rw [World.ptrs, d.empty] at hp
      cases hp

theorem used_blocks_held_after_free :
    ∃ w, Reach (Booted 4096 64) (fun w c => Admissible w c ∧ Releases w.heap c)
        (World.step 2732) w ∧ w.ptrs = [4144] ∧ AllHeld w := by
  have sound : ∀ (w : World) (c : Call), (match c with
      | .malloc _ => true
      | .free p => decide (p ∈ w.ptrs ∧ w.heap.freelistHead ≠ 0 ∧
          p < w.heap.heapStart + w.heap.heapSize)
      | _ => false) = true → Admissible w c ∧ Releases w.heap c := by
    intro w c hc
    cases c with
    | malloc n => exact ⟨trivial, trivial⟩
    | free p =>
      obtain ⟨h1, h2⟩ := of_decide_eq_true hc
      exact ⟨Or.inr h1, Or.inr h2⟩
    | _ => cases hc
  obtain ⟨w, run, hlast⟩ := reach_played 4096 (show 12 < 64 by decide) _
    (fun w => decide (w.ptrs = [4144])) [.malloc 16, .malloc 4, .free 4128] sound (by decide +kernel)
  exact ⟨w, run, of_decide_eq_true hlast,
    (used_blocks_held (by decide) (by decide) (by decide) (by decide) run).1⟩

/-- A heap of 24 bytes filled by one allocation: the freelist is empty, so
freeing that block does nothing. -/
theorem freed_block_stays_used :
    ¬ ∀ (start size fuel : Nat) (w : World), start + size < 2 ^ 64 → 12 < size → size ≤ 32779 →
      2732 ≤ fuel → Reach (Booted start size) Admissible (World.step fuel) w → AllHeld w := by
  intro allHeld
  obtain ⟨w, run, hlast⟩ := reach_played 4096 (show 12 < 24 by decide)
    (fun w c => decide (Admissible w c))
    (fun w => decide (w.ptrs = [] ∧ w.heap.heapStart = 4096 ∧ w.heap.heapSize = 24 ∧
      wdmIsFree w.heap.mem 4096 = false))
    [.malloc 12, .free 4108] (fun _ _ h => of_decide_eq_true h) (by decide +kernel)
  obtain ⟨hptrs, hstart, hsize, hused⟩ := of_decide_eq_true hlast
  obtain ⟨hs, hw, hperm⟩ := allHeld 4096 24 2732 w (by decide) (by decide) (by decide) (by decide) run
  rw [Walk, hstart, hsize] at hw
  obtain ⟨ys, rfl, -⟩ := hw.uncons (by decide)
  rw [hptrs, List.filter_cons_of_pos (by rw [hused]; rfl), List.map_cons] at hperm
  exact absurd hperm.length_eq (by simp)

/-- In the runs whose `wdcalloc` products do not wrap, held blocks are
isolated and no call changes a byte of a block it was not given. -/
theorem held_blocks_isolated {start size fuel : Nat} (hwrap : start + size < 2 ^ 64)
    (hlarge : 12 < size) (hsmall : size ≤ 32779) (hfuel : 2732 ≤ fuel) {w : World}
    (run : Reach (Booted start size) (fun w c => Admissible w c ∧ c.NoWrap) (World.step fuel) w) :
    Isolated w ∧ ∀ c w', Admissible w c → w.step fuel c = .ok w' →
      ∀ e ∈ w.held, e.ptr ≠ c.ptr → ∀ i, i < e.req →
        w'.heap.mem.get (e.ptr + i) = w.heap.mem.get (e.ptr + i) := by
  have hs := run_sound (P := fun w A => ∀ e ∈ w.held, e.Fits w.heap A) hwrap hlarge hsmall hfuel
    (fun _ _ h => h.1) (fun w hw e he => by rw [hw] at he; cases he)
    (fun _ _ _ _ _ hall hst hf => hst.fits hall.2 hf) run
  rcases hs with ⟨-, -, A, H, hfits⟩ | ⟨-, d⟩
  · refine ⟨H.isolated hfits, fun c w' adm hstep e he hne i hi => ?_⟩
    obtain ⟨w1, A', hcall, hst⟩ := w.step_spec H c adm
      (Nat.lt_of_lt_of_le H.rep.free_length_lt hfuel)
    rw [hstep] at hcall
    cases hcall
    obtain ⟨x, s, hx, hu, hr⟩ := hfits e he
    exact hst.frame e he hne x s hx hu i (by omega)
  · obtain ⟨hw, -⟩ := d.walk hlarge hsmall
    have none : ∀ e, e ∉ w.held := by
      intro e he
      rw [d.empty] at he
      cases he
    refine ⟨⟨fun e he => absurd he (none e), ?_, ⟨[0], hw, fun e he => absurd he (none e)⟩,
      fun e he => absurd he (none e)⟩, fun _ _ _ _ e he => absurd he (none e)⟩
    rw [d.empty]
    exact List.Pairwise.nil

theorem held_blocks_isolated_after_writes :
    ∃ w, Reach (Booted 4096 128) (fun w c => Admissible w c ∧ c.NoWrap) (World.step 2732) w ∧
      w.ptrs.length = 2 ∧ Isolated w := by
  obtain ⟨w, run, hlast⟩ := reach_played 4096 (show 12 < 128 by decide)
    (fun w c => decide (Admissible w c ∧ c.NoWrap)) (fun w => decide (w.ptrs.length = 2))
    [.malloc 16, .calloc 3 4, .write 4208 15 7, .realloc 4208 40]
    (fun _ _ h => of_decide_eq_true h) (by decide +kernel)
  exact ⟨w, run, of_decide_eq_true hlast,
    (held_blocks_isolated (by decide) (by decide) (by decide) (by decide) run).1⟩

/-- `wdcalloc(2^62, 4)` asks for `2^64` bytes, the product wraps to 0 and an
empty block is returned. -/
theorem wrapped_calloc_not_isolated :
    ¬ ∀ (start size fuel : Nat) (w : World), start + size < 2 ^ 64 → 12 < size → size ≤ 32779 →
      2732 ≤ fuel → Reach (Booted start size) Admissible (World.step fuel) w → Isolated w := by
  intro isolated
  obtain ⟨w, run, hlast⟩ := reach_played 4096 (show 12 < 64 by decide)
    (fun w c => decide (Admissible w c))
    (fun w => decide (∃ e ∈ w.held, w.heap.heapStart + w.heap.heapSize < e.ptr + e.req))
    [.calloc 0x4000000000000000 4] (fun _ _ h => of_decide_eq_true h) (by decide +kernel)
  obtain ⟨e, he, hout⟩ := of_decide_eq_true hlast
  have hin := (isolated 4096 64 2732 w (by decide) (by decide) (by decide) (by decide) run).inside e he
  omega

/-- In the runs without a growth over the block before while the one behind is
free, no two free blocks are ever neighbours. -/
theorem no_free_pair_in_runs {start size fuel : Nat} (hwrap : start + size < 2 ^ 64)
    (hlarge : 12 < size) (hsmall : size ≤ 32779) (hfuel : 2732 ≤ fuel) {w : World}
    (run : Reach (Booted start size) (fun w c => Admissible w c ∧ Merges w.heap c)
      (World.step fuel) w) : NoFreePair w.heap := by
  have hs := run_sound (P := fun _ A => Spread A.blocks) hwrap hlarge hsmall hfuel
    (fun _ _ h => h.1) (fun _ _ => ⟨fun _ => not_startsFree_nil, trivial⟩)
    (fun _ _ _ _ _ hall hst hsp => hst.spread hall.2 hsp) run
  rcases hs with ⟨-, -, A, H, hsp⟩ | ⟨-, d⟩
  · exact H.rep.noFreePair hsp
  · obtain ⟨hw, -, hnext⟩ := d.walk hlarge hsmall
    refine ⟨[0], hw, fun x hx hy => ?_⟩
    rw [List.mem_singleton] at hx hy
    subst hx
    omega

theorem no_free_pair_after_realloc :
    ∃ w, Reach (Booted 4096 200) (fun w c => Admissible w c ∧ Merges w.heap c)
        (World.step 2732) w ∧ w.ptrs.length = 2 ∧ NoFreePair w.heap := by
  obtain ⟨w, run, hlast⟩ := reach_played 4096 (show 12 < 200 by decide)
    (fun w c => decide (Admissible w c ∧ Merges w.heap c)) (fun w => decide (w.ptrs.length = 2))
    [.malloc 20, .malloc 20, .malloc 20, .free 4244, .realloc 4212 30]
    (fun _ _ h => of_decide_eq_true h) (by decide +kernel)
  exact ⟨w, run, of_decide_eq_true hlast,
    no_free_pair_in_runs (by decide) (by decide) (by decide) (by decide) run⟩

/-- A block between a large and a small free one grows over the large one;
the rest is split off and not merged with the small one behind it. -/
theorem grow_over_prev_leaves_free_pair :
    ¬ ∀ (start size fuel : Nat) (w : World), start + size < 2 ^ 64 → 12 < size → size ≤ 32779 →
      2732 ≤ fuel → Reach (Booted start size) Admissible (World.step fuel) w →
        NoFreePair w.heap := by
  intro noPair
  obtain ⟨w, run, hlast⟩ := reach_played 4096 (show 12 < 200 by decide)
    (fun w c => decide (Admissible w c))
    (fun w => decide (w.heap.heapStart = 4096 ∧ w.heap.heapSize = 200 ∧
      walkNext w.heap.mem 4096 = 4168 ∧ walkNext w.heap.mem 4168 = 4232 ∧
      wdmIsFree w.heap.mem 4168 = true ∧ wdmIsFree w.heap.mem 4232 = true))
    [.malloc 20, .malloc 20, .malloc 20, .free 4244, .realloc 4212 60]
    (fun _ _ h => of_decide_eq_true h) (by decide +kernel)
  obtain ⟨hstart, hsize, h1, h2, hf1, hf2⟩ := of_decide_eq_true hlast
  obtain ⟨hs, hw, hpair⟩ := noPair 4096 200 2732 w (by decide) (by decide) (by decide) (by decide) run
  rw [Walk, hstart, hsize] at hw
  obtain ⟨hs1, rfl, hw1⟩ := hw.uncons (by decide)
  rw [h1] at hw1
  obtain ⟨hs2, rfl, hw2⟩ := hw1.uncons (by decide)
  rw [h2] at hw2
  obtain ⟨hs3, rfl, -⟩ := hw2.uncons (by decide)
  exact hpair 4168 (by simp) (by rw [h2]; simp) ⟨hf1, by rw [h2]; exact hf2⟩

end WaddleOS
