import WaddleOS.Heap.BestFit

/-!
# The order of frees

A released block absorbs the free block on each side of it, so a release is a
function of the row (`Release.row`). Two releases in either order give the
same row (`released_comm`): between the two blocks they meet only in a row of
at most one block, and the sizes they merge there add up the same.
-/

namespace WaddleOS

/-- The bytes a released block gains on one side of it and the row that
remains there, nearest block first. -/
def absorb : List Block → Nat × List Block
  | ⟨n, false⟩ :: bs => (12 + n, bs)
  | bs => (0, bs)

/-- The row after the block of size `s` between `pre` and `post` was released. -/
def released (pre : List Block) (s : Nat) (post : List Block) : List Block :=
  (absorb pre.reverse).2.reverse ++
    ⟨(absorb pre.reverse).1 + s + (absorb post).1, false⟩ :: (absorb post).2

theorem absorb_nil : absorb [] = (0, []) := rfl

theorem absorb_free (n : Nat) (bs : List Block) : absorb (⟨n, false⟩ :: bs) = (12 + n, bs) := rfl

theorem absorb_used (n : Nat) (bs : List Block) :
    absorb (⟨n, true⟩ :: bs) = (0, ⟨n, true⟩ :: bs) := rfl

theorem absorb_of_not_startsFree {bs : List Block} (h : ¬ StartsFree bs) : absorb bs = (0, bs) := by
  rcases bs with _ | ⟨⟨n, u⟩, bs⟩
  · rfl
  · cases u with
    | false => exact absurd ⟨n, bs, rfl⟩ h
    | true => rfl

theorem absorb_append {bs : List Block} (cs : List Block) (h : bs ≠ []) :
    absorb (bs ++ cs) = ((absorb bs).1, (absorb bs).2 ++ cs) := by
  rcases bs with _ | ⟨⟨n, u⟩, bs⟩
  · exact absurd rfl h
  · cases u <;> rfl

/-- Nothing is absorbed across a used block. -/
theorem absorb_append_used (bs cs : List Block) (t : Nat) :
    absorb (bs ++ ⟨t, true⟩ :: cs) = ((absorb bs).1, (absorb bs).2 ++ ⟨t, true⟩ :: cs) := by
  by_cases h : bs = []
  · subst h
    rfl
  · exact absorb_append _ h

theorem span_absorb (bs : List Block) : (absorb bs).1 + span (absorb bs).2 = span bs := by
  rcases bs with _ | ⟨⟨n, u⟩, bs⟩
  · rfl
  · cases u with
    | false => simp only [absorb_free, span]
    | true => simp only [absorb_used, Nat.zero_add]

theorem span_reverse (bs : List Block) : span bs.reverse = span bs := by
  induction bs with
  | nil => rfl
  | cons b bs ih =>
    rw [List.reverse_cons, span_append, ih]
    simp only [span]
    omega

theorem startsFree_reverse {bs : List Block} : StartsFree bs.reverse ↔ EndsFree bs := by
  constructor
  · rintro ⟨n, post, h⟩
    refine ⟨post.reverse, n, ?_⟩
    rw [← List.reverse_reverse bs, h, List.reverse_cons]
  · rintro ⟨pre, n, rfl⟩
    exact ⟨n, pre.reverse, by simp⟩

theorem Release.row {start s : Nat} {pre post : List Block} {fl : List Nat} {A' : Abs}
    (hr : Release start s pre post fl A') : A'.blocks = released pre s post := by
  cases hr with
  | @both pre post p n before after =>
    simp only [released, List.reverse_append, List.reverse_cons, List.reverse_nil, List.nil_append,
      List.singleton_append, absorb_free, List.reverse_reverse]
    rw [show p + 12 + s + 12 + n = 12 + p + s + (12 + n) by omega]
  | @prev pre post p fl next =>
    simp only [released, List.reverse_append, List.reverse_cons, List.reverse_nil, List.nil_append,
      List.singleton_append, absorb_free, List.reverse_reverse, absorb_of_not_startsFree next]
    rw [show p + 12 + s = 12 + p + s + 0 by omega]
  | @next pre post n before after prev =>
    simp only [released, absorb_free, absorb_of_not_startsFree (mt startsFree_reverse.mp prev),
      List.reverse_reverse]
    rw [show s + 12 + n = 0 + s + (12 + n) by omega]
  | none prev next =>
    simp only [released, absorb_of_not_startsFree next,
      absorb_of_not_startsFree (mt startsFree_reverse.mp prev), List.reverse_reverse]
    rw [show 0 + s + 0 = s by omega]

/-- The row before `t` once `s` is released, and the row behind `s` once `t`
is, where `mid` stands between the two. -/
def leftOf (pre : List Block) (s : Nat) (mid : List Block) : List Block :=
  (absorb pre.reverse).2.reverse ++
    ⟨(absorb pre.reverse).1 + s + (absorb mid).1, false⟩ :: (absorb mid).2

def rightOf (mid : List Block) (t : Nat) (post : List Block) : List Block :=
  (absorb mid.reverse).2.reverse ++
    ⟨(absorb mid.reverse).1 + t + (absorb post).1, false⟩ :: (absorb post).2

theorem released_left (pre mid post : List Block) (s t : Nat) :
    released pre s (mid ++ ⟨t, true⟩ :: post) = leftOf pre s mid ++ ⟨t, true⟩ :: post := by
  simp only [released, leftOf, absorb_append_used, List.append_assoc, List.cons_append]

theorem released_right (pre mid post : List Block) (s t : Nat) :
    released (pre ++ ⟨s, true⟩ :: mid) t post = pre ++ ⟨s, true⟩ :: rightOf mid t post := by
  simp only [released, rightOf, List.reverse_append, List.reverse_cons, List.append_assoc,
    absorb_append_used, List.reverse_reverse, List.cons_append, List.nil_append]

/-- Where the far side keeps a block, the two releases do not meet. -/
theorem released_apart {pre mid post : List Block} {s t : Nat} (h1 : (absorb mid).2 ≠ [])
    (h2 : (absorb mid.reverse).2 ≠ [])
    (meet : (absorb (absorb mid).2.reverse).2.reverse = (absorb (absorb mid.reverse).2.reverse).2)
    (gain1 : (absorb (absorb mid).2.reverse).1 = (absorb mid.reverse).1)
    (gain2 : (absorb (absorb mid.reverse).2.reverse).1 = (absorb mid).1) :
    released (leftOf pre s mid) t post = released pre s (rightOf mid t post) := by
  have h1' : (absorb mid).2.reverse ≠ [] := by simpa using h1
  have h2' : (absorb mid.reverse).2.reverse ≠ [] := by simpa using h2
  simp only [released, leftOf, rightOf, List.reverse_append, List.reverse_cons, List.append_assoc,
    List.reverse_reverse, List.cons_append, List.nil_append, absorb_append _ h1',
    absorb_append _ h2', gain1, gain2, meet]

/-- Two releases in either order give the same row. -/
theorem released_comm (pre mid post : List Block) (s t : Nat) :
    released (leftOf pre s mid) t post = released pre s (rightOf mid t post) := by
  rcases mid with _ | ⟨⟨m, u⟩, mid⟩
  · simp only [released, leftOf, rightOf, absorb_nil, List.reverse_append, List.reverse_cons,
      List.reverse_nil, List.nil_append, List.reverse_reverse, List.singleton_append, absorb_free]
    rw [show ∀ l r, 12 + (l + s + 0) + t + r = l + s + (12 + (0 + t + r)) by omega]
  · rcases List.eq_nil_or_concat' mid with rfl | ⟨mid, ⟨k, v⟩, rfl⟩
    · cases u with
      | false =>
        simp only [released, leftOf, rightOf, absorb_free, List.reverse_append, List.reverse_cons,
          List.reverse_nil, List.nil_append, List.reverse_reverse, List.singleton_append]
        rw [show ∀ l r, 12 + (l + s + (12 + m)) + t + r = l + s + (12 + (12 + m + t + r)) by omega]
      | true => apply released_apart <;> simp [absorb]
    · apply released_apart <;> cases u <;> cases v <;> simp [absorb]

theorem span_leftOf (pre mid : List Block) (s : Nat) :
    span (leftOf pre s mid) = span pre + (12 + s + span mid) := by
  have h1 := span_absorb pre.reverse
  have h2 := span_absorb mid
  rw [span_reverse] at h1
  simp only [leftOf, span_append, span_reverse, span]
  omega

/-- The two heaps have the same blocks with the same sizes, `prev_sz` values
and alloc bits, and the same blocks on their freelists. -/
def SameLayout (h k : Heap) : Prop :=
  ∃ hs fl gl, WellFormed h hs fl ∧ WellFormed k hs gl ∧
    (∀ x ∈ hs, prevSz h.mem x = prevSz k.mem x ∧ sz h.mem x = sz k.mem x) ∧ fl.Perm gl

theorem SameLayout.symm {h k : Heap} (same : SameLayout h k) : SameLayout k h := by
  obtain ⟨hs, fl, gl, h1, h2, h3, h4⟩ := same
  exact ⟨hs, gl, fl, h2, h1, fun x hx => ⟨(h3 x hx).1.symm, (h3 x hx).2.symm⟩, h4.symm⟩

/-- Two heaps with one row have the same layout. -/
theorem Rep.sameLayout {h k : Heap} {row : List Block} {fl gl : List Nat} (r : Rep h ⟨row, fl⟩)
    (r' : Rep k ⟨row, gl⟩) (hst : k.heapStart = h.heapStart) : SameLayout h k := by
  have w := r'.wellFormed
  have l := r'.layout
  have f := r'.mem_free
  rw [hst] at w l f
  refine ⟨_, fl, gl, r.wellFormed, w, fun x hx => ?_, ?_⟩
  · obtain ⟨b, hb⟩ := mem_headers.mp hx
    obtain ⟨h1, h2, -⟩ := l.agree r.layout hb fun _ => rfl
    exact ⟨h1, h2⟩
  · exact (List.perm_ext_iff_of_nodup r.nodup r'.nodup).mpr fun x => (r.mem_free x).trans (f x).symm

/-- A row with a free block has a node on the freelist. -/
theorem Rep.free_ne_nil {h : Heap} {pre post : List Block} {n : Nat} {fl : List Nat}
    (r : Rep h ⟨pre ++ ⟨n, false⟩ :: post, fl⟩) : fl ≠ [] :=
  List.ne_nil_of_mem ((r.mem_free _).mpr ⟨_, mem_placed_mid _ pre post _, rfl⟩)

/-- `wdfree` of a used block as a change of the row: none when the freelist is
empty or the block has no byte inside the heap, and the released row otherwise. -/
theorem wdfree_row {h : Heap} {pre post : List Block} {s fuel p : Nat} {fl : List Nat}
    (r : Rep h ⟨pre ++ ⟨s, true⟩ :: post, fl⟩) (hfuel : 2732 ≤ fuel)
    (hp : p = h.heapStart + span pre + 12) :
    ((fl = [] ∨ h.heapStart + h.heapSize ≤ p) ∧ wdfree fuel h p = .ok h) ∨
    ((fl ≠ [] ∧ p < h.heapStart + h.heapSize) ∧ ∃ h' fl', wdfree fuel h p = .ok h' ∧
      Rep h' ⟨released pre s post, fl'⟩ ∧ fl' ≠ [] ∧ h'.heapStart = h.heapStart ∧
      h'.heapSize = h.heapSize) := by
  subst hp
  rcases wdfree_spec r (Nat.lt_of_lt_of_le r.free_length_lt hfuel) with
    hno | ⟨hyes, h', ⟨row, fl'⟩, hcall, hrel, hb⟩
  · exact Or.inl hno
  · have hrow : row = released pre s post := hrel.row
    subst hrow
    exact Or.inr ⟨hyes, h', fl', hcall, hb.rep, hb.rep.free_ne_nil, hb.start, hb.size⟩

/-- Both orders of releasing two used blocks, the first at the lower address. -/
theorem wdfree_both {h : Heap} {pre mid post : List Block} {s t fuel p q : Nat} {fl : List Nat}
    (r : Rep h ⟨pre ++ ⟨s, true⟩ :: (mid ++ ⟨t, true⟩ :: post), fl⟩) (hfuel : 2732 ≤ fuel)
    (hp : p = h.heapStart + span pre + 12)
    (hq : q = h.heapStart + span (pre ++ ⟨s, true⟩ :: mid) + 12) :
    ∃ h1 h12 h2 h21, wdfree fuel h p = .ok h1 ∧ wdfree fuel h1 q = .ok h12 ∧
      wdfree fuel h q = .ok h2 ∧ wdfree fuel h2 p = .ok h21 ∧ SameLayout h12 h21 := by
  have rq : Rep h ⟨(pre ++ ⟨s, true⟩ :: mid) ++ ⟨t, true⟩ :: post, fl⟩ := by
    rwa [List.append_assoc, List.cons_append]
  have total := rq.total
  have hq' : q = h.heapStart + span (leftOf pre s mid) + 12 := by
    rw [hq, span_leftOf, span_append]
    rfl
  simp only [span_append, span] at total hq
  rcases wdfree_row r hfuel hp with ⟨hno, c1⟩ | ⟨hyes, h1, fl1, c1, r1, hne1, start1, size1⟩
  · -- an empty freelist: no release takes effect
    have hfl : fl = [] := hno.resolve_right (by omega)
    rcases wdfree_row rq hfuel (by simp only [span_append, span]; omega) with ⟨-, c2⟩ | ⟨hyes, -⟩
    · exact ⟨h, h, h, h, c1, c2, c2, c1, r.sameLayout r rfl⟩
    · exact absurd hfl hyes.1
  · rw [released_left] at r1
    rw [← start1] at hq'
    rcases wdfree_row rq hfuel (by simp only [span_append, span]; omega) with
      ⟨hno, c2⟩ | ⟨hyes2, h2, fl2, c2, r2, hne2, start2, size2⟩
    · -- an empty block at the end of the heap: its release never takes effect
      have hend := hno.resolve_left hyes.1
      rcases wdfree_row r1 hfuel hq' with ⟨-, c12⟩ | ⟨hin, -⟩
      · exact ⟨h1, h1, h, h1, c1, c12, c2, c1, r1.sameLayout r1 rfl⟩
      · omega
    · rw [released_right] at r2
      rcases wdfree_row r1 hfuel hq' with ⟨hno, -⟩ | ⟨-, h12, fl12, c12, r12, -, start12, -⟩
      · exact absurd (hno.resolve_left hne1) (by omega)
      rcases wdfree_row r2 hfuel (hp.trans (by rw [start2])) with
        ⟨hno, -⟩ | ⟨-, h21, fl21, c21, r21, -, start21, -⟩
      · exact absurd (hno.resolve_left hne2) (by omega)
      rw [← released_comm] at r21
      exact ⟨h1, h12, h2, h21, c1, c12, c2, c21,
        r12.sameLayout r21 (by rw [start21, start2, start12, start1])⟩

/-- Two held blocks stand in the row one before the other. -/
theorem Holds.locate_both {w : World} {A : Abs} (H : Holds w A) {p q : Nat} (hp : p ∈ w.ptrs)
    (hq : q ∈ w.ptrs) (hne : p ≠ q) :
    ∃ pre s mid t post, A.blocks = pre ++ ⟨s, true⟩ :: (mid ++ ⟨t, true⟩ :: post) ∧
      ((p = w.heap.heapStart + span pre + 12 ∧
          q = w.heap.heapStart + span (pre ++ ⟨s, true⟩ :: mid) + 12) ∨
        (q = w.heap.heapStart + span pre + 12 ∧
          p = w.heap.heapStart + span (pre ++ ⟨s, true⟩ :: mid) + 12)) := by
  obtain ⟨pre, s, post, hrow, hpx⟩ := H.locate hp
  obtain ⟨e, he, rfl⟩ := List.mem_map.mp hq
  obtain ⟨y, t, hy, hu, -⟩ := H.stands e he
  rw [UsedAt, hrow] at hu
  rcases placed_mid hu with ⟨-, hu⟩ | ⟨hu, -⟩ | ⟨-, hu⟩
  · obtain ⟨pre', mid, rfl, hat⟩ := placed_split hu
    exact ⟨pre', t, mid, s, post, by rw [hrow, List.append_assoc, List.cons_append],
      Or.inr ⟨by omega, by omega⟩⟩
  · omega
  · obtain ⟨mid, post', rfl, hat⟩ := placed_split hu
    refine ⟨pre, s, mid, t, post', hrow, Or.inl ⟨hpx, ?_⟩⟩
    simp only [span_append, span] at hat ⊢
    omega

section Run
variable {start size fuel : Nat} {w : World} {p q : Nat}

/-- In every run the order in which two held blocks are freed does not show in
the layout. -/
theorem wdfree_comm (hwrap : start + size < 2 ^ 64) (hlarge : 12 < size) (hsmall : size ≤ 32779)
    (hfuel : 2732 ≤ fuel) (run : Reach (Booted start size) Admissible (World.step fuel) w)
    (hp : p ∈ w.ptrs) (hq : q ∈ w.ptrs) (hne : p ≠ q) :
    ∃ hp hpq hq hqp, wdfree fuel w.heap p = .ok hp ∧ wdfree fuel hp q = .ok hpq ∧
      wdfree fuel w.heap q = .ok hq ∧ wdfree fuel hq p = .ok hqp ∧ SameLayout hpq hqp := by
  rcases live_in_run hwrap hlarge hsmall hfuel run with ⟨⟨blocks, fl⟩, H, -⟩ | ⟨-, d⟩
  · obtain ⟨pre, s, mid, t, post, hrow, hat⟩ := H.locate_both hp hq hne
    simp only at hrow
    subst hrow
    rcases hat with ⟨h1, h2⟩ | ⟨h1, h2⟩
    · exact wdfree_both H.rep hfuel h1 h2
    · obtain ⟨k1, k12, k2, k21, c1, c12, c2, c21, same⟩ := wdfree_both H.rep hfuel h1 h2
      exact ⟨k2, k21, k1, k12, c2, c21, c1, c12, same.symm⟩
  · rw [World.ptrs, d.empty] at hp
    cases hp

theorem wdfree_comm_around_free_block :
    ∃ w, Reach (Booted 4096 200) Admissible (World.step 2732) w ∧
      ∃ hp hpq hq hqp, wdfree 2732 w.heap 4212 = .ok hp ∧ wdfree 2732 hp 4276 = .ok hpq ∧
        wdfree 2732 w.heap 4276 = .ok hq ∧ wdfree 2732 hq 4212 = .ok hqp ∧ SameLayout hpq hqp := by
  obtain ⟨w, run, hlast⟩ := reach_played 4096 (show 12 < 200 by decide)
    (fun w c => decide (Admissible w c)) (fun w => decide (4212 ∈ w.ptrs ∧ 4276 ∈ w.ptrs))
    [.malloc 20, .malloc 20, .malloc 20, .free 4244] (fun _ _ h => of_decide_eq_true h)
    (by decide +kernel)
  obtain ⟨h1, h2⟩ := of_decide_eq_true hlast
  exact ⟨w, run, wdfree_comm (by decide) (by decide) (by decide) (by decide) run h1 h2 (by decide)⟩

end Run

end WaddleOS
