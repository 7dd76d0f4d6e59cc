import WaddleOS.Base.Records
import WaddleOS.Lib.Multiboot

/-!
# `kernel/drivers/multiboot_parser.c`

`multiboot_get_tag` follows the sizes from tag to tag until it meets the type
asked for or type 0. It trusts every size: a size that leads nowhere new keeps
it at the same tag for ever.
-/

namespace WaddleOS

/-- The next tag: past this one's size, rounded up to 8. -/
def nextTag (m : Mem) (tag : Nat) : Nat := (tag + tagSize m tag + 7) % 2 ^ 64 / 8 * 8

/-- The loop of `multiboot_get_tag`. -/
def getTagFrom (m : Mem) (type : Nat) : Nat → (tag : Nat) → Except Fault Nat
  | 0, _ => .error .outOfFuel
  | fuel + 1, tag =>
    if tagType m tag ≠ 0 then
      if tagType m tag = type then .ok tag else getTagFrom m type fuel (nextTag m tag)
    else .ok 0

def multibootGetTag (fuel : Nat) (m : Mem) (mbootTags type : Nat) : Except Fault Nat :=
  getTagFrom m type fuel ((mbootTags + 8) % 2 ^ 64)

section Walk
variable {m : Mem} {type a b r r' : Nat} {xs : List Nat}

/-- The tags from `a` on are those at `xs`, and the one at `b` ends them. -/
structure Tags (m : Mem) (a : Nat) (xs : List Nat) (b : Nat) : Prop where
  seg : Seg (nextTag m) a xs b
  typed : ∀ x ∈ xs, tagType m x ≠ 0
  ended : tagType m b = 0

theorem Tags.nil (h : tagType m a = 0) : Tags m a [] a :=
  ⟨rfl, fun _ hx => absurd hx List.not_mem_nil, h⟩

theorem Tags.cons (h : Tags m (nextTag m a) xs b) (ha : tagType m a ≠ 0) :
    Tags m a (a :: xs) b := by
  refine ⟨⟨rfl, h.seg⟩, fun x hx => ?_, h.ended⟩
  rcases List.mem_cons.mp hx with rfl | hx
  · exact ha
  · exact h.typed x hx

theorem Tags.uncons (h : Tags m a xs b) (ha : tagType m a ≠ 0) :
    ∃ ys, xs = a :: ys ∧ Tags m (nextTag m a) ys b := by
  cases xs with
  | nil =>
    obtain rfl : a = b := h.seg
    exact absurd h.ended ha
  | cons x xs =>
    obtain ⟨rfl, hrest⟩ := h.seg
    exact ⟨xs, rfl, hrest, fun y hy => h.typed y (List.mem_cons_of_mem a hy), h.ended⟩

/-- Over a list that ends, the walk ends, at the first tag of the type. -/
theorem getTagFrom_tags (h : Tags m a xs b) {fuel : Nat} (hfuel : xs.length < fuel) :
    getTagFrom m type fuel a = .ok ((xs.find? fun x => tagType m x = type).getD 0) := by
  induction xs generalizing a fuel with
  | nil =>
    obtain ⟨fuel, rfl⟩ := Nat.exists_eq_add_of_lt hfuel
    obtain rfl : a = b := h.seg
    rw [getTagFrom, if_neg (not_not_intro h.ended)]
    rfl
  | cons x xs ih =>
    obtain ⟨rfl, -⟩ := h.seg
    have ha := h.typed a List.mem_cons_self
    obtain ⟨ys, hys, hrest⟩ := h.uncons ha
    obtain rfl := (List.cons.inj hys).2
    cases fuel with
    | zero => exact absurd hfuel (Nat.not_lt_zero _)
    | succ fuel =>
      rw [getTagFrom, if_pos ha]
      by_cases ht : tagType m a = type
      · rw [if_pos ht, List.find?_cons_of_pos (by simpa using ht)]
        rfl
      · rw [if_neg ht, List.find?_cons_of_neg (by simpa using ht)]
        exact ih hrest (Nat.lt_of_succ_lt_succ hfuel)

/-- More fuel changes no answer. -/
theorem getTagFrom_det {fuel fuel' : Nat} (h : getTagFrom m type fuel a = .ok r)
    (h' : getTagFrom m type fuel' a = .ok r') : r = r' := by
  induction fuel generalizing fuel' a with
  | zero => cases h
  | succ fuel ih =>
    cases fuel' with
    | zero => cases h'
    | succ fuel' =>
      rw [getTagFrom] at h h'
      by_cases h0 : tagType m a ≠ 0
      · rw [if_pos h0] at h h'
        by_cases ht : tagType m a = type
        · rw [if_pos ht] at h h'
          exact Except.ok.inj (h.symm.trans h')
        · rw [if_neg ht] at h h'
          exact ih h h'
      · rw [if_neg h0] at h h'
        exact Except.ok.inj (h.symm.trans h')

/-- A search that ends without a find has met the end of a list without the type. -/
theorem tags_of_getTagFrom {fuel : Nat} (h : getTagFrom m type fuel a = .ok 0)
    (hpos : ∀ x, tagType m x = type → x ≠ 0) :
    ∃ xs b, Tags m a xs b ∧ xs.length < fuel ∧ ∀ x ∈ xs, tagType m x ≠ type := by
  induction fuel generalizing a with
  | zero => cases h
  | succ fuel ih =>
    rw [getTagFrom] at h
    by_cases h0 : tagType m a ≠ 0
    · rw [if_pos h0] at h
      by_cases ht : tagType m a = type
      · rw [if_pos ht] at h
        exact absurd (Except.ok.inj h) (hpos a ht)
      · rw [if_neg ht] at h
        obtain ⟨xs, b, hxs, hlen, hne⟩ := ih h
        refine ⟨a :: xs, b, hxs.cons h0, Nat.succ_lt_succ hlen, fun x hx => ?_⟩
        rcases List.mem_cons.mp hx with rfl | hx
        · exact ht
        · exact hne x hx
    · exact ⟨[], a, Tags.nil (not_not.mp h0), Nat.succ_pos fuel,
        fun x hx => absurd hx List.not_mem_nil⟩

end Walk

/-! ## A well-formed block -/

/-- The tags from `a` on are laid out as they should be, and the one at `b` has
type 0. -/
def TagBlock (m : Mem) : Nat → List Nat → Nat → Prop :=
  Records (tagSize m) (fun x => tagType m x = 0) (2 ^ 64)

theorem TagBlock.tags {m : Mem} {a b : Nat} {xs : List Nat} (h : TagBlock m a xs b) :
    Tags m a xs b :=
  ⟨h.seg, h.goesOn, h.ended⟩

/-- In a well-formed block the first tag of the type is found, by its place in
the row of tags and not by what the tags hold; 0 says that there is none. -/
theorem multibootGetTag_first {m : Mem} {mbootTags : UInt32} {xs : List Nat} {b : Nat}
    (h : TagBlock m (mbootTags.toNat + 8) xs b) (type : UInt32) :
    ∃ r, (∀ fuel, xs.length < fuel → multibootGetTag fuel m mbootTags.toNat type.toNat = .ok r) ∧
      (r = 0 ↔ type = 0 ∨ ∀ x ∈ xs, tagType m x ≠ type.toNat) ∧
      (r ≠ 0 → ∃ before after, xs = before ++ r :: after ∧ tagType m r = type.toNat ∧
        ∀ x ∈ before, tagType m x ≠ type.toNat) ∧
      ∀ x ∈ xs, r ≤ x ∨ x + tagSize m x ≤ r := by
  have hstart : (mbootTags.toNat + 8) % 2 ^ 64 = mbootTags.toNat + 8 := by
    have := mbootTags.toNat_lt
    omega
  have hrun : ∀ fuel, xs.length < fuel → multibootGetTag fuel m mbootTags.toNat type.toNat =
      .ok ((xs.find? fun x => tagType m x = type.toNat).getD 0) := by
    intro fuel hfuel
    rw [multibootGetTag, hstart]
    exact getTagFrom_tags h.tags hfuel
  refine ⟨_, hrun, ?_⟩
  cases hfind : xs.find? fun x => tagType m x = type.toNat with
  | none =>
    have hnone : ∀ x ∈ xs, tagType m x ≠ type.toNat := by
      simpa using List.find?_eq_none.mp hfind
    exact ⟨iff_of_true rfl (.inr hnone), fun hne => absurd rfl hne, fun x _ => .inl (Nat.zero_le x)⟩
  | some r =>
    obtain ⟨htype, before, after, rfl, hbefore⟩ := List.find?_eq_some_iff_append.mp hfind
    have htype' : tagType m r = type.toNat := of_decide_eq_true htype
    have hmem : r ∈ before ++ r :: after := List.mem_append_right _ List.mem_cons_self
    have hpos := (h.between r hmem).1
    have hne : type ≠ 0 := by
      rintro rfl
      exact h.goesOn r hmem htype'
    refine ⟨iff_of_false (by simp only [Option.getD_some]; omega) ?_, fun _ => ?_, fun x hx => ?_⟩
    · rintro (hzero | hall)
      · exact hne hzero
      · exact hall r hmem htype'
    · exact ⟨before, after, rfl, htype', fun x hx => by simpa using hbefore x hx⟩
    · obtain ⟨-, hafter, hcross⟩ := List.pairwise_append.mp h.apart
      rcases List.mem_append.mp hx with hx | hx
      · exact .inr (hcross x hx r List.mem_cons_self)
      · rcases List.mem_cons.mp hx with rfl | hx
        · exact .inl (Nat.le_refl _)
        · have := (List.pairwise_cons.mp hafter).1 x hx
          exact .inl (by simp only [Option.getD_some]; omega)

/-- A tag of type 1 with 12 bytes, one of type 6 behind its padding, the end.
The body of the first holds what would be a tag of type 6. -/
def twoTagBlock : Mem :=
  store (store (store (store (store (store ⟨fun _ => 0⟩ 0x1008 4 1) 0x100C 4 12) 0x1010 4 6)
    0x1018 4 6) 0x101C 4 16) 0x102C 4 8

theorem twoTagBlock_wellFormed : TagBlock twoTagBlock 0x1008 [0x1008, 0x1018] 0x1028 := by
  have hfirst : padded 0x1008 (tagSize twoTagBlock 0x1008) = 0x1018 := by decide +kernel
  have hsecond : padded 0x1018 (tagSize twoTagBlock 0x1018) = 0x1028 := by decide +kernel
  refine .more (by decide) (by decide +kernel) (by decide +kernel) (hfirst ▸ ?_)
  refine .more (by decide) (by decide +kernel) (by decide +kernel) (hsecond ▸ ?_)
  exact .last (by decide) (by decide) (by decide +kernel)

theorem multibootGetTag_first_behind_lookalike :
    ∃ r, (∀ fuel, 2 < fuel → multibootGetTag fuel twoTagBlock 0x1000 6 = .ok r) ∧
      (r = 0 ↔ (6 : UInt32) = 0 ∨ ∀ x ∈ [0x1008, 0x1018], tagType twoTagBlock x ≠ 6) ∧
      (r ≠ 0 → ∃ before after, [0x1008, 0x1018] = before ++ r :: after ∧
        tagType twoTagBlock r = 6 ∧ ∀ x ∈ before, tagType twoTagBlock x ≠ 6) ∧
      ∀ x ∈ [0x1008, 0x1018], r ≤ x ∨ x + tagSize twoTagBlock x ≤ r :=
  multibootGetTag_first
    (show TagBlock twoTagBlock ((0x1000 : UInt32).toNat + 8) _ _ from twoTagBlock_wellFormed) 6

end WaddleOS
