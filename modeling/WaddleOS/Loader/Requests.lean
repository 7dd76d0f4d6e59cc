import WaddleOS.Base.Memory
import WaddleOS.Base.Records

/-!
# `loader/boot1/main.c`: which tags the kernel asks for

The scan of the multiboot header in the kernel's image. Every information
request adds its types to a map of bits. The requests of one tag are counted in
a byte, so a tag with 256 of them or more is never left.
-/

namespace WaddleOS

def multibootHeaderTagEnd : Nat := 0

def multibootHeaderTagInformationRequest : Nat := 1

/-- `tag->type` of a `struct multiboot_header_tag` -/
def headerTagType (m : Mem) (tag : Nat) : Nat := load m tag 2

/-- `tag->size` -/
def headerTagSize (m : Mem) (tag : Nat) : Nat := load m (tag + 4) 4

/-- `t->requests[i]` -/
def headerTagRequest (m : Mem) (t i : Nat) : Nat := load m (t + 8 + 4 * i) 4

/-- `(t->size - 8)/4` -/
def requestCount (m : Mem) (t : Nat) : Nat := (headerTagSize m t + 2 ^ 32 - 8) % 2 ^ 32 / 4

/-- The loop over the requests of one tag; `i` is a `uint8_t`. -/
def requestLoop (m : Mem) (t : Nat) : Nat → (i bmap : Nat) → Except Fault Nat
  | 0, _, _ => .error .outOfFuel
  | fuel + 1, i, bmap =>
    if i < requestCount m t then
      -- the processor takes the count of a 32-bit shift modulo 32
      requestLoop m t fuel ((i + 1) % 2 ^ 8) (bmap ||| 1 <<< (headerTagRequest m t i % 32))
    else .ok bmap

/-- What the body of the scan does with one tag -/
def addRequests (m : Mem) (fuel tag bmap : Nat) : Except Fault Nat :=
  if headerTagType m tag = multibootHeaderTagInformationRequest then requestLoop m tag fuel 0 bmap
  else .ok bmap

def nextHeaderTag (m : Mem) (tag : Nat) : Nat := (tag + headerTagSize m tag + 7) % 2 ^ 32 / 8 * 8

/-- The loop over the tags. -/
def headerTagLoop (m : Mem) : Nat → (tag bmap : Nat) → Except Fault Nat
  | 0, _, _ => .error .outOfFuel
  | fuel + 1, tag, bmap =>
    if headerTagType m tag ≠ multibootHeaderTagEnd then do
      let bmap ← addRequests m fuel tag bmap
      headerTagLoop m fuel (nextHeaderTag m tag) bmap
    else .ok bmap

/-- `tags_requested_bmap`, for the header at `mhdr`. -/
def tagsRequestedBmap (fuel : Nat) (m : Mem) (mhdr : Nat) : Except Fault Nat :=
  headerTagLoop m fuel ((mhdr + 16) % 2 ^ 32) 0

/-- The tags of a multiboot header from `a` on are laid out as they should be,
and the one at `b` ends them. -/
def HeaderTags (m : Mem) : Nat → List Nat → Nat → Prop :=
  Records (headerTagSize m) (fun x => headerTagType m x = multibootHeaderTagEnd) (2 ^ 32)

/-- `type` is among the requests of one of the tags. -/
def RequestsType (m : Mem) (tags : List Nat) (type : Nat) : Prop :=
  ∃ x ∈ tags, headerTagType m x = multibootHeaderTagInformationRequest ∧
    ∃ j, j < requestCount m x ∧ headerTagRequest m x j = type

/-- Only types of at most 31 are requested: the map has no other bits. -/
def SmallRequests (m : Mem) (tags : List Nat) : Prop :=
  ∀ x ∈ tags, headerTagType m x = multibootHeaderTagInformationRequest →
    ∀ j, j < requestCount m x → headerTagRequest m x j < 32

/-- The scan ends, and the map has the bits of the requested types. -/
def ScansRequests (m : Mem) (mhdr : Nat) (tags : List Nat) : Prop :=
  ∃ enough, ∀ fuel, enough ≤ fuel → ∃ bmap, tagsRequestedBmap fuel m mhdr = .ok bmap ∧
    ∀ type, bmap.testBit type = true ↔ RequestsType m tags type

section Loops

variable {m : Mem} {t i bmap fuel : Nat}

theorem testBit_request (bmap k type : Nat) :
    (bmap ||| 1 <<< k).testBit type = true ↔ bmap.testBit type = true ∨ k = type := by
  rw [Nat.testBit_or, Bool.or_eq_true, Nat.one_shiftLeft, Nat.testBit_two_pow, decide_eq_true_eq]

/-- Up to 255 requests are all read. -/
theorem requestLoop_ok (fuel i bmap : Nat) (hcount : requestCount m t < 2 ^ 8)
    (hi : i ≤ requestCount m t) (hfuel : requestCount m t < i + fuel) :
    ∃ bmap', requestLoop m t fuel i bmap = .ok bmap' ∧
      ∀ type, bmap'.testBit type = true ↔ bmap.testBit type = true ∨
        ∃ j, i ≤ j ∧ j < requestCount m t ∧ headerTagRequest m t j % 32 = type := by
  induction fuel generalizing i bmap with
  | zero => omega
  | succ fuel ih =>
    rw [requestLoop]
    by_cases hlt : i < requestCount m t
    · rw [if_pos hlt, Nat.mod_eq_of_lt (show i + 1 < 2 ^ 8 by omega)]
      obtain ⟨bmap', hrun, hbits⟩ := ih (i + 1)
        (bmap ||| 1 <<< (headerTagRequest m t i % 32)) hlt (by omega)
      refine ⟨bmap', hrun, fun type => ?_⟩
      rw [hbits, testBit_request, or_assoc]
      refine or_congr_right ⟨?_, ?_⟩
      · rintro (hreq | ⟨j, hlo, hhi, hreq⟩)
        · exact ⟨i, Nat.le_refl i, hlt, hreq⟩
        · exact ⟨j, by omega, hhi, hreq⟩
      · rintro ⟨j, hlo, hhi, hreq⟩
        rcases Nat.eq_or_lt_of_le hlo with rfl | hlo
        · exact .inl hreq
        · exact .inr ⟨j, Nat.succ_le_of_lt hlo, hhi, hreq⟩
    · rw [if_neg hlt]
      refine ⟨bmap, rfl, fun type => (or_iff_left ?_).symm⟩
      rintro ⟨j, hlo, hhi, -⟩
      omega

/-- A byte never gets past 255: the loop over more requests goes on for ever. -/
theorem requestLoop_stuck (hcount : 2 ^ 8 ≤ requestCount m t) (hi : i < 2 ^ 8) :
    requestLoop m t fuel i bmap = .error .outOfFuel := by
  induction fuel generalizing i bmap with
  | zero => rfl
  | succ fuel ih =>
    rw [requestLoop, if_pos (by omega)]
    exact ih (Nat.mod_lt _ (by decide))

end Loops

section Scan

variable {m : Mem} {a b bmap : Nat} {xs : List Nat}

theorem requestCount_eq {x : Nat} (hx : 8 ≤ headerTagSize m x) :
    requestCount m x = (headerTagSize m x - 8) / 4 := by
  have hlt : headerTagSize m x < 256 ^ 4 := load_lt m (x + 4) 4
  rw [requestCount]
  omega

/-- No tag has more requests than its loop can count. -/
def Countable (m : Mem) (tags : List Nat) : Prop :=
  ∀ x ∈ tags, headerTagType m x = multibootHeaderTagInformationRequest → requestCount m x < 2 ^ 8

theorem HeaderTags.next {x : Nat} {xs : List Nat} (h : HeaderTags m a (x :: xs) b) :
    nextHeaderTag m a = padded a (headerTagSize m a) := by
  obtain ⟨hx, hrest⟩ := h.seg
  cases h with
  | more _ _ _ rest =>
    cases xs with
    | nil =>
      cases rest
      exact hrest
    | cons y ys =>
      cases rest
      exact hrest.1

/-- What one tag adds to the map. -/
theorem requestsType_cons (m : Mem) (x : Nat) (xs : List Nat) (type : Nat) :
    RequestsType m (x :: xs) type ↔
      (headerTagType m x = multibootHeaderTagInformationRequest ∧
        ∃ j, j < requestCount m x ∧ headerTagRequest m x j = type) ∨ RequestsType m xs type := by
  simp only [RequestsType, List.mem_cons, or_and_right, exists_or, exists_eq_left]

theorem addRequests_ok (fuel t bmap : Nat)
    (hcount : headerTagType m t = multibootHeaderTagInformationRequest → requestCount m t < 2 ^ 8)
    (hsmall : headerTagType m t = multibootHeaderTagInformationRequest →
      ∀ j, j < requestCount m t → headerTagRequest m t j < 32) (hfuel : 2 ^ 8 ≤ fuel) :
    ∃ bmap', addRequests m fuel t bmap = .ok bmap' ∧
      ∀ type, bmap'.testBit type = true ↔ bmap.testBit type = true ∨
        headerTagType m t = multibootHeaderTagInformationRequest ∧
          ∃ j, j < requestCount m t ∧ headerTagRequest m t j = type := by
  rw [addRequests]
  split
  next hreq =>
    have hc := hcount hreq
    obtain ⟨bmap', hrun, hbits⟩ := requestLoop_ok fuel 0 bmap hc (Nat.zero_le _) (by omega)
    refine ⟨bmap', hrun, fun type => ?_⟩
    rw [hbits]
    refine or_congr_right ⟨?_, ?_⟩
    · rintro ⟨j, -, hj, htype⟩
      rw [Nat.mod_eq_of_lt (hsmall hreq j hj)] at htype
      exact ⟨hreq, j, hj, htype⟩
    · rintro ⟨-, j, hj, htype⟩
      refine ⟨j, Nat.zero_le j, hj, ?_⟩
      rw [Nat.mod_eq_of_lt (hsmall hreq j hj)]
      exact htype
  next hreq => exact ⟨bmap, rfl, fun type => (or_iff_left fun h => hreq h.1).symm⟩

theorem headerTagLoop_ok (bmap : Nat) (h : HeaderTags m a xs b)
    (hsmall : SmallRequests m xs) (hcount : Countable m xs) {fuel : Nat}
    (hfuel : xs.length + 2 ^ 8 < fuel) :
    ∃ bmap', headerTagLoop m fuel a bmap = .ok bmap' ∧
      ∀ type, bmap'.testBit type = true ↔ bmap.testBit type = true ∨ RequestsType m xs type := by
  induction xs generalizing a bmap fuel with
  | nil =>
    cases h with
    | last _ _ ended =>
      obtain ⟨fuel, rfl⟩ := Nat.exists_eq_add_of_lt hfuel
      refine ⟨bmap, by rw [headerTagLoop, if_neg (not_not_intro ended)], fun type => ?_⟩
      simp [RequestsType]
  | cons x xs ih =>
    have hnext := h.next
    cases h with
    | more _ goesOn _ rest =>
      rw [← hnext] at rest
      obtain ⟨hsmall₀, hsmall⟩ := List.forall_mem_cons.mp hsmall
      obtain ⟨hcount₀, hcount⟩ := List.forall_mem_cons.mp hcount
      rw [List.length_cons] at hfuel
      obtain ⟨fuel, rfl⟩ : ∃ k, fuel = k + 1 := ⟨fuel - 1, by omega⟩
      obtain ⟨bmap₁, hrun₁, hbits₁⟩ := addRequests_ok fuel x bmap hcount₀ hsmall₀ (by omega)
      have hrest : xs.length + 2 ^ 8 < fuel := by omega
      obtain ⟨bmap', hrun, hbits⟩ := ih bmap₁ rest hsmall hcount hrest
      refine ⟨bmap', ?_, fun type => ?_⟩
      · rw [headerTagLoop, if_pos goesOn, bind_eq_ok]
        exact ⟨bmap₁, hrun₁, hrun⟩
      · rw [hbits, hbits₁, requestsType_cons, or_assoc]

/-- A scan that ends has left the loop of every tag. -/
theorem countable_of_headerTagLoop (h : HeaderTags m a xs b) {fuel bmap' : Nat}
    (hrun : headerTagLoop m fuel a bmap = .ok bmap') : Countable m xs := by
  induction xs generalizing a bmap fuel with
  | nil => exact fun x hx => absurd hx List.not_mem_nil
  | cons x xs ih =>
    have hnext := h.next
    cases h with
    | more _ goesOn _ rest =>
      rw [← hnext] at rest
      cases fuel with
      | zero => cases hrun
      | succ fuel =>
        rw [headerTagLoop, if_pos goesOn] at hrun
        obtain ⟨bmap₁, hrun₁, hrun⟩ := bind_eq_ok.mp hrun
        refine List.forall_mem_cons.mpr ⟨fun hreq => ?_, ih rest hrun⟩
        by_contra hcount
        rw [addRequests, if_pos hreq, requestLoop_stuck (Nat.le_of_not_lt hcount) (by decide)] at hrun₁
        cases hrun₁

/-- The scan of a well-formed header ends with the right map exactly when every
information request is shorter than 1032 bytes, which is 256 requests. -/
theorem tagsRequested_right_iff {mhdr : Nat} (h : HeaderTags m (mhdr + 16) xs b)
    (hsmall : SmallRequests m xs) :
    ScansRequests m mhdr xs ↔
      ∀ x ∈ xs, headerTagType m x = multibootHeaderTagInformationRequest →
        headerTagSize m x < 1032 := by
  have hsize : Countable m xs ↔ ∀ x ∈ xs,
      headerTagType m x = multibootHeaderTagInformationRequest → headerTagSize m x < 1032 := by
    refine forall₂_congr fun x hx => imp_congr_right fun _ => ?_
    have hx8 := (h.between x hx).2.1
    rw [requestCount_eq hx8]
    omega
  have hstart : (mhdr + 16) % 2 ^ 32 = mhdr + 16 := by
    have hle := h.start_le
    have hfits := h.fits
    omega
  rw [← hsize, ScansRequests]
  simp only [tagsRequestedBmap, hstart]
  constructor
  · rintro ⟨enough, hall⟩
    obtain ⟨bmap, hrun, -⟩ := hall enough (Nat.le_refl _)
    exact countable_of_headerTagLoop h hrun
  · intro hcount
    refine ⟨xs.length + 2 ^ 8 + 1, fun fuel hfuel => ?_⟩
    obtain ⟨bmap, hrun, hbits⟩ := headerTagLoop_ok 0 h hsmall hcount hfuel
    exact ⟨bmap, hrun, fun type => by rw [hbits]; simp⟩

end Scan

/-! ## Two headers -/

/-- A header whose only tag has the `size` given, and the end behind it. -/
def oneTagHeader (size : Nat) : Mem := store (store ⟨fun _ => 0⟩ 0x1010 2 1) 0x1014 4 size

/-- The kernel's own request of two types. -/
def twoRequests : Mem := store (store (oneTagHeader 16) 0x1018 4 4) 0x101C 4 6

theorem twoRequests_tags : HeaderTags twoRequests 0x1010 [0x1010] 0x1020 := by
  have hnext : padded 0x1010 (headerTagSize twoRequests 0x1010) = 0x1020 := by decide +kernel
  exact .more (by decide) (by decide +kernel) (by decide +kernel)
    (hnext ▸ .last (by decide) (by decide) (by decide +kernel))

theorem twoRequests_small : SmallRequests twoRequests [0x1010] := by
  intro x hx hreq j hj
  obtain rfl := List.mem_singleton.mp hx
  have hcount : requestCount twoRequests 0x1010 = 2 := by decide +kernel
  have hall : ∀ j, j < 2 → headerTagRequest twoRequests 0x1010 j < 32 := by decide +kernel
  exact hall j (hcount ▸ hj)

theorem tagsRequested_right_two : ScansRequests twoRequests 0x1000 [0x1010] :=
  (tagsRequested_right_iff (show HeaderTags twoRequests (0x1000 + 16) _ _ from twoRequests_tags)
    twoRequests_small).mpr (by decide +kernel)

/-- A tag with 256 requests, all of type 0, keeps the scan for ever. -/
theorem tagsRequested_stuck :
    ¬ ∀ (m : Mem) (mhdr : Nat) (xs : List Nat) (b : Nat), HeaderTags m (mhdr + 16) xs b →
      SmallRequests m xs → ScansRequests m mhdr xs := by
  intro scans
  have hnext : padded 0x1010 (headerTagSize (oneTagHeader 1032) 0x1010) = 0x1418 := by
    decide +kernel
  have htags : HeaderTags (oneTagHeader 1032) 0x1010 [0x1010] 0x1418 :=
    .more (by decide) (by decide +kernel) (by decide +kernel)
      (hnext ▸ .last (by decide) (by decide) (by decide +kernel))
  have hsmall : SmallRequests (oneTagHeader 1032) [0x1010] := by
    intro x hx hreq j hj
    obtain rfl := List.mem_singleton.mp hx
    have hcount : requestCount (oneTagHeader 1032) 0x1010 = 256 := by decide +kernel
    have hall : ∀ j, j < 256 → headerTagRequest (oneTagHeader 1032) 0x1010 j < 32 := by
      decide +kernel
    exact hall j (hcount ▸ hj)
  obtain ⟨enough, hall⟩ := scans (oneTagHeader 1032) 0x1000 _ _ htags hsmall
  obtain ⟨bmap, hrun, -⟩ := hall enough (Nat.le_refl _)
  have hstart : (0x1000 + 16) % 2 ^ 32 = 0x1010 := by decide
  rw [tagsRequestedBmap, hstart] at hrun
  have hcount := countable_of_headerTagLoop htags hrun 0x1010 List.mem_cons_self (by decide +kernel)
  exact absurd hcount (by decide +kernel)

end WaddleOS
