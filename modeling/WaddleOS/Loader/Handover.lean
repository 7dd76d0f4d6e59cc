import WaddleOS.Drivers.MultibootParser
import WaddleOS.Loader.Rounds

/-!
# From the loader's tags to the kernel's walk

The loader writes no end tag and steps over types nobody asked for by the
sizes that happen to be in memory. So the kernel's walk goes on, behind the
last tag, over what was there before, and with a memory map over the map's
last entry, which the tag's size leaves out.
-/

namespace WaddleOS

/-- `tags_requested_bmap` -/
def asked (meminfo mmap : Bool) : Nat := (if meminfo then 2 ^ 4 else 0) + if mmap then 2 ^ 6 else 0

def Requested (meminfo mmap : Bool) (type : Nat) : Prop :=
  (meminfo = true ∧ type = multibootTagTypeBasicMeminfo) ∨
    (mmap = true ∧ type = multibootTagTypeMmap)

instance (meminfo mmap : Bool) (type : Nat) : Decidable (Requested meminfo mmap type) := by
  unfold Requested
  infer_instance

/-- For every type the kernel's search ends: at the tag that the loader wrote
for it, or with null if it was not requested. -/
def Walkable (meminfo mmap : Bool) (s : TagLoop) : Prop :=
  ∀ type : UInt32, ∃ fuel r,
    multibootGetTag fuel s.mem multibootReturnInfoAddr type.toNat = .ok r ∧
      (Requested meminfo mmap type.toNat → r ≠ 0 ∧ (type.toNat, r) ∈ s.tags) ∧
      (¬ Requested meminfo mmap type.toNat → r = 0)

/-! ## The memory the loader is given -/

section Leftovers
variable (m : Mem) (meminfo mmap : Bool) (bios : Bios)

/-- Where the memory map tag goes when the cursor has waited for the first one. -/
def mmapPlace : Nat := if meminfo then skipTag m (firstTag + 16) else firstTag

/-- Where the last written tag leads: to the map's last entry if there is a map. -/
def tailStart : Nat :=
  if mmap then mmapPlace m meminfo + 16 + 24 * (bios.entries.length - 1)
  else if meminfo then firstTag + 16 else firstTag

/-- The memory behind the tags. -/
def tailMem : Mem := if mmap then storeEntry m (tailStart m meminfo mmap bios) bios.last else m

/-- The end of what the loader writes. -/
def writtenEnd : Nat :=
  if meminfo then
    if mmap then skipTag m ((skipTag m)^[4] firstTag + 16) + 16 + 24 * bios.entries.length
    else (skipTag m)^[4] firstTag + 16
  else if mmap then (skipTag m)^[6] firstTag + 16 + 24 * bios.entries.length
  else firstTag

/-- No cursor passes the top of its address space: not the loader's 4 GiB, and
not the kernel's 2^64 before it meets a type 0. -/
structure NoWrap : Prop where
  loader : writtenEnd m meminfo mmap bios ≤ 2 ^ 32
  kernel : ∀ xs a, Seg (nextTag (tailMem m meminfo mmap bios)) (tailStart m meminfo mmap bios) xs a →
    (∀ x ∈ xs, tagType (tailMem m meminfo mmap bios) x ≠ 0) → tailStart m meminfo mmap bios ≤ a

/-- The size at the first tag's place is 0, so that the cursor waits there. The
place behind the memory sizes has size 0 as well, or looks like another tag of
that type. -/
structure CursorWaits : Prop where
  first : meminfo = true ∨ mmap = true → tagSize m firstTag = 0
  between : meminfo = true → mmap = true →
    tagSize m (firstTag + 16) = 0 ∨ tagType m (firstTag + 16) = multibootTagTypeBasicMeminfo

/-- In addition the bytes behind the tags look like tags of requested types up
to one of type 0. -/
structure LeftoversHarmless : Prop extends CursorWaits m meminfo mmap where
  tail : ∃ xs b, Tags (tailMem m meminfo mmap bios) (tailStart m meminfo mmap bios) xs b ∧
    ∀ x ∈ xs, Requested meminfo mmap (tagType (tailMem m meminfo mmap bios) x)

end Leftovers

/-! ## The kernel's walk -/

section Walk
variable {meminfo mmap : Bool} {s : TagLoop} {M O : Mem} {a b r E : Nat} {xs ps ys : List Nat}

theorem tagType_lt (m : Mem) (x : Nat) : tagType m x < 2 ^ 32 := load_lt m x 4

theorem getTag_start (fuel type : Nat) (m : Mem) :
    multibootGetTag fuel m multibootReturnInfoAddr type = getTagFrom m type fuel firstTag := rfl

/-- The answer for a type, whatever the fuel. -/
theorem Walkable.answer (w : Walkable meminfo mmap s) {type fuel : Nat} (ht : type < 2 ^ 32)
    (h : getTagFrom s.mem type fuel firstTag = .ok r) :
    (Requested meminfo mmap type → r ≠ 0 ∧ (type, r) ∈ s.tags) ∧
      (¬ Requested meminfo mmap type → r = 0) := by
  obtain ⟨fuel', r', h', hans⟩ := w (UInt32.ofNat type)
  rw [UInt32.toNat_ofNat_of_lt' ht, getTag_start] at h'
  rw [UInt32.toNat_ofNat_of_lt' ht] at hans
  rwa [getTagFrom_det h h']

/-- A walk that ends for every type ends. -/
theorem Walkable.tags (w : Walkable meminfo mmap s) : ∃ xs b, Tags s.mem firstTag xs b := by
  -- a type that nobody asked for and that does not stand at address 0
  have fresh : ∃ type : UInt32, ¬ Requested meminfo mmap type.toNat ∧
      tagType s.mem 0 ≠ type.toNat := by
    by_cases h1 : tagType s.mem 0 = 1
    · refine ⟨2, ?_, by rw [h1]; decide⟩
      cases meminfo <;> cases mmap <;> decide
    · refine ⟨1, ?_, h1⟩
      cases meminfo <;> cases mmap <;> decide
  obtain ⟨type, hreq, h0⟩ := fresh
  obtain ⟨fuel, r, h, -, hnull⟩ := w type
  rw [hnull hreq, getTag_start] at h
  obtain ⟨xs, b, hxs, -, -⟩ := tags_of_getTagFrom h fun x hx hx0 => h0 (hx0 ▸ hx)
  exact ⟨xs, b, hxs⟩

/-- The first tag of a walkable list with a request is one the loader wrote there. -/
theorem Walkable.head (w : Walkable meminfo mmap s) :
    (tagType s.mem firstTag = 0 ∧ ∀ type, type < 2 ^ 32 → ¬ Requested meminfo mmap type) ∨
      (tagType s.mem firstTag, firstTag) ∈ s.tags := by
  by_cases h0 : tagType s.mem firstTag = 0
  · refine Or.inl ⟨h0, fun type ht hreq => ?_⟩
    have h : getTagFrom s.mem type 1 firstTag = .ok 0 := by
      rw [getTagFrom, if_neg (not_not_intro h0)]
    exact ((w.answer ht h).1 hreq).1 rfl
  · have h : getTagFrom s.mem (tagType s.mem firstTag) 1 firstTag = .ok firstTag := by
      rw [getTagFrom, if_pos h0, if_pos rfl]
    have hans := w.answer (tagType_lt _ _) h
    by_cases hreq : Requested meminfo mmap (tagType s.mem firstTag)
    · exact Or.inr (hans.1 hreq).2
    · exact absurd (hans.2 hreq) (by decide)

theorem nextTag_lt (m : Mem) (x : Nat) : nextTag m x % 8 = 0 ∧ nextTag m x + 8 ≤ 2 ^ 64 := by
  unfold nextTag
  omega

theorem seg_place (h : Seg (nextTag O) a xs b) (ha : a % 8 = 0 ∧ a + 8 ≤ 2 ^ 64) :
    b % 8 = 0 ∧ b + 8 ≤ 2 ^ 64 := by
  induction xs generalizing a with
  | nil =>
    obtain rfl : a = b := h
    exact ha
  | cons x xs ih =>
    obtain ⟨rfl, hrest⟩ := h
    exact ih hrest (nextTag_lt O a)

/-- Two memories that agree from `E` on have the same tags there, as long as
the walk does not come back below `E`. -/
theorem tags_congr (same : SameOutside 0 E O M) (hE : a % 8 = 0 ∧ a + 8 ≤ 2 ^ 64)
    (ahead : ∀ xs c, Seg (nextTag O) a xs c → (∀ x ∈ xs, tagType O x ≠ 0) → E ≤ c) :
    Tags M a xs b ↔ Tags O a xs b := by
  have hnode : ∀ c, E ≤ c → c + 8 ≤ 2 ^ 64 →
      tagType M c = tagType O c ∧ nextTag M c = nextTag O c := by
    intro c hc htop
    have hsize : tagSize M c = tagSize O c := same.load (by omega) (by omega)
    refine ⟨same.load (by omega) (by omega), ?_⟩
    rw [nextTag, nextTag, hsize]
  induction xs generalizing a with
  | nil =>
    have ha := ahead [] a rfl fun x hx => absurd hx List.not_mem_nil
    obtain ⟨htype, -⟩ := hnode a ha hE.2
    constructor
    · rintro ⟨rfl, -, hend⟩
      exact Tags.nil (htype ▸ hend)
    · rintro ⟨rfl, -, hend⟩
      exact Tags.nil (htype ▸ hend)
  | cons x xs ih =>
    have ha := ahead [] a rfl fun x hx => absurd hx List.not_mem_nil
    obtain ⟨htype, hnext⟩ := hnode a ha hE.2
    have step : tagType O a ≠ 0 → (Tags M (nextTag O a) xs b ↔ Tags O (nextTag O a) xs b) := by
      intro h0
      refine ih (nextTag_lt O a) fun ys c hys hty => ahead (a :: ys) c ⟨rfl, hys⟩ fun y hy => ?_
      rcases List.mem_cons.mp hy with rfl | hy
      · exact h0
      · exact hty y hy
    constructor
    · rintro ⟨⟨rfl, hseg⟩, htyped, hend⟩
      have h0 : tagType O a ≠ 0 := htype ▸ htyped a List.mem_cons_self
      refine Tags.cons ((step h0).mp ?_) h0
      exact ⟨hnext ▸ hseg, fun y hy => htyped y (List.mem_cons_of_mem a hy), hend⟩
    · rintro ⟨⟨rfl, hseg⟩, htyped, hend⟩
      have h0 := htyped a List.mem_cons_self
      have h := (step h0).mpr ⟨hseg, fun y hy => htyped y (List.mem_cons_of_mem a hy), hend⟩
      exact Tags.cons (hnext ▸ h) (htype ▸ h0)

/-- The tags stand one behind the other from the first place on and lead to
`E`, behind which the memory is `O`'s. -/
structure Landed (meminfo mmap : Bool) (s : TagLoop) (ps : List Nat) (E : Nat) (O : Mem) : Prop where
  seg : Seg (nextTag s.mem) firstTag ps E
  types : ∀ x ∈ ps, Requested meminfo mmap (tagType s.mem x) ∧ firstTag ≤ x
  finds : ∀ type, Requested meminfo mmap type → ∃ x,
    ps.find? (fun x => tagType s.mem x = type) = some x ∧ (type, x) ∈ s.tags
  tail : SameOutside 0 E O s.mem
  place : firstTag ≤ E ∧ E % 8 = 0 ∧ E + 8 ≤ 2 ^ 64

theorem requested_ne_zero {type : Nat} (h : Requested meminfo mmap type) : type ≠ 0 := by
  rcases h with ⟨-, rfl⟩ | ⟨-, rfl⟩ <;> decide

/-- A list of tags that starts with a known row of them goes on behind it. -/
theorem Tags.strip (h : Tags M a xs b) (hseg : Seg (nextTag M) a ps r)
    (htyped : ∀ x ∈ ps, tagType M x ≠ 0) : ∃ ys, xs = ps ++ ys ∧ Tags M r ys b := by
  induction ps generalizing a xs with
  | nil =>
    obtain rfl : a = r := hseg
    exact ⟨xs, rfl, h⟩
  | cons p ps ih =>
    obtain ⟨rfl, hrest⟩ := hseg
    obtain ⟨ys, rfl, htail⟩ := h.uncons (htyped a List.mem_cons_self)
    obtain ⟨zs, rfl, hz⟩ := ih htail hrest fun x hx => htyped x (List.mem_cons_of_mem a hx)
    exact ⟨zs, rfl, hz⟩

namespace Landed

theorem typed (l : Landed meminfo mmap s ps E O) : ∀ x ∈ ps, tagType s.mem x ≠ 0 :=
  fun x hx => requested_ne_zero (l.types x hx).1

theorem tags (l : Landed meminfo mmap s ps E O) (h : Tags s.mem E ys b) :
    Tags s.mem firstTag (ps ++ ys) b := by
  refine ⟨seg_append.mpr ⟨E, l.seg, h.seg⟩, fun x hx => ?_, h.ended⟩
  rcases List.mem_append.mp hx with hx | hx
  · exact l.typed x hx
  · exact h.typed x hx

/-- Behind tags that have landed, the rest must be a list of requested types. -/
theorem walkable_iff (l : Landed meminfo mmap s ps E O)
    (ahead : ∀ xs c, Seg (nextTag O) E xs c → (∀ x ∈ xs, tagType O x ≠ 0) → E ≤ c) :
    Walkable meminfo mmap s ↔
      ∃ ys b, Tags O E ys b ∧ ∀ y ∈ ys, Requested meminfo mmap (tagType O y) := by
  have hsame : ∀ ys b, Tags O E ys b → ∀ y ∈ ys, E ≤ y ∧ tagType s.mem y = tagType O y := by
    intro ys b h y hy
    obtain ⟨pre, post, rfl⟩ := List.append_of_mem hy
    obtain ⟨c, h1, rfl, -⟩ := seg_append.mp h.seg
    have hge := ahead pre c h1 fun x hx => h.typed x (List.mem_append_left _ hx)
    have hplace := seg_place h1 l.place.2
    exact ⟨hge, l.tail.load (by omega) (Or.inr hge)⟩
  constructor
  · intro w
    obtain ⟨xs, b, hxs⟩ := w.tags
    obtain ⟨ys, rfl, hys⟩ := hxs.strip l.seg l.typed
    have hO := (tags_congr l.tail l.place.2 ahead).mp hys
    refine ⟨ys, b, hO, fun y hy => ?_⟩
    obtain ⟨hge, htype⟩ := hsame ys b hO y hy
    by_contra hreq
    rw [← htype] at hreq
    -- the search for this type stops at the first tag of it, which is not null
    have hfind : getTagFrom s.mem (tagType s.mem y) ((ps ++ ys).length + 1) firstTag = _ :=
      getTagFrom_tags hxs (Nat.lt_succ_self _)
    have hnull := (w.answer (tagType_lt _ _) hfind).2 hreq
    obtain ⟨z, hz⟩ := Option.isSome_iff_exists.mp
      (List.find?_isSome.mpr ⟨y, List.mem_append_right ps hy, by simp⟩ :
        ((ps ++ ys).find? fun x => tagType s.mem x = tagType s.mem y).isSome)
    rw [hz, Option.getD_some] at hnull
    subst hnull
    have hmem := List.mem_of_find?_eq_some hz
    have hfirst : 0 < firstTag := by decide
    rcases List.mem_append.mp hmem with hmem | hmem
    · have := (l.types 0 hmem).2
      omega
    · have := (hsame ys b hO 0 hmem).1
      have := l.place.1
      omega
  · rintro ⟨ys, b, hO, hreq⟩ type
    have hM := l.tags ((tags_congr l.tail l.place.2 ahead).mpr hO)
    refine ⟨_, _, getTagFrom_tags hM (Nat.lt_succ_self _), fun htype => ?_, fun htype => ?_⟩
    · obtain ⟨x, hx, hin⟩ := l.finds type.toNat htype
      rw [List.find?_append, hx, Option.some_or, Option.getD_some]
      have hge := (l.types x (List.mem_of_find?_eq_some hx)).2
      have hfirst : 0 < firstTag := by decide
      exact ⟨by omega, hin⟩
    · have hnone : (ps ++ ys).find? (fun x => tagType s.mem x = type.toNat) = none := by
        refine List.find?_eq_none.mpr fun x hx => ?_
        rw [decide_eq_true_eq]
        intro he
        rw [← he] at htype
        rcases List.mem_append.mp hx with hx | hx
        · exact htype (l.types x hx).1
        · rw [(hsame ys b hO x hx).2] at htype
          exact htype (hreq x hx)
      rw [hnone]
      rfl

end Landed

end Walk

/-! ## The rounds for each set of requests -/

/-- The tags land where the cursor waits, and only there is the list walkable. -/
structure Outcome (m : Mem) (meminfo mmap : Bool) (bios : Bios) (s : TagLoop) : Prop where
  landed : CursorWaits m meminfo mmap →
    ∃ ps, Landed meminfo mmap s ps (tailStart m meminfo mmap bios) (tailMem m meminfo mmap bios)
  needed : Walkable meminfo mmap s → CursorWaits m meminfo mmap

section Cases
variable {bios : Bios} {m : Mem} {s : TagLoop}

theorem nextTag_eq {c n : Nat} (hc : c % 8 = 0) (hsize : tagSize m c = n) (hn : n % 8 = 0)
    (hlt : c + n < 2 ^ 63) : nextTag m c = c + n := by
  rw [nextTag, hsize]
  omega

theorem tailStart_meminfo (bios : Bios) (m : Mem) :
    tailStart m true false bios = firstTag + 16 := rfl

theorem tailStart_mmap (bios : Bios) (m : Mem) (meminfo : Bool) :
    tailStart m meminfo true bios = mmapPlace m meminfo + 16 + 24 * (bios.entries.length - 1) := rfl

theorem outcome_none (bios : Bios) (m : Mem) :
    Outcome m false false bios (bootInfoStart m (asked false false)) := by
  refine ⟨fun _ => ⟨[], rfl, ?_, ?_, ?_, ?_⟩, fun _ => ⟨?_, ?_⟩⟩
  · exact fun x hx => absurd hx List.not_mem_nil
  · rintro type (⟨h, -⟩ | ⟨h, -⟩) <;> cases h
  · exact ((SameOutside.refl 0 firstTag m).store 2 (by decide) (by decide) (by decide)).store 0
      (by decide) (by decide) (by decide)
  · exact (show firstTag ≤ firstTag ∧ firstTag % 8 = 0 ∧ firstTag + 8 ≤ 2 ^ 64 by decide)
  · rintro (h | h) <;> cases h
  · intro h
    cases h

/-- The one tag stands first if the list is walkable. -/
theorem needed_single {meminfo mmap : Bool} {type c k : Nat} (hk : 0 < k)
    (hreq : Requested meminfo mmap type) (hlt : type < 2 ^ 32) (hc : c = (skipTag m)^[k] firstTag)
    (htags : s.tags = [(type, c)]) (w : Walkable meminfo mmap s) : tagSize m firstTag = 0 := by
  rcases w.head with ⟨-, hnone⟩ | hmem
  · exact absurd hreq (hnone type hlt)
  · rw [htags, List.mem_singleton] at hmem
    have heq := (Prod.mk.inj hmem).2
    exact (iterate_skipTag_eq_self (by decide) hk).mp (by rw [← hc, ← heq])

/-- A single tag at the first place, whose size leads to the rest. -/
theorem landed_single {meminfo mmap : Bool} {type E : Nat} {O : Mem}
    (honly : ∀ t, Requested meminfo mmap t ↔ t = type) (htags : s.tags = [(type, firstTag)])
    (htype : tagType s.mem firstTag = type) (hnext : nextTag s.mem firstTag = E)
    (tail : SameOutside 0 E O s.mem) (place : firstTag ≤ E ∧ E % 8 = 0 ∧ E + 8 ≤ 2 ^ 64) :
    Landed meminfo mmap s [firstTag] E O := by
  refine ⟨⟨rfl, hnext⟩, fun x hx => ?_, fun t ht => ⟨firstTag, ?_, ?_⟩, tail, place⟩
  · rw [List.mem_singleton.mp hx, htype]
    exact ⟨(honly type).mpr rfl, Nat.le_refl _⟩
  · rw [(honly t).mp ht, List.find?_cons_of_pos (by simpa using htype)]
  · rw [(honly t).mp ht, htags]
    exact List.mem_singleton_self _

theorem outcome_meminfo (hfits : (skipTag m)^[4] firstTag + 16 ≤ 2 ^ 32) :
    Outcome m true false bios ((afterRound bios)^[5] (bootInfoStart m (asked true false))) := by
  have hinfo : firstTag % 8 = 0 ∧ firstTag + 16 < 2 ^ 32 := by decide
  obtain ⟨hcurr, same, htags, hge⟩ := skip_rounds bios m (asked true false) 4
    (by decide) (by decide) (by omega)
  have w := TagsWritten.rounds bios m (asked true false) (k := 4) (by decide)
  have wr := meminfo_round bios (by rw [w.requested]; decide) w.type w.aligned
    (by rw [hcurr]; exact hge) (by rw [hcurr]; exact hfits)
  rw [← Function.iterate_succ_apply' (afterRound bios) 4] at wr
  generalize (afterRound bios)^[4] (bootInfoStart m (asked true false)) = s at *
  generalize (afterRound bios)^[4 + 1] (bootInfoStart m (asked true false)) = s' at *
  have htags' : s'.tags = [(multibootTagTypeBasicMeminfo, s.curr)] := by rw [wr.tags, htags]
  refine ⟨fun waits => ?_, fun walk => ⟨fun _ => ?_, fun _ h => nomatch h⟩⟩
  · have hstay := (iterate_skipTag_eq_self (m := m) hinfo.1 (show 0 < 4 by decide)).mpr
      (waits.first (Or.inl rfl))
    have hc : s.curr = firstTag := hcurr.trans hstay
    have hsize := wr.size
    have htype := wr.type
    have hsame := wr.same
    rw [hc] at htags' hsize htype hsame
    exact ⟨_, landed_single (fun t => by simp [Requested]) htags' htype
      (nextTag_eq hinfo.1 hsize (by decide) (by omega))
      ((same.mono (Nat.le_refl 0) (Nat.le_add_right _ _)).trans hsame)
      (by rw [tailStart_meminfo]; omega)⟩
  · exact needed_single (by decide) (Or.inl ⟨rfl, rfl⟩) (by decide) hcurr htags' walk

theorem outcome_mmap
    (hfits : (skipTag m)^[6] firstTag + 16 + 24 * bios.entries.length ≤ 2 ^ 32) :
    Outcome m false true bios ((afterRound bios)^[7] (bootInfoStart m (asked false true))) := by
  have hinfo : firstTag % 8 = 0 ∧ firstTag + 16 < 2 ^ 32 := by decide
  have hpos := List.length_pos_iff.mpr bios.reported
  obtain ⟨hcurr, same, htags, hge⟩ := skip_rounds bios m (asked false true) 6
    (by decide) (by decide) (by omega)
  have w := TagsWritten.rounds bios m (asked false true) (k := 6) (by decide)
  have wr := mmap_round bios (by rw [w.requested]; decide) w.type w.aligned
    (by rw [hcurr]; exact hge) (by rw [hcurr]; exact hfits)
  rw [← Function.iterate_succ_apply' (afterRound bios) 6] at wr
  generalize (afterRound bios)^[6] (bootInfoStart m (asked false true)) = s at *
  generalize (afterRound bios)^[6 + 1] (bootInfoStart m (asked false true)) = s' at *
  have htags' : s'.tags = [(multibootTagTypeMmap, s.curr)] := by rw [wr.tags, htags]
  refine ⟨fun waits => ?_, fun walk => ⟨fun _ => ?_, fun h _ => nomatch h⟩⟩
  · have hstay := (iterate_skipTag_eq_self (m := m) hinfo.1 (show 0 < 6 by decide)).mpr
      (waits.first (Or.inr rfl))
    have hc : s.curr = firstTag := hcurr.trans hstay
    have hsize := wr.size
    have htype := wr.type
    have hafter := wr.after m (same.mono (Nat.le_refl 0) (by rw [hc]))
    rw [hc] at htags' hsize htype hafter
    rw [hstay] at hfits
    have hstart : tailStart m false true bios = firstTag + 16 + 24 * (bios.entries.length - 1) := rfl
    have hnext := nextTag_eq hinfo.1 hsize (by omega) (by omega)
    exact ⟨_, landed_single (fun t => by simp [Requested]) htags' htype (by rw [hnext, hstart]; omega)
      hafter (by rw [hstart]; omega)⟩
  · exact needed_single (by decide) (Or.inr ⟨rfl, rfl⟩) (by decide) hcurr htags' walk

/-- The state once both tags are written: the memory sizes at `c4`, the map
at `c6`, where the size found behind the former led. -/
structure BothWritten (m : Mem) (bios : Bios) (c4 c6 : Nat) (s : TagLoop) : Prop where
  tags : s.tags = [(multibootTagTypeMmap, c6), (multibootTagTypeBasicMeminfo, c4)]
  meminfo : tagType s.mem c4 = multibootTagTypeBasicMeminfo ∧ tagSize s.mem c4 = 16
  mmap : tagType s.mem c6 = multibootTagTypeMmap ∧
    tagSize s.mem c6 = 16 + 24 * (bios.entries.length - 1)
  between : ∀ b k, c4 + 16 ≤ b → b + k ≤ c6 → load s.mem b k = load m b k
  after : SameOutside 0 (c6 + 16 + 24 * (bios.entries.length - 1))
    (storeEntry m (c6 + 16 + 24 * (bios.entries.length - 1)) bios.last) s.mem

theorem both_written {c4 : Nat} (hc4 : c4 = (skipTag m)^[4] firstTag)
    (hfits : skipTag m (c4 + 16) + 16 + 24 * bios.entries.length ≤ 2 ^ 32) :
    BothWritten m bios c4 (skipTag m (c4 + 16))
      ((afterRound bios)^[7] (bootInfoStart m (asked true true))) := by
  have hpos := List.length_pos_iff.mpr bios.reported
  have hinfo : firstTag % 8 = 0 ∧ 0 < firstTag := by decide
  have halign := (iterate_skipTag_ge (m := m) (k := 4) hinfo.1).2
  have hskip := skipTag_ge m (c4 + 16) (by omega)
  obtain ⟨hcurr, same, htags, hge⟩ := skip_rounds bios m (asked true true) 4
    (by decide) (by decide) (by omega)
  have w4 := TagsWritten.rounds bios m (asked true true) (k := 4) (by decide)
  have w5 := TagsWritten.rounds bios m (asked true true) (k := 5) (by decide)
  have w6 := TagsWritten.rounds bios m (asked true true) (k := 6) (by decide)
  have r4 := meminfo_round bios (by rw [w4.requested]; decide) w4.type w4.aligned
    (by rw [hcurr]; exact hge) (by rw [hcurr]; omega)
  have r5 := @skip_round m (c4 + 16) bios
    (s := (afterRound bios)^[5] (bootInfoStart m (asked true true)))
  have l5 := @skip_round_load bios ((afterRound bios)^[5] (bootInfoStart m (asked true true)))
  have r6 := mmap_round bios
    (s := (afterRound bios)^[6] (bootInfoStart m (asked true true)))
  rw [← Function.iterate_succ_apply' (afterRound bios) 4] at r4
  rw [← Function.iterate_succ_apply' (afterRound bios) 5] at r5 l5
  rw [← Function.iterate_succ_apply' (afterRound bios) 6] at r6
  generalize (afterRound bios)^[4] (bootInfoStart m (asked true true)) = s4 at *
  generalize (afterRound bios)^[4 + 1] (bootInfoStart m (asked true true)) = s5 at *
  generalize (afterRound bios)^[5 + 1] (bootInfoStart m (asked true true)) = s6 at *
  generalize (afterRound bios)^[6 + 1] (bootInfoStart m (asked true true)) = s7 at *
  have hc : s4.curr = c4 := hcurr.trans hc4.symm
  rw [← hc4] at halign hge
  have hsame4 := r4.same
  have htype4 := r4.type
  have hsize4 := r4.size
  have htags4 := r4.tags
  have hcurr5 := r4.next
  rw [hc] at hsame4 htype4 hsize4 htags4 hcurr5
  have hcurr5 := hcurr5 (by omega)
  obtain ⟨hcurr6, same6, htags6⟩ := r5 (by rw [w5.requested]; decide) (by omega) (by omega)
    ((same.mono (Nat.le_refl 0) (by omega)).trans hsame4) (by rw [hcurr5]) w5.aligned
    (by rw [hcurr5]; omega)
  rw [hcurr5] at hcurr6
  have wr := r6 (by rw [w6.requested]; decide) w6.type w6.aligned (by rw [hcurr6]; omega)
    (by rw [hcurr6]; exact hfits)
  have hafter := wr.after m
  have hbelow := wr.below
  have htype6 := wr.type
  have hsize6 := wr.size
  have htags7 := wr.tags
  rw [hcurr6] at hafter hbelow htype6 hsize6 htags7
  refine ⟨?_, ⟨?_, ?_⟩, ⟨htype6, hsize6⟩, ?_, ?_⟩
  · rw [htags7, htags6, htags4, htags]
  · rw [tagType, hbelow _ _ hge (by omega), l5 (by rw [w5.requested]; decide) hge (by omega)]
    exact htype4
  · rw [tagSize, hbelow _ _ (by omega) (by omega),
      l5 (by rw [w5.requested]; decide) (by omega) (by omega)]
    exact hsize4
  · intro b k hb hk
    rw [hbelow b k (by omega) hk]
    exact same6.load (by omega) (Or.inr hb)
  · exact hafter (same6.mono (Nat.le_refl 0) hskip)

/-- The map is written where the size behind the memory sizes led. -/
theorem both_written_place (bios : Bios) {c4 : Nat} (hc4 : c4 = (skipTag m)^[4] firstTag)
    (hfits : skipTag m (c4 + 16) + 16 + 24 * bios.entries.length ≤ 2 ^ 32) :
    ((afterRound bios)^[6] (bootInfoStart m (asked true true))).curr = skipTag m (c4 + 16) := by
  have both : BothWritten m bios c4 (skipTag m (c4 + 16)) _ := both_written hc4 hfits
  have tags := both.tags
  have six := TagsWritten.rounds bios m (asked true true) (k := 6) (by decide)
  rw [Function.iterate_succ_apply'] at tags
  generalize (afterRound bios)^[6] (bootInfoStart m (asked true true)) = s at *
  have odd : s.requested % 2 = 1 := by
    rw [six.requested]
    decide
  simp only [afterRound, if_pos odd] at tags
  exact (Prod.mk.inj (List.cons.inj tags).1).2

/-- Both tags land when the cursor waited at the first place and found size 0
or a tag of the first type behind the memory sizes. -/
theorem BothWritten.landed (b : BothWritten m bios firstTag (skipTag m (firstTag + 16)) s)
    (hfits : skipTag m (firstTag + 16) + 16 + 24 * bios.entries.length ≤ 2 ^ 32)
    (between : tagSize m (firstTag + 16) = 0 ∨
      tagType m (firstTag + 16) = multibootTagTypeBasicMeminfo) :
    ∃ ps, Landed true true s ps (tailStart m true true bios) (tailMem m true true bios) := by
  have hpos := List.length_pos_iff.mpr bios.reported
  have hinfo : firstTag % 8 = 0 ∧ firstTag + 16 < 2 ^ 32 := by decide
  have hplace : mmapPlace m true = skipTag m (firstTag + 16) := rfl
  have hskip := skipTag_ge m (firstTag + 16) (by omega)
  have halign := skipTag_aligned m (firstTag + 16)
  have hself := @skipTag_eq_self m (firstTag + 16) (by omega)
  have hnext4 := nextTag_eq hinfo.1 b.meminfo.2 (by decide) (by omega)
  have hnext6 := nextTag_eq halign b.mmap.2 (by omega) (by omega)
  have hE : skipTag m (firstTag + 16) + (16 + 24 * (bios.entries.length - 1)) =
      tailStart m true true bios := by
    rw [tailStart_mmap, hplace]
    omega
  rw [hE] at hnext6
  have place : firstTag ≤ tailStart m true true bios ∧ tailStart m true true bios % 8 = 0 ∧
      tailStart m true true bios + 8 ≤ 2 ^ 64 := by
    omega
  have hreq4 : Requested true true multibootTagTypeBasicMeminfo := Or.inl ⟨rfl, rfl⟩
  have hreq6 : Requested true true multibootTagTypeMmap := Or.inr ⟨rfl, rfl⟩
  have hne : multibootTagTypeBasicMeminfo ≠ multibootTagTypeMmap := by decide
  by_cases hzero : tagSize m (firstTag + 16) = 0
  · -- the map stands right behind the memory sizes
    rw [← hself.mpr hzero] at hnext4
    refine ⟨[firstTag, skipTag m (firstTag + 16)], ⟨rfl, hnext4, hnext6⟩, ?_, ?_, b.after, place⟩
    · intro x hx
      rcases List.mem_cons.mp hx with rfl | hx
      · rw [b.meminfo.1]
        exact ⟨hreq4, Nat.le_refl _⟩
      · rw [List.mem_singleton.mp hx, b.mmap.1]
        exact ⟨hreq6, by omega⟩
    · rintro type (⟨-, rfl⟩ | ⟨-, rfl⟩)
      · exact ⟨firstTag, by simp [b.meminfo.1], by simp [b.tags]⟩
      · exact ⟨skipTag m (firstTag + 16), by simp [b.meminfo.1, b.mmap.1, hne], by simp [b.tags]⟩
  · -- a leftover tag of the first type stands between them
    have hgt : firstTag + 16 + 8 ≤ skipTag m (firstTag + 16) := by
      have := mt hself.mp hzero
      omega
    have htype := b.between (firstTag + 16) 4 (Nat.le_refl _) (by omega)
    have hsize := b.between (firstTag + 16 + 4) 4 (by omega) (by omega)
    rw [← tagType, ← tagType, between.resolve_left hzero] at htype
    have hnext : nextTag s.mem (firstTag + 16) = skipTag m (firstTag + 16) := by
      rw [nextTag, tagSize, hsize, ← tagSize]
      unfold skipTag at hfits ⊢
      omega
    refine ⟨[firstTag, firstTag + 16, skipTag m (firstTag + 16)],
      ⟨rfl, hnext4, hnext, hnext6⟩, ?_, ?_, b.after, place⟩
    · intro x hx
      rcases List.mem_cons.mp hx with rfl | hx
      · rw [b.meminfo.1]
        exact ⟨hreq4, Nat.le_refl _⟩
      rcases List.mem_cons.mp hx with rfl | hx
      · rw [htype]
        exact ⟨hreq4, Nat.le_add_right _ _⟩
      · rw [List.mem_singleton.mp hx, b.mmap.1]
        exact ⟨hreq6, by omega⟩
    · rintro type (⟨-, rfl⟩ | ⟨-, rfl⟩)
      · exact ⟨firstTag, by simp [b.meminfo.1], by simp [b.tags]⟩
      · exact ⟨skipTag m (firstTag + 16), by simp [b.meminfo.1, b.mmap.1, htype, hne],
          by simp [b.tags]⟩

/-- The second tag of the walk, when the memory sizes stand first. -/
theorem BothWritten.second (b : BothWritten m bios firstTag (skipTag m (firstTag + 16)) s)
    (w : Walkable true true s) (moved : tagSize m (firstTag + 16) ≠ 0) :
    tagType m (firstTag + 16) = multibootTagTypeBasicMeminfo := by
  have hinfo : firstTag % 8 = 0 ∧ firstTag + 16 < 2 ^ 32 := by decide
  have hskip := skipTag_ge m (firstTag + 16) (by omega)
  have halign := skipTag_aligned m (firstTag + 16)
  have hgt : firstTag + 16 + 8 ≤ skipTag m (firstTag + 16) := by
    have := mt (skipTag_eq_self (by omega)).mp moved
    omega
  have htype := b.between (firstTag + 16) 4 (Nat.le_refl _) (by omega)
  rw [← tagType, ← tagType] at htype
  have hnext4 := nextTag_eq hinfo.1 b.meminfo.2 (by decide) (by omega)
  by_contra hne
  rw [← htype] at hne
  have hfirst : tagType s.mem firstTag ≠ 0 := by
    rw [b.meminfo.1]
    decide
  by_cases h0 : tagType s.mem (firstTag + 16) = 0
  · -- the walk ends before the map
    have h : getTagFrom s.mem multibootTagTypeMmap 2 firstTag = .ok 0 := by
      rw [getTagFrom, if_pos hfirst, if_neg (by rw [b.meminfo.1]; decide), hnext4, getTagFrom,
        if_neg (not_not_intro h0)]
    exact ((w.answer (by decide) h).1 (Or.inr ⟨rfl, rfl⟩)).1 rfl
  · -- the leftover tag is found, for its own type
    have h : getTagFrom s.mem (tagType s.mem (firstTag + 16)) 2 firstTag = .ok (firstTag + 16) := by
      rw [getTagFrom, if_pos hfirst, if_neg (by rw [b.meminfo.1]; exact fun he => hne he.symm),
        hnext4, getTagFrom, if_pos h0, if_pos rfl]
    have hans := w.answer (tagType_lt _ _) h
    by_cases hreq : Requested true true (tagType s.mem (firstTag + 16))
    · have hmem := (hans.1 hreq).2
      rw [b.tags, List.mem_cons, List.mem_singleton] at hmem
      rcases hmem with hmem | hmem
      · have := (Prod.mk.inj hmem).2
        omega
      · have := (Prod.mk.inj hmem).2
        omega
    · have := hans.2 hreq
      omega

theorem outcome_both
    (hfits : skipTag m ((skipTag m)^[4] firstTag + 16) + 16 + 24 * bios.entries.length ≤ 2 ^ 32) :
    Outcome m true true bios ((afterRound bios)^[7] (bootInfoStart m (asked true true))) := by
  have hinfo : firstTag % 8 = 0 := by decide
  have hself := iterate_skipTag_eq_self (m := m) hinfo (show 0 < 4 by decide)
  have hb := both_written rfl hfits
  obtain ⟨hge, halign⟩ := iterate_skipTag_ge (m := m) (k := 4) hinfo
  have hskip := skipTag_ge m ((skipTag m)^[4] firstTag + 16) (by omega)
  refine ⟨fun waits => ?_, fun w => ?_⟩
  · rw [hself.mpr (waits.first (Or.inl rfl))] at hb hfits
    exact hb.landed hfits (waits.between rfl rfl)
  · have hstay : (skipTag m)^[4] firstTag = firstTag := by
      rcases w.head with ⟨-, hnone⟩ | hmem
      · exact absurd (Or.inl ⟨rfl, rfl⟩) (hnone multibootTagTypeBasicMeminfo (by decide))
      · rw [hb.tags, List.mem_cons, List.mem_singleton] at hmem
        rcases hmem with hmem | hmem
        · have := (Prod.mk.inj hmem).2
          omega
        · exact (Prod.mk.inj hmem).2.symm
    rw [hstay] at hb hfits
    refine ⟨fun _ => hself.mp hstay, fun _ _ => ?_⟩
    by_cases hzero : tagSize m (firstTag + 16) = 0
    · exact Or.inl hzero
    · exact Or.inr (hb.second w hzero)

end Cases

/-- For every memory the loader starts from, every set of requests and every
answer of the BIOS the loop ends, and where no cursor wraps the kernel can
walk the tags if and only if the leftovers are harmless. -/
theorem boot_info_walkable_iff (m : Mem) (meminfo mmap : Bool) (bios : Bios) {fuel : Nat}
    (hfuel : bios.entries.length ≤ fuel) :
    ∃ s, buildBootInfo fuel bios m (asked meminfo mmap) = .ok s ∧
      (NoWrap m meminfo mmap bios →
        (Walkable meminfo mmap s ↔ LeftoversHarmless m meminfo mmap bios)) := by
  have hasked : asked meminfo mmap < 2 ^ 32 := by
    cases meminfo <;> cases mmap <;> decide
  refine ⟨_, buildBootInfo_eq m hasked hfuel, fun nowrap => ?_⟩
  have out : Outcome m meminfo mmap bios
      ((afterRound bios)^[(asked meminfo mmap).size] (bootInfoStart m (asked meminfo mmap))) := by
    cases meminfo with
    | false =>
      cases mmap with
      | false => exact outcome_none bios m
      | true => exact outcome_mmap nowrap.loader
    | true =>
      cases mmap with
      | false => exact outcome_meminfo nowrap.loader
      | true => exact outcome_both nowrap.loader
  constructor
  · intro w
    have waits := out.needed w
    obtain ⟨ps, l⟩ := out.landed waits
    exact ⟨waits, (l.walkable_iff nowrap.kernel).mp w⟩
  · intro harmless
    obtain ⟨ps, l⟩ := out.landed harmless.toCursorWaits
    exact (l.walkable_iff nowrap.kernel).mpr harmless.tail

/-- A machine whose last entry is the firmware's, just below 4 GiB. -/
def firmwareLastBios : Bios :=
  ⟨0x3C00, 0, [⟨0, 0x9FC00, 1, 0⟩, ⟨0x100000, 0x7EE0000, 1, 0⟩, ⟨0xFFFC0000, 0x40000, 2, 0⟩],
    by decide⟩

/-- One whose last entry is memory from 4 GiB on. -/
def highMemoryBios : Bios :=
  ⟨0x3C00, 0, [⟨0, 0x9FC00, 1, 0⟩, ⟨0x100000000, 0x40000000, 1, 0⟩], by decide⟩

theorem high_memory_walkable :
    ∃ s, buildBootInfo 2 highMemoryBios ⟨fun _ => 0⟩ (asked true true) = .ok s ∧
      Walkable true true s := by
  obtain ⟨s, hrun, hiff⟩ :=
    boot_info_walkable_iff ⟨fun _ => 0⟩ true true highMemoryBios (show 2 ≤ 2 by decide)
  have hzero : tagType (tailMem ⟨fun _ => 0⟩ true true highMemoryBios)
      (tailStart ⟨fun _ => 0⟩ true true highMemoryBios) = 0 := by decide +kernel
  refine ⟨s, hrun, (hiff ⟨by decide +kernel, fun xs a hseg htyped => ?_⟩).mpr
    ⟨⟨fun _ => by decide +kernel, fun _ _ => Or.inl (by decide +kernel)⟩, [], _, Tags.nil hzero,
      fun x hx => absurd hx List.not_mem_nil⟩⟩
  cases xs with
  | nil => exact Nat.le_of_eq hseg
  | cons x xs =>
    obtain ⟨rfl, -⟩ := hseg
    exact absurd hzero (htyped _ List.mem_cons_self)

/-- On zeroed memory, with the kernel's own two requests, the last entry of the
map is taken for a tag whose type is the entry's address. -/
theorem entry_taken_for_tag :
    ¬ ∀ (m : Mem) (meminfo mmap : Bool) (bios : Bios) (fuel : Nat), bios.entries.length ≤ fuel →
      ∃ s, buildBootInfo fuel bios m (asked meminfo mmap) = .ok s ∧ Walkable meminfo mmap s := by
  intro walkable
  obtain ⟨s, hrun, w⟩ := walkable ⟨fun _ => 0⟩ true true firmwareLastBios 3 (by decide)
  have hleft : (match buildBootInfo 3 firmwareLastBios ⟨fun _ => 0⟩ (asked true true) with
      | .ok s => decide (tagType s.mem 0xC008 = 4 ∧ nextTag s.mem 0xC008 = 0xC018 ∧
          tagType s.mem 0xC018 = 6 ∧ nextTag s.mem 0xC018 = 0xC058 ∧
          tagType s.mem 0xC058 = 0xFFFC0000)
      | .error _ => false) = true := by decide +kernel
  rw [hrun] at hleft
  obtain ⟨h1, h2, h3, h4, h5⟩ := of_decide_eq_true hleft
  have h : getTagFrom s.mem 0xFFFC0000 3 firstTag = .ok 0xC058 := by
    rw [show firstTag = 0xC008 from rfl]
    simp [getTagFrom, h1, h2, h3, h4, h5]
  exact absurd ((w.answer (by decide) h).2 (by decide)) (by decide)

end WaddleOS
