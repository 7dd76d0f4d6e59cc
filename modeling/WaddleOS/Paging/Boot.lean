import WaddleOS.Loader.LongMode
import WaddleOS.Paging.Metadata
import WaddleOS.Paging.Translate

/-!
# `paging_init` under the boot tables

Until CR3 is loaded the kernel runs on the tables of `long_mode`, which map the
first 2 MiB. The bitmaps and every page that becomes a table have to be there.
-/

namespace WaddleOS

/-- A physical address that `paging_init` reads or writes through `k_ptov`: a
byte of a bitmap, or of a page that `paging_get_page` returned for a table. The
code uses the `NULL` of a full pool like a page. -/
def TouchedByInit (t : Paging Mem) (p : Nat) : Prop :=
  (∃ id a, a < 2 ^ 64 ∧ ((t.pool id).allocatedBmp.Stores a ∨ (t.pool id).pinnedBmp.Stores a) ∧
    p = kVtop a) ∨
  ∃ g ∈ t.handed, ∃ x, x < pageSize ∧ p = kVtop ((g.base + x) % 2 ^ 64)

/-- The tables of `long_mode` lead from `k_ptov(p)` to `p`. -/
def BootMapped (p : Nat) : Prop := ∀ m, physWalk (longMode m) p4tAddr (kPtov p) = some p

theorem bootMapped_iff {p : Nat} (hp : p < 2 ^ 64) : BootMapped p ↔ p < 2 ^ 21 := by
  constructor
  · intro h
    exact (physWalk_kPtov_iff ⟨fun _ => 0⟩ hp).mp (h _)
  · intro h m
    exact (physWalk_kPtov_iff m hp).mpr h

/-- The pages of the kernel pool that lie below 2 MiB. -/
def lowPages (free total : Nat) : Nat := min (kPoolPages total) ((2 ^ 21 - kVtop free) / 4096)

theorem mdEnd_lt {total : Nat} (h : total < 2 ^ 52) : mdEnd total < 2 ^ 63 := by
  unfold mdEnd uBmpOffset uPoolPages kPoolPages
  rw [bmpBytes_eq (by omega), bmpBytes_eq (by omega)]
  omega

theorem kVtop_lt (a : Nat) : kVtop a < 2 ^ 64 := Nat.mod_lt _ (by omega)

/-- A distance up from the start of the free memory, if that is low. -/
theorem kVtop_offset {free x : Nat} (hlow : kVtop free < 2 ^ 21) (hx : x < 2 ^ 63) :
    kVtop ((free + x) % 2 ^ 64) = kVtop free + x := by
  unfold kVtop physBase at *
  omega

section Init

variable {m : Mem} {memoryMap : List MmapEntry} {kernelEnd physEnd : Nat} {s t : Paging Mem}

theorem reserve_low {free total : Nat} (haligned : free % 4096 = 0) (htotal : total < 2 ^ 52)
    (hlow : kVtop free < 2 ^ 21) {m : Mem} (htaken : bitAt m free 0 = true) :
    Reserve free (lowPages free total) m := by
  have hk : kPoolPages total ≤ total := pages_le total .kernel
  have hB : lowPages free total ≤ 512 := by
    unfold lowPages
    omega
  refine ⟨haligned, by omega, ?_, ?_⟩
  · intro q hq hclear
    have hpos : q ≠ 0 := by
      rintro rfl
      rw [htaken] at hclear
      cases hclear
    omega
  · intro q hq _
    rw [tableAddr, kVtop_offset hlow (by omega)]
    omega

/-- The first byte of the bitmaps and the last. -/
theorem PoolsAt.stores_ends {free total : Nat} (hs : PoolsAt free total t)
    (hk : 0 < kPoolPages total) :
    (t.pool .kernel).allocatedBmp.Stores free ∧
      (t.pool .user).pinnedBmp.Stores (free + (mdEnd total - 1)) ∧ 0 < mdEnd total := by
  have htotal := hs.total_lt
  have hu : uPoolPages total ≤ 2 ^ 52 := by unfold uPoolPages; omega
  have hupos : 0 < uPoolPages total := by
    unfold uPoolPages
    unfold kPoolPages at hk
    omega
  have hend : mdEnd total = uBmpOffset total + (uPoolPages total + 7) / 8 * 2 := by
    rw [mdEnd, bmpBytes_eq hu]
  rw [hs.pool .kernel, hs.pool .user]
  refine ⟨⟨0, ?_, ?_⟩, ⟨(uPoolPages total + 7) / 8 - 1, ?_, ?_⟩, by omega⟩
  · simp only [poolAt, kernelPoolAt]
    omega
  · simp [poolAt, kernelPoolAt]
  · simp only [poolAt, userPoolAt]
    omega
  · simp only [poolAt, userPoolAt, bmpBytes_eq hu]
    omega

/-- The metadata is mapped if its end is below 2 MiB. -/
theorem PoolsAt.metadata_low {free total : Nat} (hs : PoolsAt free total t)
    (hend : kVtop free + mdEnd total ≤ 2 ^ 21) (hpos : 0 < mdEnd total) {id : PoolId} {a : Nat}
    (ha : a < 2 ^ 64)
    (hst : (t.pool id).allocatedBmp.Stores a ∨ (t.pool id).pinnedBmp.Stores a) :
    kVtop a < 2 ^ 21 := by
  obtain ⟨x, hx, hax⟩ := hs.stores_offset id hst
  rw [Nat.mod_eq_of_lt ha] at hax
  rw [hax, kVtop_offset (by omega) (by omega)]
  omega

/-- A byte of page `q` of the kernel pool. -/
theorem kVtop_table {free q x : Nat} (hlow : kVtop free < 2 ^ 21) (hq : q < 2 ^ 51) (hx : x < 4096) :
    kVtop ((tableAddr free q + x) % 2 ^ 64) = kVtop free + (4096 * q + x) := by
  have hmod : (tableAddr free q + x) % 2 ^ 64 = (free + (4096 * q + x)) % 2 ^ 64 := by
    unfold tableAddr
    omega
  rw [hmod, kVtop_offset hlow (by omega)]

/-- The pages of the kernel pool that are mapped at boot. -/
theorem table_low_iff {free total q x : Nat} (haligned : free % 4096 = 0)
    (hlow : kVtop free < 2 ^ 21) (htotal : total < 2 ^ 52) (hq : q < kPoolPages total)
    (hx : x < 4096) :
    kVtop ((tableAddr free q + x) % 2 ^ 64) < 2 ^ 21 ↔ q < lowPages free total := by
  have hq51 : q < 2 ^ 51 := by
    unfold kPoolPages at hq
    omega
  have hphys : kVtop free % 4096 = 0 := by
    unfold kVtop physBase
    omega
  rw [kVtop_table hlow hq51 hx]
  unfold lowPages
  omega

theorem kernel_pages_of_init {free total : Nat} (hat : PoolsAt free total s)
    (ht : pageTablesInit s = .ok t) : 0 < kPoolPages total := by
  obtain ⟨⟨pml4, s₁⟩, hget, -⟩ := bind_eq_ok.mp ht
  have hn := (hat.call (by omega) hget).1
  exact hn.2

/-- What `paging_init` touches before it loads CR3 is mapped just when the
bitmaps end below 2 MiB and the kernel pool has a clear page there for every
table. -/
theorem boot_tables_cover_iff (hs : poolsInit m memoryMap kernelEnd physEnd = .ok s)
    (ht : pageTablesInit s = .ok t) :
    (∀ p, TouchedByInit t p → BootMapped p) ↔
      kVtop (freeStart kernelEnd) + mdEnd (poolPages kernelEnd physEnd) ≤ 2 ^ 21 ∧
      (tablePaths (poolPages kernelEnd physEnd)).card ≤
        (clearPages (freeStart kernelEnd)
          (lowPages (freeStart kernelEnd) (poolPages kernelEnd physEnd)) s.store).card := by
  obtain ⟨hat, htot, hlog⟩ := poolsInit_poolsAt hs
  have hfirst := (poolsInit_firstPageKept hs).taken
  have haligned := freeStart_aligned kernelEnd
  have hfree := freeStart_lt kernelEnd
  have hk := kernel_pages_of_init hat ht
  have htotal := hat.total_lt
  generalize poolPages kernelEnd physEnd = total at *
  generalize freeStart kernelEnd = free at *
  have hktotal : kPoolPages total ≤ total := pages_le total .kernel
  have htaken := hfirst (by omega)
  have hatt : PoolsAt free total t := by
    obtain ⟨t', ht', hat'⟩ := pageTablesInit_returns hat hk
    rw [ht] at ht'
    cases Except.ok.inj ht'
    exact hat'
  have hB : lowPages free total ≤ kPoolPages total := Nat.min_le_left ..
  obtain ⟨hstart, hstop, hpos⟩ := hatt.stores_ends hk
  have htables := fun hr => pageTablesInit_tables hr hB hat hlog ht
  rw [htot] at htables
  constructor
  · intro hmapped
    have hlow : kVtop free < 2 ^ 21 :=
      (bootMapped_iff (kVtop_lt _)).mp (hmapped _ (.inl ⟨.kernel, free, hfree, .inl hstart, rfl⟩))
    have hmdsmall := mdEnd_lt htotal
    have hlast : kVtop ((free + (mdEnd total - 1)) % 2 ^ 64) < 2 ^ 21 := by
      apply (bootMapped_iff (kVtop_lt _)).mp
      refine hmapped _ (.inl ⟨.user, _, Nat.mod_lt _ (by omega), .inr ?_, rfl⟩)
      obtain ⟨x, hx, hax⟩ := hstop
      exact ⟨x, hx, by rw [Nat.mod_mod, hax]⟩
    rw [kVtop_offset hlow (by omega)] at hlast
    refine ⟨by omega, ?_⟩
    rcases htables (reserve_low haligned htotal hlow htaken) with ⟨tab, htab⟩ | hout
    · exact Nat.le_of_add_left_le htab.tree.card_clear.le
    · obtain ⟨g, hg, hgout⟩ := hout.logged
      have hbase : kVtop (g.base % 2 ^ 64) < 2 ^ 21 := by
        apply (bootMapped_iff (kVtop_lt _)).mp
        exact hmapped _ (.inr ⟨g, hg, 0, by decide, rfl⟩)
      rcases hgout with hzero | ⟨r, hBr, hrk, hr⟩
      · rw [hzero] at hbase
        exact absurd hbase (by decide)
      · rw [hr] at hbase
        have hin := (table_low_iff (x := 0) haligned hlow htotal hrk (by decide)).mp hbase
        exact absurd hin (Nat.not_lt.mpr hBr)
  · rintro ⟨hend, hcard⟩ p htouched
    have hlow : kVtop free < 2 ^ 21 := lt_of_lt_of_le (Nat.lt_add_of_pos_right hpos) hend
    rcases htouched with ⟨id, a, ha, hst, hp⟩ | ⟨g, hg, x, hx, hp⟩ <;> rw [hp]
    · exact (bootMapped_iff (kVtop_lt _)).mpr (hatt.metadata_low hend hpos ha hst)
    · rcases htables (reserve_low haligned htotal hlow htaken) with ⟨tab, htab⟩ | hout
      · obtain ⟨q, hq, hbase⟩ := htab.log g hg
        apply (bootMapped_iff (kVtop_lt _)).mpr
        rw [hbase]
        exact (table_low_iff haligned hlow htotal (Nat.lt_of_lt_of_le hq hB) hx).mpr hq
      · exact absurd hout.few (Nat.not_lt.mpr hcard)

end Init

/-- A kernel that ends at 1 MiB and sixteen pages: all is mapped. -/
theorem boot_tables_cover_sixteen :
    ∃ s t, poolsInit (σ := Mem) ⟨fun _ => 0⟩ [⟨0, 0x110000, 1⟩] 0xFFFFFFFF80100000 0x110000 = .ok s ∧
      pageTablesInit s = .ok t ∧ ∀ p, TouchedByInit t p → BootMapped p := by
  obtain ⟨s, hs, henough, hleft⟩ := eightPagesLeft_spec [⟨0, 0x110000, 1⟩] 0xFFFFFFFF80100000
    0x110000 (by decide +kernel)
  obtain ⟨hat, htot, hlog⟩ := poolsInit_poolsAt hs
  obtain ⟨t, tab, -, ht, -⟩ := henough.tables (freeStart_aligned _) hat htot hlog
  have hlow : lowPages (freeStart 0xFFFFFFFF80100000) (poolPages 0xFFFFFFFF80100000 0x110000) = 8 := by
    decide +kernel
  rw [htot] at hleft
  refine ⟨s, t, hs, ht, (boot_tables_cover_iff hs ht).mpr ⟨by decide +kernel, ?_⟩⟩
  rw [hlow]
  exact Nat.le_of_add_right_le hleft.le

/-- A kernel that ends 12 KiB below 2 MiB leaves three mapped pages for the
four tables that sixteen pages need. -/
theorem tables_beyond_boot_mapping :
    2 ^ 20 ≤ kVtop 0xFFFFFFFF801FD000 ∧
    ∃ s t, poolsInit (σ := Mem) ⟨fun _ => 0⟩ [⟨0, 0x20D000, 1⟩] 0xFFFFFFFF801FD000 0x20D000 = .ok s ∧
      pageTablesInit s = .ok t ∧ ¬ ∀ p, TouchedByInit t p → BootMapped p := by
  have hok : (poolsInit (σ := Mem) ⟨fun _ => 0⟩ [⟨0, 0x20D000, 1⟩] 0xFFFFFFFF801FD000
      0x20D000).isOk = true := by decide +kernel
  obtain ⟨s, hs⟩ : ∃ s, poolsInit (σ := Mem) ⟨fun _ => 0⟩ [⟨0, 0x20D000, 1⟩] 0xFFFFFFFF801FD000
      0x20D000 = .ok s := by
    cases hcase : poolsInit (σ := Mem) ⟨fun _ => 0⟩ [⟨0, 0x20D000, 1⟩] 0xFFFFFFFF801FD000 0x20D000 with
    | ok s => exact ⟨s, rfl⟩
    | error e =>
      rw [hcase] at hok
      cases hok
  have hat := (poolsInit_poolsAt hs).1
  obtain ⟨t, ht, -⟩ := pageTablesInit_returns hat (by decide +kernel)
  refine ⟨by decide +kernel, s, t, hs, ht, fun hmapped => ?_⟩
  have hcard := ((boot_tables_cover_iff hs ht).mp hmapped).2
  have hfew : (clearPages (freeStart 0xFFFFFFFF801FD000) (lowPages (freeStart 0xFFFFFFFF801FD000)
      (poolPages 0xFFFFFFFF801FD000 0x20D000)) s.store).card ≤ 3 := by
    have hlow : lowPages (freeStart 0xFFFFFFFF801FD000) (poolPages 0xFFFFFFFF801FD000 0x20D000) =
        3 := by decide +kernel
    rw [hlow]
    exact (Finset.card_filter_le _ _).trans (by simp)
  have hneed : (tablePaths (poolPages 0xFFFFFFFF801FD000 0x20D000)).card = 4 := by decide +kernel
  omega

end WaddleOS
