import WaddleOS.Paging.Grants

/-!
# `NULL` from `paging_get_pages`

The caller is to see a request that cannot be met as `NULL`. The search asserts
that the request is no longer than the pool, so a longer one halts; and a page
whose own address is 0 looks like a refusal.
-/

namespace WaddleOS

/-- The pool that the flags select. -/
def Paging.selected (s : Paging Mem) (flags : Nat) : Pool := s.pool (poolOf flags)

/-- No run of `numPages` pages of the selected pool is free. -/
def NoRoom (s : Paging Mem) (numPages flags : Nat) : Prop :=
  NoFit (HasBit s.store (s.selected flags).allocatedBmp false) 0
    (s.selected flags).allocatedBmp.size numPages

/-- Page `r` starts the lowest run of `numPages` free pages. -/
def LowestRoom (s : Paging Mem) (numPages flags r : Nat) : Prop :=
  FirstFit (HasBit s.store (s.selected flags).allocatedBmp false) 0
    (s.selected flags).allocatedBmp.size numPages r

/-- The call returns, with `NULL` exactly if there is no room, and then it has
left the memory as it was. -/
def RefusesWithNull (s : Paging Mem) (numPages flags : Nat) : Prop :=
  ∃ p t, pagingGetPages s numPages flags = .ok (p, t) ∧ (p = 0 ↔ NoRoom s numPages flags) ∧
    (NoRoom s numPages flags → t.store = s.store)

variable {s : Paging Mem} {numPages flags : Nat}

/-- `NULL` tells of a full pool exactly when the request is no longer than the
pool and the page at address 0 does not start the lowest run. -/
theorem refusesWithNull_iff (hsize : (s.selected flags).allocatedBmp.size < 2 ^ 64)
    (hn : 0 < numPages) (hnum : numPages < 2 ^ 64) :
    RefusesWithNull s numPages flags ↔
      numPages ≤ (s.selected flags).allocatedBmp.size ∧
        ∀ r, ((s.selected flags).pageBase + r * pageSize) % 2 ^ 64 = 0 →
          ¬ LowestRoom s numPages flags r := by
  constructor
  · rintro ⟨p, t, hrun, hnull, -⟩
    obtain ⟨⟨-, hle⟩, -⟩ := pagingGetPages_cases rfl hsize.le hnum hrun
    refine ⟨hle, fun r hr hfit => ?_⟩
    obtain ⟨-, ⟨-, -, hno⟩ | ⟨r', -, hfit', -, hp, -⟩⟩ := pagingGetPages_cases rfl hsize.le hnum hrun
    · exact hfit.not_noFit hno
    · obtain rfl : r = r' := hfit.unique hfit'
      exact hfit.not_noFit (hnull.mp (hp.trans hr))
  · rintro ⟨hle, hzero⟩
    obtain ⟨p, t, hrun⟩ :=
      pagingGetPages_returns (show s.pool (poolOf flags) = s.selected flags from rfl) hsize.le hn hle
    refine ⟨p, t, hrun, ?_⟩
    obtain ⟨-, ⟨rfl, rfl, hno⟩ | ⟨r, m', hfit, -, hp, -⟩⟩ := pagingGetPages_cases rfl hsize.le hnum hrun
    · exact ⟨iff_of_true rfl hno, fun _ => rfl⟩
    · have hroom : ¬ NoRoom s numPages flags := hfit.not_noFit
      refine ⟨iff_of_false (fun h => hzero r (hp.symm.trans h) hfit) hroom, fun h => absurd h hroom⟩

/-- Two pools of eight pages with all bits clear. -/
def sixteenFree : Paging Mem where
  store := ⟨fun _ => 0⟩
  poolPagesTotal := 16
  kernelPool := kernelPoolAt 0xFFFFFFFF80100000 16
  userPool := userPoolAt 0xFFFFFFFF80100000 16
  initPml4 := 0
  handed := []

theorem refusesWithNull_three : RefusesWithNull sixteenFree 3 0 := by
  have hsize : (sixteenFree.selected 0).allocatedBmp.size = 8 := by decide
  refine (refusesWithNull_iff (by decide) (by decide) (by decide)).mpr
    ⟨by decide, fun r hr hfit => ?_⟩
  have hle := hfit.le_stop
  have hbase : (sixteenFree.selected 0).pageBase = 0xFFFFFFFF80100000 := by decide
  rw [hsize] at hle
  rw [hbase, pageSize] at hr
  omega

/-- A request for nine pages from a pool of eight halts. -/
theorem longRequest_halts :
    ¬ ∀ (s : Paging Mem) (numPages flags : Nat), 0 < (s.selected flags).allocatedBmp.size →
      (s.selected flags).allocatedBmp.size < 2 ^ 64 → 0 < numPages → numPages < 2 ^ 64 →
      RefusesWithNull s numPages flags := by
  intro refuses
  obtain ⟨p, t, hrun, -⟩ := refuses sixteenFree 9 0 (by decide) (by decide) (by decide) (by decide)
  obtain ⟨⟨-, hle⟩, -⟩ := pagingGetPages_cases
    (show sixteenFree.pool (poolOf 0) = sixteenFree.selected 0 from rfl) (by decide) (by decide) hrun
  exact absurd hle (by decide)

end WaddleOS
