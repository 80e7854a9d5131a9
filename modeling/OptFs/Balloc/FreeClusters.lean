import Mathlib

/-!
# Admitting a cluster reservation (`balloc.c`)

`ext4bf_claim_free_clusters` reserves clusters for delayed allocation once
`ext4bf_has_free_clusters` finds room for them: the free clusters, less those already
reserved (dirty) and those kept for root, must cover the request. Both counts are per-cpu
counters (`lib/percpu_counter.c`): a shared count, and one local delta per CPU that joins it
once it reaches `percpu_counter_batch`. The test first reads the shared counts, which may be
off by up to a batch per CPU, and near the watermark takes the exact sums instead.

* Every local delta stays inside the batch (`PercpuCounter.counters_lt`), so a read is
  within `nr_cpu_ids * (batch - 1)` of the sum (`percpuCounterRead_sub_sum_le`), and an add
  changes the sum by exactly what it adds (`percpuCounterSum_add`).
* On the fast path the watermark covers that error twice over, and an admitted request fits
  (`ext4bfHasFreeClusters_fast_sound`). On the exact path the free sum goes through
  `EXT4_C2B` and is compared in blocks against counts in clusters
  (`ext4bfHasFreeClusters_exact`): with one-block clusters every admitted request fits
  (`ext4bfHasFreeClusters_sound`); with larger clusters a request for more clusters than are
  free is admitted (`ext4bfHasFreeClusters_overcommit`).

CPU hotplug is not modelled: every possible CPU is online, and the batch is fixed.
-/

namespace OptFs.Balloc

/-- The setting all per-cpu counters share: `percpu_counter_batch`, which
`compute_batch_value` keeps at 32 or more, and `nr_cpu_ids`. -/
structure PercpuSetting where
  percpuCounterBatch : Nat
  nrCpuIds : Nat
  batch_pos : 0 < percpuCounterBatch

/-- `struct percpu_counter`: the shared `count` and one local delta per CPU.
`__percpu_counter_add` folds a delta into `count` once it reaches the batch, so every
delta stays strictly inside it. -/
structure PercpuCounter (ps : PercpuSetting) where
  count : Int
  counters : List Int
  length_counters : counters.length = ps.nrCpuIds
  counters_lt : ∀ c ∈ counters, |c| < ps.percpuCounterBatch

section PercpuCounter

variable {ps : PercpuSetting}

/-- Setting one local delta to a value inside the batch keeps every delta inside it. -/
theorem PercpuCounter.set_lt (fbc : PercpuCounter ps) (cpu : Nat) {v : Int}
    (hv : |v| < ps.percpuCounterBatch) :
    ∀ c ∈ fbc.counters.set cpu v, |c| < ps.percpuCounterBatch := by
  intro c hc
  rcases List.mem_or_eq_of_mem_set hc with hmem | rfl
  · exact fbc.counters_lt c hmem
  · exact hv

/-- `percpu_counter_init`: the shared count set, every local delta zero. -/
def percpuCounterInit (ps : PercpuSetting) (amount : Int) : PercpuCounter ps where
  count := amount
  counters := List.replicate ps.nrCpuIds 0
  length_counters := List.length_replicate
  counters_lt := by
    intro c hc
    rw [List.eq_of_mem_replicate hc, abs_zero]
    exact_mod_cast ps.batch_pos

/-- `percpu_counter_read_positive`. -/
def percpuCounterReadPositive (fbc : PercpuCounter ps) : Int :=
  if fbc.count ≥ 0 then fbc.count else 0

/-- `__percpu_counter_sum`, every CPU being online. -/
def percpuCounterSum (fbc : PercpuCounter ps) : Int :=
  fbc.count + fbc.counters.sum

/-- `percpu_counter_sum_positive`. -/
def percpuCounterSumPositive (fbc : PercpuCounter ps) : Int :=
  if percpuCounterSum fbc < 0 then 0 else percpuCounterSum fbc

/-- `__percpu_counter_add` on CPU `cpu`: the local delta takes the amount, and is folded into
the shared count once it reaches the batch either way. -/
def percpuCounterAdd (fbc : PercpuCounter ps) (amount : Int) (cpu : Fin ps.nrCpuIds) :
    PercpuCounter ps :=
  let count := fbc.counters.getD cpu 0 + amount
  if h : count ≥ ps.percpuCounterBatch ∨ count ≤ -ps.percpuCounterBatch then
    { count := fbc.count + count
      counters := fbc.counters.set cpu 0
      length_counters := by rw [List.length_set, fbc.length_counters]
      counters_lt := fbc.set_lt cpu (by rw [abs_zero]; exact_mod_cast ps.batch_pos) }
  else
    { count := fbc.count
      counters := fbc.counters.set cpu count
      length_counters := by rw [List.length_set, fbc.length_counters]
      counters_lt := fbc.set_lt cpu (abs_lt.mpr ⟨by omega, by omega⟩) }

/-- A list of values each at most `b` in size sums to at most `length * b` in size. -/
theorem abs_sum_le_length_mul {l : List Int} {b : Int} (h : ∀ c ∈ l, |c| ≤ b) :
    |l.sum| ≤ l.length * b := by
  induction l with
  | nil => simp
  | cons a l ih =>
    have ha : |a| ≤ b := h a List.mem_cons_self
    have hl := ih fun c hc => h c (List.mem_cons_of_mem a hc)
    calc |(a :: l).sum| = |a + l.sum| := by rw [List.sum_cons]
      _ ≤ |a| + |l.sum| := abs_add_le _ _
      _ ≤ ((a :: l).length : Int) * b := by push_cast [List.length_cons]; linarith

/-- The shared count is within `nr_cpu_ids * (batch - 1)` of the exact sum. -/
theorem percpuCounterRead_sub_sum_le (fbc : PercpuCounter ps) :
    |fbc.count - percpuCounterSum fbc| ≤ ps.nrCpuIds * (ps.percpuCounterBatch - 1) := by
  have hdeltas : ∀ c ∈ fbc.counters, |c| ≤ (ps.percpuCounterBatch : Int) - 1 := by
    intro c hc
    have := fbc.counters_lt c hc
    omega
  have hsum := abs_sum_le_length_mul hdeltas
  rw [fbc.length_counters] at hsum
  unfold percpuCounterSum
  rwa [sub_add_cancel_left, abs_neg]

/-- Setting the delta of a CPU in range changes the sum of the deltas by the difference. -/
theorem sum_set_of_lt {l : List Int} {i : Nat} (hi : i < l.length) (v : Int) :
    (l.set i v).sum = l.sum - l.getD i 0 + v := by
  induction l generalizing i with
  | nil => exact absurd hi (Nat.not_lt_zero i)
  | cons a l ih =>
    cases i with
    | zero => simp only [List.set_cons_zero, List.sum_cons, List.getD_cons_zero]; ring
    | succ i =>
      rw [List.set_cons_succ, List.sum_cons, List.sum_cons, List.getD_cons_succ,
        ih (by simpa using hi)]
      ring

/-- An add changes the exact sum by the amount, whichever way the delta goes. -/
theorem percpuCounterSum_add (fbc : PercpuCounter ps) (amount : Int) (cpu : Fin ps.nrCpuIds) :
    percpuCounterSum (percpuCounterAdd fbc amount cpu) = percpuCounterSum fbc + amount := by
  have hcpu : (cpu : Nat) < fbc.counters.length := by
    rw [fbc.length_counters]
    exact cpu.isLt
  unfold percpuCounterAdd percpuCounterSum
  dsimp only
  split
  · -- folded into the shared count
    rw [sum_set_of_lt hcpu]
    ring
  · -- kept as the local delta
    rw [sum_set_of_lt hcpu]
    ring

theorem percpuCounterSum_init (ps : PercpuSetting) (amount : Int) :
    percpuCounterSum (percpuCounterInit ps amount) = amount := by
  simp [percpuCounterSum, percpuCounterInit]

theorem percpuCounterReadPositive_ge (fbc : PercpuCounter ps) :
    fbc.count ≤ percpuCounterReadPositive fbc := by
  unfold percpuCounterReadPositive
  split <;> omega

theorem percpuCounterSumPositive_ge (fbc : PercpuCounter ps) :
    percpuCounterSum fbc ≤ percpuCounterSumPositive fbc := by
  unfold percpuCounterSumPositive
  split <;> omega

theorem percpuCounterReadPositive_nonneg (fbc : PercpuCounter ps) :
    0 ≤ percpuCounterReadPositive fbc := by
  unfold percpuCounterReadPositive
  split <;> omega

theorem percpuCounterSumPositive_nonneg (fbc : PercpuCounter ps) :
    0 ≤ percpuCounterSumPositive fbc := by
  unfold percpuCounterSumPositive
  split <;> omega

theorem percpuCounterSumPositive_of_pos {fbc : PercpuCounter ps}
    (h : 0 < percpuCounterSumPositive fbc) : percpuCounterSumPositive fbc = percpuCounterSum fbc := by
  unfold percpuCounterSumPositive at h ⊢
  split at h <;> simp_all

theorem percpuCounterReadPositive_of_pos {fbc : PercpuCounter ps}
    (h : 0 < percpuCounterReadPositive fbc) : percpuCounterReadPositive fbc = fbc.count := by
  unfold percpuCounterReadPositive at h ⊢
  split at h <;> simp_all

end PercpuCounter

/-! ## `ext4bf_has_free_clusters` -/

/-- `EXT4_B2C`: blocks to clusters. -/
def ext4B2C (clusterBits blk : Nat) : Nat := blk >>> clusterBits

/-- `EXT4_C2B`: clusters to blocks. -/
def ext4C2B (clusterBits : Nat) (cluster : Int) : Int := cluster <<< clusterBits

/-- `EXT4_FREECLUSTERS_WATERMARK` on an SMP kernel. -/
def ext4FreeclustersWatermark (ps : PercpuSetting) : Int :=
  4 * (ps.percpuCounterBatch * ps.nrCpuIds)

/-- `EXT4_MB_USE_ROOT_BLOCKS`. -/
def ext4MbUseRootBlocks : Nat := 0x1000

/-- `ENOSPC`. -/
def enospc : Int := 28

/-- The fields of `struct ext4bf_sb_info` the admission test reads. -/
structure SbInfo (ps : PercpuSetting) where
  sFreeclustersCounter : PercpuCounter ps
  sDirtyclustersCounter : PercpuCounter ps
  sClusterBits : Nat
  sResuid : Nat
  sResgid : Nat
  /-- `ext4bf_r_blocks_count(sbi->s_es)`. -/
  sRBlocksCount : Nat

/-- The credentials of the calling task the test reads. -/
structure Cred where
  fsuid : Nat
  fsgid : Nat
  groups : List Nat
  capSysResource : Bool
deriving DecidableEq, Repr

/-- `in_group_p`. -/
def inGroupP (cred : Cred) (grp : Nat) : Bool :=
  grp == cred.fsgid || cred.groups.contains grp

variable {ps : PercpuSetting}

/-- The test under which `ext4bf_has_free_clusters` lets a request use the root-reserved
clusters. -/
def mayUseRootClusters (sbi : SbInfo ps) (cred : Cred) (flags : Nat) : Bool :=
  sbi.sResuid == cred.fsuid || (sbi.sResgid != 0 && inGroupP cred sbi.sResgid) ||
    cred.capSysResource || flags &&& ext4MbUseRootBlocks != 0

/-- The tests closing `ext4bf_has_free_clusters`, on the counts it settled on. -/
def hasRoomFor (freeClusters dirtyClusters rootClusters nclusters : Int) (mayUseRoot : Bool) :
    Bool :=
  if freeClusters ≥ rootClusters + nclusters + dirtyClusters then true
  else if mayUseRoot then decide (freeClusters ≥ nclusters + dirtyClusters)
  else false

/-- `ext4bf_has_free_clusters`: the shared counts first, the exact sums near the watermark;
the exact free sum goes through `EXT4_C2B`. -/
def ext4bfHasFreeClusters (sbi : SbInfo ps) (cred : Cred) (nclusters : Int) (flags : Nat) :
    Bool :=
  let freeClusters := percpuCounterReadPositive sbi.sFreeclustersCounter
  let dirtyClusters := percpuCounterReadPositive sbi.sDirtyclustersCounter
  let rootClusters : Int := ext4B2C sbi.sClusterBits sbi.sRBlocksCount
  if freeClusters - (nclusters + rootClusters + dirtyClusters) < ext4FreeclustersWatermark ps then
    hasRoomFor (ext4C2B sbi.sClusterBits (percpuCounterSumPositive sbi.sFreeclustersCounter))
      (percpuCounterSumPositive sbi.sDirtyclustersCounter) rootClusters nclusters
      (mayUseRootClusters sbi cred flags)
  else
    hasRoomFor freeClusters dirtyClusters rootClusters nclusters (mayUseRootClusters sbi cred flags)

/-- `ext4bf_claim_free_clusters` on CPU `cpu`: the request joins the dirty clusters, or
`-ENOSPC`. -/
def ext4bfClaimFreeClusters (sbi : SbInfo ps) (cred : Cred) (nclusters : Int) (flags : Nat)
    (cpu : Fin ps.nrCpuIds) : Except Int (SbInfo ps) :=
  if ext4bfHasFreeClusters sbi cred nclusters flags then
    .ok { sbi with sDirtyclustersCounter := percpuCounterAdd sbi.sDirtyclustersCounter nclusters cpu }
  else .error (-enospc)

/-! ## What an admitted request leaves -/

section Admission

variable (sbi : SbInfo ps) (cred : Cred) (flags : Nat) (nclusters : Int)

theorem hasRoomFor_eq_true {f d r n : Int} {m : Bool} :
    hasRoomFor f d r n m = true ↔ r + n + d ≤ f ∨ (m = true ∧ n + d ≤ f) := by
  unfold hasRoomFor
  by_cases hr : f ≥ r + n + d
  · simp [hr]
  · cases m <;> simp [hr]

theorem watermark_nonneg (ps : PercpuSetting) : 0 ≤ ext4FreeclustersWatermark ps := by
  unfold ext4FreeclustersWatermark
  positivity

/-- The watermark is at least twice the error of a read. -/
theorem watermark_covers_error (ps : PercpuSetting) :
    2 * (ps.nrCpuIds * ((ps.percpuCounterBatch : Int) - 1)) ≤ ext4FreeclustersWatermark ps := by
  unfold ext4FreeclustersWatermark
  nlinarith [Int.natCast_nonneg ps.nrCpuIds, Int.natCast_nonneg ps.percpuCounterBatch]

theorem ext4bfHasFreeClusters_fast
    (hfast : ¬ percpuCounterReadPositive sbi.sFreeclustersCounter -
      (nclusters + ext4B2C sbi.sClusterBits sbi.sRBlocksCount +
        percpuCounterReadPositive sbi.sDirtyclustersCounter) < ext4FreeclustersWatermark ps) :
    ext4bfHasFreeClusters sbi cred nclusters flags =
      hasRoomFor (percpuCounterReadPositive sbi.sFreeclustersCounter)
        (percpuCounterReadPositive sbi.sDirtyclustersCounter)
        (ext4B2C sbi.sClusterBits sbi.sRBlocksCount) nclusters (mayUseRootClusters sbi cred flags) := by
  unfold ext4bfHasFreeClusters
  rw [if_neg hfast]

theorem ext4bfHasFreeClusters_exact
    (hslow : percpuCounterReadPositive sbi.sFreeclustersCounter -
      (nclusters + ext4B2C sbi.sClusterBits sbi.sRBlocksCount +
        percpuCounterReadPositive sbi.sDirtyclustersCounter) < ext4FreeclustersWatermark ps) :
    ext4bfHasFreeClusters sbi cred nclusters flags =
      hasRoomFor (ext4C2B sbi.sClusterBits (percpuCounterSumPositive sbi.sFreeclustersCounter))
        (percpuCounterSumPositive sbi.sDirtyclustersCounter)
        (ext4B2C sbi.sClusterBits sbi.sRBlocksCount) nclusters (mayUseRootClusters sbi cred flags) := by
  unfold ext4bfHasFreeClusters
  rw [if_pos hslow]

/-- On the fast path a request is admitted, and it fits in the exact counts: the read
counts are off by at most `nr_cpu_ids * (batch - 1)` each, and the watermark is at least
twice that. -/
theorem ext4bfHasFreeClusters_fast_sound (hn : 1 ≤ nclusters)
    (hfast : ¬ percpuCounterReadPositive sbi.sFreeclustersCounter -
      (nclusters + ext4B2C sbi.sClusterBits sbi.sRBlocksCount +
        percpuCounterReadPositive sbi.sDirtyclustersCounter) < ext4FreeclustersWatermark ps) :
    ext4bfHasFreeClusters sbi cred nclusters flags = true ∧
      nclusters + percpuCounterSum sbi.sDirtyclustersCounter +
        ext4B2C sbi.sClusterBits sbi.sRBlocksCount ≤ percpuCounterSum sbi.sFreeclustersCounter := by
  have hcover := watermark_covers_error ps
  have hW := watermark_nonneg ps
  have hdirty := percpuCounterReadPositive_ge sbi.sDirtyclustersCounter
  have hdirty0 := percpuCounterReadPositive_nonneg sbi.sDirtyclustersCounter
  -- the read free count is positive, so it is the shared count itself
  have hread : percpuCounterReadPositive sbi.sFreeclustersCounter = sbi.sFreeclustersCounter.count :=
    percpuCounterReadPositive_of_pos (by omega)
  have herrF := abs_le.mp (percpuCounterRead_sub_sum_le sbi.sFreeclustersCounter)
  have herrD := abs_le.mp (percpuCounterRead_sub_sum_le sbi.sDirtyclustersCounter)
  refine ⟨?_, by omega⟩
  rw [ext4bfHasFreeClusters_fast sbi cred flags nclusters hfast, hasRoomFor_eq_true]
  left
  omega

/-- With one-block clusters, a request is admitted only if it fits in the exact counts:
beside the dirty and root-reserved clusters, or beside the dirty ones for a caller allowed
the root reserve. -/
theorem ext4bfHasFreeClusters_sound (h0 : sbi.sClusterBits = 0) (hn : 1 ≤ nclusters)
    (h : ext4bfHasFreeClusters sbi cred nclusters flags = true) :
    nclusters + percpuCounterSum sbi.sDirtyclustersCounter +
        ext4B2C sbi.sClusterBits sbi.sRBlocksCount ≤ percpuCounterSum sbi.sFreeclustersCounter ∨
      (mayUseRootClusters sbi cred flags = true ∧
        nclusters + percpuCounterSum sbi.sDirtyclustersCounter ≤
          percpuCounterSum sbi.sFreeclustersCounter) := by
  by_cases hslow : percpuCounterReadPositive sbi.sFreeclustersCounter -
      (nclusters + ext4B2C sbi.sClusterBits sbi.sRBlocksCount +
        percpuCounterReadPositive sbi.sDirtyclustersCounter) < ext4FreeclustersWatermark ps
  · -- the exact path: with `s_cluster_bits = 0`, `EXT4_C2B` is the identity
    rw [ext4bfHasFreeClusters_exact sbi cred flags nclusters hslow, hasRoomFor_eq_true, h0,
      ext4C2B, Int.shiftLeft_eq, pow_zero, mul_one] at h
    have hdirty := percpuCounterSumPositive_ge sbi.sDirtyclustersCounter
    have hdirty0 := percpuCounterSumPositive_nonneg sbi.sDirtyclustersCounter
    have hR : (0 : Int) ≤ ext4B2C 0 sbi.sRBlocksCount := Int.natCast_nonneg _
    rw [h0]
    -- the free sum passed a test asking at least one cluster, so it is the exact sum
    have hfree : percpuCounterSumPositive sbi.sFreeclustersCounter =
        percpuCounterSum sbi.sFreeclustersCounter :=
      percpuCounterSumPositive_of_pos (by rcases h with h | ⟨_, h⟩ <;> omega)
    rcases h with h | ⟨hm, h⟩
    · exact Or.inl (by omega)
    · exact Or.inr ⟨hm, by omega⟩
  · exact Or.inl (ext4bfHasFreeClusters_fast_sound sbi cred flags nclusters hn hslow).2

/-- A claim that succeeds was admitted, and adds the request to the dirty clusters on the
calling CPU's delta, leaving everything else as it was. -/
theorem ext4bfClaimFreeClusters_eq_ok {sbi' : SbInfo ps} {cpu : Fin ps.nrCpuIds}
    (h : ext4bfClaimFreeClusters sbi cred nclusters flags cpu = .ok sbi') :
    ext4bfHasFreeClusters sbi cred nclusters flags = true ∧
      sbi' = { sbi with
        sDirtyclustersCounter := percpuCounterAdd sbi.sDirtyclustersCounter nclusters cpu } := by
  unfold ext4bfClaimFreeClusters at h
  split at h
  · exact ⟨‹_›, (Except.ok.inj h).symm⟩
  · cases h

/-- With one-block clusters, the reservations after a successful claim still fit in the free
clusters, beside the root reserve unless the caller may use it. -/
theorem ext4bfClaimFreeClusters_sound {sbi' : SbInfo ps} {cpu : Fin ps.nrCpuIds}
    (h0 : sbi.sClusterBits = 0) (hn : 1 ≤ nclusters)
    (h : ext4bfClaimFreeClusters sbi cred nclusters flags cpu = .ok sbi') :
    percpuCounterSum sbi'.sDirtyclustersCounter + ext4B2C sbi'.sClusterBits sbi'.sRBlocksCount ≤
        percpuCounterSum sbi'.sFreeclustersCounter ∨
      (mayUseRootClusters sbi cred flags = true ∧
        percpuCounterSum sbi'.sDirtyclustersCounter ≤ percpuCounterSum sbi'.sFreeclustersCounter) := by
  obtain ⟨hhas, rfl⟩ := ext4bfClaimFreeClusters_eq_ok sbi cred flags nclusters h
  rw [percpuCounterSum_add]
  rcases ext4bfHasFreeClusters_sound sbi cred flags nclusters h0 hn hhas with hfit | ⟨hm, hfit⟩
  · exact Or.inl (by dsimp only; omega)
  · exact Or.inr ⟨hm, by dsimp only; omega⟩

/-- With clusters of `2 ^ s_cluster_bits > 1` blocks, a request for one cluster more than
are free is admitted when nothing is reserved: the read counts send it to the exact path,
where the free sum is taken in blocks. -/
theorem ext4bfHasFreeClusters_overcommit (sbi : SbInfo ps) (cred : Cred) (flags F : Nat)
    (hbits : 0 < sbi.sClusterBits) (hF : 0 < F)
    (hfree : sbi.sFreeclustersCounter = percpuCounterInit ps F)
    (hdirty : sbi.sDirtyclustersCounter = percpuCounterInit ps 0)
    (hroot : sbi.sRBlocksCount < 2 ^ sbi.sClusterBits) :
    ext4bfHasFreeClusters sbi cred (F + 1) flags = true ∧
      ¬ ((F + 1 : Int) + percpuCounterSum sbi.sDirtyclustersCounter +
          ext4B2C sbi.sClusterBits sbi.sRBlocksCount ≤ percpuCounterSum sbi.sFreeclustersCounter ∨
        (mayUseRootClusters sbi cred flags = true ∧
          (F + 1 : Int) + percpuCounterSum sbi.sDirtyclustersCounter ≤
            percpuCounterSum sbi.sFreeclustersCounter)) := by
  have hR : ext4B2C sbi.sClusterBits sbi.sRBlocksCount = 0 := by
    rw [ext4B2C, Nat.shiftRight_eq_div_pow]
    exact Nat.div_eq_of_lt hroot
  have hsumF : percpuCounterSum sbi.sFreeclustersCounter = F := by
    rw [hfree, percpuCounterSum_init]
  have hsumD : percpuCounterSum sbi.sDirtyclustersCounter = 0 := by
    rw [hdirty, percpuCounterSum_init]
  have hreadF : percpuCounterReadPositive sbi.sFreeclustersCounter = F := by
    rw [hfree, percpuCounterReadPositive, if_pos (by simp [percpuCounterInit])]
    rfl
  have hreadD : percpuCounterReadPositive sbi.sDirtyclustersCounter = 0 := by
    rw [hdirty, percpuCounterReadPositive, if_pos (by simp [percpuCounterInit])]
    rfl
  have hW := watermark_nonneg ps
  -- one block per cluster short on the read counts: the exact path
  have hslow : percpuCounterReadPositive sbi.sFreeclustersCounter -
      ((F + 1 : Int) + ext4B2C sbi.sClusterBits sbi.sRBlocksCount +
        percpuCounterReadPositive sbi.sDirtyclustersCounter) < ext4FreeclustersWatermark ps := by
    rw [hreadF, hreadD, hR]
    omega
  -- there the `F` free clusters count as `F * 2 ^ s_cluster_bits ≥ 2 * F` blocks
  have hblocks : (F + 1 : Int) ≤ ext4C2B sbi.sClusterBits F := by
    rw [ext4C2B, Int.shiftLeft_eq]
    have h2 : (2 : Int) ≤ 2 ^ sbi.sClusterBits :=
      calc (2 : Int) = 2 ^ 1 := (pow_one 2).symm
        _ ≤ 2 ^ sbi.sClusterBits := pow_le_pow_right₀ (by norm_num) hbits
    nlinarith
  have hsumPosF : percpuCounterSumPositive sbi.sFreeclustersCounter = F := by
    rw [percpuCounterSumPositive, hsumF, if_neg (by omega)]
  have hsumPosD : percpuCounterSumPositive sbi.sDirtyclustersCounter = 0 := by
    rw [percpuCounterSumPositive, hsumD, if_neg (by omega)]
  refine ⟨?_, ?_⟩
  · rw [ext4bfHasFreeClusters_exact sbi cred flags _ hslow, hasRoomFor_eq_true, hsumPosF,
      hsumPosD, hR]
    left
    omega
  · rw [hsumF, hsumD, hR]
    omega

end Admission

/-- One CPU with the smallest batch. -/
def oneCpuSetting : PercpuSetting := ⟨32, 1, by decide⟩

/-- A bigalloc file system with 16-block clusters, one free cluster and nothing reserved. -/
def bigallocSbInfo : SbInfo oneCpuSetting where
  sFreeclustersCounter := percpuCounterInit oneCpuSetting 1
  sDirtyclustersCounter := percpuCounterInit oneCpuSetting 0
  sClusterBits := 4
  sResuid := 0
  sResgid := 0
  sRBlocksCount := 0

/-- A task with no claim on the root reserve. -/
def userCred : Cred := ⟨1000, 1000, [], false⟩

theorem ext4bfHasFreeClusters_overcommit_bigalloc :
    0 < bigallocSbInfo.sClusterBits ∧ 0 < 1 ∧
      bigallocSbInfo.sFreeclustersCounter = percpuCounterInit oneCpuSetting 1 ∧
      bigallocSbInfo.sDirtyclustersCounter = percpuCounterInit oneCpuSetting 0 ∧
      bigallocSbInfo.sRBlocksCount < 2 ^ bigallocSbInfo.sClusterBits ∧
      (ext4bfHasFreeClusters bigallocSbInfo userCred 2 0 = true ∧
        ¬ ((2 : Int) + percpuCounterSum bigallocSbInfo.sDirtyclustersCounter +
            ext4B2C bigallocSbInfo.sClusterBits bigallocSbInfo.sRBlocksCount ≤
              percpuCounterSum bigallocSbInfo.sFreeclustersCounter ∨
          (mayUseRootClusters bigallocSbInfo userCred 0 = true ∧
            (2 : Int) + percpuCounterSum bigallocSbInfo.sDirtyclustersCounter ≤
              percpuCounterSum bigallocSbInfo.sFreeclustersCounter))) :=
  ⟨by decide, by decide, rfl, rfl, by decide,
    ext4bfHasFreeClusters_overcommit bigallocSbInfo userCred 0 1 (by decide) (by decide) rfl rfl
      (by decide)⟩


/-- A file system with one-block clusters, 100 free clusters, 10 blocks for root and nothing
reserved. -/
def oneBlockSbInfo : SbInfo oneCpuSetting where
  sFreeclustersCounter := percpuCounterInit oneCpuSetting 100
  sDirtyclustersCounter := percpuCounterInit oneCpuSetting 0
  sClusterBits := 0
  sResuid := 0
  sResgid := 0
  sRBlocksCount := 10

/-- A claim of two clusters there takes the exact path and succeeds, and what it reserves fits
beside the root reserve. -/
theorem ext4bfClaimFreeClusters_sound_oneBlock :
    ∃ sbi', oneBlockSbInfo.sClusterBits = 0 ∧ (1 : Int) ≤ 2 ∧
      ext4bfClaimFreeClusters oneBlockSbInfo userCred 2 0 ⟨0, Nat.one_pos⟩ = .ok sbi' ∧
      (percpuCounterSum sbi'.sDirtyclustersCounter + ext4B2C sbi'.sClusterBits sbi'.sRBlocksCount ≤
          percpuCounterSum sbi'.sFreeclustersCounter ∨
        (mayUseRootClusters oneBlockSbInfo userCred 0 = true ∧
          percpuCounterSum sbi'.sDirtyclustersCounter ≤
            percpuCounterSum sbi'.sFreeclustersCounter)) := by
  have hclaim : ext4bfClaimFreeClusters oneBlockSbInfo userCred 2 0 ⟨0, Nat.one_pos⟩ =
      .ok { oneBlockSbInfo with
        sDirtyclustersCounter :=
          percpuCounterAdd oneBlockSbInfo.sDirtyclustersCounter 2 ⟨0, Nat.one_pos⟩ } := by
    unfold ext4bfClaimFreeClusters
    rw [if_pos (by decide)]
  exact ⟨_, rfl, by decide, hclaim,
    ext4bfClaimFreeClusters_sound oneBlockSbInfo userCred 0 2 rfl (by decide) hclaim⟩

end OptFs.Balloc
