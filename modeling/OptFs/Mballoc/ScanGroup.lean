import OptFs.Mballoc.ExtentSearch

/-!
# The power-of-two search (`ext4bf_mb_simple_scan_group`)

For a request of `2 ^ ac_2order` clusters the regular allocator first runs
`ext4bf_mb_simple_scan_group`: from order `ac_2order` up it looks for an order whose counter is
not zero, takes the first clear bit `k` of that order's buddy bitmap, and hands the chunk `k`
to `ext4bf_mb_use_best_found`, which cuts it to the goal's length and takes it out of the group
with `mb_mark_used`.

On a consistent group (`BuddyInv`) a counter that is not zero has a clear bit behind it
(`BuddyCounted.exists_buddy_eq_false`), so neither `BUG_ON` of the scan fires; the chunk found is
a largest free chunk, so its first `2 ^ ac_2order` clusters are free and `mb_mark_used` is
defined on them. The result (`ext4bfMbSimpleScanGroup_spec`): either no
order from `ac_2order` up has a free chunk and nothing changes, or the context is `FOUND` with
the first `2 ^ ac_2order` clusters of a largest free chunk of the lowest such order, and the
group is consistent with exactly those clusters in use.

Left out: the page references `ext4bf_mb_use_best_found` takes, the stream-allocation hint it
stores in the superblock info, `fe_logical`, and the `s_mb_stats` counter.
-/

namespace OptFs.Mballoc

/-! ## The model -/

/-- `ac_status`: `AC_STATUS_CONTINUE`, `AC_STATUS_FOUND`, `AC_STATUS_BREAK`. -/
inductive AcStatus
  | acStatusContinue
  | acStatusFound
  | acStatusBreak
deriving DecidableEq, Repr

/-- The fields of `struct ext4bf_allocation_context` the buddy search reads and writes:
`ac_2order`, the goal `ac_g_ex`, the best found `ac_b_ex`, the allocated `ac_f_ex`,
`ac_status`, `ac_found`, and `ac_tail` and `ac_buddy` for the history. -/
structure AllocationContext where
  ac2order : Nat
  acGEx : FreeExtent
  acBEx : FreeExtent
  acFEx : FreeExtent
  acStatus : AcStatus
  acFound : Nat
  acTail : Nat
  acBuddy : Nat
deriving DecidableEq, Repr

/-- `ext4bf_mb_use_best_found(ac, e4b)` on group `bdGroup`: the best extent cut to the goal's
length is marked used; `none` is a `BUG_ON` or a failure of `mb_mark_used`. -/
def ext4bfMbUseBestFound (bits bdGroup : Nat) (ac : AllocationContext) (g : BuddyGroup) :
    Option (AllocationContext × BuddyGroup) :=
  if ac.acBEx.feGroup ≠ bdGroup ∨ ac.acStatus = .acStatusFound then none
  else
    let bEx := { ac.acBEx with feLen := min ac.acBEx.feLen ac.acGEx.feLen }
    (BuddyGroup.mbMarkUsed bits g bdGroup bEx).map fun (g, ret) =>
      ({ ac with
          acBEx := bEx, acFEx := bEx, acStatus := .acStatusFound,
          acTail := ret &&& 0xffff, acBuddy := ret >>> 16 }, g)

/-- The loop `for (i = ac->ac_2order; i <= s_blocksize_bits + 1; i++)` of
`ext4bf_mb_simple_scan_group` from order `i`; `fuel` counts the orders left. -/
def simpleScanLoop (bits bdGroup : Nat) (g : BuddyGroup) :
    Nat → Nat → AllocationContext → Option (AllocationContext × BuddyGroup)
  | 0, _, ac => some (ac, g)
  | fuel + 1, i, ac =>
    if i > bits + 1 then some (ac, g)
    else if g.bbCounters i = 0 then simpleScanLoop bits bdGroup g fuel (i + 1) ac
    else
      match mbFindBuddyMax bits i with
      | none => none
      | some max =>
        let k := mbFindNextBit (g.buddy i) max 0 false
        -- `BUG_ON(k >= max)`
        if k ≥ max then none
        else
          let ac := { ac with acFound := ac.acFound + 1, acBEx := ⟨k <<< i, 1 <<< i, bdGroup⟩ }
          (ext4bfMbUseBestFound bits bdGroup ac g).bind fun (ac, g) =>
            -- `BUG_ON(ac->ac_b_ex.fe_len != ac->ac_g_ex.fe_len)`
            if ac.acBEx.feLen ≠ ac.acGEx.feLen then none else some (ac, g)

/-- `ext4bf_mb_simple_scan_group(ac, e4b)` on the buddy of group `bdGroup` with
`bd_blkbits = bits`; `none` is a `BUG_ON`. -/
def ext4bfMbSimpleScanGroup (bits bdGroup : Nat) (ac : AllocationContext) (g : BuddyGroup) :
    Option (AllocationContext × BuddyGroup) :=
  if ac.ac2order = 0 then none
  else simpleScanLoop bits bdGroup g (bits + 2 - ac.ac2order) ac.ac2order ac

/-! ## The first clear bit of an order -/

/-- The scan for a bit `v` stops at or before any bit `v` after its start. -/
theorem mbFindNextBit_le_of_eq {bm : Nat → Bool} {max j : Nat} {v : Bool} (hj : j < max)
    (hv : bm j = v) : ∀ start, start ≤ j → mbFindNextBit bm max start v ≤ j := by
  -- induction on the distance from `start` to `j`
  suffices h : ∀ n start, j - start = n → start ≤ j → mbFindNextBit bm max start v ≤ j from
    fun start => h _ start rfl
  intro n
  induction n with
  | zero =>
    intro start hn hs
    rw [show start = j by omega, mbFindNextBit_of_eq hj hv]
  | succ n ih =>
    intro start hn hs
    by_cases hstart : bm start = v
    · rw [mbFindNextBit_of_eq (by omega) hstart]
      exact hs
    · rw [mbFindNextBit_of_ne (by omega) hstart]
      exact ih (start + 1) (by omega) (by omega)

section Scan

variable {bits : Nat} {g : BuddyGroup}

/-- An order whose counter is not zero has a free chunk, whose bit is clear. -/
theorem BuddyCounted.exists_buddy_eq_false (h : BuddyCounted bits g) {i : Nat} (hi : 1 ≤ i)
    (hi' : i ≤ bits + 1) (hc : g.bbCounters i ≠ 0) :
    ∃ j, j < 2 ^ (bits + 3 - i) ∧ g.buddy i j = false := by
  have hcard : 0 < (freeChunks bits g.bitmap i).card := by
    have := h.counters_eq i hi'
    omega
  obtain ⟨j, hj⟩ := Finset.card_pos.mp hcard
  rw [freeChunks, Finset.mem_filter, Finset.mem_range] at hj
  exact ⟨j, hj.1, (h.buddy_eq_false_iff i j hi hi' hj.1).mpr hj.2⟩

/-- The first clear bit of an order whose counter is not zero: a largest free chunk. -/
theorem BuddyCounted.firstClear (h : BuddyCounted bits g) {i : Nat} (hi : 1 ≤ i)
    (hi' : i ≤ bits + 1) (hc : g.bbCounters i ≠ 0) :
    mbFindNextBit (g.buddy i) (2 ^ (bits + 3 - i)) 0 false < 2 ^ (bits + 3 - i) ∧
      BuddyFree bits g.bitmap i (mbFindNextBit (g.buddy i) (2 ^ (bits + 3 - i)) 0 false) := by
  obtain ⟨j, hj, hclear⟩ := h.exists_buddy_eq_false hi hi' hc
  have hlt := (mbFindNextBit_le_of_eq hj hclear 0 (Nat.zero_le j)).trans_lt hj
  have hbit := (mbFindNextBit_spec (g.buddy i) false (Nat.zero_le _)).2.2 hlt
  exact ⟨hlt, (h.buddy_eq_false_iff i _ hi hi' hlt).mp hbit⟩

/-- `ext4bf_mb_use_best_found` once `mb_mark_used` has taken the best extent, cut to the goal's
length. -/
theorem ext4bfMbUseBestFound_of_markUsed {bdGroup : Nat} (ac : AllocationContext)
    {g' : BuddyGroup} {ret : Nat} (hgroup : ac.acBEx.feGroup = bdGroup)
    (hstatus : ac.acStatus ≠ .acStatusFound)
    (h : BuddyGroup.mbMarkUsed bits g bdGroup
      { ac.acBEx with feLen := min ac.acBEx.feLen ac.acGEx.feLen } = some (g', ret)) :
    ext4bfMbUseBestFound bits bdGroup ac g =
      some ({ ac with
        acBEx := { ac.acBEx with feLen := min ac.acBEx.feLen ac.acGEx.feLen },
        acFEx := { ac.acBEx with feLen := min ac.acBEx.feLen ac.acGEx.feLen },
        acStatus := .acStatusFound, acTail := ret &&& 0xffff, acBuddy := ret >>> 16 }, g') := by
  rw [ext4bfMbUseBestFound, if_neg (by rw [hgroup]; simp [hstatus])]
  dsimp only
  rw [h]
  rfl

/-- A round of the scan at an order `i` from `a = ac_2order` up whose counter is not zero: the
first `2 ^ a` clusters of the first largest free chunk of that order are taken. -/
theorem simpleScanLoop_found (hinv : BuddyInv bits g) (fuel : Nat) {bdGroup a i : Nat}
    {ac : AllocationContext} (ha : 1 ≤ a) (hai : a ≤ i) (hi : i ≤ bits + 1)
    (hg : ac.acGEx.feLen = 2 ^ a) (hstatus : ac.acStatus ≠ .acStatusFound)
    (hc : g.bbCounters i ≠ 0) :
    ∃ ac' g', simpleScanLoop bits bdGroup g (fuel + 1) i ac = some (ac', g') ∧ BuddyInv bits g' ∧
      ac'.acStatus = .acStatusFound ∧ ac'.acBEx.feGroup = bdGroup ∧
      ac'.acBEx.feLen = ac.acGEx.feLen ∧ BuddyFree bits g.bitmap i (ac'.acBEx.feStart >>> i) ∧
      ac'.acBEx.feStart >>> i <<< i = ac'.acBEx.feStart ∧
      g'.bitmap = writeRange g.bitmap ac'.acBEx.feStart ac'.acBEx.feLen true := by
  obtain ⟨hlt, hchunk⟩ := hinv.firstClear (by omega) hi hc
  -- the chunk `k` of order `i`, cut to `2 ^ a` clusters
  set k := mbFindNextBit (g.buddy i) (2 ^ (bits + 3 - i)) 0 false with hk
  have hpow : 2 ^ a ≤ 2 ^ i := Nat.pow_le_pow_right (by omega) hai
  have hlen : min (1 <<< i) ac.acGEx.feLen = 2 ^ a := by
    rw [Nat.one_shiftLeft, hg]
    exact Nat.min_eq_right hpow
  have hstart : k <<< i = k * 2 ^ i := Nat.shiftLeft_eq k i
  have hend := succ_mul_two_pow_le hlt (by omega)
  have hrange : k <<< i + 2 ^ a ≤ 2 ^ (bits + 3) := by
    rw [hstart]
    rw [Nat.add_mul, one_mul] at hend
    omega
  have hfree : ∀ x, k <<< i ≤ x → x < k <<< i + 2 ^ a → g.bitmap x = false := by
    intro x h₁ h₂
    apply chunkFree_iff.mp hchunk.1 x
    apply shiftRight_eq_iff.mpr
    omega
  obtain ⟨g', ret, hrun, hbm', hkeeps, hcounted⟩ :=
    markUsedLoop_start hinv.toBuddyCounted (Nat.two_pow_pos a) hrange hfree
  have hmark : BuddyGroup.mbMarkUsed bits g bdGroup ⟨k <<< i, min (1 <<< i) ac.acGEx.feLen, bdGroup⟩ =
      some ({ mbSetLargestFreeOrder bits g' with
        bitmap := writeRange g.bitmap (k <<< i) (2 ^ a) true }, ret) := by
    rw [hlen]
    exact mbMarkUsed_of_loop rfl hrange hrun hbm'
  have huse := ext4bfMbUseBestFound_of_markUsed
    { ac with acFound := ac.acFound + 1, acBEx := ⟨k <<< i, 1 <<< i, bdGroup⟩ } rfl hstatus hmark
  refine ⟨{ ac with
      acFound := ac.acFound + 1,
      acBEx := ⟨k <<< i, min (1 <<< i) ac.acGEx.feLen, bdGroup⟩,
      acFEx := ⟨k <<< i, min (1 <<< i) ac.acGEx.feLen, bdGroup⟩, acStatus := .acStatusFound,
      acTail := ret &&& 0xffff, acBuddy := ret >>> 16 }, _, ?_,
    hinv.markUsed (Nat.two_pow_pos a) hrange hfree hkeeps hcounted, rfl, rfl, hlen.trans hg.symm,
    ?_, ?_, ?_⟩
  · rw [simpleScanLoop, if_neg (by omega), if_neg hc, mbFindBuddyMax_of_le hi]
    dsimp only
    rw [← hk, if_neg (by omega), huse, Option.bind_some]
    dsimp only
    rw [if_neg (show ¬ min (1 <<< i) ac.acGEx.feLen ≠ ac.acGEx.feLen from
      fun hne => hne (hlen.trans hg.symm))]
  · show BuddyFree bits g.bitmap i (k <<< i >>> i)
    rwa [Nat.shiftLeft_shiftRight]
  · show k <<< i >>> i <<< i = k <<< i
    rw [Nat.shiftLeft_shiftRight]
  · show writeRange g.bitmap (k <<< i) (2 ^ a) true =
      writeRange g.bitmap (k <<< i) (min (1 <<< i) ac.acGEx.feLen) true
    rw [hlen]

/-- The scan from order `i`, every order from `a = ac_2order` below `i` being empty: it takes the
first `2 ^ a` clusters of a largest free chunk of the lowest order from `i` up that has one, or
changes nothing when none has. -/
theorem simpleScanLoop_spec (hinv : BuddyInv bits g) {bdGroup a : Nat} {ac : AllocationContext}
    (ha : 1 ≤ a) (hg : ac.acGEx.feLen = 2 ^ a) (hstatus : ac.acStatus ≠ .acStatusFound) :
    ∀ fuel i, bits + 2 ≤ fuel + i → a ≤ i → (∀ j, a ≤ j → j < i → g.bbCounters j = 0) →
      ∃ ac' g', simpleScanLoop bits bdGroup g fuel i ac = some (ac', g') ∧ BuddyInv bits g' ∧
        ((∀ j, a ≤ j → j ≤ bits + 1 → g.bbCounters j = 0) ∧ ac' = ac ∧ g' = g ∨
          ∃ i', a ≤ i' ∧ i' ≤ bits + 1 ∧ (∀ j, a ≤ j → j < i' → g.bbCounters j = 0) ∧
            ac'.acStatus = .acStatusFound ∧ ac'.acBEx.feGroup = bdGroup ∧
            ac'.acBEx.feLen = ac.acGEx.feLen ∧
            BuddyFree bits g.bitmap i' (ac'.acBEx.feStart >>> i') ∧
            ac'.acBEx.feStart >>> i' <<< i' = ac'.acBEx.feStart ∧
            g'.bitmap = writeRange g.bitmap ac'.acBEx.feStart ac'.acBEx.feLen true) := by
  intro fuel
  induction fuel with
  | zero =>
    -- the scan has passed the highest order
    intro i hi hai hzero
    exact ⟨ac, g, rfl, hinv, .inl ⟨fun j hj hj' => hzero j hj (by omega), rfl, rfl⟩⟩
  | succ fuel ih =>
    intro i hi hai hzero
    by_cases hend : i > bits + 1
    · rw [simpleScanLoop, if_pos hend]
      exact ⟨ac, g, rfl, hinv, .inl ⟨fun j hj hj' => hzero j hj (by omega), rfl, rfl⟩⟩
    by_cases hc : g.bbCounters i = 0
    · -- an empty order: the scan goes on one order up
      rw [simpleScanLoop, if_neg hend, if_pos hc]
      apply ih (i + 1) (by omega) (by omega)
      intro j hj hj'
      rcases Nat.lt_succ_iff_lt_or_eq.mp hj' with hlt | rfl
      · exact hzero j hj hlt
      · exact hc
    · -- the lowest order from `a` up with a free chunk
      obtain ⟨ac', g', hrun, hinv', hfound, hgroup, hlen, hfree, halign, hbitmap⟩ :=
        simpleScanLoop_found hinv fuel ha hai (by omega) hg hstatus hc
      exact ⟨ac', g', hrun, hinv', .inr ⟨i, hai, by omega, hzero, hfound, hgroup, hlen, hfree,
        halign, hbitmap⟩⟩

/-- On a consistent group, for a goal of `2 ^ ac_2order` clusters with `ac_2order ≥ 1` and a
context not yet `FOUND`, `ext4bf_mb_simple_scan_group` fires no `BUG_ON` and leaves a consistent
group: either every order from `ac_2order` up is empty and nothing changes, or the context is
`FOUND` with an extent of the goal's length in the group, the first clusters of a largest free
chunk of the lowest non-empty order from `ac_2order` up, aligned on that chunk, now in use. -/
theorem ext4bfMbSimpleScanGroup_spec {bdGroup : Nat} {ac : AllocationContext}
    (hinv : BuddyInv bits g) (ha : 1 ≤ ac.ac2order) (hg : ac.acGEx.feLen = 2 ^ ac.ac2order)
    (hstatus : ac.acStatus ≠ .acStatusFound) :
    ∃ ac' g', ext4bfMbSimpleScanGroup bits bdGroup ac g = some (ac', g') ∧ BuddyInv bits g' ∧
      ((∀ j, ac.ac2order ≤ j → j ≤ bits + 1 → g.bbCounters j = 0) ∧ ac' = ac ∧ g' = g ∨
        ∃ i, ac.ac2order ≤ i ∧ i ≤ bits + 1 ∧
          (∀ j, ac.ac2order ≤ j → j < i → g.bbCounters j = 0) ∧
          ac'.acStatus = .acStatusFound ∧ ac'.acBEx.feGroup = bdGroup ∧
          ac'.acBEx.feLen = ac.acGEx.feLen ∧
          BuddyFree bits g.bitmap i (ac'.acBEx.feStart >>> i) ∧
          ac'.acBEx.feStart >>> i <<< i = ac'.acBEx.feStart ∧
          g'.bitmap = writeRange g.bitmap ac'.acBEx.feStart ac'.acBEx.feLen true) := by
  rw [ext4bfMbSimpleScanGroup, if_neg (by omega)]
  exact simpleScanLoop_spec hinv ha hg hstatus _ _ (by omega) le_rfl
    fun j hj hj' => absurd hj' (by omega)

/-- A request for two clusters (`ac_2order = 1`), not yet found. -/
def twoClusterRequest : AllocationContext :=
  ⟨1, ⟨0, 2, 0⟩, ⟨0, 0, 0⟩, ⟨0, 0, 0⟩, .acStatusContinue, 0, 0, 0⟩

theorem ext4bfMbSimpleScanGroup_spec_eightFreeClusters :
    BuddyInv 0 eightFreeClusters ∧ 1 ≤ twoClusterRequest.ac2order ∧
      twoClusterRequest.acGEx.feLen = 2 ^ twoClusterRequest.ac2order ∧
      twoClusterRequest.acStatus ≠ .acStatusFound ∧
      ∃ ac' g', ext4bfMbSimpleScanGroup 0 0 twoClusterRequest eightFreeClusters = some (ac', g') ∧
        BuddyInv 0 g' ∧
        ((∀ j, twoClusterRequest.ac2order ≤ j → j ≤ 0 + 1 → eightFreeClusters.bbCounters j = 0) ∧
            ac' = twoClusterRequest ∧ g' = eightFreeClusters ∨
          ∃ i, twoClusterRequest.ac2order ≤ i ∧ i ≤ 0 + 1 ∧
            (∀ j, twoClusterRequest.ac2order ≤ j → j < i → eightFreeClusters.bbCounters j = 0) ∧
            ac'.acStatus = .acStatusFound ∧ ac'.acBEx.feGroup = 0 ∧
            ac'.acBEx.feLen = twoClusterRequest.acGEx.feLen ∧
            BuddyFree 0 eightFreeClusters.bitmap i (ac'.acBEx.feStart >>> i) ∧
            ac'.acBEx.feStart >>> i <<< i = ac'.acBEx.feStart ∧
            g'.bitmap = writeRange eightFreeClusters.bitmap ac'.acBEx.feStart ac'.acBEx.feLen true) :=
  ⟨eightFreeClusters_inv, by decide, rfl, by decide,
    ext4bfMbSimpleScanGroup_spec eightFreeClusters_inv (by decide) rfl (by decide)⟩

/-- The two clusters come from the first free chunk of order 1, which leaves three. -/
example : ((ext4bfMbSimpleScanGroup 0 0 twoClusterRequest eightFreeClusters).map fun (ac, g) =>
    (ac.acBEx, ac.acStatus, g.bbCounters 1, g.bbFree)) = some (⟨0, 2, 0⟩, .acStatusFound, 3, 6) := by
  decide

end Scan

end OptFs.Mballoc
