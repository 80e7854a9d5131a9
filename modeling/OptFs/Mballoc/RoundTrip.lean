import OptFs.Mballoc.MarkUsed

/-!
# Freeing what was allocated (`mb_mark_used`, `mb_free_blocks`)

A consistent group is fixed by its bitmap: the buddy bitmaps, the counters, `bb_free`,
`bb_fragments` and `bb_largest_free_order` of a group satisfying `BuddyInv` are functions of
the bitmap (`BuddyInv.agree`). `mb_free_blocks` of the extent `mb_mark_used` has just taken
therefore gives the group back on all of them (`BuddyGroup.mbFreeBlocks_mbMarkUsed`);
`bb_first_free`, which both keep only as a lower bound of the free clusters, need not come back.
-/

namespace OptFs.Mballoc

/-- Two groups alike in all that `BuddyInv` fixes: the bitmap, the buddy bitmaps of every
order within the group, the counters and the three counts. -/
structure BuddyGroup.Agree (bits : Nat) (g g' : BuddyGroup) : Prop where
  bitmap_eq : g.bitmap = g'.bitmap
  buddy_eq : ∀ k i, 1 ≤ k → k ≤ bits + 1 → i < 2 ^ (bits + 3 - k) → g.buddy k i = g'.buddy k i
  counters_eq : ∀ k ≤ bits + 1, g.bbCounters k = g'.bbCounters k
  free_eq : g.bbFree = g'.bbFree
  fragments_eq : g.bbFragments = g'.bbFragments
  largest_eq : g.bbLargestFreeOrder = g'.bbLargestFreeOrder

theorem Bool.eq_of_eq_false_iff {a b : Bool} (h : a = false ↔ b = false) : a = b := by
  cases a <;> cases b <;> simp_all

/-- `mb_set_largest_free_order` reads the counters of the orders within the group only. -/
theorem mbSetLargestFreeOrder_congr {bits : Nat} {g g' : BuddyGroup}
    (h : ∀ k ≤ bits + 1, g.bbCounters k = g'.bbCounters k) :
    (mbSetLargestFreeOrder bits g).bbLargestFreeOrder =
      (mbSetLargestFreeOrder bits g').bbLargestFreeOrder := by
  unfold mbSetLargestFreeOrder
  dsimp only
  rw [List.find?_congr fun k hk => by rw [h k (by simp at hk; omega)]]

/-- A consistent group is fixed by its bitmap. -/
theorem BuddyInv.agree {bits : Nat} {g g' : BuddyGroup} (h : BuddyInv bits g)
    (h' : BuddyInv bits g') (hbm : g.bitmap = g'.bitmap) : BuddyGroup.Agree bits g g' := by
  have hcounters : ∀ k ≤ bits + 1, g.bbCounters k = g'.bbCounters k := by
    intro k hk
    rw [h.counters_eq k hk, h'.counters_eq k hk, hbm]
  refine ⟨hbm, fun k i hk hk' hi => ?_, hcounters, ?_, ?_, ?_⟩
  · apply Bool.eq_of_eq_false_iff
    rw [h.buddy_eq_false_iff k i hk hk' hi, h'.buddy_eq_false_iff k i hk hk' hi, hbm]
  · rw [h.free_eq, h'.free_eq, hbm]
  · rw [h.fragments_eq, h'.fragments_eq, hbm]
  · rw [← h.largest_eq, ← h'.largest_eq]
    exact mbSetLargestFreeOrder_congr hcounters

/-- Freeing an extent that `mb_mark_used` has just taken gives the group back. On a consistent
group, `mb_mark_used` of free clusters `[start, start + len)`, then `mb_free_blocks` of the
same clusters, leave the bitmap, the buddy bitmaps, the counters,
`bb_free`, `bb_fragments` and `bb_largest_free_order` as they were. -/
theorem BuddyGroup.mbFreeBlocks_mbMarkUsed {bits : Nat} {g : BuddyGroup} {bdGroup : Nat}
    {ex : FreeExtent} (hinv : BuddyInv bits g) (hgroup : ex.feGroup = bdGroup)
    (hlen : 0 < ex.feLen) (hrange : ex.feStart + ex.feLen ≤ 2 ^ (bits + 3))
    (hfree : ∀ x, ex.feStart ≤ x → x < ex.feStart + ex.feLen → g.bitmap x = false) :
    ∃ g₁ ret g₂, BuddyGroup.mbMarkUsed bits g bdGroup ex = some (g₁, ret) ∧
      BuddyGroup.mbFreeBlocks bits g₁ ex.feStart ex.feLen = some g₂ ∧
      BuddyGroup.Agree bits g₂ g := by
  obtain ⟨g', ret, hrun, hbm', hkeeps, hcounted⟩ :=
    markUsedLoop_start hinv.toBuddyCounted hlen hrange hfree
  have hinv₁ := hinv.markUsed hlen hrange hfree hkeeps hcounted
  -- after the allocation the extent is in use, so `mb_free_blocks` may take it back
  have hused : ∀ x, ex.feStart ≤ x → x < ex.feStart + ex.feLen →
      writeRange g.bitmap ex.feStart ex.feLen true x = true :=
    fun x h₁ h₂ => writeRange_of_mem h₁ h₂ true
  obtain ⟨hinv₂, hbm₂⟩ := hinv₁.freeBlocks hlen hrange hused
  refine ⟨_, ret, _, mbMarkUsed_of_loop hgroup hrange hrun hbm',
    BuddyGroup.mbFreeBlocks_of_le hrange, hinv₂.agree hinv ?_⟩
  -- freeing the clusters clears the bits the allocation set, which were clear before it
  rw [hbm₂]
  show writeRange (writeRange g.bitmap ex.feStart ex.feLen true) ex.feStart ex.feLen false =
    g.bitmap
  rw [writeRange_writeRange_self, writeRange_eq_self hfree]

/-- Taking clusters 2 to 4 of the eight free ones, the last one split off a chunk of order 1,
and giving them back. -/
theorem BuddyGroup.mbFreeBlocks_mbMarkUsed_eightFreeClusters :
    BuddyInv 0 eightFreeClusters ∧ (⟨2, 3, 0⟩ : FreeExtent).feGroup = 0 ∧
      0 < (⟨2, 3, 0⟩ : FreeExtent).feLen ∧ 2 + 3 ≤ 2 ^ (0 + 3) ∧
      (∀ x, 2 ≤ x → x < 2 + 3 → eightFreeClusters.bitmap x = false) ∧
      ∃ g₁ ret g₂, BuddyGroup.mbMarkUsed 0 eightFreeClusters 0 ⟨2, 3, 0⟩ = some (g₁, ret) ∧
        BuddyGroup.mbFreeBlocks 0 g₁ 2 3 = some g₂ ∧ BuddyGroup.Agree 0 g₂ eightFreeClusters :=
  ⟨eightFreeClusters_inv, rfl, by decide, by decide, fun _ _ _ => rfl,
    BuddyGroup.mbFreeBlocks_mbMarkUsed eightFreeClusters_inv rfl (by decide) (by decide)
      (fun _ _ _ => rfl)⟩

end OptFs.Mballoc
