import OptFs.Mballoc.FreeBlocks

/-!
# Allocating an extent in the buddy (`mb_mark_used`)

`mb_mark_used(e4b, ex)` takes the free extent `ex` out of the buddy. It first updates
`bb_free`, `bb_first_free` and `bb_fragments`; then, while clusters are left, it asks
`mb_find_order_for_block` for the order of the free chunk holding `start`: a chunk that starts
at `start` and fits in what is left is allocated whole (its bit set, its counter decremented,
`start` moved past it), any other is split into its two halves one order down. At order 0 the
bit is the cluster's own bit of the block bitmap: a free cluster whose buddy cluster is in use
is allocated there, and the split of a chunk of order 1 clears the bitmap bits of its two
halves, which are free. Last it recomputes `bb_largest_free_order` and sets the extent's bits
in the bitmap (`ext4bf_set_bits`). It returns the length left and the order at the first split,
for the allocation history.

Between two rounds the buddy is that of the bitmap with the clusters allocated so far in use,
except along the chunks split above `start`: it satisfies the working invariant `Coalescing`
of the coalescing loop of `mb_free_blocks`, a split being a merge of that loop undone
(`Coalescing.split`), and a whole chunk allocated gives back the buddy of the new bitmap
(`Coalescing.allocate`). The loop writes the block bitmap only inside the extent and at free
clusters, and `ext4bf_set_bits` then sets the extent. So on a consistent group, `mb_mark_used`
on any free extent of the group is defined and leaves a consistent group with exactly the
extent in use (`BuddyGroup.mbMarkUsed_inv`).

Left out: the debugging checks `mb_mark_used_double` and `mb_check_buddy`.
-/

namespace OptFs.Mballoc

/-! ## The model -/

namespace BuddyGroup

/-- `mb_set_bit(i, mb_find_buddy(e4b, k, &max))`: at order 0, the block bitmap. -/
def setBit (g : BuddyGroup) (k i : Nat) : BuddyGroup :=
  if k = 0 then { g with bitmap := Function.update g.bitmap i true } else g.setBuddyBit k i

/-- `mb_clear_bit(i, mb_find_buddy(e4b, k, &max))`: at order 0, the block bitmap. -/
def clearBit (g : BuddyGroup) (k i : Nat) : BuddyGroup :=
  if k = 0 then g.clearBitmapBit i else g.clearBuddyBit k i

/-- One split of `mb_mark_used`: the chunk of order `ord` holding `start` leaves its order,
its bit set, and its two halves enter order `ord - 1`, their bits cleared; `cur` is
`(start >> ord) & ~1U` once `ord` is decremented. -/
def splitChunk (g : BuddyGroup) (ord start : Nat) : BuddyGroup :=
  let g := (g.setBit ord (start >>> ord)).decCounter ord
  let ord := ord - 1
  let cur := start >>> ord >>> 1 <<< 1
  (((g.clearBit ord cur).clearBit ord (cur + 1)).incCounter ord).incCounter ord

end BuddyGroup

/-- The loop `while (len)` of `mb_mark_used` from `start`, with `ret` the value it returns
(`0` until the first split); `fuel` bounds the rounds. `none` is a `BUG_ON`. -/
def markUsedLoop (bits : Nat) : Nat → BuddyGroup → Nat → Nat → Nat → Option (BuddyGroup × Nat)
  | 0, g, _, _, ret => some (g, ret)
  | fuel + 1, g, start, len, ret =>
    if len = 0 then some (g, ret)
    else
      match mbFindOrderForBlock bits g start with
      | none => none
      | some ord =>
        if start >>> ord <<< ord = start ∧ len ≥ 1 <<< ord then
          -- the whole chunk may be allocated at once; `BUG_ON((start >> ord) >= max)`
          match mbFindBuddyMax bits ord with
          | none => none
          | some max =>
            if start >>> ord ≥ max then none
            else markUsedLoop bits fuel ((g.setBit ord (start >>> ord)).decCounter ord)
              (start + (1 <<< ord)) (len - (1 <<< ord)) ret
        -- the chunk is split (`BUG_ON(ord <= 0)`); the first split is kept for the history
        else if ord = 0 then none
        else markUsedLoop bits fuel (g.splitChunk ord start) start len
          (if ret = 0 then len ||| (ord <<< 16) else ret)

/-- What `mb_mark_used` updates before its loop: `bb_free`, `bb_first_free` when the extent
starts there, and the fragments counter, from the clusters beside the extent. -/
def markUsedStats (bits : Nat) (g : BuddyGroup) (start len : Nat) : BuddyGroup :=
  let g := { g with
    bbFree := g.bbFree - len
    bbFirstFree := if g.bbFirstFree = start then g.bbFirstFree + len else g.bbFirstFree }
  let mlen := decide (start ≠ 0) && !g.bitmap (start - 1)
  let max := decide (start + len < (1 <<< bits) <<< 3) && !g.bitmap (start + len)
  if mlen && max then { g with bbFragments := g.bbFragments + 1 }
  else if !mlen && !max then { g with bbFragments := g.bbFragments - 1 }
  else g

/-- `mb_mark_used(e4b, ex)` on the buddy of group `bdGroup` with `bd_blkbits = bits`: the group
and its return value. `none` is a `BUG_ON` (an extent past the group, or of another group)
or a failure of the loop. The loop's fuel covers a split at every order before each cluster. -/
def BuddyGroup.mbMarkUsed (bits : Nat) (g : BuddyGroup) (bdGroup : Nat) (ex : FreeExtent) :
    Option (BuddyGroup × Nat) :=
  if ex.feStart + ex.feLen > (1 <<< bits) <<< 3 ∨ bdGroup ≠ ex.feGroup then none
  else
    (markUsedLoop bits ((bits + 2) * (ex.feLen + 1)) (markUsedStats bits g ex.feStart ex.feLen)
        ex.feStart ex.feLen 0).map fun (g, ret) =>
      let g := mbSetLargestFreeOrder bits g
      ({ g with bitmap := writeBitsLoop true ex.feLen g.bitmap ex.feStart (ex.feStart + ex.feLen) },
        ret)

/-! ## The steps, field by field -/

namespace BuddyGroup

variable {g : BuddyGroup} {k i o j start : Nat}

theorem setBit_of_pos (h : 0 < k) : g.setBit k i = g.setBuddyBit k i := by
  rw [setBit, if_neg (by omega)]

theorem clearBit_of_pos (h : 0 < k) : g.clearBit k i = g.clearBuddyBit k i := by
  rw [clearBit, if_neg (by omega)]

/-- A bit of order 0 is one of the block bitmap: the buddy bitmaps keep theirs. -/
theorem setBit_buddy (hk : 1 ≤ k) :
    (g.setBit o j).buddy k i = if k = o ∧ i = j then true else g.buddy k i := by
  by_cases ho : o = 0
  · subst ho
    rw [setBit, if_pos rfl, if_neg (fun h => absurd h.1 (by omega))]
  · rw [setBit_of_pos (by omega), setBuddyBit_buddy]

@[simp] theorem setBit_bbCounters : (g.setBit o j).bbCounters = g.bbCounters := by
  unfold setBit
  split_ifs <;> rfl

@[simp] theorem clearBit_bbCounters : (g.clearBit o j).bbCounters = g.bbCounters := by
  unfold clearBit
  split_ifs <;> rfl

theorem setBit_bitmap (x : Nat) :
    (g.setBit o j).bitmap x = if o = 0 ∧ x = j then true else g.bitmap x := by
  by_cases ho : o = 0
  · subst ho
    by_cases hx : x = j
    · subst hx
      simp [setBit]
    · simp [setBit, hx]
  · rw [setBit_of_pos (by omega), if_neg (fun h => ho h.1)]
    rfl

theorem setBit_keepsStats : g.KeepsStats ((g.setBit o j).decCounter o) := by
  unfold setBit
  split_ifs <;> exact ⟨rfl, rfl, rfl⟩

/-- What allocating a whole chunk leaves in the buddy and the counters does not depend on the
bitmap. -/
theorem setBit_withBitmap (bm bm' : Nat → Bool) :
    ({ (({ g with bitmap := bm } : BuddyGroup).setBit o j).decCounter o with bitmap := bm' } :
      BuddyGroup) = { (g.setBit o j).decCounter o with bitmap := bm' } := by
  unfold setBit
  split_ifs <;> rfl

/-- Above order 1 a split writes only the buddy bitmaps and the counters. -/
theorem splitChunk_eq (ho : 1 ≤ o) :
    g.splitChunk (o + 1) start =
      (((((g.setBuddyBit (o + 1) (start >>> (o + 1))).decCounter (o + 1)).clearBuddyBit o
        (start >>> o >>> 1 <<< 1)).clearBuddyBit o ((start >>> o >>> 1 <<< 1) + 1)).incCounter
          o).incCounter o := by
  rw [splitChunk, Nat.add_sub_cancel, setBit_of_pos (by omega), clearBit_of_pos ho,
    clearBit_of_pos ho]

/-- The split of a chunk of order 1 sets its bit; its halves are bits of the block bitmap. -/
theorem splitChunk_one_eq :
    g.splitChunk 1 start =
      (((((g.setBuddyBit 1 (start >>> 1)).decCounter 1).clearBitmapBit
        (start >>> 1 <<< 1)).clearBitmapBit ((start >>> 1 <<< 1) + 1)).incCounter 0).incCounter
          0 := by
  rw [splitChunk, Nat.sub_self, setBit_of_pos Nat.one_pos, clearBit, clearBit, if_pos rfl,
    if_pos rfl, Nat.shiftRight_zero]

theorem splitChunk_buddy (hk : 1 ≤ k) :
    (g.splitChunk (o + 1) start).buddy k i =
      if k = o ∧ (i = start >>> o >>> 1 <<< 1 ∨ i = (start >>> o >>> 1 <<< 1) + 1) then false
      else if k = o + 1 ∧ i = start >>> (o + 1) then true
      else g.buddy k i := by
  rcases Nat.eq_zero_or_pos o with rfl | ho
  · rw [splitChunk_one_eq, if_neg (fun h => absurd h.1 (by omega))]
    exact setBuddyBit_buddy
  · rw [splitChunk_eq ho]
    simp only [incCounter_buddy, clearBuddyBit_buddy, decCounter_buddy, setBuddyBit_buddy]
    split_ifs <;> first | rfl | omega

theorem splitChunk_bbCounters :
    (g.splitChunk (o + 1) start).bbCounters k =
      g.bbCounters k - (if k = o + 1 then 1 else 0) + (if k = o then 2 else 0) := by
  simp only [splitChunk, Nat.add_sub_cancel, incCounter_bbCounters, clearBit_bbCounters,
    decCounter_bbCounters, setBit_bbCounters]
  split_ifs <;> omega

/-- A split writes the block bitmap only at the halves of a chunk of order 1, which it clears. -/
theorem splitChunk_bitmap (x : Nat) :
    (g.splitChunk (o + 1) start).bitmap x =
      if o = 0 ∧ x >>> 1 = start >>> 1 then false else g.bitmap x := by
  rcases Nat.eq_zero_or_pos o with rfl | ho
  · rw [splitChunk_one_eq]
    -- the halves are the two clusters of the pair of `start`
    have hpair : (x = (start >>> 1 <<< 1) + 1 ∨ x = start >>> 1 <<< 1) ↔
        x >>> 1 = start >>> 1 := by
      rw [Nat.shiftLeft_eq, Nat.shiftRight_one, Nat.shiftRight_one]
      omega
    by_cases hx : x >>> 1 = start >>> 1
    · rw [if_pos ⟨rfl, hx⟩]
      rcases hpair.mpr hx with h | h <;> simp [incCounter, clearBitmapBit, decCounter,
        setBuddyBit, h]
    · rw [if_neg (fun h => hx h.2)]
      have hne : ¬ (x = (start >>> 1 <<< 1) + 1 ∨ x = start >>> 1 <<< 1) :=
        fun h => hx (hpair.mp h)
      simp only [not_or] at hne
      simp [incCounter, clearBitmapBit, decCounter, setBuddyBit, hne.1, hne.2]
  · rw [splitChunk_eq ho, if_neg (fun h => by omega)]
    rfl

/-- What a split leaves in the buddy and the counters does not depend on the bitmap. -/
theorem splitChunk_withBitmap (bm bm' : Nat → Bool) :
    ({ (({ g with bitmap := bm } : BuddyGroup).splitChunk (o + 1) start) with bitmap := bm' } :
      BuddyGroup) = { g.splitChunk (o + 1) start with bitmap := bm' } := by
  rcases Nat.eq_zero_or_pos o with rfl | ho
  · rw [splitChunk_one_eq, splitChunk_one_eq]
    rfl
  · rw [splitChunk_eq ho, splitChunk_eq ho]
    rfl

theorem splitChunk_keepsStats : g.KeepsStats (g.splitChunk (o + 1) start) := by
  rcases Nat.eq_zero_or_pos o with rfl | ho
  · rw [splitChunk_one_eq]
    exact ⟨rfl, rfl, rfl⟩
  · rw [splitChunk_eq ho]
    exact ⟨rfl, rfl, rfl⟩

end BuddyGroup

/-! ## `mb_find_order_for_block` on the working invariant -/

/-- `mb_find_order_for_block` reads only the buddy bitmaps. -/
theorem findOrderLoop_congr {g g' : BuddyGroup} (h : g'.buddy = g.buddy) :
    ∀ (fuel block order : Nat), findOrderLoop g' fuel block order = findOrderLoop g fuel block order
  | 0, _, _ => rfl
  | fuel + 1, block, order => by
    rw [findOrderLoop, findOrderLoop, h, findOrderLoop_congr h fuel]

/-- The loop of `mb_find_order_for_block` from `order` returns the first order whose bit for
the block is clear, up to the highest. -/
theorem findOrderLoop_eq {bits : Nat} {g : BuddyGroup} {o : Nat} (ho : o ≤ bits + 1) :
    ∀ (fuel block order : Nat), fuel + order = bits + 2 → order ≤ o →
      (∀ k, order ≤ k → k < o → g.buddy k (block >>> (k + 1 - order)) = true) →
      g.buddy o (block >>> (o + 1 - order)) = false →
      findOrderLoop g fuel block order = o
  | 0, _, _, hsum, hle, _, _ => absurd hsum (by omega)
  | fuel + 1, block, order, hsum, hle, hset, hclear => by
    rw [findOrderLoop]
    by_cases hoe : order = o
    · subst hoe
      rw [Nat.add_sub_cancel_left] at hclear
      rw [if_pos hclear]
    · -- the bit at `order` is set: the loop goes on one order up
      have hbit : g.buddy order (block >>> 1) = true := by
        have := hset order le_rfl (by omega)
        rwa [Nat.add_sub_cancel_left] at this
      rw [if_neg (by simp [hbit])]
      apply findOrderLoop_eq ho fuel (block >>> 1) (order + 1) (by omega) (by omega)
      · intro k hk hk'
        rw [← Nat.shiftRight_add, show 1 + (k + 1 - (order + 1)) = k + 1 - order by omega]
        exact hset k (by omega) hk'
      · rw [← Nat.shiftRight_add, show 1 + (o + 1 - (order + 1)) = o + 1 - order by omega]
        exact hclear

/-- With the bits of the block set at every order left, the loop runs out of orders and
returns 0. -/
theorem findOrderLoop_eq_zero {g : BuddyGroup} :
    ∀ (fuel block order : Nat),
      (∀ k, order ≤ k → k < order + fuel → g.buddy k (block >>> (k + 1 - order)) = true) →
      findOrderLoop g fuel block order = 0
  | 0, _, _, _ => rfl
  | fuel + 1, block, order, hset => by
    have hbit : g.buddy order (block >>> 1) = true := by
      have := hset order le_rfl (by omega)
      rwa [Nat.add_sub_cancel_left] at this
    rw [findOrderLoop, if_neg (by simp [hbit])]
    apply findOrderLoop_eq_zero fuel (block >>> 1) (order + 1)
    intro k hk hk'
    rw [← Nat.shiftRight_add, show 1 + (k + 1 - (order + 1)) = k + 1 - order by omega]
    exact hset k (by omega) (by omega)

/-- `mb_find_order_for_block` on a block whose chunks of every order from 1 have their bits
set: order 0. -/
theorem mbFindOrderForBlock_eq_zero_of_set {bits b : Nat} {g : BuddyGroup}
    (hb : b < 2 ^ (bits + 3))
    (hset : ∀ k, 1 ≤ k → k ≤ bits + 1 → g.buddy k (b >>> k) = true) :
    mbFindOrderForBlock bits g b = some 0 := by
  have hlt : ¬ b ≥ 1 <<< (bits + 3) := by
    rw [Nat.one_shiftLeft]
    omega
  rw [mbFindOrderForBlock, if_neg hlt, findOrderLoop_eq_zero (bits + 1) b 1]
  intro k hk hk'
  rw [Nat.add_sub_cancel]
  exact hset k hk (by omega)

section Orders

variable {bits : Nat} {bm : Nat → Bool} {b o : Nat}

/-- Above the order reached, the chunks holding `b` are not free chunks of the working
invariant. -/
theorem not_coalesceFree_above {k : Nat} (hk : o < k) : ¬ CoalesceFree bits bm b o k (b >>> k) := by
  unfold CoalesceFree
  rw [if_neg (by omega), if_pos (shiftRight_succ_eq_div_two rfl).symm, if_pos rfl]
  omega

/-- In the working invariant at `o`, `mb_find_order_for_block` finds `o` for `b`: below it the
chunk holding `b` has a free parent, so its bit is set; at `o` its bit is clear; at order 0
the bits of every order from 1 are set, and the loop returns 0. -/
theorem Coalescing.mbFindOrderForBlock_eq {g : BuddyGroup} (h : Coalescing bits bm b o g) :
    mbFindOrderForBlock bits g b = some o := by
  have hotop := h.order_le
  rcases Nat.eq_zero_or_pos o with rfl | ho
  · apply mbFindOrderForBlock_eq_zero_of_set h.block_lt
    intro k hk hk'
    rw [← Bool.not_eq_false]
    intro hclear
    exact not_coalesceFree_above (by omega) ((h.buddy_eq_false_iff k (b >>> k) hk hk'
      (shiftRight_lt_two_pow h.block_lt (by omega))).mp hclear)
  have hlt : ¬ b ≥ 1 <<< (bits + 3) := by
    rw [Nat.one_shiftLeft]
    have := h.block_lt
    omega
  rw [mbFindOrderForBlock, if_neg hlt]
  congr 1
  apply findOrderLoop_eq hotop (bits + 1) b 1 (by omega) ho
  · intro k hk hko
    rw [Nat.add_sub_cancel, ← Bool.not_eq_false]
    intro hclear
    have hfree := (h.buddy_eq_false_iff k (b >>> k) hk (by omega)
      (shiftRight_lt_two_pow h.block_lt (by omega))).mp hclear
    unfold CoalesceFree at hfree
    rw [if_pos hko] at hfree
    rcases hfree.2 with htop | hparent
    · omega
    · rw [← shiftRight_succ_eq_div_two rfl] at hparent
      exact hparent (h.chunkFree.of_le hko)
  · rw [Nat.add_sub_cancel]
    exact (h.buddy_eq_false_iff o (b >>> o) ho hotop
      (shiftRight_lt_two_pow h.block_lt (by omega))).mpr coalesceFree_chain

/-- A free chunk holding `b` of an order from which no higher chunk holding `b` is free: the
working invariant at that order is the buddy itself. -/
theorem Coalescing.of_counted {g : BuddyGroup} (h : BuddyCounted bits g)
    (hb : b < 2 ^ (bits + 3)) (ho : o ≤ bits + 1) (hfree : ChunkFree g.bitmap o (b >>> o))
    (hstop : o = bits + 1 ∨ ¬ ChunkFree g.bitmap (o + 1) (b >>> (o + 1))) :
    Coalescing bits g.bitmap b o g where
  bitmap_eq := rfl
  order_le := ho
  block_lt := hb
  chunkFree := hfree
  buddy_eq_false_iff k i hk hk' hi := by
    rw [coalesceFree_iff_of_stop hfree hstop hk']
    exact h.buddy_eq_false_iff k i hk hk' hi
  counters_eq k hk := by
    rw [h.counters_eq k hk, freeChunks]
    congr 2
    exact Finset.filter_congr fun i _ => (coalesceFree_iff_of_stop hfree hstop hk).symm

/-- A free cluster lies in a free chunk of some order, from which no higher chunk holding it
is free: order 0 when its buddy cluster is in use. -/
theorem exists_stop_order (bits : Nat) (hfree : bm b = false) :
    ∃ o, o ≤ bits + 1 ∧ ChunkFree bm o (b >>> o) ∧
      (o = bits + 1 ∨ ¬ ChunkFree bm (o + 1) (b >>> (o + 1))) := by
  -- the highest order, up to `bits + 1`, whose chunk holding `b` is free
  let P : Nat → Prop := fun k => ChunkFree bm k (b >>> k)
  have hzero : P 0 := by
    show ChunkFree bm 0 (b >>> 0)
    rw [chunkFree_zero, Nat.shiftRight_zero]
    exact hfree
  have hspec : P (Nat.findGreatest P (bits + 1)) := Nat.findGreatest_spec (by omega) hzero
  have hle : Nat.findGreatest P (bits + 1) ≤ bits + 1 := Nat.findGreatest_le _
  refine ⟨Nat.findGreatest P (bits + 1), hle, hspec, ?_⟩
  by_cases htop : Nat.findGreatest P (bits + 1) = bits + 1
  · exact .inl htop
  · have hnext : ¬ P (Nat.findGreatest P (bits + 1) + 1) :=
      Nat.findGreatest_is_greatest (Nat.lt_succ_self _) (by omega)
    exact .inr hnext

/-! ## A split -/

/-- One split: from the working invariant at `o + 1`, splitting the chunk holding `b` gives
the buddy and counters of the working invariant at `o`, the merge of `mb_free_blocks` undone.
Down to order 0 the halves are bits of the block bitmap, which the invariant does not read. -/
theorem Coalescing.split {g : BuddyGroup} (h : Coalescing bits bm b (o + 1) g) :
    Coalescing bits bm b o { g.splitChunk (o + 1) b with bitmap := bm } := by
  have hpar := h.chunkFree
  have htop : o < bits + 1 := by
    have := h.order_le
    omega
  refine ⟨rfl, by omega, h.block_lt, hpar.of_le (by omega), ?_, ?_⟩
  · intro k i hk hk' hi
    show (g.splitChunk (o + 1) b).buddy k i = false ↔ _
    rw [BuddyGroup.splitChunk_buddy hk]
    split_ifs with hpair hparent
    · -- the two halves, cleared
      obtain ⟨rfl, hpair⟩ := hpair
      simp only [true_iff]
      exact coalesceFree_self_of_pair hpar (div_two_eq_shiftRight_iff.mpr hpair)
    · -- the chunk split, set
      obtain ⟨rfl, rfl⟩ := hparent
      simp only [false_iff]
      exact not_coalesceFree_parent
    · rw [h.buddy_eq_false_iff k i hk hk' hi]
      by_cases hko : k = o
      · subst hko
        rw [coalesceFree_succ_self hpar (by omega)]
        have hnot : i / 2 ≠ b >>> (k + 1) := fun hp =>
          hpair ⟨rfl, div_two_eq_shiftRight_iff.mp hp⟩
        exact ⟨fun hc => hc.1, fun hc => ⟨hc, hnot⟩⟩
      · by_cases hko' : k = o + 1
        · subst hko'
          rw [coalesceFree_succ_succ]
          have hne : i ≠ b >>> (o + 1) := fun hi' => hparent ⟨rfl, hi'⟩
          exact ⟨fun hc => hc.resolve_right hne, .inl⟩
        · exact coalesceFree_succ_of_ne hko hko'
  · intro k hk
    show (g.splitChunk (o + 1) b).bbCounters k = _
    rw [BuddyGroup.splitChunk_bbCounters, h.counters_eq k hk]
    by_cases hko : k = o
    · -- the halves enter order `o`: two chunks more
      subst hko
      rw [card_coalesceFree_self h.block_lt htop hpar, if_neg (show k ≠ k + 1 by omega),
        if_pos rfl]
      push_cast
      ring
    · by_cases hko' : k = o + 1
      · -- the chunk split leaves order `o + 1`
        subst hko'
        rw [card_coalesceFree_succ h.block_lt htop, if_pos rfl, if_neg hko]
        push_cast
        ring
      · rw [filter_coalesceFree_of_ne hko hko', if_neg hko, if_neg hko']
        ring

/-! ## A whole chunk -/

/-- Writing the chunk `c` of order `o`, aligned at `b`, writes exactly its clusters. -/
theorem writeRange_chunk {c : Nat} (halign : c <<< o = b) (v : Bool) (x : Nat) :
    writeRange bm b (2 ^ o) v x = if x >>> o = c then v else bm x := by
  rw [writeRange]
  congr 1
  rw [← halign]
  exact propext shiftRight_eq_iff.symm

/-- A chunk of order `k ≥ o` other than the one holding `b` has no cluster of the chunk of order
`o` holding `b`. -/
theorem shiftRight_ne_of_ge {x i k : Nat} (hk : o ≤ k) (hx : x >>> k = i) (hi : i ≠ b >>> k) :
    x >>> o ≠ b >>> o := fun hxo => hi (by
  rw [← hx, show k = o + (k - o) by omega, Nat.shiftRight_add, hxo, ← Nat.shiftRight_add])

/-- The chunks of order `k ≤ o` outside the chunk of order `o` holding `b`. -/
theorem shiftRight_ne_of_le {x i k : Nat} (hk : k ≤ o) (hx : x >>> k = i)
    (hi : i >>> (o - k) ≠ b >>> o) : x >>> o ≠ b >>> o := fun hxo => hi (by
  rw [← hx, ← Nat.shiftRight_add, show k + (o - k) = o by omega, hxo])

/-- After the chunk of order `o` holding `b`, aligned at `b`, is allocated, the buddy of the new
bitmap is the working invariant at `o` but for that chunk. -/
theorem buddyFree_allocate (hfree : ChunkFree bm o (b >>> o)) (halign : b >>> o <<< o = b)
    {k i : Nat} (hotop : o ≤ bits + 1) :
    BuddyFree bits (writeRange bm b (2 ^ o) true) k i ↔
      CoalesceFree bits bm b o k i ∧ ¬ (k = o ∧ i = b >>> o) := by
  have hbm : ∀ x, writeRange bm b (2 ^ o) true x = if x >>> o = b >>> o then true else bm x :=
    writeRange_chunk halign true
  -- a chunk with no cluster of the allocated one is as free as before
  have hframe : ∀ {m j : Nat}, (∀ x, x >>> m = j → x >>> o ≠ b >>> o) →
      (ChunkFree (writeRange bm b (2 ^ o) true) m j ↔ ChunkFree bm m j) := fun hout =>
    chunkFree_congr fun x hx => by rw [hbm, if_neg (hout x hx)]
  -- a chunk with a cluster of the allocated one is not free
  have hused : ∀ {m j x : Nat}, x >>> m = j → x >>> o = b >>> o →
      ¬ ChunkFree (writeRange bm b (2 ^ o) true) m j := fun hx hxo hchunk => by
    have := (chunkFree_iff.mp hchunk) _ hx
    rw [hbm, if_pos hxo] at this
    exact Bool.noConfusion this
  unfold CoalesceFree
  by_cases hko : k < o
  · -- below `o`: the chunks inside the allocated one were not free chunks of the buddy
    rw [if_pos hko]
    have hne : ¬ (k = o ∧ i = b >>> o) := fun h => by omega
    simp only [hne, not_false_eq_true, and_true]
    by_cases hin : i >>> (o - k) = b >>> o
    · have hx : i <<< k >>> k = i := Nat.shiftLeft_shiftRight i k
      have hxo : i <<< k >>> o = b >>> o :=
        calc i <<< k >>> o = i <<< k >>> k >>> (o - k) := by
              rw [← Nat.shiftRight_add, Nat.add_sub_of_le hko.le]
          _ = b >>> o := by rw [hx, hin]
      refine iff_of_false (fun hf => hused hx hxo hf.1) fun hf => ?_
      rcases hf.2 with htop | hparent
      · omega
      · apply hparent
        rw [← shiftRight_succ_eq_div_two hx]
        exact (show ChunkFree bm o (i <<< k >>> o) by rw [hxo]; exact hfree).of_le (by omega)
    · rw [BuddyFree, BuddyFree, hframe fun x hx => shiftRight_ne_of_le hko.le hx hin,
        hframe fun x hx => shiftRight_ne_of_le (show k + 1 ≤ o by omega) hx (by
          rwa [← Nat.shiftRight_one, ← Nat.shiftRight_add,
            show 1 + (o - (k + 1)) = o - k by omega])]
  · rw [if_neg hko]
    by_cases hpair : i / 2 = b >>> (k + 1)
    · rw [if_pos hpair]
      by_cases hi : i = b >>> k
      · -- the chunk holding `b`: in use from `o` up
        subst hi
        rw [if_pos rfl]
        refine iff_of_false (fun hf => hused rfl rfl hf.1) ?_
        rintro ⟨rfl, hne⟩
        exact hne ⟨rfl, rfl⟩
      · -- beside it: its parent holds `b`, in use
        rw [if_neg hi, BuddyFree, hpair]
        have hnot : ¬ (k = o ∧ i = b >>> o) := fun h => hi (by rw [h.1, h.2])
        simp only [hnot, not_false_eq_true, and_true]
        rw [hframe fun x hx => shiftRight_ne_of_ge (by omega) hx hi]
        exact ⟨fun hf => hf.1, fun hf => ⟨hf, by
          by_cases htop : k = bits + 1
          · exact .inl htop
          · exact .inr (hused rfl rfl)⟩⟩
    · -- elsewhere: neither the chunk nor its parent holds `b`
      rw [if_neg hpair]
      have hi : i ≠ b >>> k := fun h => hpair (by rw [h, ← shiftRight_succ_eq_div_two rfl])
      have hnot : ¬ (k = o ∧ i = b >>> o) := fun h => hi (by rw [h.1, h.2])
      simp only [hnot, not_false_eq_true, and_true]
      rw [BuddyFree, BuddyFree, hframe fun x hx => shiftRight_ne_of_ge (by omega) hx hi,
        hframe fun x hx => shiftRight_ne_of_ge (show o ≤ k + 1 by omega) hx
          (fun h => hpair h)]

/-- A whole chunk: from the working invariant at `o`, allocating the chunk holding `b`, aligned
at `b`, gives the buddy and counters of the bitmap with that chunk in use. -/
theorem Coalescing.allocate {g : BuddyGroup} (h : Coalescing bits bm b o g)
    (halign : b >>> o <<< o = b) :
    BuddyCounted bits
      { (g.setBit o (b >>> o)).decCounter o with bitmap := writeRange bm b (2 ^ o) true } where
  buddy_eq_false_iff k i hk hk' hi := by
    show ((g.setBit o (b >>> o)).decCounter o).buddy k i = false ↔
      BuddyFree bits (writeRange bm b (2 ^ o) true) k i
    rw [BuddyGroup.decCounter_buddy, BuddyGroup.setBit_buddy hk,
      buddyFree_allocate h.chunkFree halign h.order_le]
    split_ifs with hc
    · exact iff_of_false not_false fun hcf => hcf.2 hc
    · rw [h.buddy_eq_false_iff k i hk hk' hi]
      exact ⟨fun hcf => ⟨hcf, hc⟩, fun hcf => hcf.1⟩
  counters_eq k hk := by
    show ((g.setBit o (b >>> o)).decCounter o).bbCounters k =
      ((Finset.range (2 ^ (bits + 3 - k))).filter
        (BuddyFree bits (writeRange bm b (2 ^ o) true) k)).card
    rw [BuddyGroup.decCounter_bbCounters, BuddyGroup.setBit_bbCounters, h.counters_eq k hk]
    by_cases hko : k = o
    · -- the chunk allocated leaves its order
      subst hko
      have hsub : {b >>> k} ⊆ Finset.range (2 ^ (bits + 3 - k)) :=
        Finset.singleton_subset_iff.mpr
          (Finset.mem_range.mpr (shiftRight_lt_two_pow h.block_lt (by omega)))
      have hcount := card_filter_add_card_filter
        (P := BuddyFree bits (writeRange bm b (2 ^ k) true) k)
        (Q := CoalesceFree bits bm b k k) hsub fun i _ hi => by
          rw [buddyFree_allocate h.chunkFree halign h.order_le]
          have hne : ¬ (k = k ∧ i = b >>> k) := fun h => hi (Finset.mem_singleton.mpr h.2)
          exact ⟨fun hc => hc.1, fun hc => ⟨hc, hne⟩⟩
      have hnew : ¬ BuddyFree bits (writeRange bm b (2 ^ k) true) k (b >>> k) := fun hf =>
        ((buddyFree_allocate h.chunkFree halign h.order_le).mp hf).2 ⟨rfl, rfl⟩
      rw [card_filter_singleton, card_filter_singleton, if_neg hnew,
        if_pos coalesceFree_chain] at hcount
      rw [if_pos rfl]
      omega
    · rw [if_neg hko]
      congr 2
      exact Finset.filter_congr fun i _ => by
        rw [buddyFree_allocate h.chunkFree halign h.order_le]
        exact ⟨fun hc => ⟨hc, fun h => hko h.1⟩, fun hc => hc.1⟩

end Orders

/-! ## The loop -/

theorem mbFindBuddyMax_of_le {bits o : Nat} (ho' : o ≤ bits + 1) :
    mbFindBuddyMax bits o = some (2 ^ (bits + 3 - o)) := by
  rcases Nat.eq_zero_or_pos o with rfl | ho
  · rw [mbFindBuddyMax, if_neg (by omega), if_pos rfl, Nat.one_shiftLeft, Nat.sub_zero]
  · rw [mbFindBuddyMax, if_neg (by omega), if_neg (by omega), Nat.shiftLeft_eq,
      Nat.one_shiftLeft, Nat.shiftRight_eq_div_pow, ← Nat.pow_add, Nat.pow_div (by omega) (by omega)]
    congr 2
    omega

/-- `mb_find_order_for_block` does not read the block bitmap. -/
theorem mbFindOrderForBlock_withBitmap (bits : Nat) (g : BuddyGroup) (bm : Nat → Bool)
    (b : Nat) : mbFindOrderForBlock bits { g with bitmap := bm } b = mbFindOrderForBlock bits g b := by
  have hcongr : ∀ fuel block order, findOrderLoop { g with bitmap := bm } fuel block order =
      findOrderLoop g fuel block order := findOrderLoop_congr rfl
  rw [mbFindOrderForBlock, mbFindOrderForBlock, hcongr]

theorem markUsedLoop_zero_len (bits fuel : Nat) (g : BuddyGroup) (start ret : Nat) :
    markUsedLoop bits fuel g start 0 ret = some (g, ret) := by
  cases fuel <;> rfl

section Loop

variable {bits : Nat} {bm : Nat → Bool} {s0 e : Nat}

/-- A round that allocates the whole chunk of order `o` holding `s`: the buddy is counted for
the bitmap with `[s0, s + 2 ^ o)` in use, and the group's bitmap is the old one outside that
range (at order 0 the round sets the bit of `s`, inside it). -/
theorem Coalescing.allocate_round {g : BuddyGroup} {s o : Nat}
    (hbm : ∀ x, x < s0 ∨ s ≤ x → g.bitmap x = bm x) (hs : s0 ≤ s)
    (h : Coalescing bits (writeRange bm s0 (s - s0) true) s o
      { g with bitmap := writeRange bm s0 (s - s0) true }) (hwhole : s >>> o <<< o = s) :
    BuddyCounted bits { (g.setBit o (s >>> o)).decCounter o with
        bitmap := writeRange bm s0 (s + 2 ^ o - s0) true } ∧
      ∀ x, x < s0 ∨ s + 2 ^ o ≤ x → ((g.setBit o (s >>> o)).decCounter o).bitmap x = bm x := by
  have hpow : 0 < 2 ^ o := Nat.two_pow_pos o
  have happ : writeRange (writeRange bm s0 (s - s0) true) s (2 ^ o) true =
      writeRange bm s0 (s + 2 ^ o - s0) true := by
    have := writeRange_append bm s0 (s - s0) (2 ^ o) true
    rwa [Nat.add_sub_cancel' hs, show s - s0 + 2 ^ o = s + 2 ^ o - s0 by omega] at this
  refine ⟨?_, fun x hx => ?_⟩
  · rw [← happ, ← BuddyGroup.setBit_withBitmap (writeRange bm s0 (s - s0) true)]
    exact h.allocate hwhole
  · have hne : ¬ (o = 0 ∧ x = s >>> o) := by
      rintro ⟨rfl, hxs⟩
      rw [Nat.shiftRight_zero] at hxs
      rw [pow_zero] at hx
      omega
    show (g.setBit o (s >>> o)).bitmap x = bm x
    rw [BuddyGroup.setBit_bitmap, if_neg hne]
    exact hbm x (by omega)

/-- A round that splits the chunk of order `o + 1` holding `s` leaves the group's bitmap the old
one outside `[s0, s)`: splitting a chunk of order 1 clears its two halves, which are free. -/
theorem Coalescing.split_round_bitmap {g : BuddyGroup} {s o : Nat}
    (hbm : ∀ x, x < s0 ∨ s ≤ x → g.bitmap x = bm x)
    (h : Coalescing bits (writeRange bm s0 (s - s0) true) s (o + 1)
      { g with bitmap := writeRange bm s0 (s - s0) true }) :
    ∀ x, x < s0 ∨ s ≤ x → (g.splitChunk (o + 1) s).bitmap x = bm x := by
  intro x hx
  rw [BuddyGroup.splitChunk_bitmap]
  split_ifs with hpair
  · obtain ⟨rfl, hx1⟩ := hpair
    have hchunk : ChunkFree (writeRange bm s0 (s - s0) true) 1 (s >>> 1) := h.chunkFree
    have hW := chunkFree_iff.mp hchunk x hx1
    rw [writeRange_of_not_mem (by omega)] at hW
    exact hW.symm
  · exact hbm x hx

/-- The loop of `mb_mark_used` on the free clusters `[s0, e)`, from `s` with `r` clusters
left: between two rounds the buddy is the working invariant, at the order of the chunk
holding `s`, of the bitmap with `[s0, s)` in use, and the group's bitmap is the old one outside
`[s0, s)`. The loop ends with the buddy and counters of the bitmap with `[s0, e)` in use, the
group's bitmap the old one outside the extent and its statistics untouched. The fuel covers a
split at each order before each cluster. -/
theorem markUsedLoop_spec (he : e ≤ 2 ^ (bits + 3))
    (hfree : ∀ x, s0 ≤ x → x < e → bm x = false) :
    ∀ (fuel : Nat) (g : BuddyGroup) (s r ret o : Nat),
      (∀ x, x < s0 ∨ s ≤ x → g.bitmap x = bm x) → s0 ≤ s → s + r = e → 0 < r →
      Coalescing bits (writeRange bm s0 (s - s0) true) s o
        { g with bitmap := writeRange bm s0 (s - s0) true } →
      o + (bits + 2) * r ≤ fuel →
      ∃ g' ret', markUsedLoop bits fuel g s r ret = some (g', ret') ∧
        (∀ x, x < s0 ∨ e ≤ x → g'.bitmap x = bm x) ∧ g.KeepsStats g' ∧
        BuddyCounted bits { g' with bitmap := writeRange bm s0 (e - s0) true } := by
  intro fuel
  induction fuel with
  | zero =>
    intro g s r ret o _ _ _ hr _ hfuel
    have : r ≤ (bits + 2) * r := Nat.le_mul_of_pos_left r (by omega)
    omega
  | succ fuel ih =>
    intro g s r ret o hbm hs hsr hr h hfuel
    have hotop := h.order_le
    have hord : mbFindOrderForBlock bits g s = some o := by
      rw [← mbFindOrderForBlock_withBitmap bits g (writeRange bm s0 (s - s0) true)]
      exact h.mbFindOrderForBlock_eq
    rw [markUsedLoop, if_neg (by omega), hord]
    dsimp only
    by_cases hwhole : s >>> o <<< o = s ∧ r ≥ 1 <<< o
    · -- the chunk holding `s` is allocated whole
      have hlt := shiftRight_lt_two_pow h.block_lt (show o ≤ bits + 3 by omega)
      rw [if_pos hwhole, mbFindBuddyMax_of_le hotop]
      dsimp only
      rw [if_neg (Nat.not_le.mpr hlt), Nat.one_shiftLeft]
      have hr' : 2 ^ o ≤ r := by
        rw [← Nat.one_shiftLeft]
        exact hwhole.2
      have hpow : 0 < 2 ^ o := Nat.two_pow_pos o
      obtain ⟨hcount, hbm₁⟩ := h.allocate_round hbm hs hwhole.1
      have hkeep : g.KeepsStats ((g.setBit o (s >>> o)).decCounter o) :=
        BuddyGroup.setBit_keepsStats
      by_cases hlast : r = 2 ^ o
      · -- the chunk ends the extent
        rw [show r - 2 ^ o = 0 by omega, markUsedLoop_zero_len]
        refine ⟨_, ret, rfl, fun x hx => hbm₁ x (by omega), hkeep, ?_⟩
        rwa [show e - s0 = s + 2 ^ o - s0 by omega]
      · -- the rest starts at a free cluster, in a free chunk of some order
        have hnext : writeRange bm s0 (s + 2 ^ o - s0) true (s + 2 ^ o) = false := by
          rw [writeRange_of_not_mem (by omega)]
          exact hfree _ (by omega) (by omega)
        obtain ⟨o', ho'top, hchunk, hstop⟩ := exists_stop_order bits hnext
        have hinv' : Coalescing bits (writeRange bm s0 (s + 2 ^ o - s0) true) (s + 2 ^ o) o'
            { (g.setBit o (s >>> o)).decCounter o with
              bitmap := writeRange bm s0 (s + 2 ^ o - s0) true } :=
          Coalescing.of_counted hcount (by omega) ho'top hchunk hstop
        -- each round costs one unit of fuel; an allocation frees `bits + 2` with a cluster
        have hmul : (bits + 2) * (r - 2 ^ o) + (bits + 2) * 2 ^ o = (bits + 2) * r := by
          rw [← Nat.mul_add, Nat.sub_add_cancel hr']
        have hmul' : bits + 2 ≤ (bits + 2) * 2 ^ o :=
          Nat.le_mul_of_pos_right _ (Nat.two_pow_pos o)
        obtain ⟨g', ret', hrun, hbm', hkeeps, hcounted⟩ :=
          ih ((g.setBit o (s >>> o)).decCounter o) (s + 2 ^ o) (r - 2 ^ o) ret o' hbm₁
            (by omega) (by omega) (by omega) hinv' (by omega)
        exact ⟨g', ret', hrun, hbm', hkeep.trans hkeeps, hcounted⟩
    · -- the chunk holding `s` is split; a chunk of order 0 is always whole
      obtain ⟨o', rfl⟩ : ∃ o', o = o' + 1 := by
        rcases Nat.eq_zero_or_pos o with rfl | ho
        · refine absurd ⟨?_, ?_⟩ hwhole
          · rw [Nat.shiftRight_zero, Nat.shiftLeft_zero]
          · rw [Nat.shiftLeft_zero]
            omega
        · exact ⟨o - 1, by omega⟩
      rw [if_neg hwhole, if_neg (by omega)]
      have hsplit := h.split
      rw [BuddyGroup.splitChunk_withBitmap] at hsplit
      obtain ⟨g', ret', hrun, hbm', hkeeps, hcounted⟩ := ih (g.splitChunk (o' + 1) s) s r _ o'
        (h.split_round_bitmap hbm) hs hsr hr hsplit (by omega)
      exact ⟨g', ret', hrun, hbm', BuddyGroup.splitChunk_keepsStats.trans hkeeps, hcounted⟩

end Loop

/-! ## `mb_mark_used` -/

section MarkUsed

variable {bits : Nat} {g : BuddyGroup} {start len : Nat}

@[simp] theorem markUsedStats_bitmap : (markUsedStats bits g start len).bitmap = g.bitmap := by
  unfold markUsedStats
  dsimp only
  split_ifs <;> rfl

@[simp] theorem markUsedStats_buddy : (markUsedStats bits g start len).buddy = g.buddy := by
  unfold markUsedStats
  dsimp only
  split_ifs <;> rfl

@[simp] theorem markUsedStats_bbCounters :
    (markUsedStats bits g start len).bbCounters = g.bbCounters := by
  unfold markUsedStats
  dsimp only
  split_ifs <;> rfl

@[simp] theorem markUsedStats_bbFree : (markUsedStats bits g start len).bbFree = g.bbFree - len := by
  unfold markUsedStats
  dsimp only
  split_ifs <;> rfl

@[simp] theorem markUsedStats_bbFirstFree :
    (markUsedStats bits g start len).bbFirstFree =
      if g.bbFirstFree = start then g.bbFirstFree + len else g.bbFirstFree := by
  unfold markUsedStats
  dsimp only
  split_ifs <;> rfl

/-- The fragments counter after the extent is taken: the count of free extents, from a
consistent group and free clusters. -/
theorem markUsedStats_bbFragments (hinv : BuddyInv bits g) (hlen : 0 < len)
    (hrange : start + len ≤ 2 ^ (bits + 3))
    (hfree : ∀ x, start ≤ x → x < start + len → g.bitmap x = false) :
    (markUsedStats bits g start len).bbFragments =
      ((Finset.range (2 ^ (bits + 3))).filter
        (RunStart (writeRange g.bitmap start len true))).card := by
  -- the runs are counted from the new bitmap, whose extent freed again gives the old one
  have hused : ∀ x, start ≤ x → x < start + len → writeRange g.bitmap start len true x = true :=
    fun x h₁ h₂ => writeRange_of_mem h₁ h₂ true
  have hruns := card_runStart_writeRange hlen hrange hused
  rw [writeRange_writeRange_self, writeRange_eq_self hfree, ← hinv.fragments_eq,
    writeRange_of_not_mem (.inr le_rfl)] at hruns
  have hends : (start = 0 ∨ writeRange g.bitmap start len true (start - 1) = true) ↔
      (start = 0 ∨ g.bitmap (start - 1) = true) := by
    by_cases h0 : start = 0
    · simp [h0]
    · rw [writeRange_of_not_mem (.inl (by omega))]
  simp only [hends] at hruns
  unfold markUsedStats
  dsimp only
  -- the source's `mlen` and `max`: whether the clusters beside the extent are free
  have hmlen : (decide (start ≠ 0) && !g.bitmap (start - 1)) =
      !decide (start = 0 ∨ g.bitmap (start - 1) = true) := by
    by_cases h0 : start = 0 <;> cases g.bitmap (start - 1) <;> simp [h0]
  have hmax : (decide (start + len < (1 <<< bits) <<< 3) && !g.bitmap (start + len)) =
      decide (start + len < 2 ^ (bits + 3) ∧ g.bitmap (start + len) = false) := by
    rw [shiftLeft_three]
    cases g.bitmap (start + len) <;> simp
  rw [hmlen, hmax]
  by_cases hs : start = 0 ∨ g.bitmap (start - 1) = true <;>
    by_cases he : start + len < 2 ^ (bits + 3) ∧ g.bitmap (start + len) = false <;>
    simp [hs, he] at hruns ⊢ <;> omega

/-- The statistics `mb_mark_used` updates first leave the buddy and its counters alone. -/
theorem BuddyCounted.markUsedStats (h : BuddyCounted bits g) :
    BuddyCounted bits { markUsedStats bits g start len with bitmap := g.bitmap } :=
  h.of_eq rfl (by simp) (by simp)

/-- The loop of `mb_mark_used` on a free extent, from the chunk holding the start, from which no
higher chunk holding it is free: it ends with the buddy and counters of the bitmap with the
extent in use, and the bitmap as it was outside the extent. -/
theorem markUsedLoop_start (h : BuddyCounted bits g) (hlen : 0 < len)
    (hrange : start + len ≤ 2 ^ (bits + 3))
    (hfree : ∀ x, start ≤ x → x < start + len → g.bitmap x = false) :
    ∃ g' ret, markUsedLoop bits ((bits + 2) * (len + 1)) (markUsedStats bits g start len) start
        len 0 = some (g', ret) ∧
      (∀ x, x < start ∨ start + len ≤ x → g'.bitmap x = g.bitmap x) ∧
      (markUsedStats bits g start len).KeepsStats g' ∧
      BuddyCounted bits { g' with bitmap := writeRange g.bitmap start len true } := by
  obtain ⟨o, hotop, hchunk, hstop⟩ := exists_stop_order bits (hfree _ le_rfl (by omega))
  have hstart : Coalescing bits (writeRange g.bitmap start (start - start) true) start o
      { markUsedStats bits g start len with
        bitmap := writeRange g.bitmap start (start - start) true } := by
    rw [Nat.sub_self, writeRange_zero]
    exact Coalescing.of_counted h.markUsedStats (by omega) hotop hchunk hstop
  have hfuel : o + (bits + 2) * len ≤ (bits + 2) * (len + 1) := by
    rw [Nat.mul_succ]
    omega
  obtain ⟨g', ret, hrun, hbm', hkeeps, hcounted⟩ :=
    markUsedLoop_spec hrange hfree _ _ start len 0 o (fun x _ => by rw [markUsedStats_bitmap])
      le_rfl rfl hlen hstart hfuel
  rw [Nat.add_sub_cancel_left] at hcounted
  exact ⟨g', ret, hrun, hbm', hkeeps, hcounted⟩

/-- Setting a range of a bitmap hides what the bitmap held inside it. -/
theorem writeRange_congr {bm bm' : Nat → Bool} {first count : Nat} (v : Bool)
    (h : ∀ x, x < first ∨ first + count ≤ x → bm' x = bm x) :
    writeRange bm' first count v = writeRange bm first count v := by
  funext x
  by_cases hx : first ≤ x ∧ x < first + count
  · rw [writeRange_of_mem hx.1 hx.2, writeRange_of_mem hx.1 hx.2]
  · rw [writeRange_of_not_mem (by omega), writeRange_of_not_mem (by omega)]
    exact h x (by omega)

/-- What `mb_mark_used` returns once its loop has run: the largest free order recomputed and
the extent's bits set (`ext4bf_set_bits`), over a bitmap the loop wrote only inside the
extent. -/
theorem mbMarkUsed_of_loop {bdGroup : Nat} {ex : FreeExtent} {g' : BuddyGroup} {ret : Nat}
    (hgroup : ex.feGroup = bdGroup) (hrange : ex.feStart + ex.feLen ≤ 2 ^ (bits + 3))
    (hrun : markUsedLoop bits ((bits + 2) * (ex.feLen + 1)) (markUsedStats bits g ex.feStart ex.feLen)
      ex.feStart ex.feLen 0 = some (g', ret))
    (hbm' : ∀ x, x < ex.feStart ∨ ex.feStart + ex.feLen ≤ x → g'.bitmap x = g.bitmap x) :
    BuddyGroup.mbMarkUsed bits g bdGroup ex =
      some ({ mbSetLargestFreeOrder bits g' with
        bitmap := writeRange g.bitmap ex.feStart ex.feLen true }, ret) := by
  have hset : writeBitsLoop true ex.feLen (mbSetLargestFreeOrder bits g').bitmap ex.feStart
      (ex.feStart + ex.feLen) = writeRange g.bitmap ex.feStart ex.feLen true := by
    rw [mbSetLargestFreeOrder_bitmap, writeBitsLoop_eq true _ _ _ _ (by omega),
      Nat.add_sub_cancel_left, writeRange_congr true hbm']
  rw [BuddyGroup.mbMarkUsed, if_neg (by rw [shiftLeft_three]; omega), hrun, ← hset]
  rfl

/-- The group `mb_mark_used` leaves after its loop on a free extent of a consistent group is
consistent: its buddy and counters come from the loop, `bb_free`, `bb_first_free` and
`bb_fragments` from the updates before it. -/
theorem BuddyInv.markUsed {g' : BuddyGroup} (hinv : BuddyInv bits g) (hlen : 0 < len)
    (hrange : start + len ≤ 2 ^ (bits + 3))
    (hfree : ∀ x, start ≤ x → x < start + len → g.bitmap x = false)
    (hkeeps : (markUsedStats bits g start len).KeepsStats g')
    (hcounted : BuddyCounted bits { g' with bitmap := writeRange g.bitmap start len true }) :
    BuddyInv bits { mbSetLargestFreeOrder bits g' with
      bitmap := writeRange g.bitmap start len true } := by
  have hused : ∀ x, start ≤ x → x < start + len → writeRange g.bitmap start len true x = true :=
    fun x h₁ h₂ => writeRange_of_mem h₁ h₂ true
  refine ⟨hcounted.of_eq rfl rfl rfl, ?_, ?_, ?_, rfl⟩
  · -- `bb_free` went down by the extent's length
    have hcard := card_free_writeRange hrange hused
    rw [writeRange_writeRange_self, writeRange_eq_self hfree, ← hinv.free_eq] at hcard
    show g'.bbFree = ((Finset.range (2 ^ (bits + 3))).filter
      (writeRange g.bitmap start len true · = false)).card
    rw [hkeeps.bbFree_eq, markUsedStats_bbFree]
    omega
  · -- `bb_first_free` moved past the extent if it started there
    intro x hx hxfree
    change writeRange g.bitmap start len true x = false at hxfree
    show g'.bbFirstFree ≤ x
    rw [hkeeps.bbFirstFree_eq, markUsedStats_bbFirstFree]
    by_cases hin : start ≤ x ∧ x < start + len
    · rw [hused x hin.1 hin.2] at hxfree
      exact absurd hxfree (by decide)
    · rw [writeRange_of_not_mem (by omega)] at hxfree
      have hold := hinv.firstFree_le x hx hxfree
      split_ifs <;> omega
  · show g'.bbFragments = _
    rw [hkeeps.bbFragments_eq, markUsedStats_bbFragments hinv hlen hrange hfree]

/-- On a consistent group, `mb_mark_used` on a free extent of the group is defined and leaves a
consistent group whose bitmap has exactly the extent in use. -/
theorem BuddyGroup.mbMarkUsed_inv {bdGroup : Nat} {ex : FreeExtent} (hinv : BuddyInv bits g)
    (hgroup : ex.feGroup = bdGroup) (hlen : 0 < ex.feLen)
    (hrange : ex.feStart + ex.feLen ≤ 2 ^ (bits + 3))
    (hfree : ∀ x, ex.feStart ≤ x → x < ex.feStart + ex.feLen → g.bitmap x = false) :
    ∃ g' ret, BuddyGroup.mbMarkUsed bits g bdGroup ex = some (g', ret) ∧ BuddyInv bits g' ∧
      g'.bitmap = writeRange g.bitmap ex.feStart ex.feLen true := by
  obtain ⟨g', ret, hrun, hbm', hkeeps, hcounted⟩ :=
    markUsedLoop_start hinv.toBuddyCounted hlen hrange hfree
  exact ⟨_, ret, mbMarkUsed_of_loop hgroup hrange hrun hbm',
    hinv.markUsed hlen hrange hfree hkeeps hcounted, rfl⟩

/-- A group of eight clusters (`bd_blkbits = 0`), all free: four free chunks of order 1 and
one free extent. -/
def eightFreeClusters : BuddyGroup where
  bitmap _ := false
  buddy k _ := decide (k ≠ 1)
  bbCounters k := if k = 1 then 4 else 0
  bbFirstFree := 0
  bbFree := 8
  bbFragments := 1
  bbLargestFreeOrder := 1

theorem eightFreeClusters_inv : BuddyInv 0 eightFreeClusters where
  buddy_eq_false_iff k i hk hk' hi := by
    obtain rfl : k = 1 := by omega
    interval_cases i <;> decide
  counters_eq k hk := by
    interval_cases k <;> decide
  free_eq := by decide
  firstFree_le x _ _ := Nat.zero_le x
  fragments_eq := by decide
  largest_eq := rfl

/-- Taking three clusters from cluster 2 of the eight free ones: the chunk `{2, 3}` whole, then
the chunk `{4, 5}` split down to order 0 and cluster 4 taken there. -/
theorem BuddyGroup.mbMarkUsed_inv_eightFreeClusters :
    BuddyInv 0 eightFreeClusters ∧ (⟨2, 3, 0⟩ : FreeExtent).feGroup = 0 ∧
      0 < (⟨2, 3, 0⟩ : FreeExtent).feLen ∧ 2 + 3 ≤ 2 ^ (0 + 3) ∧
      (∀ x, 2 ≤ x → x < 2 + 3 → eightFreeClusters.bitmap x = false) ∧
      ∃ g' ret, BuddyGroup.mbMarkUsed 0 eightFreeClusters 0 ⟨2, 3, 0⟩ = some (g', ret) ∧
        BuddyInv 0 g' ∧ g'.bitmap = writeRange eightFreeClusters.bitmap 2 3 true :=
  ⟨eightFreeClusters_inv, rfl, by decide, by decide, fun _ _ _ => rfl,
    BuddyGroup.mbMarkUsed_inv eightFreeClusters_inv rfl (by decide) (by decide)
      (fun _ _ _ => rfl)⟩

/-- Two whole chunks of order 1 are taken, with no split: two are left, in two extents. -/
example : ((BuddyGroup.mbMarkUsed 0 eightFreeClusters 0 ⟨2, 4, 0⟩).map fun (g, ret) =>
    (g.bbCounters 1, g.buddy 1 1, g.buddy 1 3, g.bbFragments, g.bbFree, ret)) =
      some (2, true, false, 2, 4, 0) := by
  decide

/-- Three clusters from cluster 2: cluster 5 is left as a chunk of order 0, and the history
records the split of order 1 with one cluster left. -/
example : ((BuddyGroup.mbMarkUsed 0 eightFreeClusters 0 ⟨2, 3, 0⟩).map fun (g, ret) =>
    (g.bbCounters 0, g.bbCounters 1, g.bitmap 5, g.bbFree, ret)) =
      some ((1 : Int), (2 : Int), false, 5, 1 ||| (1 <<< 16)) := by
  decide

end MarkUsed

end OptFs.Mballoc
