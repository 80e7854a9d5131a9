import OptFs.Mballoc.BuddyInv
import OptFs.Mballoc.DelayedReuse

/-!
# Freeing clusters in the buddy (`mb_free_blocks`)

`mb_free_blocks(inode, e4b, first, count)` returns the clusters `[first, first + count)` of a
loaded group to the buddy. It first updates `bb_free`, `bb_first_free` and `bb_fragments`,
the last from the two clusters beside the range; then, cluster by cluster, it clears the
bitmap bit, counts the cluster as a free chunk of order 0 and coalesces: while the chunk
holding it and that chunk's buddy are both free and a higher order exists, the pair is taken
out of its order (its buddy bits set, except in the bitmap) and its parent chunk put in the
next. Last, `mb_set_largest_free_order` recomputes `bb_largest_free_order`.

On a consistent group (`BuddyInv`), freeing clusters that are all in use leaves a consistent
group whose bitmap has exactly those clusters freed (`BuddyGroup.mbFreeBlocks_inv`). The coalescing loop
is proved through its working invariant `Coalescing`: at order `o`, the buddy is that of the
new bitmap, except that the chunk holding the freed cluster is clear at `o` and set above, and
the chunk beside it at each order from `o` up keeps the bit it had before the cluster was freed.

Left out: the error report for a cluster freed twice, which changes nothing of the buddy, and
the debugging checks `mb_free_blocks_double` and `mb_check_buddy`.
-/

namespace OptFs.Mballoc

/-! ## The model -/

namespace BuddyGroup

/-- `grp->bb_counters[k]--`. -/
def decCounter (g : BuddyGroup) (k : Nat) : BuddyGroup :=
  { g with bbCounters := Function.update g.bbCounters k (g.bbCounters k - 1) }

/-- `mb_set_bit(i, buddy + s_mb_offsets[k])`. -/
def setBuddyBit (g : BuddyGroup) (k i : Nat) : BuddyGroup :=
  { g with buddy := Function.update g.buddy k (Function.update (g.buddy k) i true) }

/-- `mb_clear_bit(i, EXT4_MB_BITMAP(e4b))`. -/
def clearBitmapBit (g : BuddyGroup) (i : Nat) : BuddyGroup :=
  { g with bitmap := Function.update g.bitmap i false }

/-- `mb_test_bit(i, mb_find_buddy(e4b, k, &max))`: the bitmap of order 0 is the block bitmap. -/
def testBit (g : BuddyGroup) (k i : Nat) : Bool :=
  if k = 0 then g.bitmap i else g.buddy k i

/-- One merge of the coalescing loop: the pair of chunks at `block` and `block + 1` of `order`
leaves its order, its buddy bits set unless the order is 0 (the bitmap keeps its free bits),
and the parent chunk `block >>> 1` enters the next order. -/
def mergePair (g : BuddyGroup) (order block : Nat) : BuddyGroup :=
  let g := if 0 < order then (g.setBuddyBit order block).setBuddyBit order (block + 1) else g
  (((g.decCounter order).decCounter order).incCounter (order + 1)).clearBuddyBit (order + 1)
    (block >>> 1)

end BuddyGroup

/-- The coalescing loop of `mb_free_blocks` for the freed cluster, now at chunk `block` of
`order`; `fuel` bounds the orders left. -/
def coalesceLoop (bits : Nat) : Nat → BuddyGroup → Nat → Nat → BuddyGroup
  | 0, g, _, _ => g
  | fuel + 1, g, block, order =>
    -- `block &= ~1UL`: the first chunk of the pair
    let block := block >>> 1 <<< 1
    if g.testBit order block || g.testBit order (block + 1) then g
    -- `mb_find_buddy(e4b, order + 1, &max)` is NULL past the highest order
    else if bits + 1 < order + 1 then g
    else coalesceLoop bits fuel (g.mergePair order block) (block >>> 1) (order + 1)

/-- The loop `while (count-- > 0)` of `mb_free_blocks` from cluster `block`: each cluster is
cleared in the bitmap, counted at order 0 and coalesced, through all `bits + 2` orders. -/
def freeBlocksLoop (bits : Nat) : Nat → BuddyGroup → Nat → BuddyGroup
  | 0, g, _ => g
  | count + 1, g, block =>
    freeBlocksLoop bits count
      (coalesceLoop bits (bits + 2) ((g.clearBitmapBit block).incCounter 0) block 0) (block + 1)

/-- What `mb_free_blocks` updates before its loop: `bb_free`, `bb_first_free`, and the
fragments counter, from the clusters beside the range, which the range joins to it if free. -/
def freeBlocksStats (bits : Nat) (g : BuddyGroup) (first count : Nat) : BuddyGroup :=
  let g := { g with
    bbFree := g.bbFree + count
    bbFirstFree := if first < g.bbFirstFree then first else g.bbFirstFree }
  let block := decide (first ≠ 0) && !g.bitmap (first - 1)
  let max := decide (first + count < (1 <<< bits) <<< 3) && !g.bitmap (first + count)
  if block && max then { g with bbFragments := g.bbFragments - 1 }
  else if !block && !max then { g with bbFragments := g.bbFragments + 1 }
  else g

/-- `mb_free_blocks(inode, e4b, first, count)` on a group with `bd_blkbits = bits`; `none` is
the `BUG_ON` for a range past the group's `s_blocksize << 3` clusters. (`mbFreeBlocks` of
`DelayedReuse` keeps only its order-0 part.) -/
def BuddyGroup.mbFreeBlocks (bits : Nat) (g : BuddyGroup) (first count : Nat) : Option BuddyGroup :=
  if first + count > (1 <<< bits) <<< 3 then none
  else some (mbSetLargestFreeOrder bits
    (freeBlocksLoop bits count (freeBlocksStats bits g first count) first))

/-- The loop of `mb_clear_bits` (`v = false`) and `ext4bf_set_bits` (`v = true`) from bit `cur`
to the end `len`; `fuel` bounds the rounds. On a 32-bit boundary with 32 bits or more to go,
the word at byte `cur >> 3`, which holds bits `cur .. cur + 31`, is written at once. -/
def writeBitsLoop (v : Bool) : Nat → (Nat → Bool) → Nat → Nat → (Nat → Bool)
  | 0, bm, _, _ => bm
  | fuel + 1, bm, cur, len =>
    if cur < len then
      if cur &&& 31 = 0 ∧ len - cur ≥ 32 then
        writeBitsLoop v fuel (writeRange bm cur 32 v) (cur + 32) len
      else writeBitsLoop v fuel (Function.update bm cur v) (cur + 1) len
    else bm

/-- `mb_clear_bits(bm, cur, len)`. The loop of `ext4bf_set_bits(bm, cur, len)` is
`writeBitsLoop true len bm cur (cur + len)`, whose effect `DelayedReuse` models as
`ext4bfSetBits`. -/
def mbClearBits (bm : Nat → Bool) (cur len : Nat) : Nat → Bool :=
  writeBitsLoop false len bm cur (cur + len)

/-! ## The steps, field by field -/

namespace BuddyGroup

variable {g : BuddyGroup} {order block k i : Nat}

theorem setBuddyBit_buddy {k' i' : Nat} :
    (g.setBuddyBit k' i').buddy k i = if k = k' ∧ i = i' then true else g.buddy k i := by
  by_cases hk : k = k'
  · subst hk
    by_cases hi : i = i' <;> simp [setBuddyBit, hi]
  · simp [setBuddyBit, hk]

theorem clearBuddyBit_buddy {k' i' : Nat} :
    (g.clearBuddyBit k' i').buddy k i = if k = k' ∧ i = i' then false else g.buddy k i := by
  by_cases hk : k = k'
  · subst hk
    by_cases hi : i = i' <;> simp [clearBuddyBit, hi]
  · simp [clearBuddyBit, hk]

@[simp] theorem incCounter_buddy {k' : Nat} : (g.incCounter k').buddy = g.buddy := rfl

@[simp] theorem decCounter_buddy {k' : Nat} : (g.decCounter k').buddy = g.buddy := rfl

theorem incCounter_bbCounters {k' : Nat} :
    (g.incCounter k').bbCounters k = if k = k' then g.bbCounters k + 1 else g.bbCounters k := by
  by_cases hk : k = k' <;> simp [incCounter, hk]

theorem decCounter_bbCounters {k' : Nat} :
    (g.decCounter k').bbCounters k = if k = k' then g.bbCounters k - 1 else g.bbCounters k := by
  by_cases hk : k = k' <;> simp [decCounter, hk]

@[simp] theorem mergePair_bitmap : (g.mergePair order block).bitmap = g.bitmap := by
  unfold mergePair
  split <;> rfl

theorem mergePair_buddy :
    (g.mergePair order block).buddy k i =
      if k = order + 1 ∧ i = block >>> 1 then false
      else if 0 < order ∧ k = order ∧ (i = block ∨ i = block + 1) then true
      else g.buddy k i := by
  unfold mergePair
  -- the parent's bit is cleared last, over the pair's bits set at `order`
  by_cases ho : 0 < order
  · simp only [if_pos ho, clearBuddyBit_buddy, incCounter_buddy, decCounter_buddy,
      setBuddyBit_buddy]
    split_ifs <;> first | rfl | omega
  · simp only [if_neg ho, clearBuddyBit_buddy, incCounter_buddy, decCounter_buddy]
    split_ifs <;> first | rfl | omega

theorem mergePair_bbCounters :
    (g.mergePair order block).bbCounters k =
      g.bbCounters k - (if k = order then 2 else 0) + (if k = order + 1 then 1 else 0) := by
  unfold mergePair
  have hset : ((if 0 < order then (g.setBuddyBit order block).setBuddyBit order (block + 1)
      else g).bbCounters) = g.bbCounters := by
    split <;> rfl
  simp only [clearBuddyBit, incCounter_bbCounters, decCounter_bbCounters, hset]
  split_ifs <;> omega

@[simp] theorem testBit_zero : g.testBit 0 i = g.bitmap i := rfl

theorem testBit_of_pos (h : 0 < k) : g.testBit k i = g.buddy k i := by
  rw [testBit, if_neg (by omega)]

end BuddyGroup

/-! ## The loops, round by round -/

theorem coalesceLoop_succ (bits fuel : Nat) (g : BuddyGroup) (block order : Nat) :
    coalesceLoop bits (fuel + 1) g block order =
      if g.testBit order (block >>> 1 <<< 1) || g.testBit order ((block >>> 1 <<< 1) + 1) then g
      else if bits + 1 < order + 1 then g
      else coalesceLoop bits fuel (g.mergePair order (block >>> 1 <<< 1))
        (block >>> 1 <<< 1 >>> 1) (order + 1) := rfl

/-- `g'` has the `bb_free`, `bb_first_free` and `bb_fragments` of `g`. -/
structure BuddyGroup.KeepsStats (g g' : BuddyGroup) : Prop where
  bbFree_eq : g'.bbFree = g.bbFree
  bbFirstFree_eq : g'.bbFirstFree = g.bbFirstFree
  bbFragments_eq : g'.bbFragments = g.bbFragments

namespace BuddyGroup.KeepsStats

variable {g g' g'' : BuddyGroup}

theorem refl (g : BuddyGroup) : g.KeepsStats g := ⟨rfl, rfl, rfl⟩

theorem trans (h₁ : g.KeepsStats g') (h₂ : g'.KeepsStats g'') : g.KeepsStats g'' :=
  ⟨h₂.bbFree_eq.trans h₁.bbFree_eq, h₂.bbFirstFree_eq.trans h₁.bbFirstFree_eq,
    h₂.bbFragments_eq.trans h₁.bbFragments_eq⟩

end BuddyGroup.KeepsStats

theorem BuddyGroup.mergePair_keepsStats (g : BuddyGroup) (order block : Nat) :
    g.KeepsStats (g.mergePair order block) := by
  unfold mergePair
  split <;> exact ⟨rfl, rfl, rfl⟩

/-- The coalescing loop writes only the buddy and the counters. -/
theorem coalesceLoop_keepsStats (bits : Nat) : ∀ (fuel : Nat) (g : BuddyGroup) (block order : Nat),
    g.KeepsStats (coalesceLoop bits fuel g block order) ∧
      (coalesceLoop bits fuel g block order).bitmap = g.bitmap
  | 0, g, _, _ => ⟨.refl g, rfl⟩
  | fuel + 1, g, block, order => by
    rw [coalesceLoop_succ]
    split_ifs
    · exact ⟨.refl g, rfl⟩
    · exact ⟨.refl g, rfl⟩
    · obtain ⟨hkeeps, hbitmap⟩ := coalesceLoop_keepsStats bits fuel
        (g.mergePair order (block >>> 1 <<< 1)) (block >>> 1 <<< 1 >>> 1) (order + 1)
      exact ⟨(g.mergePair_keepsStats _ _).trans hkeeps,
        hbitmap.trans BuddyGroup.mergePair_bitmap⟩

theorem coalesceLoop_bitmap (bits fuel : Nat) (g : BuddyGroup) (block order : Nat) :
    (coalesceLoop bits fuel g block order).bitmap = g.bitmap :=
  (coalesceLoop_keepsStats bits fuel g block order).2

/-- The loop over the clusters frees exactly `[block, block + count)` in the bitmap, and
keeps the statistics. -/
theorem freeBlocksLoop_keepsStats (bits : Nat) : ∀ (count : Nat) (g : BuddyGroup) (block : Nat),
    g.KeepsStats (freeBlocksLoop bits count g block) ∧
      (freeBlocksLoop bits count g block).bitmap = writeRange g.bitmap block count false
  | 0, g, block => ⟨.refl g, (writeRange_zero _ _ _).symm⟩
  | count + 1, g, block => by
    -- clearing the bitmap bit and counting it at order 0 touch no statistic
    have hstart : g.KeepsStats ((g.clearBitmapBit block).incCounter 0) := ⟨rfl, rfl, rfl⟩
    obtain ⟨hcoalesce, hbitmap₁⟩ :=
      coalesceLoop_keepsStats bits (bits + 2) ((g.clearBitmapBit block).incCounter 0) block 0
    obtain ⟨hrest, hbitmap₂⟩ := freeBlocksLoop_keepsStats bits count
      (coalesceLoop bits (bits + 2) ((g.clearBitmapBit block).incCounter 0) block 0) (block + 1)
    refine ⟨(hstart.trans hcoalesce).trans hrest, ?_⟩
    show (freeBlocksLoop bits count _ (block + 1)).bitmap = _
    rw [hbitmap₂, hbitmap₁, show ((g.clearBitmapBit block).incCounter 0).bitmap =
      Function.update g.bitmap block false from rfl, update_eq_writeRange, writeRange_append,
      Nat.add_comm 1 count]

/-! ## The working invariant of the coalescing loop -/

/-- Whether chunk `i` of order `k` is clear in the buddy while `mb_free_blocks` coalesces the
freed cluster `b` at order `o`, `bm` being the bitmap with `b` free. Below `o` the buddy is that
of `bm`; the chunk holding `b` is clear at `o` and set above it; the chunk beside it (the other
half of the same parent) keeps the bit it had before `b` was freed, clear exactly when it is
free; every other chunk is as in the buddy of `bm`. -/
def CoalesceFree (bits : Nat) (bm : Nat → Bool) (b o k i : Nat) : Prop :=
  if k < o then BuddyFree bits bm k i
  else if i / 2 = b >>> (k + 1) then (if i = b >>> k then k = o else ChunkFree bm k i)
  else BuddyFree bits bm k i

instance (bits : Nat) (bm : Nat → Bool) (b o k : Nat) :
    DecidablePred (CoalesceFree bits bm b o k) := fun i =>
  inferInstanceAs (Decidable (if k < o then BuddyFree bits bm k i
    else if i / 2 = b >>> (k + 1) then (if i = b >>> k then k = o else ChunkFree bm k i)
    else BuddyFree bits bm k i))

/-- The working invariant of the coalescing loop at order `o`, for the freed cluster `b` and
the bitmap `bm` with it free. -/
structure Coalescing (bits : Nat) (bm : Nat → Bool) (b o : Nat) (g : BuddyGroup) : Prop where
  bitmap_eq : g.bitmap = bm
  order_le : o ≤ bits + 1
  block_lt : b < 2 ^ (bits + 3)
  chunkFree : ChunkFree bm o (b >>> o)
  buddy_eq_false_iff : ∀ k i, 1 ≤ k → k ≤ bits + 1 → i < 2 ^ (bits + 3 - k) →
    (g.buddy k i = false ↔ CoalesceFree bits bm b o k i)
  counters_eq : ∀ k ≤ bits + 1, g.bbCounters k =
    ((Finset.range (2 ^ (bits + 3 - k))).filter (CoalesceFree bits bm b o k)).card

section Coalesce

variable {bits : Nat} {bm : Nat → Bool} {b o k i : Nat}

/-- The pair tested at chunk `c` (`c &= ~1` and the chunk after it) is the two chunks with the
parent of `c`. -/
theorem div_two_eq_iff_pair {c : Nat} :
    i / 2 = c / 2 ↔ i = c >>> 1 <<< 1 ∨ i = (c >>> 1 <<< 1) + 1 := by
  rw [Nat.shiftLeft_eq, Nat.shiftRight_eq_div_pow]
  omega

/-- The first chunk of the pair is twice the parent. -/
theorem pairBase_eq (c : Nat) : c >>> 1 <<< 1 = 2 * (c / 2) := by
  rw [Nat.shiftLeft_eq, Nat.shiftRight_eq_div_pow]
  omega

theorem eq_or_eq_of_div_two_eq {c : Nat} (h : i / 2 = c) : i = 2 * c ∨ i = 2 * c + 1 := by
  omega

theorem pairBase_shiftRight (c : Nat) : c >>> 1 <<< 1 >>> 1 = c / 2 := by
  rw [pairBase_eq, Nat.shiftRight_one]
  omega

/-- The chunks of a pair lie within the order's bitmap with the chunk holding `b`. -/
theorem lt_of_div_two_eq {n c : Nat} (hn : 1 ≤ n) (hc : c < 2 ^ n) (hi : i / 2 = c / 2) :
    i < 2 ^ n := by
  have hpow : 2 ^ n = 2 * 2 ^ (n - 1) := by
    rw [← Nat.pow_succ']
    congr 1
    omega
  omega

/-- Freeing `b` makes the chunk `i / 2` of order `k + 1` no freer unless it holds `b`. -/
theorem buddyFree_update_of_ne (hne : i / 2 ≠ b >>> (k + 1)) :
    BuddyFree bits (Function.update bm b false) k i ↔ BuddyFree bits bm k i := by
  have hchunk : b >>> k ≠ i := fun h => hne (shiftRight_succ_eq_div_two h).symm
  rw [BuddyFree, BuddyFree, chunkFree_update_of_ne hchunk, chunkFree_update_of_ne (Ne.symm hne)]

/-- Right after `b` is cleared, the working invariant at order 0 reads the old buddy at every
chunk but the cluster `b` itself, which it counts as free. -/
theorem coalesceFree_zero_iff (hb : bm b = true) (hki : k ≠ 0 ∨ i ≠ b) :
    CoalesceFree bits (Function.update bm b false) b 0 k i ↔ BuddyFree bits bm k i := by
  unfold CoalesceFree
  rw [if_neg (Nat.not_lt_zero k)]
  by_cases hpair : i / 2 = b >>> (k + 1)
  · rw [if_pos hpair]
    by_cases hi : i = b >>> k
    · -- the chunk holding `b` was not free
      subst hi
      rw [if_pos rfl]
      have hk : k ≠ 0 := by
        rcases hki with hk | hk
        · exact hk
        · exact fun h => hk (by rw [h, Nat.shiftRight_zero])
      simp only [hk, false_iff]
      exact fun h => not_chunkFree_of_used hb k h.1
    · -- the chunk beside it is free or not as before, and its parent held `b`
      rw [if_neg hi, chunkFree_update_of_ne (Ne.symm hi), BuddyFree, hpair]
      have hparent := not_chunkFree_of_used hb (k + 1)
      tauto
  · rw [if_neg hpair]
    exact buddyFree_update_of_ne hpair

/-- When the loop stops at order `o` (the parent of the chunk holding `b` is not free, or there
is no higher order), the working invariant is the buddy of the new bitmap. -/
theorem coalesceFree_iff_of_stop (hfree : ChunkFree bm o (b >>> o))
    (hstop : o = bits + 1 ∨ ¬ ChunkFree bm (o + 1) (b >>> (o + 1))) (hk : k ≤ bits + 1) :
    CoalesceFree bits bm b o k i ↔ BuddyFree bits bm k i := by
  unfold CoalesceFree
  by_cases hko : k < o
  · rw [if_pos hko]
  rw [if_neg hko]
  -- a chunk above `o` holding `b` is not free, or neither would its sub-chunk at `o + 1` be
  have habove : ∀ m, o < m → m ≤ bits + 1 → ¬ ChunkFree bm m (b >>> m) := by
    intro m hm hm' hchunk
    rcases hstop with htop | hstop
    · omega
    · exact hstop (hchunk.of_le hm)
  by_cases hpair : i / 2 = b >>> (k + 1)
  · rw [if_pos hpair]
    by_cases hi : i = b >>> k
    · subst hi
      rw [if_pos rfl, BuddyFree]
      by_cases hko' : k = o
      · subst hko'
        rw [hpair] at *
        simp only [true_iff]
        exact ⟨hfree, hstop⟩
      · simp only [hko', false_iff, not_and]
        exact fun h => absurd h (habove k (by omega) hk)
    · rw [if_neg hi, BuddyFree, hpair]
      constructor
      · intro hchunk
        refine ⟨hchunk, ?_⟩
        by_cases htop : k = bits + 1
        · exact .inl htop
        · exact .inr (habove (k + 1) (by omega) (by omega))
      · exact fun h => h.1
  · rw [if_neg hpair]

/-- The pair the loop tests at order `o`: a chunk of it is clear exactly when it is free. -/
theorem Coalescing.testBit_eq_false_iff {g : BuddyGroup} (h : Coalescing bits bm b o g)
    (hi : i / 2 = (b >>> o) / 2) :
    g.testBit o i = false ↔ ChunkFree bm o i := by
  rcases Nat.eq_zero_or_pos o with rfl | ho
  · rw [BuddyGroup.testBit_zero, h.bitmap_eq, chunkFree_zero]
  · have hrange : i < 2 ^ (bits + 3 - o) :=
      lt_of_div_two_eq (by have := h.order_le; omega)
        (shiftRight_lt_two_pow h.block_lt (by have := h.order_le; omega)) hi
    rw [BuddyGroup.testBit_of_pos ho, h.buddy_eq_false_iff o i ho h.order_le hrange,
      CoalesceFree, if_neg (lt_irrefl o), if_pos (by rw [hi, Nat.shiftRight_succ])]
    by_cases hib : i = b >>> o
    · subst hib
      simp only [if_true, true_iff]
      exact h.chunkFree
    · rw [if_neg hib]

/-- At the stop, the working invariant gives the representation and the counters of the new
bitmap. -/
theorem Coalescing.counted_of_stop {g : BuddyGroup} (h : Coalescing bits bm b o g)
    (hstop : o = bits + 1 ∨ ¬ ChunkFree bm (o + 1) (b >>> (o + 1))) : BuddyCounted bits g where
  buddy_eq_false_iff k i hk hk' hi := by
    rw [h.buddy_eq_false_iff k i hk hk' hi, h.bitmap_eq,
      coalesceFree_iff_of_stop h.chunkFree hstop hk']
    rfl
  counters_eq k hk := by
    rw [h.counters_eq k hk, h.bitmap_eq, freeChunks]
    congr 2
    exact Finset.filter_congr fun i _ => coalesceFree_iff_of_stop h.chunkFree hstop hk

/-! ### One merge -/

/-- A merge at `o` leaves the working invariant of the orders other than `o` and `o + 1`. -/
theorem coalesceFree_succ_of_ne (hk : k ≠ o) (hk' : k ≠ o + 1) :
    CoalesceFree bits bm b (o + 1) k i ↔ CoalesceFree bits bm b o k i := by
  unfold CoalesceFree
  by_cases hko : k < o
  · rw [if_pos hko, if_pos (by omega)]
  · rw [if_neg hko, if_neg (by omega)]
    simp only [hk, hk']

/-- After the merge at `o` the pair holding `b` at `o` is no longer free in the buddy: its
parent is. -/
theorem coalesceFree_succ_self (hpar : ChunkFree bm (o + 1) (b >>> (o + 1)))
    (htop : o ≠ bits + 1) :
    CoalesceFree bits bm b (o + 1) o i ↔ CoalesceFree bits bm b o o i ∧ i / 2 ≠ b >>> (o + 1) := by
  unfold CoalesceFree
  rw [if_pos (Nat.lt_succ_self o), if_neg (lt_irrefl o)]
  by_cases hpair : i / 2 = b >>> (o + 1)
  · rw [if_pos hpair]
    constructor
    · rintro ⟨-, hnot⟩
      rw [hpair] at hnot
      rcases hnot with h | h
      · exact absurd h htop
      · exact absurd hpar h
    · rintro ⟨-, hne⟩
      exact absurd hpair hne
  · rw [if_neg hpair]
    exact ⟨fun hc => ⟨hc, hpair⟩, fun hc => hc.1⟩

/-- After the merge at `o` the parent of the pair is clear at `o + 1`. -/
theorem coalesceFree_succ_succ :
    CoalesceFree bits bm b (o + 1) (o + 1) i ↔
      CoalesceFree bits bm b o (o + 1) i ∨ i = b >>> (o + 1) := by
  unfold CoalesceFree
  rw [if_neg (lt_irrefl (o + 1)), if_neg (show ¬ o + 1 < o by omega)]
  by_cases hi : i = b >>> (o + 1)
  · subst hi
    have hparent : b >>> (o + 1) / 2 = b >>> (o + 1 + 1) := (shiftRight_succ_eq_div_two rfl).symm
    simp [hparent]
  · simp only [hi, if_false, or_false]

/-- Both chunks of the pair at `o` are free when their parent is. -/
theorem chunkFree_of_pair (hpar : ChunkFree bm (o + 1) (b >>> (o + 1)))
    (hi : i / 2 = b >>> (o + 1)) : ChunkFree bm o i := by
  rw [chunkFree_succ] at hpar
  rcases eq_or_eq_of_div_two_eq hi with h | h
  · rw [h]
    exact hpar.1
  · rw [h]
    exact hpar.2

/-- The pair at `o` is clear in the working invariant while its parent is free. -/
theorem coalesceFree_self_of_pair (hpar : ChunkFree bm (o + 1) (b >>> (o + 1)))
    (hi : i / 2 = b >>> (o + 1)) : CoalesceFree bits bm b o o i := by
  unfold CoalesceFree
  rw [if_neg (lt_irrefl o), if_pos hi]
  split
  · rfl
  · exact chunkFree_of_pair hpar hi

/-- The chunk holding `b` is clear at `o` in the working invariant at `o`. -/
theorem coalesceFree_chain : CoalesceFree bits bm b o o (b >>> o) := by
  unfold CoalesceFree
  rw [if_neg (lt_irrefl o), if_pos (shiftRight_succ_eq_div_two rfl).symm, if_pos rfl]

/-- The parent of the pair is set at `o + 1` in the working invariant at `o`. -/
theorem not_coalesceFree_parent : ¬ CoalesceFree bits bm b o (o + 1) (b >>> (o + 1)) := by
  unfold CoalesceFree
  rw [if_neg (show ¬ o + 1 < o by omega), if_pos (shiftRight_succ_eq_div_two rfl).symm,
    if_pos rfl]
  omega

/-- The two chunks whose parent is `b >>> (o + 1)`: the pair `mb_free_blocks` tests at `o`. -/
theorem div_two_eq_shiftRight_iff :
    i / 2 = b >>> (o + 1) ↔ i = b >>> o >>> 1 <<< 1 ∨ i = (b >>> o >>> 1 <<< 1) + 1 := by
  rw [show b >>> (o + 1) = b >>> o / 2 from shiftRight_succ_eq_div_two rfl, div_two_eq_iff_pair]

/-- Counted at `o`, the working invariant at `o` has the two chunks of the pair more than the
one at `o + 1`. -/
theorem card_coalesceFree_self (hb : b < 2 ^ (bits + 3)) (htop : o < bits + 1)
    (hpar : ChunkFree bm (o + 1) (b >>> (o + 1))) :
    ((Finset.range (2 ^ (bits + 3 - o))).filter (CoalesceFree bits bm b o o)).card =
      ((Finset.range (2 ^ (bits + 3 - o))).filter (CoalesceFree bits bm b (o + 1) o)).card + 2 := by
  have hmem : ∀ i, i ∈ ({b >>> o >>> 1 <<< 1, (b >>> o >>> 1 <<< 1) + 1} : Finset Nat) →
      i / 2 = b >>> (o + 1) := fun i hi => div_two_eq_shiftRight_iff.mpr (by simpa using hi)
  have hsub : ({b >>> o >>> 1 <<< 1, (b >>> o >>> 1 <<< 1) + 1} : Finset Nat) ⊆
      Finset.range (2 ^ (bits + 3 - o)) := fun i hi =>
    Finset.mem_range.mpr (lt_of_div_two_eq (by omega) (shiftRight_lt_two_pow hb (by omega))
      ((hmem i hi).trans (shiftRight_succ_eq_div_two rfl)))
  -- off the pair the two invariants agree
  have hcount := card_filter_add_card_filter
    (P := CoalesceFree bits bm b (o + 1) o) (Q := CoalesceFree bits bm b o o) hsub
    fun i _ hi => by
      rw [coalesceFree_succ_self hpar (by omega)]
      have hnot : i / 2 ≠ b >>> (o + 1) := fun hp => hi (by
        rcases div_two_eq_shiftRight_iff.mp hp with h | h <;> simp [h])
      exact ⟨fun hc => hc.1, fun hc => ⟨hc, hnot⟩⟩
  have hold : ({b >>> o >>> 1 <<< 1, (b >>> o >>> 1 <<< 1) + 1} : Finset Nat).filter
      (CoalesceFree bits bm b o o) = {b >>> o >>> 1 <<< 1, (b >>> o >>> 1 <<< 1) + 1} :=
    Finset.filter_true_of_mem fun i hi => coalesceFree_self_of_pair hpar (hmem i hi)
  have hnew : ({b >>> o >>> 1 <<< 1, (b >>> o >>> 1 <<< 1) + 1} : Finset Nat).filter
      (CoalesceFree bits bm b (o + 1) o) = ∅ :=
    Finset.filter_false_of_mem fun i hi hc =>
      ((coalesceFree_succ_self hpar (by omega)).mp hc).2 (hmem i hi)
  rw [hold, hnew, Finset.card_pair (by omega), Finset.card_empty] at hcount
  omega

/-- Counted at `o + 1`, the working invariant at `o + 1` has the parent more than the one
at `o`. -/
theorem card_coalesceFree_succ (hb : b < 2 ^ (bits + 3)) (htop : o < bits + 1) :
    ((Finset.range (2 ^ (bits + 3 - (o + 1)))).filter
        (CoalesceFree bits bm b (o + 1) (o + 1))).card =
      ((Finset.range (2 ^ (bits + 3 - (o + 1)))).filter
        (CoalesceFree bits bm b o (o + 1))).card + 1 := by
  have hsub : {b >>> (o + 1)} ⊆ Finset.range (2 ^ (bits + 3 - (o + 1))) :=
    Finset.singleton_subset_iff.mpr (Finset.mem_range.mpr (shiftRight_lt_two_pow hb (by omega)))
  have hcount := card_filter_add_card_filter
    (P := CoalesceFree bits bm b (o + 1) (o + 1)) (Q := CoalesceFree bits bm b o (o + 1))
    hsub fun i _ hi => by
      rw [coalesceFree_succ_succ]
      have hne : i ≠ b >>> (o + 1) := fun h => hi (Finset.mem_singleton.mpr h)
      exact ⟨fun hc => hc.resolve_right hne, .inl⟩
  rw [card_filter_singleton, card_filter_singleton, if_neg not_coalesceFree_parent,
    if_pos coalesceFree_chain] at hcount
  omega

/-- Away from `o` and `o + 1` the working invariants at `o` and `o + 1` count the same. -/
theorem filter_coalesceFree_of_ne {n : Nat} (hk : k ≠ o) (hk' : k ≠ o + 1) :
    (Finset.range n).filter (CoalesceFree bits bm b (o + 1) k) =
      (Finset.range n).filter (CoalesceFree bits bm b o k) :=
  Finset.filter_congr fun _ _ => coalesceFree_succ_of_ne hk hk'

/-- One merge: with the parent of the chunk holding `b` free and below the highest order, the
merge at `o` of the pair holding `b` gives the working invariant at `o + 1`. -/
theorem Coalescing.merge {g : BuddyGroup} (h : Coalescing bits bm b o g) (htop : o < bits + 1)
    (hpar : ChunkFree bm (o + 1) (b >>> (o + 1))) :
    Coalescing bits bm b (o + 1) (g.mergePair o (b >>> o >>> 1 <<< 1)) := by
  have hbase : b >>> o >>> 1 <<< 1 >>> 1 = b >>> (o + 1) := by
    rw [pairBase_shiftRight, ← shiftRight_succ_eq_div_two rfl]
  refine ⟨by rw [BuddyGroup.mergePair_bitmap, h.bitmap_eq], htop, h.block_lt, hpar, ?_, ?_⟩
  · intro k i hk hk' hi
    rw [BuddyGroup.mergePair_buddy, hbase]
    split_ifs with hnew hset
    · -- the parent, cleared
      obtain ⟨rfl, rfl⟩ := hnew
      simp only [true_iff]
      exact coalesceFree_succ_succ.mpr (.inr rfl)
    · -- the pair, set
      obtain ⟨-, rfl, hpair⟩ := hset
      simp only [false_iff]
      rw [coalesceFree_succ_self hpar (by omega)]
      exact fun hc => hc.2 (div_two_eq_shiftRight_iff.mpr hpair)
    · rw [h.buddy_eq_false_iff k i hk hk' hi]
      by_cases hko : k = o
      · subst hko
        rw [coalesceFree_succ_self hpar (by omega)]
        have hnot : i / 2 ≠ b >>> (k + 1) := fun hp =>
          hset ⟨by omega, rfl, div_two_eq_shiftRight_iff.mp hp⟩
        exact ⟨fun hc => ⟨hc, hnot⟩, fun hc => hc.1⟩
      · by_cases hko' : k = o + 1
        · subst hko'
          rw [coalesceFree_succ_succ]
          have hne : i ≠ b >>> (o + 1) := fun hi' => hnew ⟨rfl, hi'⟩
          exact ⟨.inl, fun hc => hc.resolve_right hne⟩
        · exact (coalesceFree_succ_of_ne hko hko').symm
  · intro k hk
    rw [BuddyGroup.mergePair_bbCounters, h.counters_eq k hk]
    by_cases hko : k = o
    · -- the pair leaves order `o`: two chunks fewer
      subst hko
      rw [card_coalesceFree_self h.block_lt htop hpar, if_pos rfl,
        if_neg (show k ≠ k + 1 by omega)]
      push_cast
      ring
    · by_cases hko' : k = o + 1
      · -- the parent enters order `o + 1`: one chunk more
        subst hko'
        rw [card_coalesceFree_succ h.block_lt htop, if_neg hko, if_pos rfl]
        push_cast
        ring
      · rw [filter_coalesceFree_of_ne hko hko', if_neg hko, if_neg hko']
        ring

/-! ### The loop -/

/-- From the working invariant at `o`, with enough orders left, the coalescing loop ends with
the buddy and the counters of the new bitmap. -/
theorem coalesceLoop_counted : ∀ (fuel : Nat) (g : BuddyGroup) (o : Nat),
    Coalescing bits bm b o g → bits + 2 ≤ fuel + o →
      BuddyCounted bits (coalesceLoop bits fuel g (b >>> o) o)
  | 0, _, _, h, hfuel => absurd h.order_le (by omega)
  | fuel + 1, g, o, h, hfuel => by
    rw [coalesceLoop_succ]
    -- both chunks of the pair are clear exactly when their parent is free
    have hparent : b >>> o / 2 = b >>> (o + 1) := (shiftRight_succ_eq_div_two rfl).symm
    have htest : (g.testBit o (b >>> o >>> 1 <<< 1) ||
        g.testBit o ((b >>> o >>> 1 <<< 1) + 1)) = false ↔
          ChunkFree bm (o + 1) (b >>> (o + 1)) := by
      rw [Bool.or_eq_false_iff, h.testBit_eq_false_iff (div_two_eq_iff_pair.mpr (.inl rfl)),
        h.testBit_eq_false_iff (div_two_eq_iff_pair.mpr (.inr rfl)), pairBase_eq, ← hparent,
        chunkFree_succ]
    split_ifs with hset htop
    · -- a chunk of the pair is in use: the parent is not free
      have hstop : ¬ ChunkFree bm (o + 1) (b >>> (o + 1)) := fun hpar => by
        rw [htest.mpr hpar] at hset
        exact Bool.false_ne_true hset
      exact h.counted_of_stop (.inr hstop)
    · -- the highest order: nothing to merge into
      exact h.counted_of_stop (.inl (by have := h.order_le; omega))
    · have hpar : ChunkFree bm (o + 1) (b >>> (o + 1)) := htest.mp (by simpa using hset)
      rw [pairBase_shiftRight, hparent]
      exact coalesceLoop_counted fuel _ (o + 1) (h.merge (by omega) hpar) (by omega)

/-- Right after cluster `b`, in use, is cleared and counted at order 0, the working invariant
holds at order 0. -/
theorem coalescing_init {g : BuddyGroup} (h : BuddyCounted bits g) (hb : b < 2 ^ (bits + 3))
    (hused : g.bitmap b = true) :
    Coalescing bits (Function.update g.bitmap b false) b 0
      ((g.clearBitmapBit b).incCounter 0) where
  bitmap_eq := rfl
  order_le := Nat.zero_le _
  block_lt := hb
  chunkFree := by rw [Nat.shiftRight_zero, chunkFree_zero, Function.update_self]
  buddy_eq_false_iff k i hk hk' hi := by
    rw [coalesceFree_zero_iff hused (.inl (by omega))]
    exact h.buddy_eq_false_iff k i hk hk' hi
  counters_eq k hk := by
    rw [BuddyGroup.incCounter_bbCounters]
    by_cases hk0 : k = 0
    · -- the freed cluster is one free chunk of order 0 more
      subst hk0
      have hsub : {b} ⊆ Finset.range (2 ^ (bits + 3 - 0)) :=
        Finset.singleton_subset_iff.mpr (Finset.mem_range.mpr hb)
      have hcount := card_filter_add_card_filter
        (P := CoalesceFree bits (Function.update g.bitmap b false) b 0 0)
        (Q := BuddyFree bits g.bitmap 0) hsub fun i _ hi =>
          coalesceFree_zero_iff hused (.inr fun h => hi (Finset.mem_singleton.mpr h))
      have hnew : CoalesceFree bits (Function.update g.bitmap b false) b 0 0 b := by
        unfold CoalesceFree
        rw [if_neg (lt_irrefl 0), if_pos (by rw [Nat.shiftRight_one]), if_pos (by rw [Nat.shiftRight_zero])]
      have hold : ¬ BuddyFree bits g.bitmap 0 b := fun hf => by
        have hfree := chunkFree_zero.mp hf.1
        rw [hused] at hfree
        exact Bool.noConfusion hfree
      rw [card_filter_singleton, card_filter_singleton, if_pos hnew, if_neg hold] at hcount
      rw [if_pos rfl, show (g.clearBitmapBit b).bbCounters 0 = g.bbCounters 0 from rfl,
        h.counters_eq 0 hk, freeChunks]
      omega
    · rw [if_neg hk0, show (g.clearBitmapBit b).bbCounters k = g.bbCounters k from rfl,
        h.counters_eq k hk, freeChunks]
      congr 2
      exact (Finset.filter_congr fun i _ => coalesceFree_zero_iff hused (.inl hk0)).symm

/-- Freeing one cluster in use, with its coalescing, keeps the representation and the
counters. -/
theorem coalesceLoop_free_counted {g : BuddyGroup} (h : BuddyCounted bits g)
    (hb : b < 2 ^ (bits + 3)) (hused : g.bitmap b = true) :
    BuddyCounted bits (coalesceLoop bits (bits + 2) ((g.clearBitmapBit b).incCounter 0) b 0) := by
  have hloop := coalesceLoop_counted (bits + 2) _ 0 (coalescing_init h hb hused) (by omega)
  rwa [Nat.shiftRight_zero] at hloop

end Coalesce

/-! ## The loop over the clusters -/

/-- Freeing the clusters `[block, block + count)`, all in use, one by one keeps the
representation and the counters. -/
theorem freeBlocksLoop_counted {bits : Nat} : ∀ (count : Nat) (g : BuddyGroup) (block : Nat),
    BuddyCounted bits g → block + count ≤ 2 ^ (bits + 3) →
    (∀ x, block ≤ x → x < block + count → g.bitmap x = true) →
      BuddyCounted bits (freeBlocksLoop bits count g block)
  | 0, _, _, h, _, _ => h
  | count + 1, g, block, h, hrange, hused => by
    have h₁ := coalesceLoop_free_counted h (by omega) (hused block le_rfl (by omega))
    -- the rest of the range is still in use after the first cluster is freed
    have hused' : ∀ x, block + 1 ≤ x → x < block + 1 + count →
        (coalesceLoop bits (bits + 2) ((g.clearBitmapBit block).incCounter 0) block 0).bitmap x =
          true := fun x hx hx' => by
      rw [coalesceLoop_bitmap, show ((g.clearBitmapBit block).incCounter 0).bitmap =
        Function.update g.bitmap block false from rfl, Function.update_of_ne (by omega)]
      exact hused x (by omega) (by omega)
    exact freeBlocksLoop_counted count _ (block + 1) h₁ (by omega) hused'

/-! ## `mb_clear_bits` and `ext4bf_set_bits` -/

/-- The loop writes every bit from `cur` to `len`, and no other, whether a round takes the
word or the bit. -/
theorem writeBitsLoop_eq (v : Bool) : ∀ (fuel : Nat) (bm : Nat → Bool) (cur len : Nat),
    len - cur ≤ fuel → writeBitsLoop v fuel bm cur len = writeRange bm cur (len - cur) v
  | 0, bm, cur, len, hfuel => by rw [show len - cur = 0 by omega, writeRange_zero]; rfl
  | fuel + 1, bm, cur, len, hfuel => by
    rw [writeBitsLoop]
    split_ifs with hcur hword
    · -- the word `cur .. cur + 31`
      rw [writeBitsLoop_eq v fuel _ (cur + 32) len (by omega), writeRange_append,
        show 32 + (len - (cur + 32)) = len - cur by omega]
    · -- the bit `cur`
      rw [writeBitsLoop_eq v fuel _ (cur + 1) len (by omega), update_eq_writeRange,
        writeRange_append, show 1 + (len - (cur + 1)) = len - cur by omega]
    · rw [show len - cur = 0 by omega, writeRange_zero]

/-- With their word-at-a-time fast path, `mb_clear_bits` clears exactly the bits
`[cur, cur + len)`, and the loop of `ext4bf_set_bits` sets exactly those bits, as the model of
`ext4bf_set_bits` that regenerating the buddy uses says. -/
theorem mbClearBits_ext4bfSetBits (bm : Nat → Bool) (cur len : Nat) :
    mbClearBits bm cur len = writeRange bm cur len false ∧
      writeBitsLoop true len bm cur (cur + len) = ext4bfSetBits bm cur len := by
  have hlen : cur + len - cur = len := by omega
  constructor
  · rw [mbClearBits, writeBitsLoop_eq false len bm cur (cur + len) (by omega), hlen]
  · rw [writeBitsLoop_eq true len bm cur (cur + len) (by omega), hlen]
    rfl

/-! ## `mb_free_blocks` -/

section FreeBlocks

variable {bits : Nat} {g : BuddyGroup} {first count : Nat}

theorem shiftLeft_three (bits : Nat) : (1 <<< bits) <<< 3 = 2 ^ (bits + 3) := by
  rw [Nat.shiftLeft_eq, Nat.one_shiftLeft, ← Nat.pow_add]

@[simp] theorem freeBlocksStats_bitmap : (freeBlocksStats bits g first count).bitmap = g.bitmap := by
  unfold freeBlocksStats
  dsimp only
  split_ifs <;> rfl

@[simp] theorem freeBlocksStats_buddy : (freeBlocksStats bits g first count).buddy = g.buddy := by
  unfold freeBlocksStats
  dsimp only
  split_ifs <;> rfl

@[simp] theorem freeBlocksStats_bbCounters :
    (freeBlocksStats bits g first count).bbCounters = g.bbCounters := by
  unfold freeBlocksStats
  dsimp only
  split_ifs <;> rfl

@[simp] theorem freeBlocksStats_bbFree :
    (freeBlocksStats bits g first count).bbFree = g.bbFree + count := by
  unfold freeBlocksStats
  dsimp only
  split_ifs <;> rfl

@[simp] theorem freeBlocksStats_bbFirstFree :
    (freeBlocksStats bits g first count).bbFirstFree =
      if first < g.bbFirstFree then first else g.bbFirstFree := by
  unfold freeBlocksStats
  dsimp only
  split_ifs <;> rfl

/-- The fragments counter after the range is freed: the count of free extents, from a
consistent group and clusters in use. -/
theorem freeBlocksStats_bbFragments (hinv : BuddyInv bits g) (hcount : 0 < count)
    (hrange : first + count ≤ 2 ^ (bits + 3))
    (hused : ∀ x, first ≤ x → x < first + count → g.bitmap x = true) :
    (freeBlocksStats bits g first count).bbFragments =
      ((Finset.range (2 ^ (bits + 3))).filter
        (RunStart (writeRange g.bitmap first count false))).card := by
  have hruns := card_runStart_writeRange hcount hrange hused
  rw [← hinv.fragments_eq] at hruns
  unfold freeBlocksStats
  dsimp only
  -- the source's `block` and `max`: whether the clusters beside the range are free
  have hblock : (decide (first ≠ 0) && !g.bitmap (first - 1)) =
      !decide (first = 0 ∨ g.bitmap (first - 1) = true) := by
    by_cases h0 : first = 0 <;> cases g.bitmap (first - 1) <;> simp [h0]
  have hmax : (decide (first + count < (1 <<< bits) <<< 3) && !g.bitmap (first + count)) =
      decide (first + count < 2 ^ (bits + 3) ∧ g.bitmap (first + count) = false) := by
    rw [shiftLeft_three]
    cases g.bitmap (first + count) <;> simp
  rw [hblock, hmax]
  by_cases hs : first = 0 ∨ g.bitmap (first - 1) = true <;>
    by_cases he : first + count < 2 ^ (bits + 3) ∧ g.bitmap (first + count) = false <;>
    simp [hs, he] at hruns ⊢ <;> omega

/-- `mb_free_blocks` on clusters within the group: the counts first, the loop over the
clusters, then `mb_set_largest_free_order`. -/
theorem BuddyGroup.mbFreeBlocks_of_le (hrange : first + count ≤ 2 ^ (bits + 3)) :
    BuddyGroup.mbFreeBlocks bits g first count = some (mbSetLargestFreeOrder bits
      (freeBlocksLoop bits count (freeBlocksStats bits g first count) first)) := by
  rw [BuddyGroup.mbFreeBlocks, if_neg (by rw [shiftLeft_three]; omega)]

/-- What `mb_free_blocks` leaves of a consistent group when the clusters freed are all in
use: a consistent group whose bitmap has exactly those clusters freed. -/
theorem BuddyInv.freeBlocks (hinv : BuddyInv bits g) (hcount : 0 < count)
    (hrange : first + count ≤ 2 ^ (bits + 3))
    (hused : ∀ x, first ≤ x → x < first + count → g.bitmap x = true) :
    BuddyInv bits (mbSetLargestFreeOrder bits
        (freeBlocksLoop bits count (freeBlocksStats bits g first count) first)) ∧
      (mbSetLargestFreeOrder bits
        (freeBlocksLoop bits count (freeBlocksStats bits g first count) first)).bitmap =
        writeRange g.bitmap first count false := by
  have hcounted₁ : BuddyCounted bits (freeBlocksStats bits g first count) :=
    hinv.toBuddyCounted.of_eq freeBlocksStats_bitmap freeBlocksStats_buddy
      freeBlocksStats_bbCounters
  have hcounted₂ := freeBlocksLoop_counted count _ first hcounted₁ hrange
    (by simpa using hused)
  obtain ⟨hkeeps, hbitmap₂⟩ := freeBlocksLoop_keepsStats bits count
    (freeBlocksStats bits g first count) first
  rw [freeBlocksStats_bitmap] at hbitmap₂
  refine ⟨?_, by rw [mbSetLargestFreeOrder_bitmap, hbitmap₂]⟩
  refine ⟨hcounted₂.of_eq (by simp) (by simp) (by simp), ?_, ?_, ?_, rfl⟩
  · -- `bb_free` grew by the clusters freed
    rw [mbSetLargestFreeOrder_bitmap, hbitmap₂, card_free_writeRange hrange hused,
      ← hinv.free_eq]
    exact hkeeps.bbFree_eq.trans freeBlocksStats_bbFree
  · -- `bb_first_free` went down to `first` if need be
    intro x hx hfree
    rw [mbSetLargestFreeOrder_bitmap, hbitmap₂] at hfree
    show (freeBlocksLoop bits count _ first).bbFirstFree ≤ x
    rw [hkeeps.bbFirstFree_eq, freeBlocksStats_bbFirstFree]
    by_cases hin : first ≤ x ∧ x < first + count
    · -- a freed cluster is at or above `first`
      split_ifs <;> omega
    · -- any other free cluster was free before
      rw [writeRange_of_not_mem (by omega)] at hfree
      have hold := hinv.firstFree_le x hx hfree
      split_ifs <;> omega
  · rw [mbSetLargestFreeOrder_bitmap, hbitmap₂]
    show (freeBlocksLoop bits count _ first).bbFragments = _
    rw [hkeeps.bbFragments_eq, freeBlocksStats_bbFragments hinv hcount hrange hused]

/-- On a consistent group, `mb_free_blocks` on clusters all in use is defined and leaves a
consistent group whose bitmap has exactly those clusters freed. -/
theorem BuddyGroup.mbFreeBlocks_inv (hinv : BuddyInv bits g) (hcount : 0 < count)
    (hrange : first + count ≤ 2 ^ (bits + 3))
    (hused : ∀ x, first ≤ x → x < first + count → g.bitmap x = true) :
    ∃ g', BuddyGroup.mbFreeBlocks bits g first count = some g' ∧ BuddyInv bits g' ∧
      g'.bitmap = writeRange g.bitmap first count false := by
  obtain ⟨hinv', hbitmap'⟩ := hinv.freeBlocks hcount hrange hused
  exact ⟨_, BuddyGroup.mbFreeBlocks_of_le hrange, hinv', hbitmap'⟩

/-- Freeing the first eight clusters of a group of 1K blocks whose clusters are all in use. -/
theorem BuddyGroup.mbFreeBlocks_inv_initCache :
    BuddyInv 10 (BuddyGroup.initCache (fun _ => true) 0) ∧ 0 < 8 ∧ 0 + 8 ≤ 2 ^ (10 + 3) ∧
      (∀ x, 0 ≤ x → x < 0 + 8 → (BuddyGroup.initCache (fun _ => true) 0).bitmap x = true) ∧
      ∃ g', BuddyGroup.mbFreeBlocks 10 (BuddyGroup.initCache (fun _ => true) 0) 0 8 = some g' ∧
        BuddyInv 10 g' ∧ g'.bitmap = writeRange (fun _ => true) 0 8 false :=
  ⟨initCache_inv 10, by decide, by decide, fun _ _ _ => rfl,
    BuddyGroup.mbFreeBlocks_inv (initCache_inv 10) (by decide) (by decide) fun _ _ _ => rfl⟩

/-- The order-0 model of `mb_free_blocks` that delayed reuse runs (`mbFreeBlocks`) is this one
seen through the bitmap, `bb_free` and `bb_first_free`: from a group that agrees with it
there, whatever its buddy, both free the same clusters and leave the same two counts. -/
theorem BuddyGroup.mbFreeBlocks_refines (gi : GroupInfo) (hbitmap : gi.bitmap = g.bitmap)
    (hfree : gi.bbFree = g.bbFree) (hfirst : gi.bbFirstFree = g.bbFirstFree)
    (hrange : first + count ≤ 2 ^ (bits + 3)) :
    ∃ g', BuddyGroup.mbFreeBlocks bits g first count = some g' ∧
      g'.bitmap = (OptFs.Mballoc.mbFreeBlocks gi first count).1.bitmap ∧
      g'.bbFree = (OptFs.Mballoc.mbFreeBlocks gi first count).1.bbFree ∧
      g'.bbFirstFree = (OptFs.Mballoc.mbFreeBlocks gi first count).1.bbFirstFree := by
  obtain ⟨hkeeps, hbitmap'⟩ :=
    freeBlocksLoop_keepsStats bits count (freeBlocksStats bits g first count) first
  refine ⟨_, BuddyGroup.mbFreeBlocks_of_le hrange, ?_, ?_, ?_⟩
  · rw [mbSetLargestFreeOrder_bitmap, hbitmap', freeBlocksStats_bitmap, ← hbitmap]
    rfl
  · show (freeBlocksLoop bits count _ first).bbFree = _
    rw [hkeeps.bbFree_eq, freeBlocksStats_bbFree, ← hfree]
    rfl
  · show (freeBlocksLoop bits count _ first).bbFirstFree = _
    rw [hkeeps.bbFirstFree_eq, freeBlocksStats_bbFirstFree, ← hfirst]
    rfl

/-- A group of 1K blocks with every cluster in use, seen by both models. -/
theorem BuddyGroup.mbFreeBlocks_refines_initCache :
    (⟨.nil, fun _ => true, 0, 0⟩ : GroupInfo).bitmap =
        (BuddyGroup.initCache (fun _ => true) 0).bitmap ∧
      (⟨.nil, fun _ => true, 0, 0⟩ : GroupInfo).bbFree =
        (BuddyGroup.initCache (fun _ => true) 0).bbFree ∧
      (⟨.nil, fun _ => true, 0, 0⟩ : GroupInfo).bbFirstFree =
        (BuddyGroup.initCache (fun _ => true) 0).bbFirstFree ∧ 0 + 8 ≤ 2 ^ (10 + 3) ∧
      ∃ g', BuddyGroup.mbFreeBlocks 10 (BuddyGroup.initCache (fun _ => true) 0) 0 8 = some g' ∧
        g'.bitmap = (OptFs.Mballoc.mbFreeBlocks ⟨.nil, fun _ => true, 0, 0⟩ 0 8).1.bitmap ∧
        g'.bbFree = (OptFs.Mballoc.mbFreeBlocks ⟨.nil, fun _ => true, 0, 0⟩ 0 8).1.bbFree ∧
        g'.bbFirstFree = (OptFs.Mballoc.mbFreeBlocks ⟨.nil, fun _ => true, 0, 0⟩ 0 8).1.bbFirstFree :=
  ⟨rfl, rfl, rfl, by decide, BuddyGroup.mbFreeBlocks_refines _ rfl rfl rfl (by decide)⟩

/-- In a group of eight clusters (`bd_blkbits = 0`), freeing clusters 0 and 1 merges them into
one free chunk of order 1, clear in the buddy, and one free extent. -/
example : ((BuddyGroup.mbFreeBlocks 0 (BuddyGroup.initCache (fun _ => true) 0) 0 2).map fun g =>
    (g.bbCounters 0, g.bbCounters 1, g.buddy 1 0, g.bbFragments)) = some (0, 1, false, 1) := by
  decide

end FreeBlocks

end OptFs.Mballoc
