import OptFs.Mballoc.Buddy

/-!
# Finding a free extent in the buddy (`mballoc.c`)

`mb_find_extent(e4b, 0, block, needed, ex)` reports the free extent that starts at `block`:
nothing when `block` is in use, else the rest of the buddy chunk holding `block`, extended
chunk by chunk (each found by `mb_find_order_for_block`) while it is shorter than `needed`,
the next cluster is free and the group has more chunks of the current order.

`mb_find_order_for_block` tests the buddy bitmaps from order 1 up and returns the first order
whose bit for the block is clear, or 0 when none is. After each order it steps its pointer over
that order's bitmap, `bb += 1 << (bd_blkbits - order)`; after the highest order,
`bd_blkbits + 1`, the shift count is `-1`, but the pointer is not read again: the loop ends and
returns 0. That is the order of a free cluster whose buddy cluster is in use, a free chunk of
order 0, and `mb_find_extent` then starts the extent with that one cluster.

The buddy bitmaps are modelled one per order, as `BuddyGroup.buddy`: `s_mb_offsets` places
them one after another exactly as the pointer steps of `mb_find_order_for_block` assume, and
`s_mb_maxs[order]` is `(s_blocksize << 2) >> (order - 1)`. `none` is a `BUG_ON`. Every caller
passes order 0, and so does the model.
-/
namespace OptFs.Mballoc

/-! ## The model -/

/-- `struct ext4bf_free_extent`. -/
structure FreeExtent where
  feStart : Nat
  feLen : Nat
  feGroup : Nat
deriving DecidableEq, Repr

/-- `mb_find_buddy(e4b, order, &max)` as the loop of `mb_find_extent` uses it: `none` (a NULL
buddy) past the highest order, else `max`, the number of bits of the order's bitmap. -/
def mbFindBuddyMax (bits order : Nat) : Option Nat :=
  if order > bits + 1 then none
  else if order = 0 then some (1 <<< (bits + 3))
  else some (((1 <<< bits) <<< 2) >>> (order - 1))

/-- The loop of `mb_find_order_for_block` at `order`, with `block` shifted for the orders
before and `fuel` the orders left: the first order whose bit for the block is clear, and 0 when
the orders run out. The pointer step `bb += 1 << (e4b->bd_blkbits - order)` after the highest
order shifts by `-1` into a pointer that is never read, so the model leaves it out. -/
def findOrderLoop (g : BuddyGroup) : Nat → Nat → Nat → Nat
  | 0, _, _ => 0
  | fuel + 1, block, order =>
    if g.buddy order (block >>> 1) = false then order
    else findOrderLoop g fuel (block >>> 1) (order + 1)

/-- `mb_find_order_for_block`, from order 1 through `bd_blkbits + 1`; `BUG_ON` for a block past
the bitmap. -/
def mbFindOrderForBlock (bits : Nat) (g : BuddyGroup) (block : Nat) : Option Nat :=
  if block ≥ 1 <<< (bits + 3) then none else some (findOrderLoop g (bits + 1) block 1)

/-- Each round of the loop of `mb_find_extent` adds at least one cluster to the extent. -/
theorem sub_add_shiftLeft_lt {needed len : Nat} (h : needed > len) (k : Nat) :
    needed - (len + (1 <<< k)) < needed - len := by
  have hpos : 0 < 1 <<< k := by
    rw [Nat.one_shiftLeft]
    exact Nat.two_pow_pos k
  omega

/-- The loop of `mb_find_extent`: while the extent is shorter than `needed` and the group has
a chunk of the current order after `block`, the free chunk at the next cluster is added. -/
def findExtentLoop (bits : Nat) (g : BuddyGroup) (needed : Nat) (order block len : Nat) :
    Option Nat :=
  if h : needed > len then
    match mbFindBuddyMax bits order with
    | none => some len
    | some max =>
      if block + 1 ≥ max then some len
      else
        let next := (block + 1) * (1 <<< order)
        if g.bitmap next then some len
        else
          match mbFindOrderForBlock bits g next with
          | none => none
          | some order' =>
            have := sub_add_shiftLeft_lt h order'
            findExtentLoop bits g needed order' (next >>> order') (len + (1 <<< order'))
  else some len
termination_by needed - len

/-- `mb_find_extent(e4b, 0, block, needed, ex)` in group `bdGroup`: its return value and the
extent. The extent starts as the rest of the chunk holding `block` (`fe_start` and `fe_len`
of the chunk, then moved to `block`); `BUG_ON` for a block past the bitmap and for an extent
that ends past it. -/
def mbFindExtent (bits : Nat) (g : BuddyGroup) (bdGroup block needed : Nat) :
    Option (Nat × FreeExtent) :=
  if block ≥ 1 <<< (bits + 3) then none
  else if g.bitmap block then some (0, ⟨0, 0, 0⟩)
  else
    match mbFindOrderForBlock bits g block with
    | none => none
    | some order =>
      let feStart := (block >>> order) <<< order
      match findExtentLoop bits g needed order (block >>> order)
          ((1 <<< order) - (block - feStart)) with
      | none => none
      | some feLen =>
        if block + feLen > 1 <<< (bits + 3) then none else some (feLen, ⟨block, feLen, bdGroup⟩)

/-! ## The representation invariant -/

/-- Every cluster of chunk `i` of order `k` is free. -/
def ChunkFree (bitmap : Nat → Bool) (k i : Nat) : Prop :=
  ∀ j < 2 ^ k, bitmap (i * 2 ^ k + j) = false

/-- The buddy of a group with `bd_blkbits = bits` represents its bitmap: at every order
`k = 1 .. bits + 1`, bit `i` is clear exactly when chunk `i` is free and, below the highest
order, the chunk of order `k + 1` holding it is not. -/
structure BuddyRep (bits : Nat) (g : BuddyGroup) : Prop where
  buddy_eq_false_iff : ∀ k i, 1 ≤ k → k ≤ bits + 1 → i < 2 ^ (bits + 3 - k) →
    (g.buddy k i = false ↔
      ChunkFree g.bitmap k i ∧ (k = bits + 1 ∨ ¬ ChunkFree g.bitmap (k + 1) (i / 2)))

/-! ## Chunks in use -/

/-- A chunk with a cluster in use is not free. -/
theorem not_chunkFree_of_used {bitmap : Nat → Bool} {x : Nat} (hx : bitmap x = true) (k : Nat) :
    ¬ ChunkFree bitmap k (x >>> k) := by
  intro hchunk
  have hsplit : x >>> k * 2 ^ k + x % 2 ^ k = x := by
    rw [Nat.shiftRight_eq_div_pow, Nat.mul_comm]
    exact Nat.div_add_mod x (2 ^ k)
  have hfree := hchunk (x % 2 ^ k) (Nat.mod_lt _ (Nat.two_pow_pos k))
  rw [hsplit, hx] at hfree
  exact Bool.noConfusion hfree

end OptFs.Mballoc
