import OptFs.Lib.Bits

/-!
# Building the buddy of a block group (`mballoc.c`)

For each block group the allocator keeps, beside the block bitmap (order 0), one buddy bitmap
per order `k = 1 .. s_blocksize_bits + 1`: a clear bit `i` of order `k` says that the aligned
chunk of `2 ^ k` clusters starting at `i * 2 ^ k` is free as a whole. `bb_counters[k]` counts
the free chunks of order `k`; the array has `s_blocksize_bits + 2` entries, and so do
`s_mb_offsets` and `s_mb_maxs`, which locate each order's bitmap in the buddy block.

`ext4bf_mb_generate_buddy` builds all of it from the bitmap: it walks the free extents, and
`ext4bf_mb_mark_free_simple` cuts each into aligned power-of-two chunks, the largest that the
alignment of `first` and the length allow. The alignment is capped by `border`, so that no
chunk exceeds the highest order; but `border` is an `unsigned short` holding
`2 << s_blocksize_bits`, which is `0` for 32K and 64K blocks. Then nothing caps the order:

* a free extent at cluster 0 makes `max = ffs(0) - 1 = -1`, and the code computes `1 << -1`,
  a shift by a negative amount, and increments `bb_counters[-1]`
  (`ext4bfMbMarkFreeSimple_undefined`, `ext4bfMbGenerateBuddy_undefined`);
* an extent aligned past the highest order is marked as one chunk of that larger order, in
  `bb_counters` and `s_mb_offsets` past their ends (`ext4bfMbMarkFreeSimple_past_max_order`).

Up to 16K blocks the border is `2 ^ (s_blocksize_bits + 1)`: every chunk stays within the
arrays and the counters account for exactly the free clusters (`ext4bfMbGenerateBuddy_within`).

A call whose C behaviour is undefined returns `none`. Counters and bitmaps are modelled as
functions over every order, so that a write past the arrays shows as a write at an order past
`s_blocksize_bits + 1`. The statistics, the `NEED_INIT` bit and the error report for a
`bb_free` that disagrees with the bitmap are left out.
-/

namespace OptFs.Mballoc

open Lib.Bits

/-- The buddy of a group and the fields of `struct ext4bf_group_info` that building it sets.
`buddy k i` is bit `i` of the order-`k` buddy bitmap (set: not a free chunk). -/
structure BuddyGroup where
  bitmap : Nat → Bool
  buddy : Nat → Nat → Bool
  bbCounters : Nat → Int
  bbFirstFree : Nat
  bbFree : Nat
  bbFragments : Nat
  bbLargestFreeOrder : Int

namespace BuddyGroup

/-- What `ext4bf_mb_init_cache` hands to `ext4bf_mb_generate_buddy`: the counters and
`bb_fragments` zeroed, every buddy bit set (`memset(data, 0xff, blocksize)`), and `bb_free`
as the group descriptor has it. -/
def initCache (bitmap : Nat → Bool) (bbFree : Nat) : BuddyGroup where
  bitmap := bitmap
  buddy := fun _ _ => true
  bbCounters := fun _ => 0
  bbFirstFree := 0
  bbFree := bbFree
  bbFragments := 0
  bbLargestFreeOrder := -1

/-- `grp->bb_counters[k]++`. -/
def incCounter (g : BuddyGroup) (k : Nat) : BuddyGroup :=
  { g with bbCounters := Function.update g.bbCounters k (g.bbCounters k + 1) }

/-- `mb_clear_bit(i, buddy + s_mb_offsets[k])`. -/
def clearBuddyBit (g : BuddyGroup) (k i : Nat) : BuddyGroup :=
  { g with buddy := Function.update g.buddy k (Function.update (g.buddy k) i false) }

/-- One chunk of `ext4bf_mb_mark_free_simple`: the chunk of order `min` at `first` is counted,
and marked free in its buddy bitmap unless it is a single cluster. -/
def markChunk (g : BuddyGroup) (min first : Nat) : BuddyGroup :=
  if 0 < min then (g.incCounter min).clearBuddyBit min (first >>> min) else g.incCounter min

/-- The clusters that the counters of orders below `n` account for. -/
def counted (n : Nat) (g : BuddyGroup) : Int :=
  ∑ k ∈ Finset.range n, g.bbCounters k * 2 ^ k

/-- `g'` has the counters and buddy bitmaps of `g` at every order above `n`. -/
def SameAbove (n : Nat) (g g' : BuddyGroup) : Prop :=
  ∀ k, n < k → g'.bbCounters k = g.bbCounters k ∧ g'.buddy k = g.buddy k

end BuddyGroup

/-- The order of the next chunk of `ext4bf_mb_mark_free_simple`: `max = ffs(first | border) - 1`
and `min = fls(len) - 1`, both `int`s, and the smaller of the two. -/
def markFreeSimpleMin (border first len : Nat) : Int :=
  let max : Int := (ffs (first ||| border) : Int) - 1
  if max < (fls len : Int) - 1 then max else (fls len : Int) - 1

/-- The loop of `ext4bf_mb_mark_free_simple`, with `len` as its fuel: each round takes one
chunk of `2 ^ min` clusters off the front of `[first, first + len)`. -/
def markFreeSimpleLoop (border : Nat) : Nat → BuddyGroup → Nat → Nat → Option BuddyGroup
  | 0, g, _, _ => some g
  | fuel + 1, g, first, len =>
    if len = 0 then some g
    else
      let min := markFreeSimpleMin border first len
      -- `chunk = 1 << min` is undefined for a negative `min`
      if min < 0 then none
      else
        markFreeSimpleLoop border fuel (g.markChunk min.toNat first)
          (first + 2 ^ min.toNat) (len - 2 ^ min.toNat)

/-- `border = 2 << sb->s_blocksize_bits`, stored in an `unsigned short`. -/
def markFreeSimpleBorder (bits : Nat) : UInt16 := UInt16.ofNat (2 <<< bits)

/-- `ext4bf_mb_mark_free_simple` on the free extent `[first, first + len)`. -/
def ext4bfMbMarkFreeSimple (bits : Nat) (g : BuddyGroup) (first len : Nat) :
    Option BuddyGroup :=
  markFreeSimpleLoop (markFreeSimpleBorder bits).toNat len g first len

/-- `mb_find_next_bit` (`v = true`) and `mb_find_next_zero_bit` (`v = false`): the first
position from `start` below `max` whose bit is `v`, or `max`. -/
def mbFindNextBit (bm : Nat → Bool) (max start : Nat) (v : Bool) : Nat :=
  go (max - start) start
where
  go : Nat → Nat → Nat
    | 0, _ => max
    | n + 1, i => if bm i = v then i else go n (i + 1)

/-- `mb_set_largest_free_order`: the highest order with a free chunk, `-1` for none. -/
def mbSetLargestFreeOrder (bits : Nat) (g : BuddyGroup) : BuddyGroup :=
  let order := (List.range (bits + 2)).reverse.find? fun i => 0 < g.bbCounters i
  { g with bbLargestFreeOrder := (order.map (fun i => (i : Int))).getD (-1) }

/-- The loop of `ext4bf_mb_generate_buddy` from position `i`, with the locals `free` and
`fragments`; the fuel is the group size, and every round passes a free extent. -/
def generateBuddyLoop (bits max : Nat) (bm : Nat → Bool) :
    Nat → BuddyGroup → Nat → Nat → Nat → Option (BuddyGroup × Nat × Nat)
  | 0, g, _, free, fragments => some (g, free, fragments)
  | fuel + 1, g, i, free, fragments =>
    if i < max then
      let first := i
      let i := mbFindNextBit bm max first true
      let len := i - first
      (if 1 < len then ext4bfMbMarkFreeSimple bits g first len
       else some (g.incCounter 0)).bind fun g =>
        generateBuddyLoop bits max bm fuel g
          (if i < max then mbFindNextBit bm max i false else i) (free + len) (fragments + 1)
    else some (g, free, fragments)

/-- `ext4bf_mb_generate_buddy` for a group of `max` clusters, from its bitmap. A `bb_free`
that disagrees with the bitmap is reported and replaced, so it ends as the count found. -/
def ext4bfMbGenerateBuddy (bits max : Nat) (g : BuddyGroup) : Option BuddyGroup :=
  let i := mbFindNextBit g.bitmap max 0 false
  (generateBuddyLoop bits max g.bitmap max { g with bbFirstFree := i } i 0 0).map
    fun (g, free, fragments) =>
      mbSetLargestFreeOrder bits { g with bbFragments := fragments, bbFree := free }

/-! ## Counters and orders -/

namespace BuddyGroup

variable {g g' g'' : BuddyGroup} {n : Nat}

theorem SameAbove.refl (n : Nat) (g : BuddyGroup) : g.SameAbove n g :=
  fun _ _ => ⟨rfl, rfl⟩

theorem SameAbove.trans (h₁ : g.SameAbove n g') (h₂ : g'.SameAbove n g'') :
    g.SameAbove n g'' := by
  intro k hk
  rw [(h₂ k hk).1, (h₂ k hk).2, (h₁ k hk).1, (h₁ k hk).2]
  exact ⟨rfl, rfl⟩

/-- A chunk of order at most `n` leaves the orders above `n` alone. -/
theorem sameAbove_markChunk {m : Nat} (hm : m ≤ n) (first : Nat) :
    g.SameAbove n (g.markChunk m first) := by
  intro k hk
  have hkm : k ≠ m := by omega
  unfold markChunk
  split <;> simp [incCounter, clearBuddyBit, hkm]

theorem counted_incCounter {k : Nat} (hk : k < n) :
    (g.incCounter k).counted n = g.counted n + 2 ^ k := by
  -- only the summand at `k` changes, by `2 ^ k`
  have hterm : ∀ j ∈ Finset.range n, (g.incCounter k).bbCounters j * 2 ^ j =
      g.bbCounters j * 2 ^ j + if j = k then 2 ^ k else 0 := by
    intro j _
    by_cases hj : j = k
    · subst hj
      simp only [incCounter, Function.update_self, if_true]
      ring
    · simp [incCounter, hj]
  rw [counted, Finset.sum_congr rfl hterm, Finset.sum_add_distrib,
    Finset.sum_ite_eq' (Finset.range n) k (fun _ => (2 : Int) ^ k),
    if_pos (Finset.mem_range.mpr hk), counted]

theorem counted_markChunk {m : Nat} (hm : m < n) (first : Nat) :
    (g.markChunk m first).counted n = g.counted n + 2 ^ m := by
  unfold markChunk
  split
  · rw [← counted_incCounter hm]
    rfl
  · exact counted_incCounter hm

end BuddyGroup

/-! ## The scans -/

section Scans

variable {bm : Nat → Bool} {max start : Nat} {v : Bool}

theorem mbFindNextBit_of_eq (hs : start < max) (hv : bm start = v) :
    mbFindNextBit bm max start v = start := by
  unfold mbFindNextBit
  obtain ⟨n, hn⟩ : ∃ n, max - start = n + 1 := ⟨max - start - 1, by omega⟩
  rw [hn, mbFindNextBit.go, if_pos hv]

theorem mbFindNextBit_of_ne (hs : start < max) (hv : bm start ≠ v) :
    mbFindNextBit bm max start v = mbFindNextBit bm max (start + 1) v := by
  unfold mbFindNextBit
  obtain ⟨n, hn⟩ : ∃ n, max - start = n + 1 := ⟨max - start - 1, by omega⟩
  rw [hn, mbFindNextBit.go, if_neg hv, show max - (start + 1) = n by omega]

/-- The scan stops between `start` and `max`, on a bit `v` unless it reached `max`. -/
theorem mbFindNextBit_spec (bm : Nat → Bool) (v : Bool) (hs : start ≤ max) :
    start ≤ mbFindNextBit bm max start v ∧ mbFindNextBit bm max start v ≤ max ∧
      (mbFindNextBit bm max start v < max → bm (mbFindNextBit bm max start v) = v) := by
  unfold mbFindNextBit
  -- the fuel and the position add up to `max` along the scan
  suffices h : ∀ n i, i + n = max → i ≤ mbFindNextBit.go bm max v n i ∧
      mbFindNextBit.go bm max v n i ≤ max ∧
      (mbFindNextBit.go bm max v n i < max → bm (mbFindNextBit.go bm max v n i) = v) from
    h _ _ (by omega)
  intro n
  induction n with
  | zero =>
    intro i hi
    rw [mbFindNextBit.go]
    exact ⟨by omega, le_refl max, fun h => absurd h (lt_irrefl max)⟩
  | succ n ih =>
    intro i hi
    rw [mbFindNextBit.go]
    split
    · exact ⟨le_refl i, by omega, fun _ => by assumption⟩
    · obtain ⟨hle, hmax, hv⟩ := ih (i + 1) (by omega)
      exact ⟨Nat.le_of_succ_le hle, hmax, hv⟩

/-- From a bit that is not `v`, the scan moves on. -/
theorem lt_mbFindNextBit (hs : start < max) (hv : bm start ≠ v) :
    start < mbFindNextBit bm max start v := by
  rw [mbFindNextBit_of_ne hs hv]
  exact (mbFindNextBit_spec bm v (Nat.succ_le_of_lt hs)).1

end Scans

/-! ## `ext4bf_mb_mark_free_simple` -/

section MarkFreeSimple

variable {bits : Nat} {g : BuddyGroup}

@[simp] theorem markFreeSimpleLoop_len_zero (border fuel : Nat) (first : Nat) :
    markFreeSimpleLoop border fuel g first 0 = some g := by
  cases fuel <;> rfl

/-- One round on a non-empty extent, once the chunk's order `min` is known to be `m ≥ 0`. -/
theorem markFreeSimpleLoop_succ {border fuel first len m : Nat} (hlen : len ≠ 0)
    (hmin : markFreeSimpleMin border first len = m) :
    markFreeSimpleLoop border (fuel + 1) g first len =
      markFreeSimpleLoop border fuel (g.markChunk m first) (first + 2 ^ m) (len - 2 ^ m) := by
  rw [markFreeSimpleLoop, if_neg hlen]
  simp only [hmin, Int.toNat_natCast]
  rw [if_neg (by omega)]

/-- For 32K and 64K blocks `2 << s_blocksize_bits` does not fit the `unsigned short`. -/
theorem markFreeSimpleBorder_eq_zero (hbits : 15 ≤ bits) :
    (markFreeSimpleBorder bits).toNat = 0 := by
  have hpow : 2 <<< bits = 2 ^ 16 * 2 ^ (bits - 15) := by
    rw [Nat.shiftLeft_eq, ← pow_add, ← pow_succ']
    congr 1
    omega
  rw [markFreeSimpleBorder, UInt16.toNat_ofNat', hpow, Nat.mul_mod_right]

/-- Up to 16K blocks it holds `2 ^ (s_blocksize_bits + 1)`. -/
theorem markFreeSimpleBorder_eq (hbits : bits ≤ 14) :
    (markFreeSimpleBorder bits).toNat = 2 ^ (bits + 1) := by
  have hlt : 2 ^ (bits + 1) < 2 ^ 16 := Nat.pow_lt_pow_right (by decide) (by omega)
  rw [markFreeSimpleBorder, UInt16.toNat_ofNat', Nat.shiftLeft_eq, ← pow_succ',
    Nat.mod_eq_of_lt hlt]

/-- Without a border, an extent at cluster 0 has no lowest set bit: `min` is `-1`. -/
theorem ext4bfMbMarkFreeSimple_undefined (hbits : 15 ≤ bits) {len : Nat} (hlen : 0 < len) :
    ext4bfMbMarkFreeSimple bits g 0 len = none := by
  unfold ext4bfMbMarkFreeSimple
  rw [markFreeSimpleBorder_eq_zero hbits]
  obtain ⟨n, rfl⟩ : ∃ n, len = n + 1 := ⟨len - 1, by omega⟩
  -- `max = ffs(0 | 0) - 1 = -1`, and `min` is at most `max`
  have hmin : markFreeSimpleMin 0 0 (n + 1) < 0 := by
    simp only [markFreeSimpleMin, Nat.or_zero, ffs_zero, Nat.cast_zero, zero_sub]
    split <;> omega
  rw [markFreeSimpleLoop, if_neg (Nat.add_one_ne_zero n)]
  simp only [hmin, if_true]

/-- Without a border, an extent aligned on `2 ^ (s_blocksize_bits + 2)` is one chunk of that
order: the counter and the bitmap written lie past the ends of `bb_counters` and
`s_mb_offsets`, whose last order is `s_blocksize_bits + 1`. -/
theorem ext4bfMbMarkFreeSimple_past_max_order (hbits : 15 ≤ bits) :
    ext4bfMbMarkFreeSimple bits g (2 ^ (bits + 2)) (2 ^ (bits + 2)) =
      some ((g.incCounter (bits + 2)).clearBuddyBit (bits + 2) 1) := by
  unfold ext4bfMbMarkFreeSimple
  rw [markFreeSimpleBorder_eq_zero hbits]
  obtain ⟨n, hn⟩ : ∃ n, 2 ^ (bits + 2) = n + 1 :=
    ⟨2 ^ (bits + 2) - 1, by have := Nat.two_pow_pos (bits + 2); omega⟩
  -- one round: `ffs` and `fls` of `2 ^ (bits + 2)` are both `bits + 3`
  have hmin : markFreeSimpleMin 0 (2 ^ (bits + 2)) (2 ^ (bits + 2)) = ((bits + 2 : Nat) : Int) := by
    rw [markFreeSimpleMin, Nat.or_zero, ffs_two_pow, fls_two_pow]
    simp only [lt_self_iff_false, if_false]
    omega
  have hround : markFreeSimpleLoop 0 (n + 1) g (2 ^ (bits + 2)) (2 ^ (bits + 2)) = _ :=
    markFreeSimpleLoop_succ (Nat.two_pow_pos _).ne' hmin
  have hshift : 2 ^ (bits + 2) >>> (bits + 2) = 1 := by
    rw [Nat.shiftRight_eq_div_pow, Nat.div_self (Nat.two_pow_pos _)]
  rw [← hn] at hround
  rw [hround, Nat.sub_self, markFreeSimpleLoop_len_zero, BuddyGroup.markChunk,
    if_pos (by omega), hshift]

/-- One round under the border `2 ^ (bits + 1)`: the chunk's order is at most `bits + 1`, and
the chunk fits in what is left of the extent. -/
theorem markFreeSimpleLoop_round (bits : Nat) {len : Nat} (hlen : len ≠ 0)
    (fuel first : Nat) :
    ∃ m, m ≤ bits + 1 ∧ 2 ^ m ≤ len ∧
      markFreeSimpleLoop (2 ^ (bits + 1)) (fuel + 1) g first len =
        markFreeSimpleLoop (2 ^ (bits + 1)) fuel (g.markChunk m first)
          (first + 2 ^ m) (len - 2 ^ m) := by
  -- the alignment, capped by the border, is between `0` and `bits + 1`
  obtain ⟨hffs₁, hffs₂⟩ := ffs_or_two_pow_le first (bits + 1)
  have hfls := fls_pos (Nat.pos_of_ne_zero hlen)
  have hchunk : 2 ^ (fls len - 1) ≤ len := two_pow_fls_sub_one_le (Nat.pos_of_ne_zero hlen)
  set a := ffs (first ||| 2 ^ (bits + 1)) with ha
  have hmin : markFreeSimpleMin (2 ^ (bits + 1)) first len =
      ((if a - 1 < fls len - 1 then a - 1 else fls len - 1 : Nat) : Int) := by
    simp only [markFreeSimpleMin, ← ha]
    split <;> split <;> omega
  refine ⟨_, ?_, ?_, markFreeSimpleLoop_succ hlen hmin⟩
  · split <;> omega
  · split
    · exact le_trans (Nat.pow_le_pow_right (by decide) (by omega)) hchunk
    · exact hchunk

/-- Under the border `2 ^ (bits + 1)`, with as much fuel as the extent is long, the loop is
defined, marks only orders up to `bits + 1`, and its chunks add up to the extent. -/
theorem markFreeSimpleLoop_within (bits : Nat) :
    ∀ (fuel : Nat) (g : BuddyGroup) (first len : Nat), len ≤ fuel → ∃ g',
      markFreeSimpleLoop (2 ^ (bits + 1)) fuel g first len = some g' ∧
      g.SameAbove (bits + 1) g' ∧ g'.counted (bits + 2) = g.counted (bits + 2) + len := by
  intro fuel
  induction fuel with
  | zero =>
    intro g first len hlen
    obtain rfl : len = 0 := by omega
    exact ⟨g, markFreeSimpleLoop_len_zero _ _ _, .refl _ g, by simp⟩
  | succ fuel ih =>
    intro g first len hlen
    by_cases hlen0 : len = 0
    · subst hlen0
      exact ⟨g, markFreeSimpleLoop_len_zero _ _ _, .refl _ g, by simp⟩
    obtain ⟨m, hm, hchunk, hround⟩ :=
      markFreeSimpleLoop_round bits (g := g) hlen0 fuel first
    -- every chunk is at least one cluster, so the rest fits the remaining fuel
    have hpos := Nat.one_le_two_pow (n := m)
    obtain ⟨g', hg', hsame, hcount⟩ := ih (g.markChunk m first) (first + 2 ^ m) (len - 2 ^ m)
      (by omega)
    refine ⟨g', hround.trans hg', (BuddyGroup.sameAbove_markChunk hm first).trans hsame, ?_⟩
    rw [hcount, BuddyGroup.counted_markChunk (by omega)]
    push_cast [hchunk]
    ring

theorem ext4bfMbMarkFreeSimple_within (hbits : bits ≤ 14) (g : BuddyGroup) (first len : Nat) :
    ∃ g', ext4bfMbMarkFreeSimple bits g first len = some g' ∧
      g.SameAbove (bits + 1) g' ∧ g'.counted (bits + 2) = g.counted (bits + 2) + len := by
  unfold ext4bfMbMarkFreeSimple
  rw [markFreeSimpleBorder_eq hbits]
  exact markFreeSimpleLoop_within bits len g first len le_rfl

end MarkFreeSimple

/-! ## `ext4bf_mb_generate_buddy` -/

section GenerateBuddy

variable {bits max : Nat} {bm : Nat → Bool}

/-- Up to 16K blocks the walk is defined, leaves the orders past `s_blocksize_bits + 1`
alone, and its counters grow by exactly the free clusters it passes. The walk's invariant:
the position is `max` or past it, or a free cluster. -/
theorem generateBuddyLoop_within (hbits : bits ≤ 14) :
    ∀ (fuel : Nat) (g : BuddyGroup) (i free fragments : Nat), (i < max → bm i = false) →
      ∃ g' free' fragments',
        generateBuddyLoop bits max bm fuel g i free fragments = some (g', free', fragments') ∧
        g.SameAbove (bits + 1) g' ∧
        g'.counted (bits + 2) - free' = g.counted (bits + 2) - free := by
  intro fuel
  induction fuel with
  | zero =>
    intro g i free fragments _
    exact ⟨g, free, fragments, rfl, .refl _ g, rfl⟩
  | succ fuel ih =>
    intro g i free fragments hfree
    by_cases hi : i < max
    swap
    · exact ⟨g, free, fragments, by rw [generateBuddyLoop, if_neg hi], .refl _ g, rfl⟩
    -- the extent `[i, next)` is at least one cluster long
    set next := mbFindNextBit bm max i true with hnext
    have hlt : i < next := lt_mbFindNextBit hi (by rw [hfree hi]; decide)
    have hnext_le : next ≤ max := (mbFindNextBit_spec bm true hi.le).2.1
    -- the extent is marked chunk by chunk, or counted as one cluster
    obtain ⟨g₁, hg₁, hsame₁, hcount₁⟩ : ∃ g₁,
        (if 1 < next - i then ext4bfMbMarkFreeSimple bits g i (next - i)
          else some (g.incCounter 0)) = some g₁ ∧
        g.SameAbove (bits + 1) g₁ ∧
        g₁.counted (bits + 2) = g.counted (bits + 2) + ((next - i : Nat) : Int) := by
      split
      · exact ext4bfMbMarkFreeSimple_within hbits g i (next - i)
      · refine ⟨g.incCounter 0, rfl, fun k hk => ?_, ?_⟩
        · have hk0 : k ≠ 0 := by omega
          simp [BuddyGroup.incCounter, hk0]
        · rw [BuddyGroup.counted_incCounter (by omega), show next - i = 1 by omega]
          norm_num
    -- the next position is again a free cluster, unless the walk is done
    have hfree' : (if next < max then mbFindNextBit bm max next false else next) < max →
        bm (if next < max then mbFindNextBit bm max next false else next) = false := by
      split
      · exact (mbFindNextBit_spec bm false hnext_le).2.2
      · intro h
        omega
    obtain ⟨g', free', fragments', hloop, hsame, hcount⟩ :=
      ih g₁ _ (free + (next - i)) (fragments + 1) hfree'
    refine ⟨g', free', fragments', ?_, hsame₁.trans hsame, ?_⟩
    · rw [generateBuddyLoop, if_pos hi]
      simp only [← hnext, hg₁, Option.bind_some]
      exact hloop
    · rw [hcount, hcount₁, Nat.cast_add]
      ring

/-- Up to 16K blocks, `ext4bf_mb_generate_buddy` is defined, writes no order past
`s_blocksize_bits + 1`, and the counters it builds account for exactly the free clusters it
sets `bb_free` to. -/
theorem ext4bfMbGenerateBuddy_within (hbits : bits ≤ 14) (bm : Nat → Bool) (bbFree : Nat) :
    ∃ g', ext4bfMbGenerateBuddy bits max (BuddyGroup.initCache bm bbFree) = some g' ∧
      (BuddyGroup.initCache bm bbFree).SameAbove (bits + 1) g' ∧
      g'.counted (bits + 2) = g'.bbFree := by
  have hstart := (mbFindNextBit_spec bm false (Nat.zero_le max)).2.2
  obtain ⟨g₁, free, fragments, hloop, hsame, hcount⟩ := generateBuddyLoop_within hbits max
    { BuddyGroup.initCache bm bbFree with bbFirstFree := mbFindNextBit bm max 0 false }
    (mbFindNextBit bm max 0 false) 0 0 hstart
  refine ⟨mbSetLargestFreeOrder bits { g₁ with bbFragments := fragments, bbFree := free },
    by unfold ext4bfMbGenerateBuddy; exact congrArg (Option.map _) hloop, hsame, ?_⟩
  -- the zeroed counters account for nothing
  have hzero : ({ BuddyGroup.initCache bm bbFree with
      bbFirstFree := mbFindNextBit bm max 0 false } : BuddyGroup).counted (bits + 2) = 0 := by
    simp [BuddyGroup.counted, BuddyGroup.initCache]
  rw [hzero] at hcount
  show g₁.counted (bits + 2) = free
  omega

/-- With 32K or 64K blocks, a group whose first two clusters are free makes
`ext4bf_mb_generate_buddy` shift by a negative amount. -/
theorem ext4bfMbGenerateBuddy_undefined {g : BuddyGroup} (hbits : 15 ≤ bits)
    (hmax : 2 ≤ max) (h0 : g.bitmap 0 = false) (h1 : g.bitmap 1 = false) :
    ext4bfMbGenerateBuddy bits max g = none := by
  unfold ext4bfMbGenerateBuddy
  -- the first free cluster is 0, and the extent from it is at least two clusters long
  have hfirst : mbFindNextBit g.bitmap max 0 false = 0 := mbFindNextBit_of_eq (by omega) h0
  have hnext : mbFindNextBit g.bitmap max 0 true = mbFindNextBit g.bitmap max 2 true := by
    rw [mbFindNextBit_of_ne (by omega) (by rw [h0]; decide),
      mbFindNextBit_of_ne (by omega) (by rw [h1]; decide)]
  have hlen : 2 ≤ mbFindNextBit g.bitmap max 2 true :=
    (mbFindNextBit_spec g.bitmap true hmax).1
  obtain ⟨fuel, hfuel⟩ : ∃ fuel, max = fuel + 1 := ⟨max - 1, by omega⟩
  have hwalk : generateBuddyLoop bits max g.bitmap max =
      generateBuddyLoop bits max g.bitmap (fuel + 1) := by rw [← hfuel]
  simp only [hfirst]
  rw [hwalk, generateBuddyLoop, if_pos (by omega)]
  simp only [hnext, Nat.sub_zero, if_pos (show 1 < mbFindNextBit g.bitmap max 2 true by omega),
    ext4bfMbMarkFreeSimple_undefined hbits (show 0 < mbFindNextBit g.bitmap max 2 true by omega),
    Option.bind_none, Option.map_none]

/-- An empty group of a file system with 32K blocks: `2 ^ 18` clusters, all free. -/
theorem ext4bfMbGenerateBuddy_undefined_emptyGroup :
    15 ≤ 15 ∧ 2 ≤ 2 ^ 18 ∧
      (BuddyGroup.initCache (fun i => decide (2 ^ 18 ≤ i)) (2 ^ 18)).bitmap 0 = false ∧
      (BuddyGroup.initCache (fun i => decide (2 ^ 18 ≤ i)) (2 ^ 18)).bitmap 1 = false ∧
      ext4bfMbGenerateBuddy 15 (2 ^ 18)
        (BuddyGroup.initCache (fun i => decide (2 ^ 18 ≤ i)) (2 ^ 18)) = none :=
  ⟨by decide, by decide, rfl, rfl, ext4bfMbGenerateBuddy_undefined (by decide) (by decide) rfl rfl⟩

end GenerateBuddy

end OptFs.Mballoc
