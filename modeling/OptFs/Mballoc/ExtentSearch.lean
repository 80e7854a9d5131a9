import OptFs.Mballoc.MarkUsed

/-!
# The search for a free extent (`mb_find_extent`)

`mb_find_extent(e4b, 0, block, needed, ex)` starts at the free chunk holding `block`, of the
order `mb_find_order_for_block` finds, and adds the free chunk after it while the extent is
shorter than `needed`, stopping at the end of the group or at a cluster in use.

On a group whose buddy represents its bitmap (`BuddyRep`), the order found for a free cluster
is that of the largest free chunk holding it (`BuddyRep.mbFindOrderForBlock_eq`): order 0, the
cluster alone, when its buddy cluster is in use. The free chunk after a largest free chunk
starts where that one ends (`shiftLeft_shiftRight_of_buddyFree`). So on such a group the search
from a free cluster is defined and returns an extent of free clusters, inside the group, that
stops short of `needed` only at the end of the group or at a cluster in use
(`mbFindExtent_free`); it is at least as long as `needed` or the run of free clusters from
`block`, and the search from a cluster in use returns the empty extent (`mbFindExtent_spec`).
-/
namespace OptFs.Mballoc

/-! ## Chunks and orders -/

/-- Below the start of its chunk of order `k`, a cluster that does not start it is in the same
chunk as the one before it. -/
theorem shiftRight_pred_eq {x k : Nat} (h : x >>> k <<< k ≠ x) : (x - 1) >>> k = x >>> k := by
  have hx := (shiftRight_eq_iff (x := x) (k := k)).mp rfl
  apply shiftRight_eq_iff.mpr
  omega

/-- A chunk of order `k` below `2 ^ (bits + 3 - k)` ends inside the group. -/
theorem succ_mul_two_pow_le {bits k i : Nat} (hi : i < 2 ^ (bits + 3 - k)) (hk : k ≤ bits + 3) :
    (i + 1) * 2 ^ k ≤ 2 ^ (bits + 3) :=
  calc (i + 1) * 2 ^ k ≤ 2 ^ (bits + 3 - k) * 2 ^ k := Nat.mul_le_mul_right _ hi
    _ = 2 ^ (bits + 3) := by rw [← Nat.pow_add, Nat.sub_add_cancel hk]

section Orders

variable {bits : Nat} {g : BuddyGroup} {b o : Nat}

/-- On a group whose buddy represents its bitmap, `mb_find_order_for_block` finds for `b` the
order of the largest free chunk holding it. -/
theorem BuddyRep.mbFindOrderForBlock_eq (h : BuddyRep bits g) (hb : b < 2 ^ (bits + 3))
    (hotop : o ≤ bits + 1) (hfree : BuddyFree bits g.bitmap o (b >>> o)) :
    mbFindOrderForBlock bits g b = some o := by
  -- at each order from 1 but `o` the bit of the chunk holding `b` is set: below `o` the chunk
  -- has a free parent, above `o` it is not free
  have hset : ∀ k, 1 ≤ k → k ≤ bits + 1 → k ≠ o → g.buddy k (b >>> k) = true := by
    intro k hk hk' hko
    rw [← Bool.not_eq_false]
    intro hclear
    have hk'' := (h.buddy_eq_false_iff k (b >>> k) hk hk'
      (shiftRight_lt_two_pow hb (by omega))).mp hclear
    rcases Nat.lt_or_gt_of_ne hko with hlt | hgt
    · rcases hk''.2 with htop | hparent
      · omega
      · rw [← shiftRight_succ_eq_div_two rfl] at hparent
        exact hparent (hfree.1.of_le hlt)
    · rcases hfree.2 with htop | hparent
      · omega
      · rw [← shiftRight_succ_eq_div_two rfl] at hparent
        exact hparent (hk''.1.of_le hgt)
  rcases Nat.eq_zero_or_pos o with rfl | ho
  · exact mbFindOrderForBlock_eq_zero_of_set hb fun k hk hk' => hset k hk hk' (by omega)
  have hlt : ¬ b ≥ 1 <<< (bits + 3) := by
    rw [Nat.one_shiftLeft]
    omega
  rw [mbFindOrderForBlock, if_neg hlt]
  congr 1
  apply findOrderLoop_eq hotop (bits + 1) b 1 (by omega) ho
  · intro k hk hko
    rw [Nat.add_sub_cancel]
    exact hset k hk (by omega) (by omega)
  · rw [Nat.add_sub_cancel]
    exact (h.buddy_eq_false_iff o (b >>> o) ho hotop
      (shiftRight_lt_two_pow hb (by omega))).mpr hfree

/-- A free cluster: `mb_find_order_for_block` finds the largest free chunk holding it. -/
theorem BuddyRep.exists_order (h : BuddyRep bits g) (hb : b < 2 ^ (bits + 3))
    (hfree : g.bitmap b = false) :
    ∃ o, mbFindOrderForBlock bits g b = some o ∧ o ≤ bits + 1 ∧
      BuddyFree bits g.bitmap o (b >>> o) := by
  obtain ⟨o, hotop, hchunk, hstop⟩ := exists_stop_order bits hfree
  have hmax : BuddyFree bits g.bitmap o (b >>> o) :=
    ⟨hchunk, by rwa [← shiftRight_succ_eq_div_two rfl]⟩
  exact ⟨o, h.mbFindOrderForBlock_eq hb hotop hmax, hotop, hmax⟩

end Orders

/-- The free chunk after a largest free chunk: if the chunk of order `o'` holding the cluster
right after the largest free chunk `blk` of order `order` is free, it starts at that cluster,
or the chunk of order `order + 1` holding `blk` would be free too. -/
theorem shiftLeft_shiftRight_of_buddyFree {bits : Nat} {bm : Nat → Bool} {order blk o' : Nat}
    (hprev : BuddyFree bits bm order blk) (ho' : o' ≤ bits + 1)
    (hnext : ChunkFree bm o' (((blk + 1) * 2 ^ order) >>> o')) :
    ((blk + 1) * 2 ^ order) >>> o' <<< o' = (blk + 1) * 2 ^ order := by
  by_contra hna
  have hord : order < o' := by
    by_contra hle
    apply hna
    -- a multiple of `2 ^ order` is one of `2 ^ o'`
    rw [Nat.shiftLeft_eq, Nat.shiftRight_eq_div_pow]
    exact Nat.div_mul_cancel (Dvd.dvd.mul_left (pow_dvd_pow 2 (by omega)) _)
  have hpred := shiftRight_pred_eq hna
  have hlast : ((blk + 1) * 2 ^ order - 1) >>> order = blk := by
    apply shiftRight_eq_iff.mpr
    rw [Nat.shiftLeft_eq, Nat.add_mul, one_mul]
    have := Nat.two_pow_pos order
    omega
  have hparent : ChunkFree bm (order + 1) (((blk + 1) * 2 ^ order - 1) >>> (order + 1)) :=
    (show ChunkFree bm o' (((blk + 1) * 2 ^ order - 1) >>> o') by rw [hpred]; exact hnext).of_le
      hord
  rw [shiftRight_succ_eq_div_two hlast] at hparent
  rcases hprev.2 with htop | hmax
  · omega
  · exact hmax hparent

/-! ## The search -/

section Search

variable {bits : Nat} {g : BuddyGroup} {needed block : Nat}

/-- The loop of `mb_find_extent` after the largest free chunk `blk` of order `order`, which
ends the free extent `[block, block + len)` found so far: it returns a free extent from `block`
at least as long, inside the group, shorter than `needed` only where the group ends or the
next cluster is in use. -/
theorem findExtentLoop_spec (h : BuddyRep bits g) :
    ∀ (n order blk len : Nat), needed - len < n → order ≤ bits + 1 →
      BuddyFree bits g.bitmap order blk → blk < 2 ^ (bits + 3 - order) →
      block + len = (blk + 1) * 2 ^ order →
      (∀ x, block ≤ x → x < block + len → g.bitmap x = false) →
      ∃ len', findExtentLoop bits g needed order blk len = some len' ∧ len ≤ len' ∧
        block + len' ≤ 2 ^ (bits + 3) ∧
        (∀ x, block ≤ x → x < block + len' → g.bitmap x = false) ∧
        (len' < needed → block + len' = 2 ^ (bits + 3) ∨ g.bitmap (block + len') = true) := by
  intro n
  induction n with
  | zero =>
    intro order blk len hn
    omega
  | succ n ih =>
    intro order blk len hn hotop hmax hblk hend hfree
    have hE := succ_mul_two_pow_le hblk (by omega)
    rw [findExtentLoop]
    by_cases hneed : needed > len
    · rw [dif_pos hneed, mbFindBuddyMax_of_le hotop]
      dsimp only
      by_cases hlast : blk + 1 ≥ 2 ^ (bits + 3 - order)
      · -- the chunk ends the group
        rw [if_pos hlast]
        have hN : 2 ^ (bits + 3) ≤ (blk + 1) * 2 ^ order :=
          calc 2 ^ (bits + 3) = 2 ^ (bits + 3 - order) * 2 ^ order := by
                rw [← Nat.pow_add, Nat.sub_add_cancel (by omega)]
            _ ≤ (blk + 1) * 2 ^ order := Nat.mul_le_mul_right _ hlast
        exact ⟨len, rfl, le_rfl, by omega, hfree, fun _ => .inl (by omega)⟩
      rw [if_neg hlast]
      simp only [Nat.one_shiftLeft]
      by_cases hused : g.bitmap ((blk + 1) * 2 ^ order) = true
      · -- the next cluster is in use
        rw [if_pos hused]
        exact ⟨len, rfl, le_rfl, by omega, hfree, fun _ => .inr (by rwa [hend])⟩
      rw [if_neg hused]
      -- the next cluster is free: the chunk found for it starts there
      have hnext : (blk + 1) * 2 ^ order < 2 ^ (bits + 3) := by
        have := succ_mul_two_pow_le (show blk + 1 < 2 ^ (bits + 3 - order) by omega) (by omega)
        rw [Nat.add_mul (blk + 1)] at this
        have := Nat.two_pow_pos order
        omega
      obtain ⟨o', hord, ho'top, hmax'⟩ := h.exists_order hnext (Bool.eq_false_iff.mpr hused)
      rw [hord]
      dsimp only
      have halign := shiftLeft_shiftRight_of_buddyFree hmax ho'top hmax'.1
      have hend' : block + (len + 2 ^ o') = (((blk + 1) * 2 ^ order) >>> o' + 1) * 2 ^ o' := by
        rw [Nat.add_mul, one_mul, ← Nat.shiftLeft_eq, halign]
        omega
      have hfree' : ∀ x, block ≤ x → x < block + (len + 2 ^ o') → g.bitmap x = false := by
        intro x h₁ h₂
        by_cases hx : x < block + len
        · exact hfree x h₁ hx
        · -- a cluster of the chunk found
          apply chunkFree_iff.mp hmax'.1 x
          apply shiftRight_eq_iff.mpr
          rw [halign]
          omega
      have hpos := Nat.two_pow_pos o'
      obtain ⟨len', hrun, hle, hlen', hfree'', hstop⟩ := ih o' _ (len + 2 ^ o') (by omega)
        ho'top hmax' (shiftRight_lt_two_pow hnext (by omega)) hend' hfree'
      exact ⟨len', hrun, by omega, hlen', hfree'', hstop⟩
    · rw [dif_neg hneed]
      exact ⟨len, rfl, le_rfl, by omega, hfree, fun hlt => absurd hlt (by omega)⟩

/-- On a group whose buddy represents its bitmap, `mb_find_extent` from a free cluster is
defined: it returns an extent of free clusters from `block`, inside the group, that is shorter
than `needed` only where the group ends or the next cluster is in use. -/
theorem BuddyRep.mbFindExtent_of_free (h : BuddyRep bits g) (hb : block < 2 ^ (bits + 3))
    (hfree : g.bitmap block = false) (bdGroup needed : Nat) :
    ∃ len, mbFindExtent bits g bdGroup block needed = some (len, ⟨block, len, bdGroup⟩) ∧
      0 < len ∧ block + len ≤ 2 ^ (bits + 3) ∧
      (∀ x, block ≤ x → x < block + len → g.bitmap x = false) ∧
      (len < needed → block + len = 2 ^ (bits + 3) ∨ g.bitmap (block + len) = true) := by
  obtain ⟨o, hord, hotop, hmax⟩ := h.exists_order hb hfree
  -- the extent starts as the rest of the chunk found
  have hchunk := (shiftRight_eq_iff (x := block) (k := o)).mp rfl
  have hstart : block + (2 ^ o - (block - block >>> o <<< o)) = (block >>> o + 1) * 2 ^ o := by
    rw [Nat.add_mul, one_mul, ← Nat.shiftLeft_eq]
    omega
  have hfree₀ : ∀ x, block ≤ x → x < block + (2 ^ o - (block - block >>> o <<< o)) →
      g.bitmap x = false := by
    intro x h₁ h₂
    apply chunkFree_iff.mp hmax.1 x
    apply shiftRight_eq_iff.mpr
    omega
  obtain ⟨len, hrun, hle, hlen, hfree', hstop⟩ := findExtentLoop_spec h _ o (block >>> o)
    _ (Nat.lt_succ_self _) hotop hmax (shiftRight_lt_two_pow hb (by omega)) hstart hfree₀
  refine ⟨len, ?_, by omega, hlen, hfree', hstop⟩
  rw [mbFindExtent, if_neg (by rw [Nat.one_shiftLeft]; omega), if_neg (by simp [hfree]), hord]
  dsimp only
  rw [Nat.one_shiftLeft, hrun]
  dsimp only
  rw [if_neg (by rw [Nat.one_shiftLeft]; omega)]

/-- On a group whose buddy represents its bitmap, `mb_find_extent` from a free cluster is
defined: it returns an extent of free clusters from `block`, inside the group, that is shorter
than `needed` only where the group ends or the next cluster is in use. -/
theorem mbFindExtent_free {bdGroup : Nat} (h : BuddyRep bits g)
    (hb : block < 2 ^ (bits + 3)) (hfree : g.bitmap block = false) :
    ∃ len, mbFindExtent bits g bdGroup block needed = some (len, ⟨block, len, bdGroup⟩) ∧
      0 < len ∧ block + len ≤ 2 ^ (bits + 3) ∧
      (∀ x, block ≤ x → x < block + len → g.bitmap x = false) ∧
      (len < needed → block + len = 2 ^ (bits + 3) ∨ g.bitmap (block + len) = true) :=
  h.mbFindExtent_of_free hb hfree bdGroup needed

/-- The search from cluster 3 for four clusters in the group of eight free ones. -/
theorem mbFindExtent_free_eightFreeClusters :
    BuddyRep 0 eightFreeClusters ∧ 3 < 2 ^ (0 + 3) ∧ eightFreeClusters.bitmap 3 = false ∧
      ∃ len, mbFindExtent 0 eightFreeClusters 0 3 4 = some (len, ⟨3, len, 0⟩) ∧
        0 < len ∧ 3 + len ≤ 2 ^ (0 + 3) ∧
        (∀ x, 3 ≤ x → x < 3 + len → eightFreeClusters.bitmap x = false) ∧
        (len < 4 → 3 + len = 2 ^ (0 + 3) ∨ eightFreeClusters.bitmap (3 + len) = true) :=
  ⟨eightFreeClusters_inv.toBuddyRep, by decide, rfl,
    mbFindExtent_free eightFreeClusters_inv.toBuddyRep (by decide) rfl⟩

/-- An extent shorter than `needed` that stops at the end of the group or at a cluster in use
is as long as any run of free clusters from its start. -/
theorem min_le_of_stop {bm : Nat → Bool} {N block len needed : Nat}
    (hstop : len < needed → block + len = N ∨ bm (block + len) = true) (m : Nat)
    (hrun : ∀ x, block ≤ x → x < block + m → x < N ∧ bm x = false) : min needed m ≤ len := by
  by_contra hlt
  have hlen : len < needed := by omega
  have hin := hrun (block + len) (by omega) (by omega)
  rcases hstop hlen with hend | hused
  · omega
  · rw [hin.2] at hused
    exact Bool.false_ne_true hused

/-- `mb_find_extent` on a group whose buddy represents its bitmap: from a cluster in use it
returns 0 and the empty extent; from a free cluster it returns the length of an extent that
starts at `block`, whose clusters are free, that ends inside the group and that is at least as
long as `needed` or as the run of free clusters from `block`. -/
theorem mbFindExtent_spec (h : BuddyRep bits g) (hb : block < 2 ^ (bits + 3))
    (bdGroup needed : Nat) :
    (g.bitmap block = true → mbFindExtent bits g bdGroup block needed = some (0, ⟨0, 0, 0⟩)) ∧
      (g.bitmap block = false → ∃ len,
        mbFindExtent bits g bdGroup block needed = some (len, ⟨block, len, bdGroup⟩) ∧
        (∀ x, block ≤ x → x < block + len → g.bitmap x = false) ∧
        (∀ m, (∀ x, block ≤ x → x < block + m → x < 2 ^ (bits + 3) ∧ g.bitmap x = false) →
          min needed m ≤ len) ∧
        block + len ≤ 2 ^ (bits + 3)) := by
  have hlt : ¬ block ≥ 1 <<< (bits + 3) := by
    rw [Nat.one_shiftLeft]
    omega
  constructor
  · intro hused
    rw [mbFindExtent, if_neg hlt, if_pos hused]
  · intro hfree
    refine (h.mbFindExtent_of_free hb hfree bdGroup needed).imp ?_
    rintro len ⟨hrun, -, hlen, hfree', hstop⟩
    exact ⟨hrun, hfree', min_le_of_stop hstop, hlen⟩

/-- A group of eight clusters (`bd_blkbits = 0`) with cluster 0 in use: cluster 1 is a free
chunk of order 0, its buddy cluster being in use, and clusters 2 to 7 make three free chunks of
order 1. -/
def firstClusterUsed : BuddyGroup where
  bitmap x := decide (x = 0)
  buddy k i := decide (k ≠ 1 ∨ i = 0)
  bbCounters k := if k = 0 then 1 else if k = 1 then 3 else 0
  bbFirstFree := 1
  bbFree := 7
  bbFragments := 1
  bbLargestFreeOrder := 1

theorem firstClusterUsed_rep : BuddyRep 0 firstClusterUsed where
  buddy_eq_false_iff k i hk hk' hi := by
    obtain rfl : k = 1 := by omega
    interval_cases i <;> decide

/-- The search from the lone free cluster 1 for four clusters: the extent starts with the
cluster alone, at order 0, and goes on over the chunks `{2, 3}` and `{4, 5}`. -/
theorem mbFindExtent_spec_firstClusterUsed :
    BuddyRep 0 firstClusterUsed ∧ 1 < 2 ^ (0 + 3) ∧
      ((firstClusterUsed.bitmap 1 = true →
        mbFindExtent 0 firstClusterUsed 0 1 4 = some (0, ⟨0, 0, 0⟩)) ∧
      (firstClusterUsed.bitmap 1 = false → ∃ len,
        mbFindExtent 0 firstClusterUsed 0 1 4 = some (len, ⟨1, len, 0⟩) ∧
        (∀ x, 1 ≤ x → x < 1 + len → firstClusterUsed.bitmap x = false) ∧
        (∀ m, (∀ x, 1 ≤ x → x < 1 + m → x < 2 ^ (0 + 3) ∧ firstClusterUsed.bitmap x = false) →
          min 4 m ≤ len) ∧
        1 + len ≤ 2 ^ (0 + 3))) :=
  ⟨firstClusterUsed_rep, by decide, mbFindExtent_spec firstClusterUsed_rep (by decide) 0 4⟩

example : mbFindExtent 0 firstClusterUsed 0 1 4 = some (5, ⟨1, 5, 0⟩) := by
  simp [mbFindExtent, mbFindOrderForBlock, findOrderLoop, findExtentLoop, mbFindBuddyMax,
    firstClusterUsed]

end Search

end OptFs.Mballoc
