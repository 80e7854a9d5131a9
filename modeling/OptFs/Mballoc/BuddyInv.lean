import OptFs.Mballoc.FindExtent

/-!
# The consistency of a loaded buddy (`mballoc.c`)

What `__mb_check_buddy` checks of a group, extended to every order, as one invariant,
`BuddyInv`:

* the buddy bitmaps represent the block bitmap (`BuddyRep`): the bit of chunk `i` of order
  `k ≥ 1` is clear exactly for a free chunk whose parent chunk is not free (`BuddyFree`);
* `bb_counters[k]` is the number of such chunks at every order `k = 0 .. s_blocksize_bits + 1`;
  a free chunk of order 0 is a free cluster whose buddy cluster is in use;
* `bb_free` counts the free clusters, `bb_first_free` is at or below each of them, and
  `bb_fragments` counts the free extents, that is the free clusters that follow a cluster in
  use or start the group (`RunStart`);
* `bb_largest_free_order` is what `mb_set_largest_free_order` computes from the counters.

The chunk lemmas say that a chunk is free when both its halves are (`chunkFree_succ`), that the
chunks inside a free chunk are free (`ChunkFree.of_le`), and that a write to the bitmap leaves
every chunk that does not hold the written cluster as it was (`chunkFree_congr`). The operations
of the buddy are proved against them, and their counters through `card_filter_add_card_filter`,
which counts a predicate that changed at a few places only.

A group whose clusters are all in use, as `ext4bf_mb_init_cache` leaves it before building the
buddy, is consistent (`initCache_inv`).
-/

namespace OptFs.Mballoc

/-! ## Counting where a predicate changed -/

/-- Two predicates that agree outside `t` are counted over `s` with the difference they make on
`t`. -/
theorem card_filter_add_card_filter {α : Type} [DecidableEq α] {s t : Finset α}
    {P Q : α → Prop} [DecidablePred P] [DecidablePred Q] (hts : t ⊆ s)
    (h : ∀ x ∈ s, x ∉ t → (P x ↔ Q x)) :
    (s.filter P).card + (t.filter Q).card = (s.filter Q).card + (t.filter P).card := by
  -- both counts split into the part outside `t`, where they agree, and the part on `t`
  have hsplit : ∀ (R : α → Prop) [DecidablePred R],
      (s.filter R).card = ((s \ t).filter R).card + (t.filter R).card := by
    intro R _
    rw [← Finset.card_union_of_disjoint (Finset.disjoint_filter_filter Finset.sdiff_disjoint),
      ← Finset.filter_union, Finset.sdiff_union_of_subset hts]
  have hout : (s \ t).filter P = (s \ t).filter Q :=
    Finset.filter_congr fun x hx => h x (Finset.mem_sdiff.mp hx).1 (Finset.mem_sdiff.mp hx).2
  rw [hsplit P, hsplit Q, hout]
  omega

/-! ## Chunks -/

instance (bitmap : Nat → Bool) (k i : Nat) : Decidable (ChunkFree bitmap k i) :=
  inferInstanceAs (Decidable (∀ j < 2 ^ k, bitmap (i * 2 ^ k + j) = false))

section Chunks

variable {bm bm' : Nat → Bool} {k m i x : Nat}

/-- Chunk `i` of order `k` holds the clusters `x` with `x >>> k = i`. -/
theorem chunkFree_iff : ChunkFree bm k i ↔ ∀ x, x >>> k = i → bm x = false := by
  constructor
  · rintro h x rfl
    have hsplit : x >>> k * 2 ^ k + x % 2 ^ k = x := by
      rw [Nat.shiftRight_eq_div_pow, Nat.mul_comm]
      exact Nat.div_add_mod x (2 ^ k)
    have hfree := h (x % 2 ^ k) (Nat.mod_lt _ (Nat.two_pow_pos k))
    rwa [hsplit] at hfree
  · intro h j hj
    apply h
    rw [Nat.shiftRight_eq_div_pow, Nat.add_comm, Nat.add_mul_div_right _ _ (Nat.two_pow_pos k),
      Nat.div_eq_of_lt hj, Nat.zero_add]

@[simp] theorem chunkFree_zero : ChunkFree bm 0 i ↔ bm i = false := by
  simp [chunkFree_iff]

/-- A chunk is free exactly when both its halves are. -/
theorem chunkFree_succ :
    ChunkFree bm (k + 1) i ↔ ChunkFree bm k (2 * i) ∧ ChunkFree bm k (2 * i + 1) := by
  simp only [chunkFree_iff]
  -- a cluster is in chunk `i` one order up when its chunk of order `k` is one of the halves
  have hhalf : ∀ x, x >>> (k + 1) = i ↔ x >>> k = 2 * i ∨ x >>> k = 2 * i + 1 := by
    intro x
    rw [Nat.shiftRight_succ]
    omega
  constructor
  · intro h
    exact ⟨fun x hx => h x ((hhalf x).mpr (.inl hx)), fun x hx => h x ((hhalf x).mpr (.inr hx))⟩
  · rintro ⟨h0, h1⟩ x hx
    rcases (hhalf x).mp hx with h | h
    · exact h0 x h
    · exact h1 x h

/-- The chunks inside a free chunk are free. -/
theorem ChunkFree.of_le (h : ChunkFree bm k (x >>> k)) (hm : m ≤ k) :
    ChunkFree bm m (x >>> m) := by
  rw [chunkFree_iff] at h ⊢
  intro y hy
  apply h y
  have hk : k = m + (k - m) := by omega
  rw [hk, Nat.shiftRight_add, Nat.shiftRight_add, hy]

/-- A chunk none of whose clusters differ between two bitmaps is free in both or in neither. -/
theorem chunkFree_congr (h : ∀ x, x >>> k = i → bm' x = bm x) :
    ChunkFree bm' k i ↔ ChunkFree bm k i := by
  simp only [chunkFree_iff]
  exact forall_congr' fun x => imp_congr_right fun hx => by rw [h x hx]

/-- Writing one cluster leaves the chunks that do not hold it. -/
theorem chunkFree_update_of_ne {b : Nat} {v : Bool} (h : b >>> k ≠ i) :
    ChunkFree (Function.update bm b v) k i ↔ ChunkFree bm k i :=
  chunkFree_congr fun x hx => Function.update_of_ne (by rintro rfl; exact h hx) _ _

/-- The chunk of order `k + 1` holding chunk `i` of order `k` is chunk `i / 2`. -/
theorem shiftRight_succ_eq_div_two (h : x >>> k = i) : x >>> (k + 1) = i / 2 := by
  rw [Nat.shiftRight_succ, h]

/-- The clusters of chunk `c` of order `k` are `[c <<< k, c <<< k + 2 ^ k)`. -/
theorem shiftRight_eq_iff {c : Nat} : x >>> k = c ↔ c <<< k ≤ x ∧ x < (c <<< k) + 2 ^ k := by
  have hle : c ≤ x / 2 ^ k ↔ c * 2 ^ k ≤ x := Nat.le_div_iff_mul_le (Nat.two_pow_pos k)
  have hlt : x / 2 ^ k < c + 1 ↔ x < (c + 1) * 2 ^ k := Nat.div_lt_iff_lt_mul (Nat.two_pow_pos k)
  rw [Nat.add_mul, Nat.one_mul] at hlt
  rw [Nat.shiftRight_eq_div_pow, Nat.shiftLeft_eq]
  omega

/-- The chunk holding cluster `b` lies within the group of `2 ^ (bits + 3)` clusters. -/
theorem shiftRight_lt_two_pow {bits b : Nat} (hb : b < 2 ^ (bits + 3)) (hk : k ≤ bits + 3) :
    b >>> k < 2 ^ (bits + 3 - k) := by
  rw [Nat.shiftRight_eq_div_pow, Nat.div_lt_iff_lt_mul (Nat.two_pow_pos k), ← Nat.pow_add,
    Nat.sub_add_cancel hk]
  exact hb

end Chunks

/-! ## The invariant -/

/-- Chunk `i` of order `k` is one of the buddy's free chunks: it is free and, below the highest
order `bits + 1`, the chunk of order `k + 1` holding it is not. -/
def BuddyFree (bits : Nat) (bitmap : Nat → Bool) (k i : Nat) : Prop :=
  ChunkFree bitmap k i ∧ (k = bits + 1 ∨ ¬ ChunkFree bitmap (k + 1) (i / 2))

instance (bits : Nat) (bitmap : Nat → Bool) (k i : Nat) : Decidable (BuddyFree bits bitmap k i) :=
  inferInstanceAs (Decidable (_ ∧ _))

/-- The buddy's free chunks of order `k`, among the `2 ^ (bits + 3 - k)` chunks of the group. -/
def freeChunks (bits : Nat) (bitmap : Nat → Bool) (k : Nat) : Finset Nat :=
  (Finset.range (2 ^ (bits + 3 - k))).filter (BuddyFree bits bitmap k)

/-- Cluster `x` starts a free extent: it is free, and it is the group's first cluster or the
cluster before it is in use. -/
def RunStart (bitmap : Nat → Bool) (x : Nat) : Prop :=
  bitmap x = false ∧ (x = 0 ∨ bitmap (x - 1) = true)

instance (bitmap : Nat → Bool) : DecidablePred (RunStart bitmap) :=
  fun _ => inferInstanceAs (Decidable (_ ∧ _))

/-- The part of the invariant that the loops of `mb_free_blocks` and `mb_mark_used` keep round
by round: the buddy represents the bitmap and `bb_counters[k]` counts its free chunks of each
order. -/
structure BuddyCounted (bits : Nat) (g : BuddyGroup) : Prop extends BuddyRep bits g where
  counters_eq : ∀ k ≤ bits + 1, g.bbCounters k = (freeChunks bits g.bitmap k).card

/-- The consistency of a group's buddy and of the statistics kept beside it. -/
structure BuddyInv (bits : Nat) (g : BuddyGroup) : Prop extends BuddyCounted bits g where
  free_eq : g.bbFree = ((Finset.range (2 ^ (bits + 3))).filter (g.bitmap · = false)).card
  firstFree_le : ∀ x < 2 ^ (bits + 3), g.bitmap x = false → g.bbFirstFree ≤ x
  fragments_eq : g.bbFragments = ((Finset.range (2 ^ (bits + 3))).filter (RunStart g.bitmap)).card
  largest_eq : (mbSetLargestFreeOrder bits g).bbLargestFreeOrder = g.bbLargestFreeOrder

/-! ## Writing a range of the bitmap -/

/-- The bitmap `bm` with the clusters `[first, first + count)` set to `v`. -/
def writeRange (bm : Nat → Bool) (first count : Nat) (v : Bool) : Nat → Bool :=
  fun x => if first ≤ x ∧ x < first + count then v else bm x

section WriteRange

variable {bm : Nat → Bool} {N first count cur len : Nat}

theorem writeRange_of_mem {x : Nat} (h₁ : first ≤ x) (h₂ : x < first + count) (v : Bool) :
    writeRange bm first count v x = v := by
  rw [writeRange, if_pos ⟨h₁, h₂⟩]

theorem writeRange_of_not_mem {x : Nat} (h : x < first ∨ first + count ≤ x) (v : Bool) :
    writeRange bm first count v x = bm x := by
  rw [writeRange, if_neg (by omega)]

/-- Writing `m` bits and then the `n` after them writes the `m + n`. -/
theorem writeRange_append (bm : Nat → Bool) (cur m n : Nat) (v : Bool) :
    writeRange (writeRange bm cur m v) (cur + m) n v = writeRange bm cur (m + n) v := by
  funext x
  by_cases hx : cur ≤ x ∧ x < cur + (m + n)
  · rw [writeRange_of_mem hx.1 hx.2]
    by_cases hx' : cur + m ≤ x
    · exact writeRange_of_mem hx' (by omega) v
    · rw [writeRange_of_not_mem (by omega), writeRange_of_mem hx.1 (by omega)]
  · rw [writeRange_of_not_mem (by omega), writeRange_of_not_mem (by omega),
      writeRange_of_not_mem (by omega)]

/-- Writing one bit is writing a range of one. -/
theorem update_eq_writeRange (bm : Nat → Bool) (cur : Nat) (v : Bool) :
    Function.update bm cur v = writeRange bm cur 1 v := by
  funext x
  by_cases hx : x = cur
  · subst hx
    rw [Function.update_self, writeRange_of_mem le_rfl (by omega)]
  · rw [Function.update_of_ne hx, writeRange_of_not_mem (by omega)]

@[simp] theorem writeRange_zero (bm : Nat → Bool) (cur : Nat) (v : Bool) :
    writeRange bm cur 0 v = bm :=
  funext fun _ => writeRange_of_not_mem (by omega) v

/-- A second write of the same range overrides the first. -/
theorem writeRange_writeRange_self (bm : Nat → Bool) (cur len : Nat) (v w : Bool) :
    writeRange (writeRange bm cur len v) cur len w = writeRange bm cur len w := by
  funext x
  by_cases hx : cur ≤ x ∧ x < cur + len
  · rw [writeRange_of_mem hx.1 hx.2, writeRange_of_mem hx.1 hx.2]
  · rw [writeRange_of_not_mem (by omega), writeRange_of_not_mem (by omega),
      writeRange_of_not_mem (by omega)]

/-- Writing what a range already holds changes nothing. -/
theorem writeRange_eq_self {v : Bool} (h : ∀ x, cur ≤ x → x < cur + len → bm x = v) :
    writeRange bm cur len v = bm := by
  funext x
  by_cases hx : cur ≤ x ∧ x < cur + len
  · rw [writeRange_of_mem hx.1 hx.2, h x hx.1 hx.2]
  · rw [writeRange_of_not_mem (by omega)]

/-- Freeing a range of clusters in use adds its length to the free clusters. -/
theorem card_free_writeRange (hrange : first + count ≤ N)
    (hused : ∀ x, first ≤ x → x < first + count → bm x = true) :
    ((Finset.range N).filter (writeRange bm first count false · = false)).card =
      ((Finset.range N).filter (bm · = false)).card + count := by
  have hsub : Finset.Ico first (first + count) ⊆ Finset.range N := fun x hx => by
    rw [Finset.mem_Ico] at hx
    exact Finset.mem_range.mpr (by omega)
  have hcount := card_filter_add_card_filter (P := (writeRange bm first count false · = false))
    (Q := (bm · = false)) hsub fun x _ hx => by
      rw [Finset.mem_Ico] at hx
      rw [writeRange_of_not_mem (by omega)]
  -- on the range every cluster was in use and is now free
  have hold : (Finset.Ico first (first + count)).filter (bm · = false) = ∅ :=
    Finset.filter_false_of_mem fun x hx hfree => by
      rw [Finset.mem_Ico] at hx
      rw [hused x hx.1 hx.2] at hfree
      exact Bool.noConfusion hfree
  have hnew : (Finset.Ico first (first + count)).filter (writeRange bm first count false · = false) =
      Finset.Ico first (first + count) :=
    Finset.filter_true_of_mem fun x hx => by
      rw [Finset.mem_Ico] at hx
      exact writeRange_of_mem hx.1 hx.2 false
  rw [hold, hnew, Nat.card_Ico, Finset.card_empty] at hcount
  omega

/-- The count of a predicate over one point. -/
theorem card_filter_singleton (a : Nat) (R : Nat → Prop) [DecidablePred R] :
    (({a} : Finset Nat).filter R).card = if R a then 1 else 0 := by
  rw [Finset.card_filter, Finset.sum_singleton]

/-- The count of a predicate over two points. -/
theorem card_filter_pair {a c : Nat} (hac : a ≠ c) (R : Nat → Prop) [DecidablePred R] :
    (({a, c} : Finset Nat).filter R).card = (if R a then 1 else 0) + (if R c then 1 else 0) := by
  rw [Finset.card_filter, Finset.sum_pair hac]

/-- Freeing a range of clusters in use changes the free extents at its two ends only: one
starts at `first` unless the cluster before is free, and the one that started right after the
range no longer does. -/
theorem card_runStart_writeRange (hcount : 0 < count) (hrange : first + count ≤ N)
    (hused : ∀ x, first ≤ x → x < first + count → bm x = true) :
    ((Finset.range N).filter (RunStart (writeRange bm first count false))).card +
        (if first + count < N ∧ bm (first + count) = false then 1 else 0) =
      ((Finset.range N).filter (RunStart bm)).card +
        (if first = 0 ∨ bm (first - 1) = true then 1 else 0) := by
  -- away from the two ends nothing starts or stops: inside, every cluster follows a free one
  have hagree : ∀ x, x ≠ first → x ≠ first + count →
      (RunStart (writeRange bm first count false) x ↔ RunStart bm x) := by
    intro x hx hx'
    by_cases hin : first < x ∧ x < first + count
    · have hold : ¬ RunStart bm x := fun h => by
        have hfree := h.1
        rw [hused x (by omega) (by omega)] at hfree
        exact Bool.noConfusion hfree
      have hnew : ¬ RunStart (writeRange bm first count false) x := fun h => by
        rcases h.2 with h0 | hprev
        · omega
        · rw [writeRange_of_mem (by omega) (by omega)] at hprev
          exact Bool.noConfusion hprev
      exact iff_of_false hnew hold
    · rw [RunStart, RunStart, writeRange_of_not_mem (by omega)]
      by_cases hx0 : x = 0
      · simp [hx0]
      · rw [writeRange_of_not_mem (by omega)]
  -- at `first` an extent starts unless the cluster before is free
  have hfirst_old : ¬ RunStart bm first := fun h => by
    have hfree := h.1
    rw [hused first le_rfl (by omega)] at hfree
    exact Bool.noConfusion hfree
  have hfirst_new : RunStart (writeRange bm first count false) first ↔
      first = 0 ∨ bm (first - 1) = true := by
    rw [RunStart, writeRange_of_mem le_rfl (by omega)]
    by_cases h0 : first = 0
    · simp [h0]
    · rw [writeRange_of_not_mem (by omega)]
      simp [h0]
  -- right after the range the extent now starts earlier
  have hend_new : ¬ RunStart (writeRange bm first count false) (first + count) := fun h => by
    rcases h.2 with h0 | hprev
    · omega
    · rw [writeRange_of_mem (by omega) (by omega)] at hprev
      exact Bool.noConfusion hprev
  have hend_old : RunStart bm (first + count) ↔ bm (first + count) = false := by
    rw [RunStart, hused (first + count - 1) (by omega) (by omega)]
    simp
  have hfirst_ite : (if RunStart (writeRange bm first count false) first then 1 else 0) =
      if first = 0 ∨ bm (first - 1) = true then 1 else 0 := if_congr hfirst_new rfl rfl
  have hend_ite : (if RunStart bm (first + count) then 1 else 0) =
      if bm (first + count) = false then 1 else 0 := if_congr hend_old rfl rfl
  by_cases hend : first + count < N
  · have hsub : ({first, first + count} : Finset Nat) ⊆ Finset.range N := by
      intro x hx
      rw [Finset.mem_insert, Finset.mem_singleton] at hx
      rcases hx with rfl | rfl <;> exact Finset.mem_range.mpr (by omega)
    have hcount' := card_filter_add_card_filter (P := RunStart (writeRange bm first count false))
      (Q := RunStart bm) hsub fun x _ hx => by
        rw [Finset.mem_insert, Finset.mem_singleton, not_or] at hx
        exact hagree x hx.1 hx.2
    rw [card_filter_pair (by omega), card_filter_pair (by omega), if_neg hfirst_old,
      if_neg hend_new, hfirst_ite, hend_ite] at hcount'
    simp only [hend, true_and]
    split_ifs at hcount' ⊢ <;> omega
  · have hsub : ({first} : Finset Nat) ⊆ Finset.range N :=
      Finset.singleton_subset_iff.mpr (Finset.mem_range.mpr (by omega))
    have hcount' := card_filter_add_card_filter (P := RunStart (writeRange bm first count false))
      (Q := RunStart bm) hsub fun x hxN hx => by
        rw [Finset.mem_singleton] at hx
        exact hagree x hx (by have := Finset.mem_range.mp hxN; omega)
    rw [card_filter_singleton, card_filter_singleton, if_neg hfirst_old, hfirst_ite] at hcount'
    simp only [hend, false_and, if_false]
    split_ifs at hcount' ⊢ <;> omega

end WriteRange

namespace BuddyCounted

variable {bits : Nat} {g g' : BuddyGroup}

/-- The invariant reads only the bitmap, the buddy and the counters. -/
theorem of_eq (h : BuddyCounted bits g) (hbitmap : g'.bitmap = g.bitmap)
    (hbuddy : g'.buddy = g.buddy) (hcounters : g'.bbCounters = g.bbCounters) :
    BuddyCounted bits g' where
  buddy_eq_false_iff k i hk hk' hi := by
    rw [hbuddy, hbitmap]
    exact h.buddy_eq_false_iff k i hk hk' hi
  counters_eq k hk := by
    rw [hcounters, hbitmap]
    exact h.counters_eq k hk

end BuddyCounted

@[simp] theorem mbSetLargestFreeOrder_bitmap (bits : Nat) (g : BuddyGroup) :
    (mbSetLargestFreeOrder bits g).bitmap = g.bitmap := rfl

@[simp] theorem mbSetLargestFreeOrder_buddy (bits : Nat) (g : BuddyGroup) :
    (mbSetLargestFreeOrder bits g).buddy = g.buddy := rfl

@[simp] theorem mbSetLargestFreeOrder_bbCounters (bits : Nat) (g : BuddyGroup) :
    (mbSetLargestFreeOrder bits g).bbCounters = g.bbCounters := rfl

/-- With every cluster in use, as `ext4bf_mb_init_cache` hands the group over before the buddy
is built, there is no free chunk, cluster or extent, and the group is consistent. -/
theorem initCache_inv (bits : Nat) : BuddyInv bits (BuddyGroup.initCache (fun _ => true) 0) :=
  -- chunk `i` of order `k` holds the used cluster `i * 2 ^ k`
  have hused : ∀ k i, ¬ ChunkFree (fun _ => true) k i := fun k _ h =>
    Bool.noConfusion (h 0 (Nat.two_pow_pos k))
  { buddy_eq_false_iff := fun k i _ _ _ => by
      simp [BuddyGroup.initCache, hused]
    counters_eq := fun k _ => by
      rw [freeChunks, Finset.filter_false_of_mem fun i _ h => hused k i h.1]
      rfl
    free_eq := by simp [BuddyGroup.initCache]
    firstFree_le := fun _ _ h => Bool.noConfusion h
    fragments_eq := by
      rw [Finset.filter_false_of_mem fun x _ h => Bool.noConfusion h.1]
      rfl
    largest_eq := by
      have hnone : ((List.range (bits + 2)).reverse.find? fun i =>
          decide (0 < (BuddyGroup.initCache (fun _ => true) 0).bbCounters i)) = none :=
        List.find?_eq_none.mpr fun i _ => by simp [BuddyGroup.initCache]
      simp only [mbSetLargestFreeOrder, hnone]
      rfl }

end OptFs.Mballoc
