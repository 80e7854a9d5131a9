import Mathlib

/-!
# Searching a node of the extent tree (`extents.c`)

A node of the extent tree is a header (`struct ext4bf_extent_header`) followed by
`eh_max` slots, of which the first `eh_entries` are in use. An index node's slots are
`struct ext4bf_extent_idx`, a leaf's `struct ext4bf_extent`; both start with the first
logical block they cover (`ei_block`, `ee_block`), which is all a search reads.

`ext4bf_ext_find_extent` checks a node read from disk with `__ext4bf_ext_check`, then picks
a slot with a binary search: `ext4bf_ext_binsearch_idx` in an index node,
`ext4bf_ext_binsearch` in a leaf. Both search between `EXT_FIRST + 1` and `EXT_LAST` and
return `l - 1`; only the leaf search first returns on an empty node.

* On a node with entries, both searches pick one of them, whatever the entries hold
  (`binsearchLoop_bounds`); on sorted entries they pick the last entry starting at or
  before the block, or the first one, as the linear scan under `CHECK_BINSEARCH` does
  (`ext4bfExtBinsearchIdx_eq_check`, `ext4bfExtBinsearch_eq_check`); `ext4bfExtBinsearch_spec`
  states the two together.
* `__ext4bf_ext_check` accepts a node with no entries, and on such an index node the
  search picks slot 0, which holds no index (`ext4bfExtBinsearchIdx_empty_index`).

Slot validity (`ext4bf_valid_extent`, `ext4bf_valid_extent_idx`, which test the physical
blocks through `ext4bf_data_block_valid`) is taken as given per slot. `AGGRESSIVE_TEST`
is not defined.
-/

namespace OptFs.Extents

/-- `struct ext4bf_extent_header`. -/
structure ExtentHeader where
  ehMagic : UInt16
  ehEntries : UInt16
  ehMax : UInt16
  ehDepth : UInt16
deriving DecidableEq, Repr

/-- A node of the extent tree: its header and the first logical block of each slot, slot 0
being `EXT_FIRST_INDEX` (or `EXT_FIRST_EXTENT`). Slots from `eh_entries` on hold whatever
the block holds there. -/
structure ExtentNode where
  hdr : ExtentHeader
  start : Nat → UInt32

/-- `EXT4_EXT_MAGIC`. -/
def ext4ExtMagic : UInt16 := 0xf30a

/-- `sizeof(struct ext4bf_extent_header)`. -/
def sizeofExtentHeader : Nat := 12

/-- `sizeof(struct ext4bf_extent)` and `sizeof(struct ext4bf_extent_idx)`. -/
def sizeofExtent : Nat := 12

/-- `sizeof(EXT4_I(inode)->i_data)`. -/
def sizeofIData : Nat := 60

/-- `ext4bf_ext_space_block` and `ext4bf_ext_space_block_idx`: slots in a tree block. -/
def ext4bfExtSpaceBlock (blocksize : Nat) : Nat := (blocksize - sizeofExtentHeader) / sizeofExtent

/-- `ext4bf_ext_space_root` and `ext4bf_ext_space_root_idx`: slots in the inode. -/
def ext4bfExtSpaceRoot : Nat := (sizeofIData - sizeofExtentHeader) / sizeofExtent

/-- `ext4bf_ext_max_entries`: the root in the inode (`depth = ext_depth(inode)`) or a tree
block. Extents and indexes have the same size, so leaf and index nodes agree. -/
def ext4bfExtMaxEntries (blocksize inodeDepth depth : Nat) : Nat :=
  if depth = inodeDepth then ext4bfExtSpaceRoot else ext4bfExtSpaceBlock blocksize

/-- `ext4bf_valid_extent_entries`: an empty node is valid; otherwise every entry is. -/
def ext4bfValidExtentEntries (validEntry : Nat → Bool) (n : ExtentNode) : Bool :=
  if n.hdr.ehEntries = 0 then true else (List.range n.hdr.ehEntries.toNat).all validEntry

/-- `__ext4bf_ext_check` of a node expected at `depth`, with the message of the first test
that fails. -/
def ext4bfExtCheck (blocksize inodeDepth : Nat) (validEntry : Nat → Bool) (n : ExtentNode)
    (depth : Nat) : Except String Unit :=
  if n.hdr.ehMagic ≠ ext4ExtMagic then .error "invalid magic"
  else if n.hdr.ehDepth.toNat ≠ depth then .error "unexpected eh_depth"
  else if n.hdr.ehMax = 0 then .error "invalid eh_max"
  else if n.hdr.ehMax.toNat > ext4bfExtMaxEntries blocksize inodeDepth depth then
    .error "too large eh_max"
  else if n.hdr.ehEntries.toNat > n.hdr.ehMax.toNat then .error "invalid eh_entries"
  else if !ext4bfValidExtentEntries validEntry n then .error "invalid extent entries"
  else .ok ()

/-- The `while (l <= r)` loop of both binary searches, over slot offsets from the first
slot: the middle slot's start decides which half is kept. Returns `l`. -/
def binsearchLoop (start : Nat → UInt32) (block : UInt32) (l r : Int) : Int :=
  if l ≤ r then
    if block < start (l + (r - l) / 2).toNat then binsearchLoop start block l (l + (r - l) / 2 - 1)
    else binsearchLoop start block (l + (r - l) / 2 + 1) r
  else l
termination_by (r + 1 - l).toNat

/-- `ext4bf_ext_binsearch_idx`: `l = EXT_FIRST_INDEX + 1`, `r = EXT_LAST_INDEX`, and
`p_idx = l - 1`, as an offset from the first slot. -/
def ext4bfExtBinsearchIdx (n : ExtentNode) (block : UInt32) : Int :=
  binsearchLoop n.start block 1 (n.hdr.ehEntries.toNat - 1) - 1

/-- `ext4bf_ext_binsearch`: as the index search, but an empty leaf leaves `p_ext` as
`ext4bf_ext_find_extent` set it, `NULL`. -/
def ext4bfExtBinsearch (n : ExtentNode) (block : UInt32) : Option Int :=
  if n.hdr.ehEntries = 0 then none
  else some (binsearchLoop n.start block 1 (n.hdr.ehEntries.toNat - 1) - 1)

/-- The reference scan under `CHECK_BINSEARCH` from slot `k`, with `chix` the last slot
seen that starts at or before the block. -/
def checkBinsearchLoop (start : Nat → UInt32) (block : UInt32) (entries : Nat) (k chix : Nat) :
    Nat :=
  if k < entries then
    if block < start k then chix else checkBinsearchLoop start block entries (k + 1) k
  else chix
termination_by entries - k

/-- The slot `CHECK_BINSEARCH` expects: `chix` starts at the first slot. -/
def checkBinsearch (n : ExtentNode) (block : UInt32) : Nat :=
  checkBinsearchLoop n.start block n.hdr.ehEntries.toNat 0 0

/-! ## The search stays among the entries -/

section Bounds

variable {start : Nat → UInt32} {block : UInt32}

/-- The loop keeps `1 ≤ l ≤ r + 1 ≤ n` and returns its `l`: between 1 and `n`. -/
theorem binsearchLoop_bounds {n : Int} :
    ∀ l r : Int, 1 ≤ l → l ≤ r + 1 → r + 1 ≤ n →
      1 ≤ binsearchLoop start block l r ∧ binsearchLoop start block l r ≤ n := by
  intro l r
  induction l, r using binsearchLoop.induct start block with
  | case1 l r hlr hlt ih =>
    intro hl hlr' hr
    rw [binsearchLoop, if_pos hlr, if_pos hlt]
    exact ih hl (by omega) (by omega)
  | case2 l r hlr hlt ih =>
    intro hl hlr' hr
    rw [binsearchLoop, if_pos hlr, if_neg hlt]
    exact ih (by omega) (by omega) hr
  | case3 l r hlr =>
    intro hl _ hr
    rw [binsearchLoop, if_neg hlr]
    exact ⟨hl, by omega⟩

/-- On a node with entries, the index search picks one of them. -/
theorem ext4bfExtBinsearchIdx_mem (n : ExtentNode) (hn : n.hdr.ehEntries ≠ 0) :
    0 ≤ ext4bfExtBinsearchIdx n block ∧ ext4bfExtBinsearchIdx n block < n.hdr.ehEntries.toNat := by
  have hpos : 0 < n.hdr.ehEntries.toNat := by
    rw [Nat.pos_iff_ne_zero]
    intro h
    exact hn (UInt16.toNat_inj.mp (by simpa using h))
  obtain ⟨h₁, h₂⟩ : 1 ≤ binsearchLoop n.start block 1 (n.hdr.ehEntries.toNat - 1) ∧
      binsearchLoop n.start block 1 (n.hdr.ehEntries.toNat - 1) ≤ n.hdr.ehEntries.toNat :=
    binsearchLoop_bounds 1 _ le_rfl (by omega) (by omega)
  unfold ext4bfExtBinsearchIdx
  omega

/-- On a leaf with entries, the leaf search picks one of them: it is the index search. -/
theorem ext4bfExtBinsearch_mem (n : ExtentNode) (hn : n.hdr.ehEntries ≠ 0) :
    ∃ k, ext4bfExtBinsearch n block = some k ∧ 0 ≤ k ∧ k < n.hdr.ehEntries.toNat := by
  refine ⟨ext4bfExtBinsearchIdx n block, ?_, ext4bfExtBinsearchIdx_mem n hn⟩
  unfold ext4bfExtBinsearch
  rw [if_neg hn]
  rfl

end Bounds

/-! ## On sorted entries, the search is the linear scan -/

section Sorted

variable {start : Nat → UInt32} {block : UInt32} {n : Nat}

/-- The slots `[0, n)` start in order. -/
def StartsSorted (start : Nat → UInt32) (n : Nat) : Prop :=
  ∀ i j, i ≤ j → j < n → start i ≤ start j

/-- On sorted slots the loop keeps every slot in `[1, l)` starting at or before the block
and every slot in `(r, n)` starting after it; it ends with `r = l - 1`, splitting `[1, n)`
at the `l` it returns. -/
theorem binsearchLoop_split (block : UInt32) (hs : StartsSorted start n) :
    ∀ l r : Int, 1 ≤ l → l ≤ r + 1 → r + 1 ≤ n →
      (∀ i : Nat, 1 ≤ i → (i : Int) < l → start i ≤ block) →
      (∀ i : Nat, r < i → i < n → block < start i) →
      (∀ i : Nat, 1 ≤ i → (i : Int) < binsearchLoop start block l r → start i ≤ block) ∧
      (∀ i : Nat, binsearchLoop start block l r ≤ i → i < n → block < start i) := by
  intro l r
  induction l, r using binsearchLoop.induct start block with
  | case1 l r hlr hlt ih =>
    intro hl hlr' hr hbelow habove
    rw [binsearchLoop, if_pos hlr, if_pos hlt]
    -- the middle slot starts after the block, and so does every slot after it
    refine ih hl (by omega) (by omega) hbelow fun i hi hin => ?_
    have hm : (l + (r - l) / 2).toNat ≤ i := by omega
    exact UInt32.lt_of_lt_of_le hlt (hs _ _ hm hin)
  | case2 l r hlr hlt ih =>
    intro hl hlr' hr hbelow habove
    rw [binsearchLoop, if_pos hlr, if_neg hlt]
    -- the middle slot starts at or before the block, and so does every slot before it
    refine ih (by omega) (by omega) hr (fun i hi hil => ?_) habove
    have hm : i ≤ (l + (r - l) / 2).toNat := by omega
    exact UInt32.le_trans (hs _ _ hm (by omega)) (UInt32.not_lt.mp hlt)
  | case3 l r hlr =>
    intro _ _ _ hbelow habove
    rw [binsearchLoop, if_neg hlr]
    exact ⟨hbelow, fun i hi hin => habove i (by omega) hin⟩

/-- The reference scan from slot `k` stops at the first slot `p` that starts after the
block (or at the end): it answers `p - 1`, or `chix` if it stops at once. -/
theorem checkBinsearchLoop_eq {p : Nat} :
    ∀ k chix : Nat, k ≤ p → p ≤ n → (∀ i, k ≤ i → i < p → start i ≤ block) →
      (p < n → block < start p) →
      checkBinsearchLoop start block n k chix = if p = k then chix else p - 1 := by
  intro k chix
  induction k, chix using checkBinsearchLoop.induct start block n with
  | case1 k chix hk hlt =>
    intro hkp hp hle hstop
    rw [checkBinsearchLoop, if_pos hk, if_pos hlt]
    -- slot `k` already starts after the block: it is `p`
    have hpk : p = k := by
      by_contra hne
      exact absurd (hle k le_rfl (by omega)) (UInt32.not_le.mpr hlt)
    rw [if_pos hpk]
  | case2 k chix hk hlt ih =>
    intro hkp hp hle hstop
    rw [checkBinsearchLoop, if_pos hk, if_neg hlt]
    have hpk : p ≠ k := fun hpk => hlt (hstop (by omega) |> (hpk ▸ ·))
    rw [ih (by omega) hp (fun i hi hip => hle i (by omega) hip) hstop, if_neg hpk]
    split <;> omega
  | case3 k chix hk =>
    intro hkp hp _ _
    rw [checkBinsearchLoop, if_neg hk, if_pos (by omega)]

/-- On sorted slots, the loop started as both searches start it answers one past the slot
`CHECK_BINSEARCH` expects. -/
theorem binsearchLoop_eq_check (block : UInt32) (hs : StartsSorted start n) (hn : 0 < n) :
    binsearchLoop start block 1 (n - 1) - 1 = checkBinsearchLoop start block n 0 0 := by
  obtain ⟨h₁, h₂⟩ : 1 ≤ binsearchLoop start block 1 (n - 1) ∧
      binsearchLoop start block 1 (n - 1) ≤ n :=
    binsearchLoop_bounds 1 _ le_rfl (by omega) (by omega)
  obtain ⟨hbelow, habove⟩ := binsearchLoop_split block hs 1 (n - 1) le_rfl
    (by omega) (by omega) (fun i hi hil => by omega) (fun i hi hin => by omega)
  set L := (binsearchLoop start block 1 (n - 1)).toNat with hL
  have hLint : binsearchLoop start block 1 (n - 1) = L := by omega
  rw [hLint] at hbelow habove
  by_cases h0 : block < start 0
  · -- the block precedes every slot: the loop stays at slot 1, the scan at slot 0
    have hL1 : L = 1 := by
      by_contra hne
      have := hbelow 1 le_rfl (by omega)
      exact absurd (UInt32.lt_of_lt_of_le h0 (hs 0 1 (by omega) (by omega))) (UInt32.not_lt.mpr this)
    rw [checkBinsearchLoop_eq (p := 0) 0 0 le_rfl (Nat.zero_le n) (fun i hi hi' => by omega)
      (fun _ => h0), if_pos rfl, hLint, hL1]
    rfl
  · -- slot 0 starts at or before the block: the first slot after it is `L`
    rw [checkBinsearchLoop_eq (p := L) 0 0 (Nat.zero_le L) (by omega)
      (fun i _ hi => if hi0 : i = 0 then hi0 ▸ UInt32.not_lt.mp h0 else hbelow i (by omega) (by omega))
      (fun hLn => habove L (by omega) hLn), if_neg (by omega), hLint]
    omega

/-- On a node with sorted entries, the index search picks the slot `CHECK_BINSEARCH`
expects: the last entry starting at or before the block, or the first entry. -/
theorem ext4bfExtBinsearchIdx_eq_check (nd : ExtentNode) (hn : nd.hdr.ehEntries ≠ 0)
    (hs : StartsSorted nd.start nd.hdr.ehEntries.toNat) (block : UInt32) :
    ext4bfExtBinsearchIdx nd block = checkBinsearch nd block := by
  have hpos : 0 < nd.hdr.ehEntries.toNat := by
    rw [Nat.pos_iff_ne_zero]
    intro h
    exact hn (UInt16.toNat_inj.mp (by simpa using h))
  unfold ext4bfExtBinsearchIdx checkBinsearch
  have := binsearchLoop_eq_check block hs hpos
  omega

/-- The same for the leaf search, which finds an extent on every non-empty leaf. -/
theorem ext4bfExtBinsearch_eq_check (nd : ExtentNode) (hn : nd.hdr.ehEntries ≠ 0)
    (hs : StartsSorted nd.start nd.hdr.ehEntries.toNat) (block : UInt32) :
    ext4bfExtBinsearch nd block = some (checkBinsearch nd block : Int) := by
  unfold ext4bfExtBinsearch
  rw [if_neg hn, ← ext4bfExtBinsearchIdx_eq_check nd hn hs block]
  rfl

end Sorted

/-! ## What the searches pick -/

/-- On a node with entries, each search picks one of them, whatever they hold; on sorted
entries, the one the `CHECK_BINSEARCH` scan picks. -/
theorem ext4bfExtBinsearch_spec (nd : ExtentNode) (hn : nd.hdr.ehEntries ≠ 0) (block : UInt32) :
    (0 ≤ ext4bfExtBinsearchIdx nd block ∧ ext4bfExtBinsearchIdx nd block < nd.hdr.ehEntries.toNat) ∧
      (∃ k, ext4bfExtBinsearch nd block = some k ∧ 0 ≤ k ∧ k < nd.hdr.ehEntries.toNat) ∧
      (StartsSorted nd.start nd.hdr.ehEntries.toNat →
        ext4bfExtBinsearchIdx nd block = checkBinsearch nd block ∧
          ext4bfExtBinsearch nd block = some (checkBinsearch nd block : Int)) :=
  ⟨ext4bfExtBinsearchIdx_mem nd hn, ext4bfExtBinsearch_mem nd hn, fun hs =>
    ⟨ext4bfExtBinsearchIdx_eq_check nd hn hs block, ext4bfExtBinsearch_eq_check nd hn hs block⟩⟩

/-- A leaf of three extents starting at blocks 0, 10 and 20. -/
def threeExtentLeaf : ExtentNode := ⟨⟨ext4ExtMagic, 3, 4, 0⟩, fun i => (10 * i).toUInt32⟩

theorem ext4bfExtBinsearch_spec_threeExtentLeaf :
    threeExtentLeaf.hdr.ehEntries ≠ 0 ∧
      ((0 ≤ ext4bfExtBinsearchIdx threeExtentLeaf 15 ∧
          ext4bfExtBinsearchIdx threeExtentLeaf 15 < threeExtentLeaf.hdr.ehEntries.toNat) ∧
        (∃ k, ext4bfExtBinsearch threeExtentLeaf 15 = some k ∧ 0 ≤ k ∧
          k < threeExtentLeaf.hdr.ehEntries.toNat) ∧
        (StartsSorted threeExtentLeaf.start threeExtentLeaf.hdr.ehEntries.toNat →
          ext4bfExtBinsearchIdx threeExtentLeaf 15 = checkBinsearch threeExtentLeaf 15 ∧
            ext4bfExtBinsearch threeExtentLeaf 15 = some (checkBinsearch threeExtentLeaf 15 : Int))) :=
  ⟨by decide, ext4bfExtBinsearch_spec threeExtentLeaf (by decide) 15⟩

/-! ## An empty index node -/

/-- `__ext4bf_ext_check` accepts an index node with no entries, and the index search on it
picks slot 0, which is not one of its entries. The leaf search returns no extent on an
empty leaf; the index search has no such test. -/
theorem ext4bfExtBinsearchIdx_empty_index {blocksize inodeDepth depth : Nat}
    {validEntry : Nat → Bool} {nd : ExtentNode} (hmagic : nd.hdr.ehMagic = ext4ExtMagic)
    (hdepth : nd.hdr.ehDepth.toNat = depth) (hmax : nd.hdr.ehMax ≠ 0)
    (hmax' : nd.hdr.ehMax.toNat ≤ ext4bfExtMaxEntries blocksize inodeDepth depth)
    (hempty : nd.hdr.ehEntries = 0) (block : UInt32) :
    ext4bfExtCheck blocksize inodeDepth validEntry nd depth = .ok () ∧
      ext4bfExtBinsearchIdx nd block = 0 ∧
      ¬ ext4bfExtBinsearchIdx nd block < nd.hdr.ehEntries.toNat := by
  have hloop : ext4bfExtBinsearchIdx nd block = 0 := by
    unfold ext4bfExtBinsearchIdx
    rw [hempty, binsearchLoop, if_neg (by simp)]
    rfl
  refine ⟨?_, hloop, by rw [hloop, hempty]; simp⟩
  -- every test of the check passes, the entry test on an empty node included
  unfold ext4bfExtCheck ext4bfValidExtentEntries
  simp only [hmagic, hdepth, hmax, hempty, ne_eq, not_true_eq_false, if_false,
    gt_iff_lt, not_lt.mpr hmax', if_true, Bool.not_true]
  rfl

/-- The root of an inode whose tree has depth 1, with no index in it. -/
def emptyRootIndex : ExtentNode := ⟨⟨ext4ExtMagic, 0, 4, 1⟩, fun _ => 0⟩

theorem ext4bfExtBinsearchIdx_empty_index_emptyRootIndex :
    emptyRootIndex.hdr.ehMagic = ext4ExtMagic ∧ emptyRootIndex.hdr.ehDepth.toNat = 1 ∧
      emptyRootIndex.hdr.ehMax ≠ 0 ∧ emptyRootIndex.hdr.ehMax.toNat ≤ ext4bfExtMaxEntries 4096 1 1 ∧
      emptyRootIndex.hdr.ehEntries = 0 ∧
      (ext4bfExtCheck 4096 1 (fun _ => true) emptyRootIndex 1 = .ok () ∧
        ext4bfExtBinsearchIdx emptyRootIndex 100 = 0 ∧
        ¬ ext4bfExtBinsearchIdx emptyRootIndex 100 < emptyRootIndex.hdr.ehEntries.toNat) :=
  ⟨rfl, rfl, by decide, by decide, rfl,
    ext4bfExtBinsearchIdx_empty_index rfl rfl (by decide) (by decide) rfl 100⟩

end OptFs.Extents
