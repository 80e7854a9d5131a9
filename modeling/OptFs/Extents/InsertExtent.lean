import OptFs.Extents.Binsearch
import OptFs.Lib.RunMap

/-!
# Inserting an extent into a leaf (`extents.c`)

`ext4bf_ext_insert_extent` puts a new extent into the leaf `ext4bf_ext_find_extent` found for
the extent's first block, where `p_ext` is the slot the leaf search picked. It either

* appends the new extent to the one in `p_ext`, when `ext4bf_can_extents_be_merged` allows it
  and the caller did not pass `EXT4_GET_BLOCKS_PRE_IO`, or
* with a free slot (`eh_entries < eh_max`), moves the extents from the slot after `p_ext` (from
  `p_ext` itself if the new extent starts before it) up by one and writes the new extent into
  the slot this frees;

and then, without `PRE_IO`, `ext4bf_ext_try_to_merge` merges the extent it wrote into its left
neighbour, or else its right neighbour into it, and goes on merging to the right while
`ext4bf_can_extents_be_merged` allows. A full leaf that cannot take the extent into `p_ext`
sends it to the next leaf or to a new one (`InsertError.leafFull`), which is not modelled.

Read as a run of logical blocks (`Extent.toRun`, over `Lib.RunMap`), an extent maps each of its
blocks to a physical block and to its initialized state. A leaf is well formed
(`Leaf.WellFormed`) when `eh_entries` counts its extents and stays within `eh_max`, and the
extents are ordered without overlap, none empty and none reaching past `EXT_MAX_BLOCKS`.
For a new extent of positive length within `EXT_MAX_BLOCKS` that overlaps no extent of the
leaf, as `ext4bf_ext_check_overlap` trims it, `ext4bfExtInsertExtent_leaf` shows that the
insertion reports a full leaf, or leaves a well-formed leaf whose map is the old one with the
new extent added.

The length limits are the encoding of `ee_len` itself (`ext4bfExtGetActualLen_le_limit`): what
a merge has to get right is the length it writes and the uninitialized mark it puts back,
and both are read back through the map (`mergeLen_toRun`).
-/

namespace OptFs.Extents

open OptFs.Lib.RunMap

/-! ## Extents -/

/-- `struct ext4bf_extent`. -/
structure Extent where
  eeBlock : UInt32
  eeLen : UInt16
  eeStartHi : UInt16
  eeStartLo : UInt32
deriving DecidableEq, Repr, Inhabited

/-- `EXT_MAX_BLOCKS`: the number of logical blocks a file can have. -/
def extMaxBlocks : Nat := 0xffffffff

/-- `EXT_INIT_MAX_LEN`, `1UL << 15`. -/
def extInitMaxLen : Nat := 32768

/-- `EXT_UNINIT_MAX_LEN`. -/
def extUninitMaxLen : Nat := extInitMaxLen - 1

/-- `EXT4_GET_BLOCKS_PRE_IO`. -/
def ext4GetBlocksPreIo : Nat := 0x0008

/-- `ext4bf_ext_is_uninitialized`: `ee_len` of `0x8000` is an initialized extent. -/
def ext4bfExtIsUninitialized (ext : Extent) : Bool := decide (ext.eeLen.toNat > extInitMaxLen)

/-- `ext4bf_ext_get_actual_len`. -/
def ext4bfExtGetActualLen (ext : Extent) : Nat :=
  if ext.eeLen.toNat ≤ extInitMaxLen then ext.eeLen.toNat else ext.eeLen.toNat - extInitMaxLen

/-- `ext4bf_ext_mark_uninitialized`. Its `BUG_ON` on a zero length cannot fire where the
merges call it: they mark a sum that includes an uninitialized, hence positive, length. -/
def ext4bfExtMarkUninitialized (ext : Extent) : Extent :=
  { ext with eeLen := ext.eeLen ||| extInitMaxLen.toUInt16 }

/-- `ext4bf_ext_pblock`: `ee_start_lo`, with `ee_start_hi` above it. -/
def ext4bfExtPblock (ext : Extent) : Nat := ext.eeStartLo.toNat ||| (ext.eeStartHi.toNat <<< 32)

/-- `ext4bf_can_extents_be_merged` of `ex1` followed by `ex2`. The sum of `ee_block` and a
length is taken in 32 bits, the sum of physical blocks in 64, where it cannot wrap. -/
def ext4bfCanExtentsBeMerged (ex1 ex2 : Extent) : Bool :=
  if ext4bfExtIsUninitialized ex1 ^^ ext4bfExtIsUninitialized ex2 then false
  else
    let maxLen := if ext4bfExtIsUninitialized ex1 then extUninitMaxLen else extInitMaxLen
    let ext1EeLen := ext4bfExtGetActualLen ex1
    let ext2EeLen := ext4bfExtGetActualLen ex2
    if ex1.eeBlock + ext1EeLen.toUInt32 ≠ ex2.eeBlock then false
    else if ext1EeLen + ext2EeLen > maxLen then false
    else ext4bfExtPblock ex1 + ext1EeLen == ext4bfExtPblock ex2

/-- What both merges write into `ex`: the sum of the two actual lengths as `ee_len` (through
`cpu_to_le16`), marked uninitialized again when `uninitialized` is set. -/
def mergeLen (uninitialized : Bool) (ex other : Extent) : Extent :=
  let merged := { ex with
    eeLen := (ext4bfExtGetActualLen ex + ext4bfExtGetActualLen other).toUInt16 }
  if uninitialized then ext4bfExtMarkUninitialized merged else merged

/-- The extent as a run: its logical blocks, the physical block of the first, and whether it
is uninitialized. -/
def Extent.toRun (ext : Extent) : Run Bool :=
  ⟨ext.eeBlock.toNat, ext4bfExtGetActualLen ext, ext4bfExtPblock ext, ext4bfExtIsUninitialized ext⟩

/-! ## The length encoding -/

@[simp] theorem Extent.toRun_start (ext : Extent) : ext.toRun.start = ext.eeBlock.toNat := rfl

@[simp] theorem Extent.toRun_len (ext : Extent) : ext.toRun.len = ext4bfExtGetActualLen ext := rfl

/-- Every `ee_len` is within the limit of its state: at most `EXT_INIT_MAX_LEN` blocks for an
initialized extent, `EXT_UNINIT_MAX_LEN` for an uninitialized one. -/
theorem ext4bfExtGetActualLen_le_limit (ext : Extent) :
    ext4bfExtGetActualLen ext ≤
      if ext4bfExtIsUninitialized ext then extUninitMaxLen else extInitMaxLen := by
  have hlt := ext.eeLen.toNat_lt
  unfold ext4bfExtGetActualLen ext4bfExtIsUninitialized extUninitMaxLen extInitMaxLen at *
  split_ifs <;> simp_all <;> omega

/-- An uninitialized extent is never empty. -/
theorem ext4bfExtGetActualLen_pos_of_uninitialized {ext : Extent}
    (h : ext4bfExtIsUninitialized ext = true) : 0 < ext4bfExtGetActualLen ext := by
  unfold ext4bfExtGetActualLen ext4bfExtIsUninitialized at *
  simp only [decide_eq_true_eq] at h
  rw [if_neg (by omega)]
  omega

/-- Everything `ext4bf_can_extents_be_merged` checks. -/
theorem ext4bfCanExtentsBeMerged_eq_true {ex1 ex2 : Extent} :
    ext4bfCanExtentsBeMerged ex1 ex2 = true ↔
      ext4bfExtIsUninitialized ex1 = ext4bfExtIsUninitialized ex2 ∧
      ex1.eeBlock + (ext4bfExtGetActualLen ex1).toUInt32 = ex2.eeBlock ∧
      ext4bfExtGetActualLen ex1 + ext4bfExtGetActualLen ex2 ≤
        (if ext4bfExtIsUninitialized ex1 then extUninitMaxLen else extInitMaxLen) ∧
      ext4bfExtPblock ex1 + ext4bfExtGetActualLen ex1 = ext4bfExtPblock ex2 := by
  unfold ext4bfCanExtentsBeMerged
  cases ext4bfExtIsUninitialized ex1 <;> cases ext4bfExtIsUninitialized ex2 <;>
    simp only [Bool.xor_false, Bool.xor_true, Bool.not_false, Bool.not_true, if_true, if_false,
      ite_not, reduceCtorEq, false_and, true_and] <;>
    split_ifs <;> simp_all

/-- Extents that may be merged are contiguous, logically and physically, with one state:
the 32-bit sum of `ee_block` and the length does not wrap below `EXT_MAX_BLOCKS`. -/
theorem ext4bfCanExtentsBeMerged_continues {ex1 ex2 : Extent}
    (h : ext4bfCanExtentsBeMerged ex1 ex2 = true) (hrange : ex1.toRun.stop ≤ extMaxBlocks) :
    ex1.toRun.Continues ex2.toRun := by
  obtain ⟨hu, hblock, -, hpblock⟩ := ext4bfCanExtentsBeMerged_eq_true.mp h
  refine ⟨?_, hpblock, hu⟩
  have hsum := congrArg UInt32.toNat hblock
  rw [UInt32.toNat_add, UInt32.toNat_ofNat'] at hsum
  unfold Run.stop extMaxBlocks at hrange
  simp only [Extent.toRun_start, Extent.toRun_len] at hrange
  unfold Run.stop
  simp only [Extent.toRun_start, Extent.toRun_len, Nat.reducePow] at hsum ⊢
  rw [Nat.mod_eq_of_lt (a := ext4bfExtGetActualLen ex1) (by omega),
    Nat.mod_eq_of_lt (by omega)] at hsum
  exact hsum

/-- The `ee_len` a merge writes: the sum, with the mark of an uninitialized extent above it. -/
theorem mergeLen_eeLen_toNat (u : Bool) (ex other : Extent)
    (hle : ext4bfExtGetActualLen ex + ext4bfExtGetActualLen other ≤
      if u then extUninitMaxLen else extInitMaxLen) :
    (mergeLen u ex other).eeLen.toNat =
      (if u then extInitMaxLen else 0) + (ext4bfExtGetActualLen ex + ext4bfExtGetActualLen other) := by
  have hs16 : (ext4bfExtGetActualLen ex + ext4bfExtGetActualLen other).toUInt16.toNat =
      ext4bfExtGetActualLen ex + ext4bfExtGetActualLen other := by
    rw [UInt16.toNat_ofNat']
    apply Nat.mod_eq_of_lt
    unfold extUninitMaxLen extInitMaxLen at hle
    split at hle <;> omega
  unfold mergeLen
  cases u with
  | false =>
    simp only [Bool.false_eq_true, if_false, Nat.zero_add]
    exact hs16
  | true =>
    -- below `EXT_INIT_MAX_LEN`, or-ing the mark in adds it
    simp only [if_true, ext4bfExtMarkUninitialized, UInt16.toNat_or, hs16]
    have hlt : ext4bfExtGetActualLen ex + ext4bfExtGetActualLen other < 2 ^ 15 := by
      unfold extUninitMaxLen extInitMaxLen at hle
      simp only [if_true] at hle
      omega
    rw [show extInitMaxLen.toUInt16.toNat = 1 <<< 15 from rfl, Nat.lor_comm,
      ← Nat.shiftLeft_add_eq_or_of_lt hlt]
    rfl

/-- An `ee_len` that is the mark of state `u` plus a length within the limit of `u` reads
back as that length and that state. -/
theorem ext4bfExtGetActualLen_of_eeLen {ext : Extent} {u : Bool} {s : Nat}
    (hle : s ≤ if u then extUninitMaxLen else extInitMaxLen) (hpos : u = true → 0 < s)
    (h : ext.eeLen.toNat = (if u then extInitMaxLen else 0) + s) :
    ext4bfExtGetActualLen ext = s ∧ ext4bfExtIsUninitialized ext = u := by
  unfold ext4bfExtGetActualLen ext4bfExtIsUninitialized
  rw [h]
  unfold extUninitMaxLen extInitMaxLen at *
  cases u with
  | false =>
    simp only [Bool.false_eq_true, if_false, Nat.zero_add] at hle ⊢
    exact ⟨if_pos hle, by simp; omega⟩
  | true =>
    simp only [if_true, forall_const] at hle hpos ⊢
    exact ⟨by rw [if_neg (by omega)]; omega, by simp; omega⟩

/-- A merge allowed by `ext4bf_can_extents_be_merged` writes the join of the two runs: the
summed length and the state of `ex`, which the mark puts back. -/
theorem mergeLen_toRun {ex other : Extent} (h : ext4bfCanExtentsBeMerged ex other = true) :
    (mergeLen (ext4bfExtIsUninitialized ex) ex other).toRun = ex.toRun.join other.toRun := by
  obtain ⟨-, -, hle, -⟩ := ext4bfCanExtentsBeMerged_eq_true.mp h
  have hpos (hu : ext4bfExtIsUninitialized ex = true) :
      0 < ext4bfExtGetActualLen ex + ext4bfExtGetActualLen other := by
    have := ext4bfExtGetActualLen_pos_of_uninitialized hu
    omega
  obtain ⟨hlen, htag⟩ :=
    ext4bfExtGetActualLen_of_eeLen hle hpos (mergeLen_eeLen_toNat _ ex other hle)
  -- the mark touches `ee_len` only
  have hstart : (mergeLen (ext4bfExtIsUninitialized ex) ex other).eeBlock = ex.eeBlock := by
    unfold mergeLen ext4bfExtMarkUninitialized
    split <;> rfl
  have hpblock : ext4bfExtPblock (mergeLen (ext4bfExtIsUninitialized ex) ex other) =
      ext4bfExtPblock ex := by
    unfold mergeLen ext4bfExtMarkUninitialized ext4bfExtPblock
    split <;> rfl
  unfold Extent.toRun Run.join
  rw [hstart, hpblock, hlen, htag]

/-! ## Leaves and the insertion -/

/-- `le16_add_cpu(&eh->eh_entries, -1)` on a positive count. -/
theorem toNat_sub_one_of_pos {x : UInt16} (h : 0 < x.toNat) : (x - 1).toNat = x.toNat - 1 := by
  have h1 : (1 : UInt16) ≤ x := UInt16.le_iff_toNat_le.mpr (by simp; omega)
  rw [UInt16.toNat_sub_of_le _ _ h1, UInt16.toNat_one]

/-- `le16_add_cpu(&eh->eh_entries, 1)` on a count below another. -/
theorem toNat_add_one_of_lt {x y : UInt16} (h : x < y) : (x + 1).toNat = x.toNat + 1 := by
  have := y.toNat_lt
  rw [UInt16.lt_iff_toNat_lt] at h
  rw [UInt16.toNat_add, UInt16.toNat_one]
  omega

/-- A leaf of the extent tree: its header and the extents in its slots. The model keeps the
slots in use as a list, so that moving them with `memmove` is cutting and joining the list;
`Leaf.WellFormed` asks `eh_entries` to count them. -/
structure Leaf where
  hdr : ExtentHeader
  exts : List Extent

/-- The leaf as the binary search reads it: the first logical block of each slot. -/
def Leaf.node (lf : Leaf) : ExtentNode := ⟨lf.hdr, fun i => (lf.exts.getD i default).eeBlock⟩

/-- `path[depth].p_ext` as `ext4bf_ext_find_extent` leaves it for `block` in the leaf: the slot
`ext4bf_ext_binsearch` picks, `NULL` on an empty leaf. -/
def Leaf.findExtent (lf : Leaf) (block : UInt32) : Option Nat :=
  (ext4bfExtBinsearch lf.node block).map Int.toNat

/-- The map of the leaf from logical blocks to physical blocks and initialized states. -/
def Leaf.lookup (lf : Leaf) (block : Nat) : Option (Nat × Bool) :=
  Lib.RunMap.lookup (lf.exts.map Extent.toRun) block

/-- One merge of `ext4bf_ext_try_to_merge_right`: slot `ex + 1` merged into slot `ex`, the
slots after it moved down by one, and `eh_entries` dropped. -/
def mergeNext (uninitialized : Bool) (ex : Nat) (lf : Leaf) : Leaf :=
  ⟨{ lf.hdr with ehEntries := lf.hdr.ehEntries - 1 },
    lf.exts.take ex ++
      mergeLen uninitialized (lf.exts.getD ex default) (lf.exts.getD (ex + 1) default) ::
        lf.exts.drop (ex + 2)⟩

/-- The `while (ex < EXT_LAST_EXTENT(eh))` loop of `ext4bf_ext_try_to_merge_right` from slot
`ex`, with the sticky `uninitialized` and `merge_done`. -/
def tryToMergeRightLoop (ex : Nat) (uninitialized mergeDone : Bool) (lf : Leaf) : Leaf × Bool :=
  if ex + 1 < lf.hdr.ehEntries.toNat then
    let e := lf.exts.getD ex default
    if ext4bfCanExtentsBeMerged e (lf.exts.getD (ex + 1) default) then
      let uninitialized := uninitialized || ext4bfExtIsUninitialized e
      tryToMergeRightLoop ex uninitialized true (mergeNext uninitialized ex lf)
    else (lf, mergeDone)
  else (lf, mergeDone)
termination_by lf.hdr.ehEntries.toNat - ex
decreasing_by
  simp only [mergeNext, toNat_sub_one_of_pos (by omega : 0 < lf.hdr.ehEntries.toNat)]
  omega

/-- `ext4bf_ext_try_to_merge_right`. -/
def ext4bfExtTryToMergeRight (ex : Nat) (lf : Leaf) : Leaf × Bool :=
  tryToMergeRightLoop ex false false lf

/-- `ext4bf_ext_try_to_merge`: merge into the left neighbour if there is one, and if that
merged nothing, the right neighbour into `ex`. -/
def ext4bfExtTryToMerge (ex : Nat) (lf : Leaf) : Leaf :=
  let left := if 0 < ex then ext4bfExtTryToMergeRight (ex - 1) lf else (lf, false)
  if left.2 then left.1 else (ext4bfExtTryToMergeRight ex left.1).1

/-- The ways `ext4bf_ext_insert_extent` leaves the leaf alone. -/
inductive InsertError
  /-- `-EIO`: the new extent is empty. -/
  | eio
  /-- `BUG_ON(newext->ee_block == nearex->ee_block)`. -/
  | bug
  /-- The leaf is full: the extent goes to the next leaf or to a new one. -/
  | leafFull
deriving DecidableEq, Repr

/-- From `merge:` on: `ext4bf_ext_try_to_merge` at `nearex`, unless `PRE_IO`. -/
def insertMerge (flag nearex : Nat) (lf : Leaf) : Leaf :=
  if flag &&& ext4GetBlocksPreIo = 0 then ext4bfExtTryToMerge nearex lf else lf

/-- The slot `has_space:` writes the new extent into: the first one of an empty leaf, the one
after `p_ext` if the extent starts after it, `p_ext` itself if it starts before; `none` at
the `BUG_ON` on equal starts. -/
def insertSlot (lf : Leaf) (pExt : Option Nat) (newext : Extent) : Option Nat :=
  match pExt with
  | none => some 0
  | some nearex =>
    if newext.eeBlock > (lf.exts.getD nearex default).eeBlock then some (nearex + 1)
    else if newext.eeBlock = (lf.exts.getD nearex default).eeBlock then none
    else some nearex

/-- `has_space:` at slot `nearex`: the slots from it on moved up by one, the new extent
counted in `eh_entries` and written into the slot. -/
def insertAt (nearex : Nat) (newext : Extent) (lf : Leaf) : Leaf :=
  ⟨{ lf.hdr with ehEntries := lf.hdr.ehEntries + 1 },
    lf.exts.take nearex ++ newext :: lf.exts.drop nearex⟩

/-- The leaf part of `ext4bf_ext_insert_extent` once the append to `p_ext` is ruled out: a free
slot, or a full leaf. -/
def insertHasSpace (flag : Nat) (lf : Leaf) (pExt : Option Nat) (newext : Extent) :
    Except InsertError Leaf :=
  if lf.hdr.ehEntries < lf.hdr.ehMax then
    match insertSlot lf pExt newext with
    | none => .error .bug
    | some nearex => .ok (insertMerge flag nearex (insertAt nearex newext lf))
  else .error .leafFull

/-- The append of `newext` to the extent in slot `ex`, which grows by its length. -/
def appendToFound (ex : Nat) (newext : Extent) (lf : Leaf) : Leaf :=
  let e := lf.exts.getD ex default
  ⟨lf.hdr, lf.exts.set ex (mergeLen (ext4bfExtIsUninitialized e) e newext)⟩

/-- `ext4bf_ext_insert_extent` on the leaf of `path`, with `p_ext` given as a slot. -/
def ext4bfExtInsertExtent (flag : Nat) (lf : Leaf) (pExt : Option Nat) (newext : Extent) :
    Except InsertError Leaf :=
  if ext4bfExtGetActualLen newext = 0 then .error .eio
  else
    match pExt with
    | some ex =>
      if flag &&& ext4GetBlocksPreIo = 0 ∧
          ext4bfCanExtentsBeMerged (lf.exts.getD ex default) newext = true then
        -- try to insert block into found extent
        .ok (insertMerge flag ex (appendToFound ex newext lf))
      else insertHasSpace flag lf pExt newext
    | none => insertHasSpace flag lf pExt newext

/-! ## Well-formed leaves -/

/-- Extents in order without overlap, none empty and none reaching past `EXT_MAX_BLOCKS`. -/
structure ExtentsWellFormed (exts : List Extent) : Prop where
  ordered : Ordered (exts.map Extent.toRun)
  len_pos : ∀ e ∈ exts, 0 < ext4bfExtGetActualLen e
  in_range : ∀ e ∈ exts, e.toRun.stop ≤ extMaxBlocks

/-- A well-formed leaf: `eh_entries` counts its extents and is at most `eh_max`, and the
extents are well formed. -/
structure Leaf.WellFormed (lf : Leaf) : Prop where
  entries : lf.hdr.ehEntries.toNat = lf.exts.length
  entries_le : lf.hdr.ehEntries ≤ lf.hdr.ehMax
  exts : ExtentsWellFormed lf.exts

/-- The first extent that starts after `block`: where the search leads a new extent. -/
def splitIdx (exts : List Extent) (block : UInt32) : Nat := exts.findIdx (fun e => block < e.eeBlock)

section Lists

variable {exts xs ys : List Extent} {a b newext : Extent}

theorem forall_mem_insert {P : Extent → Prop} (hm : P a) (h : ∀ e ∈ xs ++ ys, P e) :
    ∀ e ∈ xs ++ a :: ys, P e := by
  intro e he
  simp only [List.mem_append, List.mem_cons] at he
  rcases he with hx | rfl | hy
  · exact h e (List.mem_append_left _ hx)
  · exact hm
  · exact h e (List.mem_append_right _ hy)

theorem take_append_getElem_cons_cons {i : Nat} (hi : i + 1 < exts.length) :
    exts.take i ++ exts[i] :: exts[i + 1] :: exts.drop (i + 2) = exts := by
  rw [List.getElem_cons_drop, List.getElem_cons_drop, List.take_append_drop]

/-- The slots of well-formed extents start in increasing order. -/
theorem ExtentsWellFormed.start_le (h : ExtentsWellFormed exts) {i j : Nat} (hij : i ≤ j)
    (hj : j < exts.length) : exts[i].eeBlock ≤ exts[j].eeBlock := by
  rcases Nat.lt_or_eq_of_le hij with hlt | rfl
  · have hord := List.pairwise_iff_getElem.mp h.ordered i j (by simp; omega) (by simpa) hlt
    simp only [List.getElem_map, Run.stop, Extent.toRun_start, Extent.toRun_len] at hord
    exact UInt32.le_iff_toNat_le.mpr (by omega)
  · exact UInt32.le_refl _

theorem le_of_mem_take_splitIdx {block : UInt32} :
    ∀ x ∈ exts.take (splitIdx exts block), x.eeBlock ≤ block := by
  intro x hx
  obtain ⟨j, hj, rfl⟩ := List.mem_take_iff_getElem.mp hx
  have hlt : j < exts.findIdx (fun e => block < e.eeBlock) := by
    unfold splitIdx at hj
    omega
  simpa using List.not_of_lt_findIdx hlt

theorem ExtentsWellFormed.lt_of_mem_drop_splitIdx (h : ExtentsWellFormed exts) {block : UInt32} :
    ∀ y ∈ exts.drop (splitIdx exts block), block < y.eeBlock := by
  intro y hy
  obtain ⟨j, hj, rfl⟩ := List.mem_drop_iff_getElem.mp hy
  -- the first extent past the split starts after the block, and the later ones after it
  have hfirst : block < exts[splitIdx exts block].eeBlock := by
    have hlt : exts.findIdx (fun e => block < e.eeBlock) < exts.length := by
      unfold splitIdx at hj
      omega
    unfold splitIdx
    simpa using List.findIdx_getElem (w := hlt)
  exact UInt32.lt_of_lt_of_le hfirst
    (h.start_le (i := splitIdx exts block) (j := splitIdx exts block + j) (by omega) (by omega))

/-- The leaf search reads the extents' starts in order. -/
theorem Leaf.WellFormed.startsSorted {lf : Leaf} (hlf : lf.WellFormed) :
    StartsSorted lf.node.start lf.hdr.ehEntries.toNat := by
  intro i j hij hj
  rw [hlf.entries] at hj
  simp only [Leaf.node, List.getD_eq_getElem _ _ hj,
    List.getD_eq_getElem _ _ (show i < lf.exts.length by omega)]
  exact hlf.exts.start_le hij hj

/-- On a well-formed leaf, `p_ext` is the extent just before the split, the first extent if
the split is at the front, and `NULL` on an empty leaf. -/
theorem Leaf.WellFormed.findExtent_eq {lf : Leaf} (hlf : lf.WellFormed) (block : UInt32) :
    lf.findExtent block = if lf.exts = [] then none else some (splitIdx lf.exts block - 1) := by
  unfold Leaf.findExtent
  split
  · next he =>
    have h0 : lf.hdr.ehEntries = 0 := UInt16.toNat_inj.mp (by rw [hlf.entries, he]; rfl)
    unfold ext4bfExtBinsearch
    rw [if_pos (show lf.node.hdr.ehEntries = 0 from h0)]
    rfl
  · next he =>
    have hn : lf.node.hdr.ehEntries ≠ 0 := fun h0 =>
      he (List.eq_nil_of_length_eq_zero (by rw [← hlf.entries, show lf.hdr.ehEntries = 0 from h0]; rfl))
    rw [ext4bfExtBinsearch_eq_check lf.node hn hlf.startsSorted block]
    -- the reference scan stops at the split
    have hscan : checkBinsearch lf.node block = splitIdx lf.exts block - 1 := by
      unfold checkBinsearch
      have hp : splitIdx lf.exts block ≤ lf.exts.length := List.findIdx_le_length
      have hentries := hlf.entries
      rw [checkBinsearchLoop_eq (p := splitIdx lf.exts block) 0 0 (Nat.zero_le _)
        (by show _ ≤ lf.hdr.ehEntries.toNat; omega) ?_ ?_]
      · split <;> omega
      · intro i _ hi
        have hi' : i < lf.exts.length := by omega
        show (lf.exts.getD i default).eeBlock ≤ block
        rw [List.getD_eq_getElem _ _ hi']
        exact le_of_mem_take_splitIdx _ (List.mem_take_iff_getElem.mpr ⟨i, by omega, rfl⟩)
      · intro hlt
        have hlt' : splitIdx lf.exts block < lf.exts.length := by
          change _ < lf.hdr.ehEntries.toNat at hlt
          omega
        show block < (lf.exts.getD _ default).eeBlock
        rw [List.getD_eq_getElem _ _ hlt']
        exact hlf.exts.lt_of_mem_drop_splitIdx _ (by
          rw [← List.getElem_cons_drop hlt']
          exact List.mem_cons_self)
    simp [hscan]

/-- Well-formed extents stay so with a non-empty extent within range put after every extent
that stops before it starts and before every one that starts after it stops. -/
theorem ExtentsWellFormed.insert (h : ExtentsWellFormed (xs ++ ys))
    (hlen : 0 < ext4bfExtGetActualLen newext) (hrange : newext.toRun.stop ≤ extMaxBlocks)
    (hx : ∀ x ∈ xs, x.toRun.stop ≤ newext.toRun.start)
    (hy : ∀ y ∈ ys, newext.toRun.stop ≤ y.toRun.start) :
    ExtentsWellFormed (xs ++ newext :: ys) where
  ordered := by
    have hord := h.ordered
    rw [List.map_append] at hord
    rw [List.map_append, List.map_cons]
    exact hord.insert (by simpa using hx) (by simpa using hy)
  len_pos := forall_mem_insert hlen h.len_pos
  in_range := forall_mem_insert hrange h.in_range

/-- A new extent overlapping none goes in at the split: the extents stay well formed and map
what they mapped and what the new extent maps. -/
theorem ExtentsWellFormed.insert_splitIdx (h : ExtentsWellFormed exts)
    (hlen : 0 < ext4bfExtGetActualLen newext) (hrange : newext.toRun.stop ≤ extMaxBlocks)
    (hdisj : ∀ e ∈ exts, e.toRun.Disjoint newext.toRun) :
    ExtentsWellFormed (exts.take (splitIdx exts newext.eeBlock) ++ newext ::
        exts.drop (splitIdx exts newext.eeBlock)) ∧
      ∀ k, Lib.RunMap.lookup ((exts.take (splitIdx exts newext.eeBlock) ++ newext ::
        exts.drop (splitIdx exts newext.eeBlock)).map Extent.toRun) k =
          Lib.RunMap.lookup (newext.toRun :: exts.map Extent.toRun) k := by
  have htd := List.take_append_drop (splitIdx exts newext.eeBlock) exts
  constructor
  · refine ExtentsWellFormed.insert (by rwa [htd]) hlen hrange (fun x hx => ?_) (fun y hy => ?_)
    · -- the extents before the split start at or before it, so they stop before it
      exact (hdisj x (List.mem_of_mem_take hx)).stop_le_of_start_le hlen
        (UInt32.le_iff_toNat_le.mp (le_of_mem_take_splitIdx x hx))
    · -- the extents after the split start after it, so it stops before them
      exact (hdisj y (List.mem_of_mem_drop hy)).symm.stop_le_of_start_lt
        (UInt32.lt_iff_toNat_lt.mp (h.lt_of_mem_drop_splitIdx y hy))
  · intro k
    rw [List.map_append, List.map_cons, lookup_insert, ← List.map_append, htd]
    intro x hx
    obtain ⟨e, he, rfl⟩ := List.mem_map.mp hx
    exact hdisj e (List.mem_of_mem_take he)

/-- Merging an extent with the next one, as `ext4bf_can_extents_be_merged` allows, keeps the
extents well formed and their map as it was. -/
theorem ExtentsWellFormed.merge (h : ExtentsWellFormed (xs ++ a :: b :: ys))
    (hab : ext4bfCanExtentsBeMerged a b = true) :
    ExtentsWellFormed (xs ++ mergeLen (ext4bfExtIsUninitialized a) a b :: ys) ∧
      ∀ k, Lib.RunMap.lookup ((xs ++ mergeLen (ext4bfExtIsUninitialized a) a b :: ys).map
        Extent.toRun) k = Lib.RunMap.lookup ((xs ++ a :: b :: ys).map Extent.toRun) k := by
  have hmem : ∀ e ∈ xs ++ ys, e ∈ xs ++ a :: b :: ys := by
    intro e he
    simp only [List.mem_append, List.mem_cons] at he ⊢
    tauto
  have ha : a ∈ xs ++ a :: b :: ys := by simp
  have hb : b ∈ xs ++ a :: b :: ys := by simp
  have hcont := ext4bfCanExtentsBeMerged_continues hab (h.in_range a ha)
  have hrun := mergeLen_toRun hab
  refine ⟨⟨?_, ?_, ?_⟩, fun k => ?_⟩
  · have hord := h.ordered
    simp only [List.map_append, List.map_cons] at hord ⊢
    rw [hrun]
    exact hord.join hcont
  · refine forall_mem_insert ?_ fun e he => h.len_pos e (hmem e he)
    rw [← Extent.toRun_len, hrun, Run.join_len]
    have := h.len_pos a ha
    simp only [Extent.toRun_len]
    omega
  · refine forall_mem_insert ?_ fun e he => h.in_range e (hmem e he)
    rw [hrun, hcont.join_stop]
    exact h.in_range b hb
  · simp only [List.map_append, List.map_cons, hrun, lookup_append, lookup_join_cons hcont]

end Lists

/-! ## Each step keeps the leaf well formed -/

section Leaves

variable {lf : Leaf} {newext : Extent}

/-- `lf'` is well formed and maps what `lf` maps. -/
structure Leaf.Keeps (lf' lf : Leaf) : Prop where
  wellFormed : lf'.WellFormed
  lookup_eq : ∀ k, lf'.lookup k = lf.lookup k

/-- `lf'` is well formed and maps what `lf` maps and what `newext` maps. -/
structure InsertedInto (lf' lf : Leaf) (newext : Extent) : Prop where
  wellFormed : lf'.WellFormed
  lookup_eq : ∀ k, lf'.lookup k = Lib.RunMap.lookup (newext.toRun :: lf.exts.map Extent.toRun) k

theorem Leaf.Keeps.refl (hlf : lf.WellFormed) : lf.Keeps lf := ⟨hlf, fun _ => rfl⟩

theorem Leaf.Keeps.trans {lf₁ lf₂ : Leaf} (h₂ : lf₂.Keeps lf₁) (h₁ : lf₁.Keeps lf) : lf₂.Keeps lf :=
  ⟨h₂.wellFormed, fun k => (h₂.lookup_eq k).trans (h₁.lookup_eq k)⟩

theorem InsertedInto.keeps {lf₁ lf₂ : Leaf} (h₂ : lf₂.Keeps lf₁) (h₁ : InsertedInto lf₁ lf newext) :
    InsertedInto lf₂ lf newext :=
  ⟨h₂.wellFormed, fun k => (h₂.lookup_eq k).trans (h₁.lookup_eq k)⟩

/-- One merge of the loop keeps the leaf, and the merged extent keeps its state. -/
theorem mergeNext_keeps {ex : Nat} (hlf : lf.WellFormed) (hlt : ex + 1 < lf.hdr.ehEntries.toNat)
    (hm : ext4bfCanExtentsBeMerged (lf.exts.getD ex default) (lf.exts.getD (ex + 1) default)) :
    (mergeNext (ext4bfExtIsUninitialized (lf.exts.getD ex default)) ex lf).Keeps lf ∧
      ext4bfExtIsUninitialized
        ((mergeNext (ext4bfExtIsUninitialized (lf.exts.getD ex default)) ex lf).exts.getD ex
          default) = ext4bfExtIsUninitialized (lf.exts.getD ex default) := by
  have hentries := hlf.entries
  have hi : ex + 1 < lf.exts.length := by omega
  unfold mergeNext
  simp only [List.getD_eq_getElem _ _ hi, List.getD_eq_getElem _ _ (by omega : ex < lf.exts.length)]
    at hm ⊢
  -- the leaf is `xs ++ a :: b :: ys` around the two slots
  have hsplit := take_append_getElem_cons_cons hi
  have hwf : ExtentsWellFormed
      (lf.exts.take ex ++ lf.exts[ex] :: lf.exts[ex + 1] :: lf.exts.drop (ex + 2)) := by
    rw [hsplit]
    exact hlf.exts
  obtain ⟨hwf', hmap⟩ := hwf.merge hm
  have htake : (lf.exts.take ex).length = ex := by simp; omega
  refine ⟨⟨⟨?_, ?_, hwf'⟩, fun k => ?_⟩, ?_⟩
  · simp only [toNat_sub_one_of_pos (by omega : 0 < lf.hdr.ehEntries.toNat), List.length_append,
      List.length_cons, List.length_drop, htake]
    omega
  · have hle := UInt16.le_iff_toNat_le.mp hlf.entries_le
    exact UInt16.le_iff_toNat_le.mpr
      (by simp only [toNat_sub_one_of_pos (by omega : 0 < lf.hdr.ehEntries.toNat)]; omega)
  · unfold Leaf.lookup
    rw [hmap k, hsplit]
  · rw [List.getD_append_right _ _ _ _ (by omega), htake, Nat.sub_self, List.getD_cons_zero]
    exact congrArg Run.tag (mergeLen_toRun hm)

/-- The loop of `ext4bf_ext_try_to_merge_right` keeps the leaf: each merge does, and the sticky
`uninitialized` is the state of the extent merged into, which a merge keeps. -/
theorem tryToMergeRightLoop_keeps {ex : Nat} {u d : Bool} (hlf : lf.WellFormed)
    (hu : u = true → ext4bfExtIsUninitialized (lf.exts.getD ex default) = true) :
    (tryToMergeRightLoop ex u d lf).1.Keeps lf := by
  induction u, d, lf using tryToMergeRightLoop.induct ex with
  | case1 u d lf hlt e hm u' ih =>
    rw [tryToMergeRightLoop, if_pos hlt, if_pos hm]
    -- under the invariant the sticky flag is the state of the extent merged into
    have hu' : (u || ext4bfExtIsUninitialized (lf.exts.getD ex default)) =
        ext4bfExtIsUninitialized (lf.exts.getD ex default) := by
      cases u <;> simp_all
    simp only [u', e, hu'] at ih ⊢
    obtain ⟨hstep, hstate⟩ := mergeNext_keeps hlf hlt hm
    exact (ih hstep.wellFormed fun h => hstate.trans h).trans hstep
  | case2 u d lf hlt e hm =>
    rw [tryToMergeRightLoop, if_pos hlt, if_neg hm]
    exact Leaf.Keeps.refl hlf
  | case3 u d lf hlt =>
    rw [tryToMergeRightLoop, if_neg hlt]
    exact Leaf.Keeps.refl hlf

theorem ext4bfExtTryToMergeRight_keeps (hlf : lf.WellFormed) (ex : Nat) :
    (ext4bfExtTryToMergeRight ex lf).1.Keeps lf :=
  tryToMergeRightLoop_keeps hlf (fun h => absurd h Bool.false_ne_true)

theorem ext4bfExtTryToMerge_keeps (hlf : lf.WellFormed) (ex : Nat) :
    (ext4bfExtTryToMerge ex lf).Keeps lf := by
  have hleft : (if 0 < ex then ext4bfExtTryToMergeRight (ex - 1) lf else (lf, false)).1.Keeps lf := by
    split
    · exact ext4bfExtTryToMergeRight_keeps hlf _
    · exact Leaf.Keeps.refl hlf
  unfold ext4bfExtTryToMerge
  generalize (if 0 < ex then ext4bfExtTryToMergeRight (ex - 1) lf else (lf, false)) = left at hleft ⊢
  dsimp only
  split
  · exact hleft
  · exact (ext4bfExtTryToMergeRight_keeps hleft.wellFormed ex).trans hleft

theorem insertMerge_keeps (hlf : lf.WellFormed) (flag nearex : Nat) :
    (insertMerge flag nearex lf).Keeps lf := by
  unfold insertMerge
  split
  · exact ext4bfExtTryToMerge_keeps hlf nearex
  · exact Leaf.Keeps.refl hlf

end Leaves

/-! ## The insertion -/

section Insert

variable {lf : Leaf} {newext : Extent}

/-- With well-formed extents the search leads `has_space:` to the split: `p_ext` is the
extent before it, and the new extent, which cannot start where that one does, goes after it;
or `p_ext` is the first extent, which starts after the new one. -/
theorem insertSlot_findExtent (hlf : lf.WellFormed) (hlen : 0 < ext4bfExtGetActualLen newext)
    (hdisj : ∀ e ∈ lf.exts, e.toRun.Disjoint newext.toRun) :
    insertSlot lf (lf.findExtent newext.eeBlock) newext =
      some (splitIdx lf.exts newext.eeBlock) := by
  rw [hlf.findExtent_eq]
  split
  · next he =>
    rw [he]
    rfl
  · next he =>
    have hp : splitIdx lf.exts newext.eeBlock ≤ lf.exts.length := List.findIdx_le_length
    have hpos : 0 < lf.exts.length := List.length_pos_iff.mpr he
    have hk : splitIdx lf.exts newext.eeBlock - 1 < lf.exts.length := by omega
    unfold insertSlot
    dsimp only
    rw [List.getD_eq_getElem _ _ hk]
    rcases Nat.eq_zero_or_pos (splitIdx lf.exts newext.eeBlock) with h0 | h0
    · -- insert before the first extent, which starts after the new one
      have hmem : lf.exts[splitIdx lf.exts newext.eeBlock - 1] ∈
          lf.exts.drop (splitIdx lf.exts newext.eeBlock) := by
        simp only [h0, Nat.zero_sub, List.drop_zero]
        exact List.getElem_mem _
      have hlt := hlf.exts.lt_of_mem_drop_splitIdx _ hmem
      rw [if_neg (UInt32.lt_asymm hlt), if_neg (UInt32.ne_of_lt hlt), h0]
    · -- insert after the extent before the split, which starts before the new one
      have hin := List.getElem_mem hk
      have hle : lf.exts[splitIdx lf.exts newext.eeBlock - 1].eeBlock ≤ newext.eeBlock :=
        le_of_mem_take_splitIdx _ (List.mem_take_iff_getElem.mpr ⟨_, by omega, rfl⟩)
      have hne : lf.exts[splitIdx lf.exts newext.eeBlock - 1].eeBlock ≠ newext.eeBlock :=
        fun heq => (hdisj _ hin).start_ne (hlf.exts.len_pos _ hin) hlen (congrArg UInt32.toNat heq)
      rw [if_pos (UInt32.lt_of_le_of_ne hle hne), Nat.sub_add_cancel h0]

/-- `has_space:` at the split leaves the leaf with the new extent inserted. -/
theorem insertAt_inserted (hlf : lf.WellFormed) (hlen : 0 < ext4bfExtGetActualLen newext)
    (hrange : newext.toRun.stop ≤ extMaxBlocks)
    (hdisj : ∀ e ∈ lf.exts, e.toRun.Disjoint newext.toRun)
    (hspace : lf.hdr.ehEntries < lf.hdr.ehMax) :
    InsertedInto (insertAt (splitIdx lf.exts newext.eeBlock) newext lf) lf newext := by
  obtain ⟨hins, hmap⟩ := hlf.exts.insert_splitIdx hlen hrange hdisj
  have hp : splitIdx lf.exts newext.eeBlock ≤ lf.exts.length := List.findIdx_le_length
  have hcount := toNat_add_one_of_lt hspace
  refine ⟨⟨?_, ?_, hins⟩, hmap⟩
  · simp only [insertAt, hcount, hlf.entries, List.length_append, List.length_cons,
      List.length_take, List.length_drop]
    omega
  · have := UInt16.lt_iff_toNat_lt.mp hspace
    exact UInt16.le_iff_toNat_le.mpr (by simp only [insertAt, hcount]; omega)

/-- The append to `p_ext`: the search found the extent before the split, which the new
extent continues; growing it is inserting the new extent after it and joining the two. -/
theorem appendToFound_inserted (hlf : lf.WellFormed) (hlen : 0 < ext4bfExtGetActualLen newext)
    (hrange : newext.toRun.stop ≤ extMaxBlocks)
    (hdisj : ∀ e ∈ lf.exts, e.toRun.Disjoint newext.toRun) {k : Nat}
    (hfind : lf.findExtent newext.eeBlock = some k)
    (hm : ext4bfCanExtentsBeMerged (lf.exts.getD k default) newext = true) :
    InsertedInto (appendToFound k newext lf) lf newext := by
  rw [hlf.findExtent_eq] at hfind
  split at hfind
  · exact absurd hfind (by simp)
  · next he =>
    obtain rfl := Option.some.inj hfind
    have hp : splitIdx lf.exts newext.eeBlock ≤ lf.exts.length := List.findIdx_le_length
    have hpos : 0 < lf.exts.length := List.length_pos_iff.mpr he
    have hk : splitIdx lf.exts newext.eeBlock - 1 < lf.exts.length := by omega
    rw [List.getD_eq_getElem _ _ hk] at hm
    have hin := List.getElem_mem hk
    have hcont := ext4bfCanExtentsBeMerged_continues hm (hlf.exts.in_range _ hin)
    -- the found extent stops where the new one starts, so it lies before the split
    have hp0 : 0 < splitIdx lf.exts newext.eeBlock := by
      rcases Nat.eq_zero_or_pos (splitIdx lf.exts newext.eeBlock) with h0 | h0
      · have hmem : lf.exts[splitIdx lf.exts newext.eeBlock - 1] ∈
            lf.exts.drop (splitIdx lf.exts newext.eeBlock) := by
          simp only [h0, Nat.zero_sub, List.drop_zero]
          exact List.getElem_mem _
        have hlt := UInt32.lt_iff_toNat_lt.mp (hlf.exts.lt_of_mem_drop_splitIdx _ hmem)
        have hstop := hcont.1
        unfold Run.stop at hstop
        simp only [Extent.toRun_start, Extent.toRun_len] at hstop
        omega
      · exact h0
    have htake : lf.exts.take (splitIdx lf.exts newext.eeBlock) =
        lf.exts.take (splitIdx lf.exts newext.eeBlock - 1) ++
          [lf.exts[splitIdx lf.exts newext.eeBlock - 1]] := by
      have := List.take_succ_eq_append_getElem hk
      rwa [Nat.sub_add_cancel hp0] at this
    obtain ⟨hins, hmap⟩ := hlf.exts.insert_splitIdx hlen hrange hdisj
    rw [htake, List.append_assoc, List.singleton_append] at hins hmap
    obtain ⟨hwf, hmerge⟩ := hins.merge hm
    have hset : ∀ m, lf.exts.set (splitIdx lf.exts newext.eeBlock - 1) m =
        lf.exts.take (splitIdx lf.exts newext.eeBlock - 1) ++ m ::
          lf.exts.drop (splitIdx lf.exts newext.eeBlock) := by
      intro m
      rw [List.set_eq_take_append_cons_drop, if_pos hk, Nat.sub_add_cancel hp0]
    unfold appendToFound
    dsimp only
    rw [List.getD_eq_getElem _ _ hk, hset]
    refine ⟨⟨?_, hlf.entries_le, hwf⟩, fun b => ?_⟩
    · rw [hlf.entries, ← List.length_set (i := splitIdx lf.exts newext.eeBlock - 1)
        (a := mergeLen (ext4bfExtIsUninitialized lf.exts[splitIdx lf.exts newext.eeBlock - 1])
          lf.exts[splitIdx lf.exts newext.eeBlock - 1] newext), hset]
    · unfold Leaf.lookup
      rw [hmerge b, hmap b]

/-- The leaf part after the append is ruled out: a full leaf, or the new extent inserted. -/
theorem insertHasSpace_inserted (flag : Nat) (hlf : lf.WellFormed)
    (hlen : 0 < ext4bfExtGetActualLen newext) (hrange : newext.toRun.stop ≤ extMaxBlocks)
    (hdisj : ∀ e ∈ lf.exts, e.toRun.Disjoint newext.toRun) :
    (insertHasSpace flag lf (lf.findExtent newext.eeBlock) newext = .error .leafFull ∧
        lf.hdr.ehMax ≤ lf.hdr.ehEntries) ∨
      ∃ lf', insertHasSpace flag lf (lf.findExtent newext.eeBlock) newext = .ok lf' ∧
        InsertedInto lf' lf newext := by
  unfold insertHasSpace
  split
  · next hspace =>
    rw [insertSlot_findExtent hlf hlen hdisj]
    have hins := insertAt_inserted hlf hlen hrange hdisj hspace
    exact .inr ⟨_, rfl, hins.keeps (insertMerge_keeps hins.wellFormed flag _)⟩
  · next hfull => exact .inl ⟨rfl, UInt16.not_lt.mp hfull⟩

/-- The extents of a well-formed leaf start in strictly increasing order. -/
theorem Leaf.WellFormed.increasing {lf : Leaf} (hlf : lf.WellFormed) :
    lf.exts.Pairwise (fun a b => a.eeBlock < b.eeBlock) := by
  have h := hlf.exts.ordered.start_lt (by simpa using hlf.exts.len_pos)
  rw [List.pairwise_map] at h
  exact h.imp fun hab => UInt32.lt_iff_toNat_lt.mpr hab

/-- Inserting an extent into the leaf `ext4bf_ext_find_extent` found for it. The new extent
is not empty, ends within `EXT_MAX_BLOCKS` and overlaps no extent of the leaf. Then either the
leaf is full and the append to `p_ext` does not apply, or the insertion, by the append to
`p_ext` or by `has_space:`, and then `ext4bf_ext_try_to_merge`, leaves a well-formed leaf
(`eh_entries` counting its extents, ordered without overlap), its extents strictly increasing
and within their length limits, that maps every logical block to the physical block and the
initialized state the old leaf and the new extent map it to. -/
theorem ext4bfExtInsertExtent_leaf (flag : Nat) {lf : Leaf} (hlf : lf.WellFormed)
    {newext : Extent} (hlen : 0 < ext4bfExtGetActualLen newext)
    (hrange : newext.toRun.stop ≤ extMaxBlocks)
    (hdisj : ∀ e ∈ lf.exts, e.toRun.Disjoint newext.toRun) :
    (ext4bfExtInsertExtent flag lf (lf.findExtent newext.eeBlock) newext = .error .leafFull ∧
        lf.hdr.ehMax ≤ lf.hdr.ehEntries) ∨
      ∃ lf', ext4bfExtInsertExtent flag lf (lf.findExtent newext.eeBlock) newext = .ok lf' ∧
        lf'.WellFormed ∧ lf'.exts.Pairwise (fun a b => a.eeBlock < b.eeBlock) ∧
        (∀ e ∈ lf'.exts, ext4bfExtGetActualLen e ≤
          if ext4bfExtIsUninitialized e then extUninitMaxLen else extInitMaxLen) ∧
        ∀ block, lf'.lookup block =
          Lib.RunMap.lookup (newext.toRun :: lf.exts.map Extent.toRun) block := by
  -- each path ends in a full leaf or in a leaf the new extent went into
  have hpaths : (ext4bfExtInsertExtent flag lf (lf.findExtent newext.eeBlock) newext =
        .error .leafFull ∧ lf.hdr.ehMax ≤ lf.hdr.ehEntries) ∨
      ∃ lf', ext4bfExtInsertExtent flag lf (lf.findExtent newext.eeBlock) newext = .ok lf' ∧
        InsertedInto lf' lf newext := by
    unfold ext4bfExtInsertExtent
    rw [if_neg (Nat.pos_iff_ne_zero.mp hlen)]
    split
    · next k hfind =>
      split
      · next hm =>
        have happ := appendToFound_inserted hlf hlen hrange hdisj hfind hm.2
        exact .inr ⟨_, rfl, happ.keeps (insertMerge_keeps happ.wellFormed flag k)⟩
      · exact insertHasSpace_inserted flag hlf hlen hrange hdisj
    · exact insertHasSpace_inserted flag hlf hlen hrange hdisj
  rcases hpaths with hfull | ⟨lf', hok, hins⟩
  · exact .inl hfull
  · exact .inr ⟨lf', hok, hins.wellFormed, hins.wellFormed.increasing,
      fun e _ => ext4bfExtGetActualLen_le_limit e, hins.lookup_eq⟩

/-- A leaf with room for four extents holding one, logical blocks 0 to 3 at physical block 100. -/
def oneExtentLeaf : Leaf := ⟨⟨ext4ExtMagic, 1, 4, 0⟩, [⟨0, 4, 0, 100⟩]⟩

theorem oneExtentLeaf_wellFormed : oneExtentLeaf.WellFormed :=
  ⟨by decide, by decide, ⟨by unfold Ordered; decide, by decide, by decide⟩⟩

/-- Two blocks that continue the extent of `oneExtentLeaf`, logically and physically, go into
it by the append to `p_ext`. -/
theorem oneExtentLeaf_insert_adjacent :
    ∃ lf', ext4bfExtInsertExtent 0 oneExtentLeaf (oneExtentLeaf.findExtent 4) ⟨4, 2, 0, 104⟩ =
        .ok lf' ∧ lf'.WellFormed ∧ ∀ block, lf'.lookup block =
          Lib.RunMap.lookup (Extent.toRun ⟨4, 2, 0, 104⟩ :: oneExtentLeaf.exts.map Extent.toRun)
            block :=
  match ext4bfExtInsertExtent_leaf 0 oneExtentLeaf_wellFormed
      (by decide : 0 < ext4bfExtGetActualLen ⟨4, 2, 0, 104⟩) (by decide) (by decide) with
  | .inl hfull => absurd hfull.2 (by decide)
  | .inr ⟨lf', hok, hwf, _, _, hmap⟩ => ⟨lf', hok, hwf, hmap⟩

end Insert

end OptFs.Extents
