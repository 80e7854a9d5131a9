import OptFs.Lib.RbTree
import OptFs.Lib.Cover
import OptFs.Lib.Trace

/-!
# Delayed block reuse (`mballoc.c`, `super.c`)

Metadata clusters freed under a handle (`ext4bf_free_blocks` with
`EXT4_FREE_BLOCKS_METADATA`) go back to the buddy only later. `ext4bf_mb_free_metadata`
puts an `ext4bf_free_data` entry for them into the group's red-black tree `bb_free_root`,
merges it with a neighbour that the same transaction freed (`can_merge`), and links it on
the transaction's `t_private_list`. When the transaction commits, `release_blocks_on_commit`
appends the entries to the delayed-reuse list `ext4bf_delayed_reuse_list`, and
`release_blocks_after_delay(sb, delay, finish)` takes them off its head: each is erased from
its group's tree and its clusters are freed in the buddy (`mb_free_blocks`).

The delayed-reuse list, the flag `inside_mb_free_metadata` and the worker are globals of the
module, shared by every mounted ext4bf file system, and an entry does not record the file
system it was freed on:

* `ext4bf_fill_super` empties the list at every mount (`INIT_LIST_HEAD`), so the entries
  another file system had waiting there never reach its buddy (`ext4bfFillSuper_drops`);
* `release_blocks_after_delay` handles every entry with the super block it is given. With two
  file systems mounted, an entry freed and committed on the first is taken by a release on the
  second, which erases it from the second's tree, where it is not, and would then free its
  clusters in the second's buddy (`release_blocks_after_delay_foreign_entry`).

What delayed reuse is for holds on one file system: `ext4bf_mb_generate_from_freelist` marks
in use exactly the clusters of the entries still in the tree (`ext4bfMbGenerateFromFreelist_iff`),
and an `ext4bf_free_metadata_blocks` that reports nothing leaves the tree covering the freed
clusters besides what it covered, merges included, so a buddy generated for the group has them
in use until the entry is released (`ext4bfFreeMetadataBlocks_covered`).

An event runs to its end before the next (the locks and the worker thread are not
modelled), and `none` is an event the code cannot take: a free outside the file system, or
a step of undefined behaviour (an array index past the groups, a `BUG_ON`, an `rb_erase` of a
node the given tree does not hold). An object's address is a number that
`kmem_cache_alloc` never hands out twice. Left out: the page-cache references taken and
dropped for the buddy pages, discard and the trimmed flag, the on-disk bitmap and group
descriptor, the buddy orders above 0 and the fragment counters of `mb_free_blocks`, and the
debug counters `dr_added`. Time is `jiffies` in milliseconds, without wrap-around.
-/

namespace OptFs.Mballoc

open Lib.RbTree Lib.RbTree.RbNode Lib.Trace

/-! ## The objects -/

/-- `struct ext4bf_free_data`. `addr` stands for the object's address: its tree node and its
list link are parts of the object, so the kernel finds an entry by address, never by value. -/
structure FreeData where
  addr : Nat
  group : Nat
  startCluster : Nat
  count : Nat
  tTid : Nat
  dFtime : Nat
deriving DecidableEq, Repr

/-- The state of a group that delayed reuse reads and writes: the tree `bb_free_root`,
the order-0 bitmap of the buddy (`EXT4_MB_BITMAP`, set: in use), `bb_free` and
`bb_first_free`. -/
structure GroupInfo where
  bbFreeRoot : RbNode FreeData
  bitmap : Nat → Bool
  bbFree : Nat
  bbFirstFree : Nat

/-- A mounted file system: `s_blocksize`, `s_clusters_per_group` within the bitmap block as
`ext4bf_fill_super` checks ("#clusters per group too big"), the groups, and the journal's
running transaction with its private list (newest first, as `list_add` links). -/
structure FileSystem where
  sBlocksize : Nat
  sClustersPerGroup : Nat
  clustersPerGroup_le : sClustersPerGroup ≤ sBlocksize * 8
  groups : List GroupInfo
  tTid : Nat
  tPrivateList : List FreeData

/-- The messages of `ext4bf_grp_locked_error` on this path. -/
inductive GrpErrorMsg where
  /-- "Block already on to-be-freed list" -/
  | blockAlreadyOnToBeFreedList
  /-- "freeing already freed block (bit %u)" -/
  | freeingAlreadyFreedBlock
deriving DecidableEq, Repr

/-- A call of `ext4bf_grp_locked_error`: file system, group, the cluster the block number is
computed from, and the message. -/
structure GrpError where
  sb : Nat
  group : Nat
  cluster : Nat
  msg : GrpErrorMsg
deriving DecidableEq, Repr

/-- The mounted file systems by super block, and the globals of the module. `nextAddr` is
the next object `kmem_cache_alloc` returns; `errors` are the reports so far, oldest first. -/
structure ReuseState where
  mounted : Nat → Option FileSystem
  ext4bfDelayedReuseList : List FreeData
  insideMbFreeMetadata : Bool
  jiffies : Nat
  nextAddr : Nat
  errors : List GrpError

/-- Boot: nothing mounted, the list empty. -/
def reuseInit : ReuseState :=
  ⟨fun _ => none, [], false, 0, 0, []⟩

/-- Store the state of a file system. -/
def ReuseState.setFs (st : ReuseState) (sb : Nat) (fs : FileSystem) : ReuseState :=
  { st with mounted := Function.update st.mounted sb (some fs) }

/-- Store the state of a group. -/
def FileSystem.setGroup (fs : FileSystem) (group : Nat) (gi : GroupInfo) : FileSystem :=
  { fs with groups := fs.groups.set group gi }

/-! ## Freeing: `ext4bf_mb_free_metadata` -/

/-- `can_merge`: contiguous, freed by the same transaction, in the same group. -/
def canMerge (entry1 entry2 : FreeData) : Bool :=
  entry1.tTid == entry2.tTid && entry1.group == entry2.group &&
    entry1.startCluster + entry1.count == entry2.startCluster

/-- Where the descent of `ext4bf_mb_free_metadata` ends: at an entry holding the new start
cluster, or at a hole. -/
inductive FreeWalkEnd where
  | overlap (entry : FreeData)
  | hole (path : List (Frame FreeData))

/-- The descent for `cluster`: left at an entry starting after it, right at one ending at or
before it. -/
def freeRootWalk (cluster : Nat) : RbNode FreeData → List (Frame FreeData) → FreeWalkEnd
  | .nil, path => .hole path
  | .node c l e r, path =>
    if cluster < e.startCluster then freeRootWalk cluster l (.left c e r :: path)
    else if cluster ≥ e.startCluster + e.count then
      freeRootWalk cluster r (.right c l e :: path)
    else .overlap e

/-- What the merges of `ext4bf_mb_free_metadata` change: the group's tree, the new entry with
its in-order index, and the two lists an entry can be linked on. -/
structure MergeState where
  tree : RbNode FreeData
  index : Nat
  newEntry : FreeData
  tPrivateList : List FreeData
  delayedReuseList : List FreeData

/-- `list_del(&entry->list)`: the entry leaves the list that holds it. -/
def MergeState.listDel (m : MergeState) (entry : FreeData) : MergeState :=
  { m with tPrivateList := m.tPrivateList.filter (·.addr != entry.addr),
           delayedReuseList := m.delayedReuseList.filter (·.addr != entry.addr) }

/-- The merge with `rb_prev`: the new entry takes over its predecessor's clusters, and the
predecessor is erased and unlinked. -/
def mergePrev (m : MergeState) : MergeState :=
  match m.index with
  | 0 => m
  | k + 1 =>
    match getAt m.tree k with
    | some entry =>
      if canMerge entry m.newEntry then
        let e := { m.newEntry with startCluster := entry.startCluster,
                                   count := m.newEntry.count + entry.count }
        { m.listDel entry with
          tree := eraseAt (setAt m.tree (k + 1) e) k, index := k, newEntry := e }
      else m
    | none => m

/-- The merge with `rb_next`: the new entry takes over its successor's clusters, and the
successor is erased and unlinked. -/
def mergeNext (m : MergeState) : MergeState :=
  match getAt m.tree (m.index + 1) with
  | some entry =>
    if canMerge m.newEntry entry then
      let e := { m.newEntry with count := m.newEntry.count + entry.count }
      { m.listDel entry with
        tree := eraseAt (setAt m.tree m.index e) (m.index + 1), newEntry := e }
    else m
  | none => m

/-- `ext4bf_mb_free_metadata` for `newEntry` in group `gi` of file system `sb`. The flag
`inside_mb_free_metadata` is set first; on an entry that already holds the start cluster
the function reports it and returns with the flag still set and `newEntry` on no tree and no
list. Otherwise the entry is linked where the descent ended, merged, put at the head of the
private list, and the flag cleared. -/
def ext4bfMbFreeMetadata (st : ReuseState) (sb : Nat) (fs : FileSystem) (gi : GroupInfo)
    (newEntry : FreeData) : ReuseState :=
  match freeRootWalk newEntry.startCluster gi.bbFreeRoot [] with
  | .overlap _ =>
    { st with insideMbFreeMetadata := true,
              errors := st.errors ++
                [⟨sb, newEntry.group, newEntry.startCluster, .blockAlreadyOnToBeFreedList⟩] }
  | .hole path =>
    let m := mergeNext (mergePrev ⟨linkNode newEntry path, (pathBefore path).length, newEntry,
      fs.tPrivateList, st.ext4bfDelayedReuseList⟩)
    { st.setFs sb { fs.setGroup newEntry.group { gi with bbFreeRoot := m.tree } with
        tPrivateList := m.newEntry :: m.tPrivateList } with
      ext4bfDelayedReuseList := m.delayedReuseList, insideMbFreeMetadata := false }

/-- The metadata branch of `ext4bf_free_blocks` for `count` clusters from `bit` of `group`
(one part of the range, within the group): a fresh entry of the running transaction, stamped
with the time, then `ext4bf_mb_free_metadata`. -/
def ext4bfFreeMetadataBlocks (st : ReuseState) (sb group bit count : Nat) :
    Option ReuseState := do
  let fs ← st.mounted sb
  let gi ← fs.groups[group]?
  if 0 < count ∧ bit + count ≤ fs.sClustersPerGroup then
    some (ext4bfMbFreeMetadata { st with nextAddr := st.nextAddr + 1 } sb fs gi
      ⟨st.nextAddr, group, bit, count, fs.tTid, st.jiffies⟩)
  else none

/-! ## Commit and release -/

/-- `release_blocks_on_commit` under `DELAYED_REUSE`, as the commit of the running transaction
of `sb` ends: every entry of its private list, in list order, stamped with the time and
appended to the delayed-reuse list; the journal goes on with the next transaction. -/
def releaseBlocksOnCommit (st : ReuseState) (sb : Nat) : Option ReuseState := do
  let fs ← st.mounted sb
  some { st.setFs sb { fs with tTid := fs.tTid + 1, tPrivateList := [] } with
    ext4bfDelayedReuseList := st.ext4bfDelayedReuseList ++
      fs.tPrivateList.map fun e => { e with dFtime := st.jiffies } }

/-- `ext4bf_mb_load_buddy(sb, group)`: the group of the given file system (`none` past its
groups, where `ext4bf_get_group_info` reads outside the array). -/
def ext4bfMbLoadBuddy (st : ReuseState) (sb group : Nat) : Option (FileSystem × GroupInfo) := do
  let fs ← st.mounted sb
  let gi ← fs.groups[group]?
  some (fs, gi)

/-- `rb_erase(&entry->node, root)`: the entry's node leaves the tree at `root`, which must
hold it. -/
def rbEraseEntry (root : RbNode FreeData) (entry : FreeData) : Option (RbNode FreeData) :=
  (root.inorder.findIdx? (·.addr == entry.addr)).map (eraseAt root)

/-- `mb_free_blocks` on the order-0 bitmap: `bb_free` and `bb_first_free` updated, every
cluster cleared, and the clusters that were already clear, to be reported. -/
def mbFreeBlocks (gi : GroupInfo) (first count : Nat) : GroupInfo × List Nat :=
  ({ gi with bitmap := fun i => if first ≤ i ∧ i < first + count then false else gi.bitmap i,
             bbFree := gi.bbFree + count,
             bbFirstFree := if first < gi.bbFirstFree then first else gi.bbFirstFree },
   (List.range' first count).filter fun b => !gi.bitmap b)

/-- One entry released into the buddy of `sb`: the group loaded (`BUG_ON(err != 0)`), the
entry erased from its tree, and its clusters freed (`mb_free_blocks` first checks
`BUG_ON(first + count > (sb->s_blocksize << 3))`). -/
def releaseEntry (st : ReuseState) (sb : Nat) (entry : FreeData) : Option ReuseState := do
  let (fs, gi) ← ext4bfMbLoadBuddy st sb entry.group
  let root ← rbEraseEntry gi.bbFreeRoot entry
  if entry.startCluster + entry.count ≤ fs.sBlocksize * 8 then
    let freed := mbFreeBlocks { gi with bbFreeRoot := root } entry.startCluster entry.count
    some { st.setFs sb (fs.setGroup entry.group freed.1) with
      errors := st.errors ++ freed.2.map fun b => ⟨sb, entry.group, b, .freeingAlreadyFreedBlock⟩ }
  else none

/-- The loop of `release_blocks_after_delay` from the head of the list, `drCount` entries
visited before: with `finish` every entry is dropped; otherwise the 50th entry, or one that
has not waited `delay`, ends the loop, and the others are released. The entries dropped or
released leave the list. -/
def releaseLoop (sb delay : Nat) (finish : Bool) :
    Nat → ReuseState → List FreeData → Option ReuseState
  | _, st, [] => some { st with ext4bfDelayedReuseList := [] }
  | drCount, st, entry :: rest =>
    if finish then releaseLoop sb delay finish (drCount + 1) st rest
    else if 50 ≤ drCount + 1 ∨ st.jiffies - entry.dFtime < delay then
      some { st with ext4bfDelayedReuseList := entry :: rest }
    else (releaseEntry st sb entry).bind (releaseLoop sb delay finish (drCount + 1) · rest)

/-- `release_blocks_after_delay(sb, delay, finish)`: nothing while
`inside_mb_free_metadata` is set. -/
def releaseBlocksAfterDelay (st : ReuseState) (sb delay : Nat) (finish : Bool) :
    Option ReuseState :=
  if st.insideMbFreeMetadata then some st
  else releaseLoop sb delay finish 0 st st.ext4bfDelayedReuseList

/-! ## Regenerating the buddy: `ext4bf_mb_generate_from_freelist` -/

/-- `ext4bf_set_bits`: mark `len` clusters from `cur` in use. -/
def ext4bfSetBits (bitmap : Nat → Bool) (cur len : Nat) : Nat → Bool :=
  fun i => if cur ≤ i ∧ i < cur + len then true else bitmap i

/-- `ext4bf_mb_generate_from_freelist`: before the buddy is generated from a bitmap, every
entry of the group's tree, from `rb_first` on, marks its clusters in use. -/
def ext4bfMbGenerateFromFreelist (root : RbNode FreeData) (bitmap : Nat → Bool) : Nat → Bool :=
  root.inorder.foldl (fun bm entry => ext4bfSetBits bm entry.startCluster entry.count) bitmap

/-! ## Mount and unmount -/

/-- A file system as it is mounted: its groups with empty trees (`ext4bf_mb_init`), and
no entries freed yet in its running transaction. -/
def FileSystem.atMount (fs : FileSystem) : FileSystem :=
  { fs with groups := fs.groups.map fun gi => { gi with bbFreeRoot := .nil }, tPrivateList := [] }

/-- The `DELAYED_REUSE` part of `ext4bf_fill_super` for a file system not yet mounted:
`INIT_LIST_HEAD(&ext4bf_delayed_reuse_list)`. -/
def ext4bfFillSuper (st : ReuseState) (sb : Nat) (fs : FileSystem) : Option ReuseState :=
  match st.mounted sb with
  | some _ => none
  | none => some { st.setFs sb fs.atMount with ext4bfDelayedReuseList := [] }

/-- `ext4bf_put_super`: `jbdbf_journal_destroy` commits the running transaction, then
`release_blocks_after_delay(sb, 0, 1)` drops what is left on the list, and the file system
is gone. -/
def ext4bfPutSuper (st : ReuseState) (sb : Nat) : Option ReuseState := do
  let st ← releaseBlocksOnCommit st sb
  let st ← releaseBlocksAfterDelay st sb 0 true
  some { st with mounted := Function.update st.mounted sb none }

/-! ## Runs -/

/-- What happens to the file systems: mounts and unmounts, frees of metadata clusters,
commits, runs of `release_blocks_after_delay(sb, delay, 0)`, and time passing. -/
inductive ReuseEvent where
  | fillSuper (sb : Nat) (fs : FileSystem)
  | putSuper (sb : Nat)
  | freeMetadata (sb group bit count : Nat)
  | commit (sb : Nat)
  | releaseAfterDelay (sb delay : Nat)
  | tick (ms : Nat)

/-- One event; a release runs for a mounted file system only. -/
def reuseStep (st : ReuseState) : ReuseEvent → Option ReuseState
  | .fillSuper sb fs => ext4bfFillSuper st sb fs
  | .putSuper sb => ext4bfPutSuper st sb
  | .freeMetadata sb group bit count => ext4bfFreeMetadataBlocks st sb group bit count
  | .commit sb => releaseBlocksOnCommit st sb
  | .releaseAfterDelay sb delay =>
    if (st.mounted sb).isSome then releaseBlocksAfterDelay st sb delay false else none
  | .tick ms => some { st with jiffies := st.jiffies + ms }

/-! ## Spec lemmas -/

section Spec

variable {st : ReuseState} {sb : Nat} {fs : FileSystem} {gi : GroupInfo}

@[simp] theorem ReuseState.setFs_mounted_self (st : ReuseState) (sb : Nat) (fs : FileSystem) :
    (st.setFs sb fs).mounted sb = some fs :=
  Function.update_self _ _ _

@[simp] theorem ReuseState.setFs_mounted_of_ne (st : ReuseState) {sb sb' : Nat} (fs : FileSystem)
    (h : sb' ≠ sb) : (st.setFs sb fs).mounted sb' = st.mounted sb' :=
  Function.update_of_ne h _ _

@[simp] theorem ReuseState.setFs_ext4bfDelayedReuseList (st : ReuseState) (sb : Nat)
    (fs : FileSystem) : (st.setFs sb fs).ext4bfDelayedReuseList = st.ext4bfDelayedReuseList := rfl

@[simp] theorem ReuseState.setFs_insideMbFreeMetadata (st : ReuseState) (sb : Nat)
    (fs : FileSystem) : (st.setFs sb fs).insideMbFreeMetadata = st.insideMbFreeMetadata := rfl

@[simp] theorem ReuseState.setFs_jiffies (st : ReuseState) (sb : Nat) (fs : FileSystem) :
    (st.setFs sb fs).jiffies = st.jiffies := rfl

@[simp] theorem FileSystem.setGroup_groups_self (fs : FileSystem) {group : Nat} (gi : GroupInfo)
    (h : group < fs.groups.length) : (fs.setGroup group gi).groups[group]? = some gi :=
  List.getElem?_set_self h

@[simp] theorem FileSystem.setGroup_length (fs : FileSystem) (group : Nat) (gi : GroupInfo) :
    (fs.setGroup group gi).groups.length = fs.groups.length :=
  List.length_set

@[simp] theorem FileSystem.atMount_group (fs : FileSystem) (group : Nat) :
    fs.atMount.groups[group]? = fs.groups[group]?.map fun gi => { gi with bbFreeRoot := .nil } :=
  List.getElem?_map

@[simp] theorem FileSystem.atMount_length (fs : FileSystem) :
    fs.atMount.groups.length = fs.groups.length :=
  List.length_map _

theorem ext4bfFillSuper_eq (h : st.mounted sb = none) (fs : FileSystem) :
    ext4bfFillSuper st sb fs = some { st.setFs sb fs.atMount with ext4bfDelayedReuseList := [] } := by
  unfold ext4bfFillSuper
  rw [h]

/-- A mount empties the delayed-reuse list and leaves every other file system as it was: the
entries the others had waiting there, still in their trees, are on no list any more. -/
theorem ext4bfFillSuper_drops {st' : ReuseState} (fs : FileSystem)
    (h : ext4bfFillSuper st sb fs = some st') :
    st'.ext4bfDelayedReuseList = [] ∧ ∀ sb', sb' ≠ sb → st'.mounted sb' = st.mounted sb' := by
  unfold ext4bfFillSuper at h
  cases hm : st.mounted sb with
  | some _ =>
    rw [hm] at h
    cases h
  | none =>
    rw [hm] at h
    cases h
    exact ⟨rfl, fun sb' hne => ReuseState.setFs_mounted_of_ne st _ hne⟩

theorem ext4bfFreeMetadataBlocks_eq {group bit count : Nat} (hfs : st.mounted sb = some fs)
    (hgi : fs.groups[group]? = some gi) (hcount : 0 < count)
    (hfit : bit + count ≤ fs.sClustersPerGroup) :
    ext4bfFreeMetadataBlocks st sb group bit count =
      some (ext4bfMbFreeMetadata { st with nextAddr := st.nextAddr + 1 } sb fs gi
        ⟨st.nextAddr, group, bit, count, fs.tTid, st.jiffies⟩) := by
  simp [ext4bfFreeMetadataBlocks, hfs, hgi, hcount, hfit]

/-- The first entry of a group: linked as the root, with no neighbour to merge. -/
theorem ext4bfMbFreeMetadata_of_nil (h : gi.bbFreeRoot = .nil) (newEntry : FreeData) :
    ext4bfMbFreeMetadata st sb fs gi newEntry =
      { st.setFs sb { fs.setGroup newEntry.group { gi with bbFreeRoot := linkNode newEntry [] } with
          tPrivateList := newEntry :: fs.tPrivateList } with
        insideMbFreeMetadata := false } := by
  have hnext : getAt (linkNode newEntry []) 1 = none := by
    rw [getAt_eq, inorder_linkNode]
    rfl
  simp only [ext4bfMbFreeMetadata, h, freeRootWalk, pathBefore_nil, List.length_nil, mergePrev,
    mergeNext, Nat.zero_add, hnext]
  rfl

theorem releaseBlocksOnCommit_eq (h : st.mounted sb = some fs) :
    releaseBlocksOnCommit st sb =
      some { st.setFs sb { fs with tTid := fs.tTid + 1, tPrivateList := [] } with
        ext4bfDelayedReuseList := st.ext4bfDelayedReuseList ++
          fs.tPrivateList.map fun e => { e with dFtime := st.jiffies } } := by
  simp [releaseBlocksOnCommit, h]

theorem rbEraseEntry_eq_none_iff (root : RbNode FreeData) (entry : FreeData) :
    rbEraseEntry root entry = none ↔ entry.addr ∉ root.inorder.map (·.addr) := by
  simp [rbEraseEntry, List.findIdx?_eq_none_iff]

/-- An entry that the tree of the loaded group does not hold cannot be released into it. -/
theorem releaseEntry_of_not_mem {entry : FreeData}
    (hload : ext4bfMbLoadBuddy st sb entry.group = some (fs, gi))
    (hmem : entry.addr ∉ gi.bbFreeRoot.inorder.map (·.addr)) : releaseEntry st sb entry = none := by
  have herase := (rbEraseEntry_eq_none_iff gi.bbFreeRoot entry).mpr hmem
  simp [releaseEntry, hload, herase]

/-- A release whose list starts with an entry that has waited `delay` releases it first. -/
theorem releaseBlocksAfterDelay_of_waited {delay : Nat} {entry : FreeData}
    {rest : List FreeData} (hflag : st.insideMbFreeMetadata = false)
    (hlist : st.ext4bfDelayedReuseList = entry :: rest) (hwait : delay ≤ st.jiffies - entry.dFtime) :
    releaseBlocksAfterDelay st sb delay false =
      (releaseEntry st sb entry).bind (releaseLoop sb delay false 1 · rest) := by
  have hgo : ¬ (50 ≤ 0 + 1 ∨ st.jiffies - entry.dFtime < delay) := by omega
  rw [releaseBlocksAfterDelay, hflag, if_neg Bool.false_ne_true, hlist, releaseLoop,
    if_neg Bool.false_ne_true, if_neg hgo]

end Spec

/-! ## An entry released on another file system -/

/-- Two file systems mounted one after the other; the first frees `count` clusters from `bit`
of a group both have and commits, and `delay` passes. A release on the second then takes the
entry off the list with the second's buddy: it loads the second's group, whose tree does not
hold the entry (only the first's does), and cannot erase it there. The kernel's `rb_erase`
rewrites links of the first tree and the second's root instead, and `mb_free_blocks` frees
the clusters in the second file system's buddy. -/
theorem release_blocks_after_delay_foreign_entry {a b : Nat} (hab : a ≠ b)
    (fsA fsB : FileSystem) {group bit count : Nat} (delay : Nat)
    (hgA : group < fsA.groups.length) (hgB : group < fsB.groups.length) (hcount : 0 < count)
    (hfit : bit + count ≤ fsA.sClustersPerGroup) :
    ∃ st, run reuseStep reuseInit [.fillSuper a fsA, .fillSuper b fsB,
        .freeMetadata a group bit count, .commit a, .tick delay] = some st ∧
      (∃ entry, st.ext4bfDelayedReuseList = [entry] ∧ entry.group = group ∧
        (∃ fs gi, ext4bfMbLoadBuddy st a group = some (fs, gi) ∧
          entry.addr ∈ gi.bbFreeRoot.inorder.map (·.addr)) ∧
        (∃ fs gi, ext4bfMbLoadBuddy st b group = some (fs, gi) ∧
          entry.addr ∉ gi.bbFreeRoot.inorder.map (·.addr))) ∧
      reuseStep st (.releaseAfterDelay b delay) = none := by
  obtain ⟨giA, hgiA⟩ : ∃ gi, fsA.groups[group]? = some gi := ⟨_, List.getElem?_eq_getElem hgA⟩
  obtain ⟨giB, hgiB⟩ : ∃ gi, fsB.groups[group]? = some gi := ⟨_, List.getElem?_eq_getElem hgB⟩
  -- The two mounts.
  have h1 : ext4bfFillSuper reuseInit a fsA = some _ := ext4bfFillSuper_eq rfl fsA
  set s1 := { reuseInit.setFs a fsA.atMount with ext4bfDelayedReuseList := [] }
  have h2 : ext4bfFillSuper s1 b fsB = some _ :=
    ext4bfFillSuper_eq (ReuseState.setFs_mounted_of_ne _ _ (Ne.symm hab)) fsB
  set s2 := { s1.setFs b fsB.atMount with ext4bfDelayedReuseList := [] }
  -- The free on the first: its group's tree is empty.
  have hA2 : s2.mounted a = some fsA.atMount := by
    simp [s2, s1, ReuseState.setFs_mounted_of_ne _ _ hab]
  have hgA2 : fsA.atMount.groups[group]? = some { giA with bbFreeRoot := .nil } := by
    simp [hgiA]
  have h3 := ext4bfFreeMetadataBlocks_eq hA2 hgA2 hcount hfit
  rw [ext4bfMbFreeMetadata_of_nil rfl] at h3
  set entry : FreeData := ⟨s2.nextAddr, group, bit, count, fsA.atMount.tTid, s2.jiffies⟩
  set fsA3 := { fsA.atMount.setGroup group { giA with bbFreeRoot := linkNode entry [] } with
    tPrivateList := entry :: fsA.atMount.tPrivateList }
  set s3 := { ({ s2 with nextAddr := s2.nextAddr + 1 } : ReuseState).setFs a fsA3 with
    insideMbFreeMetadata := false }
  -- The commit of the first: the entry goes to the delayed-reuse list.
  have hA3 : s3.mounted a = some fsA3 := ReuseState.setFs_mounted_self _ a fsA3
  have h4 := releaseBlocksOnCommit_eq hA3
  set s4 := { s3.setFs a { fsA3 with tTid := fsA3.tTid + 1, tPrivateList := [] } with
    ext4bfDelayedReuseList := s3.ext4bfDelayedReuseList ++
      fsA3.tPrivateList.map fun (e : FreeData) => { e with dFtime := s3.jiffies } }
  set s5 : ReuseState := { s4 with jiffies := s4.jiffies + delay }
  have hrun : run reuseStep reuseInit [.fillSuper a fsA, .fillSuper b fsB,
      .freeMetadata a group bit count, .commit a, .tick delay] = some s5 := by
    simp only [run_cons, reuseStep, h1, h2, h3, h4, Option.bind_some, run_nil]
    rfl
  -- Where the entry is after the run: on the list, in the first file system's tree only.
  set entry' : FreeData := { entry with dFtime := s3.jiffies }
  have hlist : s5.ext4bfDelayedReuseList = [entry'] := rfl
  have hloadA : ext4bfMbLoadBuddy s5 a group =
      some ({ fsA3 with tTid := fsA3.tTid + 1, tPrivateList := [] },
        { giA with bbFreeRoot := linkNode entry [] }) := by
    have hgA3 : (fsA.atMount.setGroup group { giA with bbFreeRoot := linkNode entry [] }).groups[group]?
        = some { giA with bbFreeRoot := linkNode entry [] } :=
      FileSystem.setGroup_groups_self _ _ (by simpa using hgA)
    simp only [ext4bfMbLoadBuddy, s5, s4, ReuseState.setFs_mounted_self]
    simp [fsA3, hgA3]
  have hloadB : ext4bfMbLoadBuddy s5 b group =
      some (fsB.atMount, { giB with bbFreeRoot := .nil }) := by
    have hB5 : s5.mounted b = some fsB.atMount := by
      simp [s5, s4, s3, s2, Ne.symm hab]
    simp [ext4bfMbLoadBuddy, hB5, hgiB]
  have hnotB : entry'.addr ∉ ({ giB with bbFreeRoot := .nil } : GroupInfo).bbFreeRoot.inorder.map
      (·.addr) := by
    simp
  refine ⟨s5, hrun, ⟨entry', hlist, rfl, ⟨_, _, hloadA, ?_⟩, ⟨_, _, hloadB, hnotB⟩⟩, ?_⟩
  · simp [inorder_linkNode, entry']
  · -- The release reaches the entry and cannot erase it from the second file system's tree.
    have hB : (s5.mounted b).isSome = true := by
      simp [s5, s4, s3, s2, Ne.symm hab]
    have hwait : delay ≤ s5.jiffies - entry'.dFtime := by
      simp [s5, s4, entry']
    rw [reuseStep, if_pos hB, releaseBlocksAfterDelay_of_waited rfl hlist hwait,
      releaseEntry_of_not_mem hloadB hnotB, Option.bind_none]

/-- A file system of 1 KiB blocks with one group of 8192 clusters, all in use. -/
def oneGroupFs : FileSystem where
  sBlocksize := 1024
  sClustersPerGroup := 8192
  clustersPerGroup_le := by decide
  groups := [⟨.nil, fun _ => true, 0, 0⟩]
  tTid := 1
  tPrivateList := []

/-- Two such file systems, cluster 5 freed on the first, and the worker's delay
`EXT4BF_DELAY_TIMEOUT`. -/
theorem release_blocks_after_delay_foreign_entry_oneGroup :
    (1 : Nat) ≠ 2 ∧ 0 < oneGroupFs.groups.length ∧ 0 < 1 ∧ 5 + 1 ≤ oneGroupFs.sClustersPerGroup ∧
    ∃ st, run reuseStep reuseInit [.fillSuper 1 oneGroupFs, .fillSuper 2 oneGroupFs,
        .freeMetadata 1 0 5 1, .commit 1, .tick 30000] = some st ∧
      (∃ entry, st.ext4bfDelayedReuseList = [entry] ∧ entry.group = 0 ∧
        (∃ fs gi, ext4bfMbLoadBuddy st 1 0 = some (fs, gi) ∧
          entry.addr ∈ gi.bbFreeRoot.inorder.map (·.addr)) ∧
        (∃ fs gi, ext4bfMbLoadBuddy st 2 0 = some (fs, gi) ∧
          entry.addr ∉ gi.bbFreeRoot.inorder.map (·.addr))) ∧
      reuseStep st (.releaseAfterDelay 2 30000) = none :=
  ⟨by decide, by decide, by decide, by decide,
    release_blocks_after_delay_foreign_entry (by decide) oneGroupFs oneGroupFs 30000 (by decide)
      (by decide) (by decide) (by decide)⟩

/-! ## Clusters waiting for reuse stay in use -/

/-- Some entry of the list holds cluster `i`. -/
abbrev EntriesCover (entries : List FreeData) (i : Nat) : Prop :=
  Lib.Cover.Covered FreeData.startCluster FreeData.count entries i

section Cover

open Lib.Cover

theorem ext4bfSetBits_eq_true (bitmap : Nat → Bool) (cur len i : Nat) :
    ext4bfSetBits bitmap cur len i = true ↔ (cur ≤ i ∧ i < cur + len) ∨ bitmap i = true := by
  by_cases h : cur ≤ i ∧ i < cur + len <;> simp [ext4bfSetBits, h]

/-- Marking the clusters of a list of entries marks exactly what was marked and every cluster
of the entries. -/
theorem foldl_setBits_iff (entries : List FreeData) :
    ∀ (bitmap : Nat → Bool) (i : Nat),
      entries.foldl (fun bm entry => ext4bfSetBits bm entry.startCluster entry.count) bitmap i =
        true ↔ bitmap i = true ∨ EntriesCover entries i := by
  induction entries with
  | nil => simp
  | cons e rest ih =>
    intro bitmap i
    simp only [List.foldl_cons, ih, ext4bfSetBits_eq_true, EntriesCover, covered_cons]
    unfold Holds
    tauto

/-- `ext4bf_mb_generate_from_freelist` marks in use exactly the clusters the bitmap had in use
and those of the entries in the group's tree. -/
theorem ext4bfMbGenerateFromFreelist_iff (root : RbNode FreeData) (bitmap : Nat → Bool)
    (i : Nat) :
    ext4bfMbGenerateFromFreelist root bitmap i = true ↔
      bitmap i = true ∨ EntriesCover root.inorder i :=
  foldl_setBits_iff root.inorder bitmap i

/-- A descent of `ext4bf_mb_free_metadata` that ends at a hole leaves the tree it walked
around the hole. -/
theorem freeRootWalk_hole {cluster : Nat} {p : List (Frame FreeData)} :
    ∀ {t : RbNode FreeData} {path : List (Frame FreeData)},
      freeRootWalk cluster t path = .hole p → plugPath .nil p = plugPath t path := by
  intro t
  induction t with
  | nil =>
    intro path h
    cases h
    rfl
  | node c l e r ihl ihr =>
    intro path h
    rw [freeRootWalk] at h
    split_ifs at h with hlt hge
    · exact ihl h
    · exact ihr h

/-- The new entry sits at its index in the tree: the merges read its neighbours by index and
write it by index. -/
def MergeState.AtIndex (m : MergeState) : Prop :=
  getAt m.tree m.index = some m.newEntry

/-- The merge with `rb_prev` keeps the new entry at its index and the clusters the tree
covers. -/
theorem MergeState.AtIndex.mergePrev {m : MergeState} (h : m.AtIndex) :
    (mergePrev m).AtIndex ∧
      ∀ i, EntriesCover (mergePrev m).tree.inorder i ↔ EntriesCover m.tree.inorder i := by
  obtain ⟨tree, index, newEntry, priv, delayed⟩ := m
  cases index with
  | zero => exact ⟨h, fun _ => Iff.rfl⟩
  | succ k =>
    unfold OptFs.Mballoc.mergePrev
    dsimp only
    cases ha : getAt tree k with
    | none => exact ⟨h, fun _ => Iff.rfl⟩
    | some entry =>
      dsimp only
      split_ifs with hmerge
      · -- the new entry takes over its predecessor, which ends where it starts
        obtain ⟨pre, post, hsplit, rfl⟩ := inorder_split_of_getAt ha h
        have hinorder := inorder_eraseAt_setAt_succ hsplit
          { newEntry with startCluster := entry.startCluster, count := newEntry.count + entry.count }
        simp only [canMerge, Bool.and_eq_true, beq_iff_eq] at hmerge
        refine ⟨?_, fun i => ?_⟩
        · show getAt _ pre.length = some _
          rw [getAt_eq, hinorder]
          simp
        · rw [hinorder, hsplit]
          apply covered_merge
          exact holds_merged hmerge.2 rfl (Nat.add_comm _ _)
      · exact ⟨h, fun _ => Iff.rfl⟩

/-- The merge with `rb_next` keeps the clusters the tree covers. -/
theorem MergeState.AtIndex.mergeNext {m : MergeState} (h : m.AtIndex) (i : Nat) :
    EntriesCover (mergeNext m).tree.inorder i ↔ EntriesCover m.tree.inorder i := by
  unfold OptFs.Mballoc.mergeNext
  cases hb : getAt m.tree (m.index + 1) with
  | none => rfl
  | some entry =>
    dsimp only
    split_ifs with hmerge
    · -- the new entry takes over its successor, which starts where it ends
      simp only [canMerge, Bool.and_eq_true, beq_iff_eq] at hmerge
      apply covered_eraseAt_succ_setAt h hb
      exact holds_merged hmerge.2 rfl rfl
    · rfl

/-- Linking a new entry at the hole a descent ended at, and merging it with its neighbours,
leaves a tree covering the clusters covered before and the entry's. -/
theorem linkMerge_covered {tree : RbNode FreeData} {path : List (Frame FreeData)}
    (hhole : plugPath .nil path = plugPath tree []) (newEntry : FreeData)
    (priv delayed : List FreeData) (i : Nat) :
    EntriesCover (mergeNext (mergePrev ⟨linkNode newEntry path, (pathBefore path).length,
        newEntry, priv, delayed⟩)).tree.inorder i ↔
      EntriesCover tree.inorder i ∨
        (newEntry.startCluster ≤ i ∧ i < newEntry.startCluster + newEntry.count) := by
  have hlinked : (linkNode newEntry path).inorder = pathBefore path ++ newEntry :: pathAfter path :=
    inorder_linkNode newEntry path
  have htree : tree.inorder = pathBefore path ++ pathAfter path := by
    rw [← plugPath_nil tree, ← hhole, inorder_plugPath, inorder_nil, List.append_nil]
  have hat : MergeState.AtIndex ⟨linkNode newEntry path, (pathBefore path).length, newEntry,
      priv, delayed⟩ := by
    show getAt _ _ = _
    rw [getAt_eq, hlinked]
    simp
  obtain ⟨hat', hprev⟩ := hat.mergePrev
  rw [hat'.mergeNext, hprev]
  simp only [hlinked, htree, EntriesCover, covered_append, covered_cons]
  unfold Holds
  tauto

end Cover

/-- An `ext4bf_free_metadata_blocks` call that goes through without a report leaves the group's
tree covering exactly the clusters it covered and the freed ones, so a buddy generated for the
group from any bitmap has the freed clusters in use until their entry is released. -/
theorem ext4bfFreeMetadataBlocks_covered {st st' : ReuseState} {sb group bit count : Nat}
    {fs : FileSystem} {gi : GroupInfo} (hfs : st.mounted sb = some fs)
    (hgi : fs.groups[group]? = some gi)
    (h : ext4bfFreeMetadataBlocks st sb group bit count = some st')
    (herr : st'.errors = st.errors) :
    ∃ fs' gi', st'.mounted sb = some fs' ∧ fs'.groups[group]? = some gi' ∧
      (∀ i, EntriesCover gi'.bbFreeRoot.inorder i ↔
        EntriesCover gi.bbFreeRoot.inorder i ∨ (bit ≤ i ∧ i < bit + count)) ∧
      ∀ bitmap i, bit ≤ i → i < bit + count →
        ext4bfMbGenerateFromFreelist gi'.bbFreeRoot bitmap i = true := by
  have hcond : 0 < count ∧ bit + count ≤ fs.sClustersPerGroup := by
    by_contra hno
    simp [ext4bfFreeMetadataBlocks, hfs, hgi, hno] at h
  rw [ext4bfFreeMetadataBlocks_eq hfs hgi hcond.1 hcond.2, Option.some_inj] at h
  subst h
  have hlt : group < fs.groups.length := (List.getElem?_eq_some_iff.mp hgi).1
  unfold ext4bfMbFreeMetadata at herr ⊢
  rcases hwalk : freeRootWalk bit gi.bbFreeRoot [] with entry | path
  · -- a report of an entry already holding the start cluster
    simp [hwalk] at herr
  · -- the entry is linked at the hole and merged
    have hcover := linkMerge_covered (freeRootWalk_hole hwalk)
      ⟨st.nextAddr, group, bit, count, fs.tTid, st.jiffies⟩ fs.tPrivateList
      st.ext4bfDelayedReuseList
    refine ⟨_, _, ReuseState.setFs_mounted_self _ _ _, FileSystem.setGroup_groups_self _ _ hlt,
      hcover, fun bitmap i hlo hhi => ?_⟩
    rw [ext4bfMbGenerateFromFreelist_iff, hcover]
    exact Or.inr (Or.inr ⟨hlo, hhi⟩)

/-- Three clusters from cluster 5 freed in the empty group of a file system just mounted. -/
theorem ext4bfFreeMetadataBlocks_covered_oneGroup :
    ∃ st', (reuseInit.setFs 1 oneGroupFs).mounted 1 = some oneGroupFs ∧
      oneGroupFs.groups[0]? = some ⟨.nil, fun _ => true, 0, 0⟩ ∧
      ext4bfFreeMetadataBlocks (reuseInit.setFs 1 oneGroupFs) 1 0 5 3 = some st' ∧
      st'.errors = (reuseInit.setFs 1 oneGroupFs).errors ∧
      ∃ fs' gi', st'.mounted 1 = some fs' ∧ fs'.groups[0]? = some gi' ∧
        (∀ i, EntriesCover gi'.bbFreeRoot.inorder i ↔
          EntriesCover (RbNode.nil : RbNode FreeData).inorder i ∨ (5 ≤ i ∧ i < 5 + 3)) ∧
        ∀ bitmap i, 5 ≤ i → i < 5 + 3 →
          ext4bfMbGenerateFromFreelist gi'.bbFreeRoot bitmap i = true := by
  have hfs : (reuseInit.setFs 1 oneGroupFs).mounted 1 = some oneGroupFs :=
    ReuseState.setFs_mounted_self _ _ _
  have hgi : oneGroupFs.groups[0]? = some ⟨.nil, fun _ => true, 0, 0⟩ := by rfl
  have h := ext4bfFreeMetadataBlocks_eq hfs hgi (by decide : 0 < 3) (by decide : 5 + 3 ≤ 8192)
  exact ⟨_, hfs, hgi, h, rfl, ext4bfFreeMetadataBlocks_covered hfs hgi h rfl⟩

end OptFs.Mballoc
