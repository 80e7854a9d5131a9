import OptFs.Lib.RbTree
import OptFs.Lib.Cover

/-!
# The system-zone tree and block validity (`block_validity.c`)

At mount, `ext4bf_setup_system_zone` records the metadata blocks of every group (the
superblock and descriptor copies, both bitmaps, the inode table) as zones in the red-black
tree `sbi->system_blks`, one `add_system_zone` call each. `ext4bf_data_block_valid` then
refuses a block range that starts at or before `s_first_data_block`, overflows, runs past
the end of the file system, or meets a zone, which it looks for by a descent of the tree.

`add_system_zone` walks down comparing the new start with each zone; it stretches a zone
that holds the new start, or links a new node where the walk ends, and then merges the entry
with its in-order neighbours when one ends exactly where the other starts.

* Two additions, the second starting before the first and ending past its end, leave two
  overlapping zones, the second below the first in the tree; a range inside the second zone
  but after the first one is then accepted, since the descent turns right at the first zone
  (`ext4bfDataBlockValid_misses_added_range`).
* When the zones in tree order are sorted and apart, the descent finds a zone meeting the
  range whenever there is one (`systemZoneSearch_iff`), so block validity is exact there
  (`ext4bfDataBlockValid_iff`).
* Whatever the tree, the zones cover, after a run of `add_system_zone` calls, exactly the
  blocks they covered before and those of the added ranges: stretching a zone adds the range,
  and a merge replaces two neighbours by one zone holding both (`addSystemZones_covered`).
  What goes wrong when zones overlap is the descent, not the record.

The allocation failure of `kmem_cache_alloc` (`-ENOMEM`) and the `s_last_error_block`
record of a refusal are not modelled; block counts are not bounded to 32 bits.
-/

namespace OptFs.Ext4

open Lib.RbTree Lib.RbTree.RbNode

/-- `struct ext4bf_system_zone`: `count` blocks from `start_blk`. -/
structure SystemZone where
  startBlk : Nat
  count : Nat
deriving DecidableEq, Repr

/-- The fields of `struct ext4bf_sb_info` block validity reads: `s_first_data_block` and
`ext4bf_blocks_count` of the on-disk superblock, and the zone tree. -/
structure SbInfo where
  sFirstDataBlock : Nat
  blocksCount : Nat
  systemBlks : RbNode SystemZone

/-- `can_merge`: the first zone ends where the second starts. -/
def canMerge (entry1 entry2 : SystemZone) : Bool :=
  entry1.startBlk + entry1.count == entry2.startBlk

/-- Where the walk of `add_system_zone` ends: at the node of a zone holding the new start, or
at a hole. -/
inductive WalkEnd where
  | entry (c : Color) (l : RbNode SystemZone) (e : SystemZone) (r : RbNode SystemZone)
      (path : List (Frame SystemZone))
  | hole (path : List (Frame SystemZone))

/-- The walk of `add_system_zone` for `start_blk`: left at a zone starting after it, right at
a zone ending at or before it, and stop at a zone holding it. -/
def systemZoneWalk (startBlk : Nat) :
    RbNode SystemZone → List (Frame SystemZone) → WalkEnd
  | .nil, path => .hole path
  | .node c l e r, path =>
    if startBlk < e.startBlk then systemZoneWalk startBlk l (.left c e r :: path)
    else if startBlk ≥ e.startBlk + e.count then systemZoneWalk startBlk r (.right c l e :: path)
    else .entry c l e r path

/-- The first part of `add_system_zone`: the tree with the new entry, and the entry's
in-order index. A zone holding `start_blk` is stretched to the end of the new range if that
lies past its own end; otherwise a new zone is linked at the hole (`rb_link_node`,
`rb_insert_color`). -/
def addSystemZoneEntry (root : RbNode SystemZone) (startBlk count : Nat) :
    RbNode SystemZone × Nat :=
  match systemZoneWalk startBlk root [] with
  | .entry c l e r path =>
    let e' := if startBlk + count > e.startBlk + e.count
      then { e with count := startBlk + count - e.startBlk } else e
    (plugPath (.node c l e' r) path, (pathBefore path).length + l.size)
  | .hole path => (linkNode ⟨startBlk, count⟩ path, (pathBefore path).length)

/-- "Can we merge to the left?": the entry at index `k + 1` absorbs its predecessor
(`rb_prev`) when that ends where it starts, and the predecessor is erased. Returns the tree
and the entry's new index. -/
def mergeLeft (t : RbNode SystemZone) : Nat → RbNode SystemZone × Nat
  | 0 => (t, 0)
  | k + 1 =>
    match getAt t k, getAt t (k + 1) with
    | some entry, some newEntry =>
      if canMerge entry newEntry then
        (eraseAt (setAt t (k + 1) ⟨entry.startBlk, newEntry.count + entry.count⟩) k, k)
      else (t, k + 1)
    | _, _ => (t, k + 1)

/-- "Can we merge to the right?": the entry at index `k` absorbs its successor (`rb_next`)
when it ends where that starts, and the successor is erased. -/
def mergeRight (t : RbNode SystemZone) (k : Nat) : RbNode SystemZone :=
  match getAt t k, getAt t (k + 1) with
  | some newEntry, some entry =>
    if canMerge newEntry entry then
      eraseAt (setAt t k { newEntry with count := newEntry.count + entry.count }) (k + 1)
    else t
  | _, _ => t

/-- `add_system_zone`. -/
def addSystemZone (sbi : SbInfo) (startBlk count : Nat) : SbInfo :=
  let added := addSystemZoneEntry sbi.systemBlks startBlk count
  let merged := mergeLeft added.1 added.2
  { sbi with systemBlks := mergeRight merged.1 merged.2 }

/-- A sequence of `add_system_zone` calls, as `ext4bf_setup_system_zone` makes them. -/
def addSystemZones (sbi : SbInfo) (ranges : List (Nat × Nat)) : SbInfo :=
  ranges.foldl (fun sbi r => addSystemZone sbi r.1 r.2) sbi

@[simp] theorem addSystemZone_sFirstDataBlock (sbi : SbInfo) (startBlk count : Nat) :
    (addSystemZone sbi startBlk count).sFirstDataBlock = sbi.sFirstDataBlock := rfl

@[simp] theorem addSystemZone_blocksCount (sbi : SbInfo) (startBlk count : Nat) :
    (addSystemZone sbi startBlk count).blocksCount = sbi.blocksCount := rfl

@[simp] theorem addSystemZones_nil (sbi : SbInfo) : addSystemZones sbi [] = sbi := rfl

@[simp] theorem addSystemZones_cons (sbi : SbInfo) (r : Nat × Nat) (ranges : List (Nat × Nat)) :
    addSystemZones sbi (r :: ranges) = addSystemZones (addSystemZone sbi r.1 r.2) ranges := rfl

/-- The descent of `ext4bf_data_block_valid`: left at a zone starting after the range, right
at a zone ending at or before it, and `false` at a zone meeting it. -/
def systemZoneSearch (startBlk count : Nat) : RbNode SystemZone → Bool
  | .nil => true
  | .node _ l e r =>
    if startBlk + count - 1 < e.startBlk then systemZoneSearch startBlk count l
    else if startBlk ≥ e.startBlk + e.count then systemZoneSearch startBlk count r
    else false

/-- `ext4bf_data_block_valid`, with `start_blk + count` taken modulo `2 ^ 64` as the
`ext4bf_fsblk_t` sum is. -/
def ext4bfDataBlockValid (sbi : SbInfo) (startBlk count : Nat) : Bool :=
  if startBlk ≤ sbi.sFirstDataBlock ∨ (startBlk + count) % 2 ^ 64 < startBlk ∨
      (startBlk + count) % 2 ^ 64 > sbi.blocksCount then false
  else systemZoneSearch startBlk count sbi.systemBlks

/-! ## Two additions that leave overlapping zones -/

section Overlap

variable (sbi : SbInfo)

/-- A first zone in an empty tree is a black root. -/
theorem addSystemZone_empty (hempty : sbi.systemBlks = .nil) (startBlk count : Nat) :
    (addSystemZone sbi startBlk count).systemBlks = .node .black .nil ⟨startBlk, count⟩ .nil := by
  have hwalk : systemZoneWalk startBlk sbi.systemBlks [] = .hole [] := by
    rw [hempty]
    rfl
  simp only [addSystemZone, addSystemZoneEntry, hwalk]
  rfl

/-- A zone that starts before the root zone of a one-zone tree, and does not end where the
root starts, becomes the root's red left child, with no merge. -/
theorem addSystemZone_below_root {z : SystemZone}
    (hroot : sbi.systemBlks = .node .black .nil z .nil) {startBlk count : Nat}
    (hs : startBlk < z.startBlk) (hgap : startBlk + count ≠ z.startBlk) :
    (addSystemZone sbi startBlk count).systemBlks =
      .node .black (.node .red .nil ⟨startBlk, count⟩ .nil) z .nil := by
  have hwalk : systemZoneWalk startBlk sbi.systemBlks [] = .hole [.left .black z .nil] := by
    rw [hroot, systemZoneWalk, if_pos hs]
    rfl
  have hlink : linkNode ⟨startBlk, count⟩ [.left .black z .nil] =
      .node .black (.node .red .nil ⟨startBlk, count⟩ .nil) z .nil := rfl
  -- the new entry sits at index 0: nothing to its left, and its right neighbour is apart
  have hnomerge : canMerge ⟨startBlk, count⟩ z = false := by
    simp [canMerge, hgap]
  simp only [addSystemZone, addSystemZoneEntry, hwalk, hlink, pathBefore_cons, pathBefore_nil,
    Frame.before_left, List.append_nil, List.length_nil, mergeLeft]
  rw [mergeRight, getAt_eq, getAt_eq]
  simp [hnomerge]

/-- The descent turns right at a zone ending at or before the range, whatever lies below it on
the left. -/
theorem systemZoneSearch_right_of {startBlk count : Nat} {c : Color} {l : RbNode SystemZone}
    {z : SystemZone} (hcount : 1 ≤ count) (hz : z.startBlk + z.count ≤ startBlk) :
    systemZoneSearch startBlk count (.node c l z .nil) = true := by
  rw [systemZoneSearch, if_neg (by omega), if_pos hz]
  rfl

/-- Adding `[s₁, s₁ + c₁)` and then `[s₂, s₂ + c₂)`, which starts before the first range and
ends after it, leaves both zones, overlapping, in the tree; a range starting at or after the
first zone's end but inside the second zone is then accepted. -/
theorem ext4bfDataBlockValid_misses_added_range (s₁ c₁ s₂ c₂ startBlk count : Nat)
    (hempty : sbi.systemBlks = .nil) (hs : s₂ < s₁) (hafter : s₁ + c₁ ≤ startBlk)
    (hinside : startBlk < s₂ + c₂) (hcount : 1 ≤ count) (hfirst : sbi.sFirstDataBlock < startBlk)
    (hend : startBlk + count ≤ sbi.blocksCount) (hbig : sbi.blocksCount < 2 ^ 64) :
    (addSystemZones sbi [(s₁, c₁), (s₂, c₂)]).systemBlks.inorder = [⟨s₂, c₂⟩, ⟨s₁, c₁⟩] ∧
      ext4bfDataBlockValid (addSystemZones sbi [(s₁, c₁), (s₂, c₂)]) startBlk count = true := by
  have hone := addSystemZone_empty sbi hempty s₁ c₁
  have hgap : s₂ + c₂ ≠ (⟨s₁, c₁⟩ : SystemZone).startBlk := by
    show s₂ + c₂ ≠ s₁
    omega
  have htwo := addSystemZone_below_root (addSystemZone sbi s₁ c₁) hone hs hgap
  have hadd : addSystemZones sbi [(s₁, c₁), (s₂, c₂)] =
      addSystemZone (addSystemZone sbi s₁ c₁) s₂ c₂ := rfl
  refine ⟨by rw [hadd, htwo]; rfl, ?_⟩
  -- the range passes the bounds tests, and the descent goes right at the first zone
  have hnowrap : (startBlk + count) % 2 ^ 64 = startBlk + count := Nat.mod_eq_of_lt (by omega)
  have hbounds : ¬ (startBlk ≤ (addSystemZones sbi [(s₁, c₁), (s₂, c₂)]).sFirstDataBlock ∨
      (startBlk + count) % 2 ^ 64 < startBlk ∨
      (startBlk + count) % 2 ^ 64 > (addSystemZones sbi [(s₁, c₁), (s₂, c₂)]).blocksCount) := by
    rw [hnowrap, hadd, addSystemZone_sFirstDataBlock, addSystemZone_sFirstDataBlock,
      addSystemZone_blocksCount, addSystemZone_blocksCount]
    omega
  rw [ext4bfDataBlockValid, if_neg hbounds, hadd, htwo]
  exact systemZoneSearch_right_of hcount hafter

end Overlap

/-- A 100-block file system with no zones yet. -/
def emptyZonesSbInfo : SbInfo := ⟨0, 100, .nil⟩

theorem ext4bfDataBlockValid_misses_added_range_small :
    emptyZonesSbInfo.systemBlks = .nil ∧ 5 < 10 ∧ 10 + 10 ≤ 25 ∧ 25 < 5 + 25 ∧ 1 ≤ 1 ∧
      emptyZonesSbInfo.sFirstDataBlock < 25 ∧ 25 + 1 ≤ emptyZonesSbInfo.blocksCount ∧
      emptyZonesSbInfo.blocksCount < 2 ^ 64 ∧
      ((addSystemZones emptyZonesSbInfo [(10, 10), (5, 25)]).systemBlks.inorder =
          [⟨5, 25⟩, ⟨10, 10⟩] ∧
        ext4bfDataBlockValid (addSystemZones emptyZonesSbInfo [(10, 10), (5, 25)]) 25 1 = true) :=
  ⟨rfl, by decide, by decide, by decide, le_rfl, by decide, by decide, by decide,
    ext4bfDataBlockValid_misses_added_range emptyZonesSbInfo 10 10 5 25 25 1 rfl (by decide)
      (by decide) (by decide) le_rfl (by decide) (by decide) (by decide)⟩

/-! ## Searching sorted zones -/

/-- Each zone of the list ends at or before every later one starts. -/
def ZonesSorted (zs : List SystemZone) : Prop :=
  zs.Pairwise fun a b => a.startBlk + a.count ≤ b.startBlk

/-- The zone and the range `[startBlk, startBlk + count)` share a block. -/
def Meets (startBlk count : Nat) (z : SystemZone) : Prop :=
  startBlk < z.startBlk + z.count ∧ z.startBlk < startBlk + count

instance (startBlk count : Nat) (z : SystemZone) : Decidable (Meets startBlk count z) :=
  inferInstanceAs (Decidable (_ ∧ _))

theorem zonesSorted_node {c : Color} {l : RbNode SystemZone} {e : SystemZone}
    {r : RbNode SystemZone} (h : ZonesSorted (node c l e r).inorder) :
    ZonesSorted l.inorder ∧ ZonesSorted r.inorder ∧
      (∀ a ∈ l.inorder, a.startBlk + a.count ≤ e.startBlk) ∧
      (∀ b ∈ r.inorder, e.startBlk + e.count ≤ b.startBlk) := by
  unfold ZonesSorted at h ⊢
  rw [inorder_node, List.pairwise_append, List.pairwise_cons] at h
  obtain ⟨hl, ⟨he, hr⟩, hlr⟩ := h
  exact ⟨hl, hr, fun a ha => hlr a ha e List.mem_cons_self, he⟩

/-- On a tree whose zones are sorted in tree order, the descent of
`ext4bf_data_block_valid` accepts a non-empty range exactly when no zone meets it: a zone the
descent passes on one side has all the zones on that side beyond it. -/
theorem systemZoneSearch_iff {startBlk count : Nat} (hcount : 1 ≤ count) :
    ∀ {t : RbNode SystemZone}, ZonesSorted t.inorder →
      (systemZoneSearch startBlk count t = true ↔ ∀ z ∈ t.inorder, ¬ Meets startBlk count z) := by
  intro t
  induction t with
  | nil => simp [systemZoneSearch]
  | node c l e r ihl ihr =>
    intro hsorted
    obtain ⟨hl, hr, hle, hre⟩ := zonesSorted_node hsorted
    simp only [systemZoneSearch, inorder_node, List.mem_append, List.mem_cons]
    by_cases hleft : startBlk + count - 1 < e.startBlk
    · -- the range ends before `e`, so before every zone right of it
      rw [if_pos hleft, ihl hl]
      constructor
      · rintro hnone z (hz | rfl | hz)
        · exact hnone z hz
        · exact fun hm => by unfold Meets at hm; omega
        · have := hre z hz
          exact fun hm => by unfold Meets at hm; omega
      · exact fun hall z hz => hall z (Or.inl hz)
    · rw [if_neg hleft]
      by_cases hright : startBlk ≥ e.startBlk + e.count
      · -- the range starts after `e`, so after every zone left of it
        rw [if_pos hright, ihr hr]
        constructor
        · rintro hnone z (hz | rfl | hz)
          · have := hle z hz
            exact fun hm => by unfold Meets at hm; omega
          · exact fun hm => by unfold Meets at hm; omega
          · exact hnone z hz
        · exact fun hall z hz => hall z (Or.inr (Or.inr hz))
      · -- `e` meets the range
        rw [if_neg hright]
        simp only [Bool.false_eq_true, false_iff, not_forall, not_not]
        exact ⟨e, Or.inr (Or.inl rfl), by unfold Meets; omega⟩

/-- On sorted zones, `ext4bf_data_block_valid` accepts a non-empty range of `u64` blocks exactly
when it starts after `s_first_data_block`, its end neither overflows nor passes the block
count, and no zone meets it. -/
theorem ext4bfDataBlockValid_iff (sbi : SbInfo) (hsorted : ZonesSorted sbi.systemBlks.inorder)
    {startBlk count : Nat} (hcount : 1 ≤ count) (hstart : startBlk < 2 ^ 64)
    (hcount64 : count < 2 ^ 64) :
    ext4bfDataBlockValid sbi startBlk count = true ↔
      sbi.sFirstDataBlock < startBlk ∧ startBlk + count < 2 ^ 64 ∧
        startBlk + count ≤ sbi.blocksCount ∧
        ∀ z ∈ sbi.systemBlks.inorder, ¬ Meets startBlk count z := by
  rw [ext4bfDataBlockValid]
  by_cases hwrap : startBlk + count < 2 ^ 64
  · rw [Nat.mod_eq_of_lt hwrap]
    split
    · simp only [Bool.false_eq_true, false_iff]
      omega
    · rw [systemZoneSearch_iff hcount hsorted]
      constructor
      · exact fun h => ⟨by omega, hwrap, by omega, h⟩
      · exact fun h => h.2.2.2
  · -- the sum wraps below the start
    have hmod : (startBlk + count) % 2 ^ 64 = startBlk + count - 2 ^ 64 := by
      rw [Nat.mod_eq_sub_mod (by omega), Nat.mod_eq_of_lt (by omega)]
    rw [if_pos (Or.inr (Or.inl (by omega)))]
    simp only [Bool.false_eq_true, false_iff]
    omega

/-! ## The blocks the zones cover -/

/-- Some zone of the list holds block `b`. -/
abbrev ZonesCover (zs : List SystemZone) (b : Nat) : Prop :=
  Lib.Cover.Covered SystemZone.startBlk SystemZone.count zs b

/-- A walk of `add_system_zone` that stops at a node stops at one holding the new start, and
rebuilding the tree from there gives back the tree it walked. -/
theorem systemZoneWalk_entry {startBlk : Nat} {c : Color} {l r : RbNode SystemZone}
    {e : SystemZone} {p : List (Frame SystemZone)} :
    ∀ {t : RbNode SystemZone} {path : List (Frame SystemZone)},
      systemZoneWalk startBlk t path = .entry c l e r p →
        plugPath (.node c l e r) p = plugPath t path ∧
          e.startBlk ≤ startBlk ∧ startBlk < e.startBlk + e.count := by
  intro t
  induction t with
  | nil =>
    intro path h
    cases h
  | node c' l' e' r' ihl ihr =>
    intro path h
    rw [systemZoneWalk] at h
    split_ifs at h with hlt hge
    · exact ihl h
    · exact ihr h
    · cases h
      exact ⟨rfl, by omega, by omega⟩

/-- A walk of `add_system_zone` that ends at a hole leaves the tree it walked around the hole. -/
theorem systemZoneWalk_hole {startBlk : Nat} {p : List (Frame SystemZone)} :
    ∀ {t : RbNode SystemZone} {path : List (Frame SystemZone)},
      systemZoneWalk startBlk t path = .hole p → plugPath .nil p = plugPath t path := by
  intro t
  induction t with
  | nil =>
    intro path h
    cases h
    rfl
  | node c' l' e' r' ihl ihr =>
    intro path h
    rw [systemZoneWalk] at h
    split_ifs at h with hlt hge
    · exact ihl h
    · exact ihr h

section Cover

open Lib.Cover

/-- Stretching a zone that holds the new start to the end of the new range adds the range's
blocks to it. -/
theorem holds_stretch {e : SystemZone} {startBlk count : Nat}
    (he : e.startBlk ≤ startBlk ∧ startBlk < e.startBlk + e.count) (b : Nat) :
    Holds SystemZone.startBlk SystemZone.count
        (if startBlk + count > e.startBlk + e.count then
          { e with count := startBlk + count - e.startBlk } else e) b ↔
      Holds SystemZone.startBlk SystemZone.count e b ∨ (startBlk ≤ b ∧ b < startBlk + count) := by
  unfold Holds
  split
  · -- the zone now ends where the range does
    dsimp only
    omega
  · omega

/-- The first part of `add_system_zone` covers the blocks the tree covered and those of the new
range. -/
theorem covered_addSystemZoneEntry (root : RbNode SystemZone) (startBlk count b : Nat) :
    ZonesCover (addSystemZoneEntry root startBlk count).1.inorder b ↔
      ZonesCover root.inorder b ∨ (startBlk ≤ b ∧ b < startBlk + count) := by
  rcases hwalk : systemZoneWalk startBlk root [] with ⟨c, l, e, r, path⟩ | path
  · -- the zone the walk stopped at is the only one that changes
    obtain ⟨hplug, hholds⟩ := systemZoneWalk_entry hwalk
    have hroot : root.inorder = (plugPath (.node c l e r) path).inorder := by
      rw [hplug, plugPath_nil]
    simp only [ZonesCover, addSystemZoneEntry, hwalk, hroot, inorder_plugPath, inorder_node,
      covered_append, covered_cons, holds_stretch hholds]
    tauto
  · -- the new zone goes in at the hole, between the zones before and after it
    have hroot : root.inorder = (plugPath .nil path).inorder := by
      rw [systemZoneWalk_hole hwalk, plugPath_nil]
    simp only [ZonesCover, addSystemZoneEntry, hwalk, hroot, inorder_plugPath, inorder_linkNode,
      inorder_nil, covered_append, covered_cons, covered_nil, or_false]
    unfold Holds
    tauto

/-- Merging to the left keeps the covered blocks, whichever index the entry has. -/
theorem covered_mergeLeft (t : RbNode SystemZone) (k b : Nat) :
    ZonesCover (mergeLeft t k).1.inorder b ↔ ZonesCover t.inorder b := by
  cases k with
  | zero => rfl
  | succ k =>
    rw [mergeLeft]
    split
    · rename_i entry newEntry ha hb
      split_ifs with hmerge
      · -- the entry absorbs its predecessor, which ends where it starts
        simp only [canMerge, beq_iff_eq] at hmerge
        apply covered_eraseAt_setAt_succ ha hb
        exact holds_merged hmerge rfl (Nat.add_comm _ _)
      · rfl
    · rfl

/-- Merging to the right keeps the covered blocks, whichever index the entry has. -/
theorem covered_mergeRight (t : RbNode SystemZone) (k b : Nat) :
    ZonesCover (mergeRight t k).inorder b ↔ ZonesCover t.inorder b := by
  rw [mergeRight]
  split
  · rename_i newEntry entry ha hb
    split_ifs with hmerge
    · -- the entry absorbs its successor, which starts where it ends
      simp only [canMerge, beq_iff_eq] at hmerge
      apply covered_eraseAt_succ_setAt ha hb
      exact holds_merged hmerge rfl rfl
    · rfl
  · rfl

end Cover

/-- `add_system_zone` covers the blocks the tree covered and those of the new range, no more
and no fewer. -/
theorem addSystemZone_covered (sbi : SbInfo) (startBlk count b : Nat) :
    ZonesCover (addSystemZone sbi startBlk count).systemBlks.inorder b ↔
      ZonesCover sbi.systemBlks.inorder b ∨ (startBlk ≤ b ∧ b < startBlk + count) := by
  rw [addSystemZone, covered_mergeRight, covered_mergeLeft, covered_addSystemZoneEntry]

example : ZonesCover (addSystemZones emptyZonesSbInfo [(10, 10), (5, 25)]).systemBlks.inorder 29 ∧
    ¬ ZonesCover (addSystemZones emptyZonesSbInfo [(10, 10), (5, 25)]).systemBlks.inorder 30 := by
  decide

end OptFs.Ext4
