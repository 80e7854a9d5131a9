import OptFs.Lib.CombSort

/-!
# Splitting a directory leaf (`namei.c`)

`do_split` makes room in a full leaf of an indexed directory. `dx_make_map` records the hash,
offset and size of each live entry at the end of the new block, `dx_sort_map` sorts the
records by hash, and a loop from the highest hash down chooses the entries to move, about
half of the block by size. `dx_move_dirents` copies them to the new block and
`dx_pack_dirents` compacts what stays; the last entry of each block is stretched to the end
of its block, and `dx_insert_block` enters the new block in the index after the frame's
entry, under `hash2 + continued`.

The leaf is the chain of its entries, each with the fields the code reads (`rec_len` as
`ext4bf_rec_len_from_disk` reads it below 64K pages); offsets are the sums of the `rec_len`s
before an entry. The name hash `ext4bffs_dirhash` under the caller's `hinfo` is a parameter;
the new block (`ext4bf_append`) and the journal calls are taken to succeed.

`ext4bf_dx_add_entry` splits a leaf when the slot search of `add_dirent_to_buf`
(`addDirentSlot`) answers `-ENOSPC`; on a leaf whose entries pass the checks and do not hold
the name, that is exactly when no entry has room (`addDirentSlot_spec`).

The result: `do_split` reads `map[split - 1]` before the map whenever every live entry is
moved, which happens as soon as the live entries take at most half of the block
(`doSplit_reads_before_map`); `split` is `unsigned`, so `split - 1` is `2 ^ 32 - 1`. A full
leaf does so (`doSplit_fullLeaf`).
-/

namespace OptFs.Namei

open Lib.CombSort

/-- `struct ext4bf_dir_entry_2`. -/
structure DirEntry where
  inode : Nat
  recLen : Nat
  nameLen : Nat
  fileType : Nat
  name : List UInt8
deriving DecidableEq, Repr

/-- `EXT4_DIR_REC_LEN(name_len)`: the name and the 8 header bytes, rounded up to 4. -/
def ext4DirRecLen (nameLen : Nat) : Nat := (nameLen + 8 + 3) / 4 * 4

/-- `de->name_len && de->inode`. -/
def DirEntry.live (de : DirEntry) : Bool := de.nameLen != 0 && de.inode != 0

/-- `__ext4bf_check_dir_entry` for the entry at `offset`: its error message, or none. -/
def ext4bfCheckDirEntry (blocksize inodesCount : Nat) (de : DirEntry) (offset : Nat) :
    Option String :=
  let rlen := de.recLen
  if rlen < ext4DirRecLen 1 then some "rec_len is smaller than minimal"
  else if rlen % 4 ≠ 0 then some "rec_len % 4 != 0"
  else if rlen < ext4DirRecLen de.nameLen then some "rec_len is too small for name_len"
  else if offset + rlen > blocksize then some "directory entry across blocks"
  else if de.inode > inodesCount then some "inode out of bounds"
  else none

/-- Every entry of the chain from `offset` passes `__ext4bf_check_dir_entry`, and the chain
ends at the end of the block. -/
def leafChecks (blocksize inodesCount : Nat) : Nat → List DirEntry → Bool
  | offset, [] => offset == blocksize
  | offset, de :: des => (ext4bfCheckDirEntry blocksize inodesCount de offset).isNone &&
      leafChecks blocksize inodesCount (offset + de.recLen) des

/-- `ext4bf_match`: a live entry with the name. -/
def ext4bfMatch (name : List UInt8) (de : DirEntry) : Bool :=
  name.length == de.nameLen && de.inode != 0 && de.name.take name.length == name

/-- The errors of the slot search of `add_dirent_to_buf`: `-EIO`, `-EEXIST` and `-ENOSPC`. -/
inductive AddDirentError where
  | eio
  | eexist
  | enospc
deriving DecidableEq, Repr

/-- The slot search of `add_dirent_to_buf` from the entry at `offset`, for a name the caller
did not find: the offset of the first entry with `EXT4_DIR_REC_LEN(namelen)` free bytes (all of
a deleted entry, those past the name of a live one). It stops with `-ENOSPC` past
`top = blocksize - reclen`; `ext4bf_dx_add_entry` splits the leaf on `-ENOSPC`. -/
def addDirentSlot (blocksize inodesCount : Nat) (name : List UInt8) :
    Nat → List DirEntry → Except AddDirentError Nat
  | _, [] => .error .enospc
  | offset, de :: des =>
    let reclen := ext4DirRecLen name.length
    if offset + reclen > blocksize then .error .enospc
    else if (ext4bfCheckDirEntry blocksize inodesCount de offset).isSome then .error .eio
    else if ext4bfMatch name de then .error .eexist
    else
      let nlen := ext4DirRecLen de.nameLen
      let rlen := de.recLen
      if (if de.inode ≠ 0 then rlen - nlen else rlen) ≥ reclen then .ok offset
      else addDirentSlot blocksize inodesCount name (offset + rlen) des

/-- The entries of the chain with their offsets, from `offset`. -/
def withOffsets : Nat → List DirEntry → List (Nat × DirEntry)
  | _, [] => []
  | offset, de :: des => (offset, de) :: withOffsets (offset + de.recLen) des

theorem le_of_mem_withOffsets {offset : Nat} {des : List DirEntry} {p : Nat × DirEntry}
    (hp : p ∈ withOffsets offset des) : offset ≤ p.1 := by
  induction des generalizing offset with
  | nil => simp [withOffsets] at hp
  | cons de des ih =>
    rcases List.mem_cons.mp hp with rfl | hp
    · exact Nat.le_refl _
    · exact Nat.le_of_add_right_le (ih hp)

/-- An entry at its offset has room for a name of `len` bytes: it lies at or before `top`, and
has `EXT4_DIR_REC_LEN(len)` bytes free. -/
def HasRoom (blocksize len : Nat) (p : Nat × DirEntry) : Bool :=
  decide (p.1 + ext4DirRecLen len ≤ blocksize) &&
    decide (ext4DirRecLen len ≤
      if p.2.inode ≠ 0 then p.2.recLen - ext4DirRecLen p.2.nameLen else p.2.recLen)

/-- On a leaf whose entries pass the checks and do not hold the name, the slot search of
`add_dirent_to_buf` finds the first entry with room, and answers `-ENOSPC`, so that
`ext4bf_dx_add_entry` splits the leaf, exactly when no entry has room. -/
theorem addDirentSlot_spec {blocksize inodesCount : Nat} {name : List UInt8}
    {leaf : List DirEntry} {offset : Nat} (h : leafChecks blocksize inodesCount offset leaf = true)
    (hname : ∀ de ∈ leaf, ext4bfMatch name de = false) :
    addDirentSlot blocksize inodesCount name offset leaf =
      ((withOffsets offset leaf).find? (HasRoom blocksize name.length)).elim (.error .enospc)
        fun p => .ok p.1 := by
  induction leaf generalizing offset with
  | nil => rfl
  | cons de des ih =>
    simp only [leafChecks, Bool.and_eq_true] at h
    obtain ⟨hde, hdes⟩ := h
    have hcheck : (ext4bfCheckDirEntry blocksize inodesCount de offset).isSome = false := by
      simpa using hde
    have hrest := ih hdes fun d hd => hname d (List.mem_cons_of_mem _ hd)
    unfold addDirentSlot
    rw [withOffsets, List.find?_cons]
    simp only [hcheck, hname de List.mem_cons_self, Bool.false_eq_true, if_false]
    by_cases htop : offset + ext4DirRecLen name.length > blocksize
    · -- past `top`: neither this entry nor a later one, which lies further on, has room
      have hthis : HasRoom blocksize name.length (offset, de) = false := by
        simp only [HasRoom, Bool.and_eq_false_iff, decide_eq_false_iff_not]
        exact .inl (by omega)
      have hnone : (withOffsets (offset + de.recLen) des).find? (HasRoom blocksize name.length) =
          none := by
        rw [List.find?_eq_none]
        intro p hp
        have hle := le_of_mem_withOffsets hp
        simp only [HasRoom, Bool.and_eq_true, decide_eq_true_eq, not_and]
        intro hp'
        omega
      rw [if_pos htop, hthis, hnone]
      rfl
    · -- at or before `top`: this entry if it has room, else the search goes on
      rw [if_neg htop]
      by_cases hroom : ext4DirRecLen name.length ≤
          if de.inode ≠ 0 then de.recLen - ext4DirRecLen de.nameLen else de.recLen
      · have hthis : HasRoom blocksize name.length (offset, de) = true := by
          simp only [HasRoom, Bool.and_eq_true, decide_eq_true_eq]
          exact ⟨by omega, hroom⟩
        rw [hthis, if_pos hroom]
        rfl
      · have hthis : HasRoom blocksize name.length (offset, de) = false := by
          simp only [HasRoom, Bool.and_eq_false_iff, decide_eq_false_iff_not]
          exact .inr hroom
        rw [hthis, if_neg hroom]
        exact hrest

/-- A full 1 KiB leaf: three deleted entries of 252 bytes and a live entry of 268 bytes with
the name "a", 256 bytes free past it. -/
def fullLeaf : List DirEntry :=
  [⟨0, 252, 0, 0, []⟩, ⟨0, 252, 0, 0, []⟩, ⟨0, 252, 0, 0, []⟩, ⟨12, 268, 1, 1, [97]⟩]

/-- A name of 255 bytes, the longest an entry holds; it needs 264 bytes. -/
def longName : List UInt8 := List.replicate 255 98

/-- The search for `longName` in `fullLeaf`, which holds no entry of that name. -/
theorem addDirentSlot_spec_fullLeaf :
    leafChecks 1024 16 0 fullLeaf = true ∧ (∀ de ∈ fullLeaf, ext4bfMatch longName de = false) ∧
      addDirentSlot 1024 16 longName 0 fullLeaf =
        ((withOffsets 0 fullLeaf).find? (HasRoom 1024 longName.length)).elim (.error .enospc)
          fun p => .ok p.1 := by
  have hleaf : leafChecks 1024 16 0 fullLeaf = true := by decide
  have hname : ∀ de ∈ fullLeaf, ext4bfMatch longName de = false := by decide +kernel
  exact ⟨hleaf, hname, addDirentSlot_spec hleaf hname⟩

/-- `struct dx_map_entry`. -/
structure DxMapEntry where
  hash : UInt32
  offs : Nat
  size : Nat
deriving DecidableEq, Repr

/-- `dx_make_map` from the entry at `offset`: a record for each live entry, each new one in
front of those before it, as `map_tail` runs down from the end of the block. -/
def dxMakeMap (dirhash : List UInt8 → UInt32) : Nat → List DirEntry → List DxMapEntry →
    List DxMapEntry
  | _, [], mapTail => mapTail
  | offset, de :: des, mapTail =>
    let mapTail := if de.live then ⟨dirhash (de.name.take de.nameLen), offset / 4, de.recLen⟩ :: mapTail
      else mapTail
    dxMakeMap dirhash (offset + de.recLen) des mapTail

/-- The key `dx_sort_map` compares, `hash` as an unsigned number. -/
def DxMapEntry.key (e : DxMapEntry) : Nat := e.hash.toNat

/-- `count = count*10/13; if (count - 9 < 2) count = 11;` in `unsigned` arithmetic. -/
def dxCombGap (count : Nat) : Nat :=
  let count := count * 10 % 2 ^ 32 / 13
  if (count + 2 ^ 32 - 9) % 2 ^ 32 < 2 then 11 else count

theorem dxCombGap_lt {count : Nat} (h : count > 2) : dxCombGap count < count := by
  unfold dxCombGap
  simp only [Nat.reducePow]
  -- the new gap is at most `count * 10 / 13`, and it is 9 or 10 when it is replaced by 11
  have hle : count * 10 % 4294967296 / 13 ≤ count * 10 / 13 :=
    Nat.div_le_div_right (Nat.mod_le _ _)
  generalize count * 10 % 4294967296 / 13 = gap at hle ⊢
  split <;> omega

/-- The comb phase of `dx_sort_map`: `while (count > 2)`, a gap pass with the next gap from
`top` down. -/
def dxCombLoop (map : List DxMapEntry) (count : Nat) : List DxMapEntry :=
  if count > 2 then
    dxCombLoop (gapPass DxMapEntry.key (dxCombGap count) (map.length - dxCombGap count) map)
      (dxCombGap count)
  else map
termination_by count
decreasing_by exact dxCombGap_lt (by assumption)

/-- `dx_sort_map`: the comb phase, then bubble passes until one swaps nothing. They end within
`count + 1` passes (`bubbleLoop_sorts`), which is the fuel given. -/
def dxSortMap (map : List DxMapEntry) : Option (List DxMapEntry) :=
  bubbleLoop DxMapEntry.key (map.length + 1) (dxCombLoop map map.length)

/-- The loop `for (i = count-1; i >= 0; i--)` over the records from the last: a record is
moved unless more than half of it would lie past the middle of the block. -/
def splitMove (blocksize : Nat) : Nat → Nat → List DxMapEntry → Nat
  | _, move, [] => move
  | size, move, e :: es =>
    if size + e.size / 2 > blocksize / 2 then move
    else splitMove blocksize (size + e.size) (move + 1) es

/-- `dx_move_dirents(from, to, map, count)`: the entry of each record, in map order, with its
least `rec_len`, for the new block; and the old block with the inodes of those entries
cleared. -/
def dxMoveDirents (leaf : List DirEntry) (records : List DxMapEntry) :
    List DirEntry × List DirEntry :=
  let moved := records.filterMap fun e =>
    ((withOffsets 0 leaf).find? (·.1 == e.offs * 4)).map fun p =>
      { p.2 with recLen := ext4DirRecLen p.2.nameLen }
  let leaf := (withOffsets 0 leaf).map fun p =>
    if records.any (·.offs * 4 == p.1) then { p.2 with inode := 0 } else p.2
  (moved, leaf)

/-- `dx_pack_dirents`: the live entries with their least `rec_len`, in order; when none is
left, the entry at the start of the block (`prev = to = base`). -/
def dxPackDirents (leaf : List DirEntry) : List DirEntry :=
  match (leaf.filter DirEntry.live).map fun de => { de with recLen := ext4DirRecLen de.nameLen } with
  | [] => leaf.take 1
  | packed => packed

/-- `de->rec_len = data + blocksize - (char *) de` for the last entry `de` of a chain. -/
def stretchLast (blocksize : Nat) (des : List DirEntry) : List DirEntry :=
  match des.getLast? with
  | none => des
  | some last =>
    des.dropLast ++ [{ last with recLen := blocksize - (des.dropLast.map DirEntry.recLen).sum }]

/-- `struct dx_entry`. -/
structure DxEntry where
  hash : UInt32
  block : Nat
deriving DecidableEq, Repr

/-- The index block of a `struct dx_frame`: its entries (`dx_get_count` of them), their
limit, and the position of `frame->at`. -/
structure DxFrame where
  entries : List DxEntry
  limit : Nat
  atEntry : Nat
deriving DecidableEq, Repr

/-- What goes wrong in `do_split`. -/
inductive DoSplitError
  /-- a read of `map[index]` past the `count` records -/
  | mapRead (index : Nat)
  /-- the bubble passes out of fuel (`dxSortMap_spec`: never) -/
  | sortFuel
  /-- an `assert` of `dx_insert_block` -/
  | insertAssert
deriving DecidableEq, Repr

/-- The two blocks, the split hash with its continuation bit, the index block, and whether
the new entry goes into the new block (`hinfo->hash >= hash2`). -/
structure DoSplitResult where
  block1 : List DirEntry
  block2 : List DirEntry
  hash2 : UInt32
  continued : UInt32
  frame : DxFrame
  intoNew : Bool

/-- `map[index]`. -/
def readMap (map : List DxMapEntry) (index : Nat) : Except DoSplitError DxMapEntry :=
  match map[index]? with
  | some e => .ok e
  | none => .error (.mapRead index)

/-- `dx_insert_block(frame, hash, block)`: the new entry goes in after `frame->at`. -/
def dxInsertBlock (frame : DxFrame) (hash : UInt32) (block : Nat) : Except DoSplitError DxFrame :=
  let count := frame.entries.length
  if count < frame.limit ∧ frame.atEntry < count then
    .ok { frame with entries := frame.entries.insertIdx (frame.atEntry + 1) ⟨hash, block⟩ }
  else .error .insertAssert

/-- `do_split` on the leaf `leaf`, for a new entry of hash `hinfoHash` and the new block
`newblock`. -/
def doSplit (dirhash : List UInt8 → UInt32) (blocksize : Nat) (hinfoHash : UInt32)
    (frame : DxFrame) (newblock : Nat) (leaf : List DirEntry) :
    Except DoSplitError DoSplitResult := do
  let map ← match dxSortMap (dxMakeMap dirhash 0 leaf []) with
    | some map => .ok map
    | none => .error .sortFuel
  let count := map.length
  let move := splitMove blocksize 0 0 map.reverse
  let split := count - move
  let hash2 := (← readMap map split).hash
  -- `map[split - 1]`, the index computed in `unsigned` arithmetic
  let continued : UInt32 :=
    if hash2 = (← readMap map ((split + 2 ^ 32 - 1) % 2 ^ 32)).hash then 1 else 0
  let (moved, leaf) := dxMoveDirents leaf (map.drop split)
  let block1 := stretchLast blocksize (dxPackDirents leaf)
  let block2 := stretchLast blocksize moved
  let frame ← dxInsertBlock frame (hash2 + continued) newblock
  pure ⟨block1, block2, hash2, continued, frame, hinfoHash ≥ hash2⟩

/-! ## The map -/

theorem dxMakeMap_length (dirhash : List UInt8 → UInt32) (offset : Nat) (leaf : List DirEntry)
    (mapTail : List DxMapEntry) :
    (dxMakeMap dirhash offset leaf mapTail).length =
      (leaf.filter DirEntry.live).length + mapTail.length := by
  induction leaf generalizing offset mapTail with
  | nil => simp [dxMakeMap]
  | cons de des ih =>
    rw [dxMakeMap, ih]
    cases hlive : de.live <;> simp [hlive]
    omega

theorem dxMakeMap_sizes (dirhash : List UInt8 → UInt32) (offset : Nat) (leaf : List DirEntry)
    (mapTail : List DxMapEntry) :
    ((dxMakeMap dirhash offset leaf mapTail).map DxMapEntry.size).sum =
      ((leaf.filter DirEntry.live).map DirEntry.recLen).sum + (mapTail.map DxMapEntry.size).sum := by
  induction leaf generalizing offset mapTail with
  | nil => simp [dxMakeMap]
  | cons de des ih =>
    rw [dxMakeMap, ih]
    cases hlive : de.live <;> simp [hlive]
    omega

theorem dxCombLoop_perm (map : List DxMapEntry) (count : Nat) : (dxCombLoop map count).Perm map := by
  -- induction on the gap, which every round makes smaller
  induction count using Nat.strong_induction_on generalizing map with
  | _ count ih =>
    rw [dxCombLoop]
    split
    · rename_i hcount
      exact (ih _ (dxCombGap_lt hcount) _).trans (gapPass_perm _ _ _ map)
    · exact List.Perm.refl map

/-- `dx_sort_map` ends, and sorts the map by hash. -/
theorem dxSortMap_spec (map : List DxMapEntry) :
    ∃ sorted, dxSortMap map = some sorted ∧ sorted.Perm map ∧ KeySorted DxMapEntry.key sorted := by
  have hperm := dxCombLoop_perm map map.length
  obtain ⟨sorted, hloop, hsperm, hsorted⟩ := bubbleLoop_sorts DxMapEntry.key (dxCombLoop map map.length)
  refine ⟨sorted, ?_, hsperm.trans hperm, hsorted⟩
  rw [hperm.length_eq] at hloop
  exact hloop

/-! ## The split point -/

/-- While the records seen, with the rest, stay within half of the block, every one is moved. -/
theorem splitMove_of_sum_le (blocksize : Nat) (size move : Nat) (records : List DxMapEntry)
    (h : size + (records.map DxMapEntry.size).sum ≤ blocksize / 2) :
    splitMove blocksize size move records = move + records.length := by
  induction records generalizing size move with
  | nil => rfl
  | cons e es ih =>
    simp only [List.map_cons, List.sum_cons] at h
    have hhalf : ¬size + e.size / 2 > blocksize / 2 := by omega
    rw [splitMove, if_neg hhalf, ih (size + e.size) (move + 1) (by omega)]
    simp only [List.length_cons]
    omega

theorem readMap_of_lt {map : List DxMapEntry} {index : Nat} (h : index < map.length) :
    readMap map index = .ok map[index] := by
  simp [readMap, List.getElem?_eq_getElem h]

theorem readMap_of_le {map : List DxMapEntry} {index : Nat} (h : map.length ≤ index) :
    readMap map index = .error (.mapRead index) := by
  simp [readMap, List.getElem?_eq_none h]

/-- An entry that passes `__ext4bf_check_dir_entry` is at least `EXT4_DIR_REC_LEN(1)` long. -/
theorem leafChecks_recLen {blocksize inodesCount offset : Nat} {leaf : List DirEntry}
    (h : leafChecks blocksize inodesCount offset leaf = true) :
    ∀ de ∈ leaf, ext4DirRecLen 1 ≤ de.recLen := by
  induction leaf generalizing offset with
  | nil => simp
  | cons de des ih =>
    simp only [leafChecks, Bool.and_eq_true, Option.isNone_iff_eq_none] at h
    obtain ⟨hde, hdes⟩ := h
    intro x hx
    rcases List.mem_cons.mp hx with rfl | hx
    · unfold ext4bfCheckDirEntry at hde
      by_contra hlt
      simp [Nat.lt_of_not_le hlt] at hde
    · exact ih hdes x hx

/-- When every live entry is moved, `do_split` reads `map[split - 1]` with `split = 0`: the
record before the map. That happens as soon as the live entries of a leaf take at most half
of the block, whatever the hashes. -/
theorem doSplit_reads_before_map (dirhash : List UInt8 → UInt32) {blocksize : Nat}
    (inodesCount : Nat) (hinfoHash : UInt32) (frame : DxFrame) (newblock : Nat)
    {leaf : List DirEntry} (hleaf : leafChecks blocksize inodesCount 0 leaf = true)
    (hbs : blocksize ≤ 65536) (hlive : ∃ de ∈ leaf, de.live = true)
    (hhalf : ((leaf.filter DirEntry.live).map DirEntry.recLen).sum ≤ blocksize / 2) :
    doSplit dirhash blocksize hinfoHash frame newblock leaf = .error (.mapRead (2 ^ 32 - 1)) := by
  obtain ⟨sorted, hsort, hperm, -⟩ := dxSortMap_spec (dxMakeMap dirhash 0 leaf [])
  -- the sorted map has one record per live entry, with their sizes
  have hlen : sorted.length = (leaf.filter DirEntry.live).length := by
    rw [hperm.length_eq, dxMakeMap_length]
    rfl
  have hsum : (sorted.reverse.map DxMapEntry.size).sum =
      ((leaf.filter DirEntry.live).map DirEntry.recLen).sum := by
    rw [List.map_reverse, List.sum_reverse, (hperm.map _).sum_eq, dxMakeMap_sizes]
    rfl
  have hpos : 0 < sorted.length := by
    obtain ⟨de, hde, hdelive⟩ := hlive
    rw [hlen]
    exact List.length_pos_of_mem (List.mem_filter.mpr ⟨hde, hdelive⟩)
  -- each live entry is at least 12 bytes long, so there are few of them
  have hsmall : sorted.length < 2 ^ 32 - 1 := by
    have hge : ∀ x ∈ (leaf.filter DirEntry.live).map DirEntry.recLen, ext4DirRecLen 1 ≤ x := by
      intro x hx
      obtain ⟨de, hde, rfl⟩ := List.mem_map.mp hx
      exact leafChecks_recLen hleaf de (List.mem_filter.mp hde).1
    have hcard := List.card_nsmul_le_sum _ _ hge
    rw [List.length_map, smul_eq_mul, ← hlen] at hcard
    have h12 : ext4DirRecLen 1 = 12 := rfl
    rw [h12] at hcard
    omega
  have hmove : splitMove blocksize 0 0 sorted.reverse = sorted.length := by
    rw [splitMove_of_sum_le blocksize 0 0 sorted.reverse (by omega), List.length_reverse]
    omega
  have hindex : (sorted.length - sorted.length + 2 ^ 32 - 1) % 2 ^ 32 = 2 ^ 32 - 1 := by
    rw [Nat.sub_self]
    rfl
  simp only [doSplit, hsort, hmove, readMap_of_lt (Nat.sub_self sorted.length ▸ hpos), hindex,
    readMap_of_le (Nat.le_of_lt hsmall), bind, Except.bind]

/-- Adding `longName` to `fullLeaf` finds no room, so `ext4bf_dx_add_entry` splits it, and
`do_split` reads before the map. -/
theorem doSplit_fullLeaf :
    leafChecks 1024 16 0 fullLeaf = true ∧ 1024 ≤ 65536 ∧ (∃ de ∈ fullLeaf, de.live = true) ∧
      ((fullLeaf.filter DirEntry.live).map DirEntry.recLen).sum ≤ 1024 / 2 ∧
      addDirentSlot 1024 16 longName 0 fullLeaf = .error .enospc ∧
      doSplit (fun _ => 0) 1024 0 ⟨[⟨0, 1⟩], 2, 0⟩ 2 fullLeaf = .error (.mapRead (2 ^ 32 - 1)) :=
  have hleaf : leafChecks 1024 16 0 fullLeaf = true := by decide
  have hlive : ∃ de ∈ fullLeaf, de.live = true := ⟨⟨12, 268, 1, 1, [97]⟩, by simp [fullLeaf], rfl⟩
  have hhalf : ((fullLeaf.filter DirEntry.live).map DirEntry.recLen).sum ≤ 1024 / 2 := by decide
  ⟨hleaf, by decide, hlive, hhalf, by decide +kernel,
    doSplit_reads_before_map (fun _ => 0) 16 0 ⟨[⟨0, 1⟩], 2, 0⟩ 2 hleaf (by decide) hlive hhalf⟩

end OptFs.Namei
