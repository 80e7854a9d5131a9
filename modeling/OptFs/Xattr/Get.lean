import OptFs.Xattr.Region

/-!
# Reading attributes: getxattr and listxattr (`xattr.c`)

An inode keeps attributes in two regions: in the inode body, after `i_extra_isize`, when the
inode has `EXT4_STATE_XATTR`, with `s->base` at `IFIRST` and `s->end` at the end of the on-disk
inode; and in the attribute block `i_file_acl`, with `s->base` at `b_data`, the table at
`BFIRST` and `s->end` at `b_data + b_size`. The readers take them as `IbodyRead` and
`BlockRead`: what reading the inode or the block gives, errors included.

`ext4bf_xattr_get` asks the body and, when the body answers `-ENODATA`, the block;
`ext4bf_xattr_list` lists the names of the body and then those of the block into one buffer.
Both check a region before they read it (`ext4bf_xattr_check_names`,
`ext4bf_xattr_check_block`), and the get path checks the entry it found
(`ext4bf_xattr_check_entry`).

What they are for is stated as answers over the map a region holds (`XattrRegion.lookup`):
`getxattrAnswer` for the value of one name, `listxattrAnswer` for the names the handlers show.
`ext4bfXattrGet_answer` shows that on readable regions getxattr gives the answer for the
inode's attributes, the body's before the block's, and `ext4bfXattrList_answer` that
listxattr gives the body's names and then the block's, with `-ERANGE` exactly when a buffer is
given and they do not fit.

A region is readable (`XattrRegion.Readable`) when it is well formed and also every entry's
value offset lies in it: the check of a found entry tests the offset of an empty value too,
and a well-formed region leaves that offset free.
-/

namespace OptFs.Xattr

open Lib.ByteImage

/-- `ERANGE`. -/
def erange : Int := 34

/-- `EXT4_XATTR_MAGIC`. -/
def ext4XattrMagic : UInt32 := 0xEA020000

/-! ## The regions the readers find -/

/-- `ext4bf_xattr_check_names` from the entry at offset `entry`: `true` for `-EIO`, when the
entry after one starts at or past `end`. -/
def ext4bfXattrCheckNames (entry endOffs : Nat) : List XattrEntry → Bool
  | [] => false
  | e :: es =>
    let next := entry + ext4XattrLen e.eNameLen.toNat
    decide (endOffs ≤ next) || ext4bfXattrCheckNames next endOffs es

/-- An attribute block as `ext4bf_xattr_check_block` reads it: `h_magic`, `h_blocks` and the
region of the block. -/
structure XattrBlock where
  hMagic : UInt32
  hBlocks : UInt32
  region : XattrRegion

/-- `ext4bf_xattr_check_block`: `true` for `-EIO`. -/
def ext4bfXattrCheckBlock (b : XattrBlock) : Bool :=
  b.hMagic ≠ ext4XattrMagic || b.hBlocks ≠ 1 ||
    ext4bfXattrCheckNames b.region.first b.region.endOffs b.region.entries

/-- What reading the attribute block gives: no block (`i_file_acl` zero), a failed `sb_bread`,
or the block. -/
inductive BlockRead where
  | noBlock
  | readError
  | block (b : XattrBlock)

/-- What reading the attributes in the inode body gives: none (`EXT4_STATE_XATTR` clear), the
error of `ext4bf_get_inode_loc`, or the region from `IFIRST` to the end of the inode. -/
inductive IbodyRead where
  | noXattr
  | locError (error : Int)
  | body (r : XattrRegion)

/-! ## getxattr -/

/-- The tail `ext4bf_xattr_block_get` and `ext4bf_xattr_ibody_get` share once the region is
checked: find the entry in the `s->end - s->base` bytes, then answer its size, with its value
copied when there is a buffer and `-ERANGE` when the value does not fit. Returns the answer
and the bytes copied into the buffer. -/
def xattrGetEntry (r : XattrRegion) (nameIndex : UInt8) (name : List UInt8) (sorted : Bool)
    (buffer : Bool) (bufferSize : Nat) : Int × Option (List UInt8) :=
  let (error, here) := ext4bfXattrFindEntry r.entries nameIndex name r.endOffs sorted
  if error ≠ 0 then (error, none)
  else
    let entry := r.entries.getD here default
    let size := entry.eValueSize.toNat
    if buffer then
      if size > bufferSize then (-erange, none)
      else (size, some (readBytes r.img entry.eValueOffs.toNat size))
    else (size, none)

/-- `ext4bf_xattr_block_get`: a sorted search of a checked block. A block that cannot be read
answers `-ENODATA`, as no block does; `-EIO` of the search goes to `bad_block`, which answers
`-EIO`. -/
def ext4bfXattrBlockGet (block : BlockRead) (nameIndex : UInt8) (name : List UInt8)
    (buffer : Bool) (bufferSize : Nat) : Int × Option (List UInt8) :=
  match block with
  | .noBlock | .readError => (-enodata, none)
  | .block b =>
    if ext4bfXattrCheckBlock b then (-eio, none)
    else xattrGetEntry b.region nameIndex name true buffer bufferSize

/-- `ext4bf_xattr_ibody_get`: an unsorted search of the checked inode body. -/
def ext4bfXattrIbodyGet (ibody : IbodyRead) (nameIndex : UInt8) (name : List UInt8)
    (buffer : Bool) (bufferSize : Nat) : Int × Option (List UInt8) :=
  match ibody with
  | .noXattr => (-enodata, none)
  | .locError error => (error, none)
  | .body r =>
    if ext4bfXattrCheckNames r.first r.endOffs r.entries then (-eio, none)
    else xattrGetEntry r nameIndex name false buffer bufferSize

/-- `ext4bf_xattr_get`: the inode body, then the block when the body has no such attribute. -/
def ext4bfXattrGet (ibody : IbodyRead) (block : BlockRead) (nameIndex : UInt8)
    (name : List UInt8) (buffer : Bool) (bufferSize : Nat) : Int × Option (List UInt8) :=
  let res := ext4bfXattrIbodyGet ibody nameIndex name buffer bufferSize
  if res.1 = -enodata then ext4bfXattrBlockGet block nameIndex name buffer bufferSize else res

/-! ## listxattr -/

/-- The loop of `ext4bf_xattr_list_entries` over the entries, from `rest` bytes left in the
buffer and the bytes written so far. `handlerList` gives the bytes the `list` of an entry's
handler writes for its name (`none`: no handler); a handler writes them when there is a buffer
and they fit, and returns their count. With a buffer, a name that does not fit ends the loop,
`none` for `-ERANGE`; else the loop gives `rest` at the end of the table. `rest` is a `size_t`
that wraps when there is no buffer; as an integer it is `buffer_size` less the sizes, which is
what the `size_t` difference `buffer_size - rest` recovers. -/
def listEntriesLoop (handlerList : UInt8 → List UInt8 → Option (List UInt8)) (buffer : Bool) :
    List XattrEntry → Int → List UInt8 → Option Int × List UInt8
  | [], rest, out => (some rest, out)
  | e :: es, rest, out =>
    match handlerList e.eNameIndex e.eName with
    | none => listEntriesLoop handlerList buffer es rest out
    | some listed =>
      if buffer then
        if (listed.length : Int) > rest then (none, out)
        else listEntriesLoop handlerList buffer es (rest - listed.length) (out ++ listed)
      else listEntriesLoop handlerList buffer es (rest - listed.length) out

/-- `ext4bf_xattr_list_entries`: the count of bytes listed, or `-ERANGE`, and the bytes written
into the buffer. -/
def ext4bfXattrListEntries (handlerList : UInt8 → List UInt8 → Option (List UInt8))
    (entries : List XattrEntry) (buffer : Bool) (bufferSize : Nat) : Int × List UInt8 :=
  match listEntriesLoop handlerList buffer entries bufferSize [] with
  | (none, out) => (-erange, out)
  | (some rest, out) => (bufferSize - rest, out)

/-- `ext4bf_xattr_block_list`. Unlike the get path, a block that cannot be read answers
`-EIO`. -/
def ext4bfXattrBlockList (handlerList : UInt8 → List UInt8 → Option (List UInt8))
    (block : BlockRead) (buffer : Bool) (bufferSize : Nat) : Int × List UInt8 :=
  match block with
  | .noBlock => (0, [])
  | .readError => (-eio, [])
  | .block b =>
    if ext4bfXattrCheckBlock b then (-eio, [])
    else ext4bfXattrListEntries handlerList b.region.entries buffer bufferSize

/-- `ext4bf_xattr_ibody_list`. -/
def ext4bfXattrIbodyList (handlerList : UInt8 → List UInt8 → Option (List UInt8))
    (ibody : IbodyRead) (buffer : Bool) (bufferSize : Nat) : Int × List UInt8 :=
  match ibody with
  | .noXattr => (0, [])
  | .locError error => (error, [])
  | .body r =>
    if ext4bfXattrCheckNames r.first r.endOffs r.entries then (-eio, [])
    else ext4bfXattrListEntries handlerList r.entries buffer bufferSize

/-- `ext4bf_xattr_list`: the names of the inode body, then those of the block after them in the
buffer. A count the body lists is at most `buffer_size`, so the `size_t` subtraction does not
wrap. -/
def ext4bfXattrList (handlerList : UInt8 → List UInt8 → Option (List UInt8))
    (ibody : IbodyRead) (block : BlockRead) (buffer : Bool) (bufferSize : Nat) :
    Int × List UInt8 :=
  let (ret2, out2) := ext4bfXattrIbodyList handlerList ibody buffer bufferSize
  if ret2 < 0 then (ret2, out2)
  else
    let rest := if buffer then bufferSize - ret2.toNat else bufferSize
    let (ret, out) := ext4bfXattrBlockList handlerList block buffer rest
    if ret < 0 then (ret, out2 ++ out) else (ret + ret2, out2 ++ out)

/-! ## The handlers' names -/

/-- The mount options, configuration and capability that the `list` functions of the handlers
test. -/
structure ListContext where
  /-- `test_opt(sb, XATTR_USER)`. -/
  xattrUser : Bool
  /-- `test_opt(sb, POSIX_ACL)`. -/
  posixAcl : Bool
  /-- `CONFIG_EXT4_FS_POSIX_ACL`. -/
  configPosixAcl : Bool
  /-- `CONFIG_EXT4_FS_SECURITY`. -/
  configSecurity : Bool
  /-- `capable(CAP_SYS_ADMIN)`. -/
  sysAdmin : Bool

/-- `XATTR_USER_PREFIX`, "user.". -/
def xattrUserPrefix : List UInt8 := [117, 115, 101, 114, 46]

/-- `XATTR_TRUSTED_PREFIX`, "trusted.". -/
def xattrTrustedPrefix : List UInt8 := [116, 114, 117, 115, 116, 101, 100, 46]

/-- `XATTR_SECURITY_PREFIX`, "security.". -/
def xattrSecurityPrefix : List UInt8 := [115, 101, 99, 117, 114, 105, 116, 121, 46]

/-- `POSIX_ACL_XATTR_ACCESS`, "system.posix_acl_access". -/
def posixAclXattrAccess : List UInt8 :=
  [115, 121, 115, 116, 101, 109, 46, 112, 111, 115, 105, 120, 95, 97, 99, 108, 95, 97, 99, 99,
    101, 115, 115]

/-- `POSIX_ACL_XATTR_DEFAULT`, "system.posix_acl_default". -/
def posixAclXattrDefault : List UInt8 :=
  [115, 121, 115, 116, 101, 109, 46, 112, 111, 115, 105, 120, 95, 97, 99, 108, 95, 100, 101, 102,
    97, 117, 108, 116]

/-- The `list` of a handler of names under a prefix: the prefix, the name and a NUL, or nothing
when the handler is off. -/
def prefixedList (enabled : Bool) (pfx name : List UInt8) : List UInt8 :=
  if enabled then pfx ++ name ++ [0] else []

/-- `ext4bf_xattr_user_list`. -/
def ext4bfXattrUserList (ctx : ListContext) (name : List UInt8) : List UInt8 :=
  prefixedList ctx.xattrUser xattrUserPrefix name

/-- `ext4bf_xattr_trusted_list`. -/
def ext4bfXattrTrustedList (ctx : ListContext) (name : List UInt8) : List UInt8 :=
  prefixedList ctx.sysAdmin xattrTrustedPrefix name

/-- `ext4bf_xattr_security_list`, which tests nothing. -/
def ext4bfXattrSecurityList (name : List UInt8) : List UInt8 :=
  prefixedList true xattrSecurityPrefix name

/-- The `list` of an ACL handler: the one name of the ACL with its NUL (`sizeof` counts it),
whatever the entry's name. -/
def aclList (posixAcl : Bool) (aclName : List UInt8) : List UInt8 :=
  if posixAcl then aclName ++ [0] else []

/-- `ext4bf_xattr_list_acl_access`. -/
def ext4bfXattrListAclAccess (ctx : ListContext) : List UInt8 :=
  aclList ctx.posixAcl posixAclXattrAccess

/-- `ext4bf_xattr_list_acl_default`. -/
def ext4bfXattrListAclDefault (ctx : ListContext) : List UInt8 :=
  aclList ctx.posixAcl posixAclXattrDefault

/-- `ext4bf_xattr_handler` and the `list` of the handler it finds in
`ext4bf_xattr_handler_map`, indexed by `EXT4_XATTR_INDEX_*`; `none` for an index without a
handler, among them `EXT4_XATTR_INDEX_LUSTRE`. -/
def ext4bfXattrHandlerList (ctx : ListContext) (nameIndex : UInt8) (name : List UInt8) :
    Option (List UInt8) :=
  match nameIndex with
  | 1 => some (ext4bfXattrUserList ctx name)
  | 2 => if ctx.configPosixAcl then some (ext4bfXattrListAclAccess ctx) else none
  | 3 => if ctx.configPosixAcl then some (ext4bfXattrListAclDefault ctx) else none
  | 4 => some (ext4bfXattrTrustedList ctx name)
  | 6 => if ctx.configSecurity then some (ext4bfXattrSecurityList name) else none
  | _ => none

/-- `ext4bf_listxattr`. -/
def ext4bfListxattr (ctx : ListContext) (ibody : IbodyRead) (block : BlockRead) (buffer : Bool)
    (size : Nat) : Int × List UInt8 :=
  ext4bfXattrList (ext4bfXattrHandlerList ctx) ibody block buffer size

/-! ## What the readers are for -/

/-- What getxattr answers for the value `v` an inode holds for a name (`none`: no attribute of
that name), by the comment on `ext4bf_xattr_get`: the size of the value, with the value copied
when a buffer is given, `-ERANGE` when it does not fit the buffer, `-ENODATA` without a
value. -/
def getxattrAnswer (v : Option (List UInt8)) (buffer : Bool) (bufferSize : Nat) :
    Int × Option (List UInt8) :=
  match v with
  | none => (-enodata, none)
  | some v =>
    if buffer then
      if v.length ≤ bufferSize then (v.length, some v) else (-erange, none)
    else (v.length, none)

/-- What listxattr answers for the bytes `names` an inode lists: their count, with the bytes
copied when a buffer is given, `-ERANGE` when they do not fit the buffer. On `-ERANGE` the
buffer holds what was written before, which the answer leaves open. -/
def listxattrAnswer (names : List UInt8) (buffer : Bool) (bufferSize : Nat) :
    Int × Option (List UInt8) :=
  if buffer then
    if names.length ≤ bufferSize then (names.length, some names) else (-erange, none)
  else (names.length, some [])

/-- The value the inode body holds for a name. -/
def IbodyRead.lookup : IbodyRead → UInt8 → List UInt8 → Option (List UInt8)
  | .body r, nameIndex, name => r.lookup nameIndex name
  | _, _, _ => none

/-- The value the attribute block holds for a name. -/
def BlockRead.lookup : BlockRead → UInt8 → List UInt8 → Option (List UInt8)
  | .block b, nameIndex, name => b.region.lookup nameIndex name
  | _, _, _ => none

/-- The attributes of an inode: those of the body, then those of the block. -/
def inodeXattrLookup (ibody : IbodyRead) (block : BlockRead) (nameIndex : UInt8)
    (name : List UInt8) : Option (List UInt8) :=
  (ibody.lookup nameIndex name).or (block.lookup nameIndex name)

/-- The bytes the handlers list for a table, in table order. -/
def listedNames (handlerList : UInt8 → List UInt8 → Option (List UInt8))
    (entries : List XattrEntry) : List UInt8 :=
  (entries.filterMap fun e => handlerList e.eNameIndex e.eName).flatten

/-- The table of the inode body, empty without attributes. -/
def IbodyRead.entries : IbodyRead → List XattrEntry
  | .body r => r.entries
  | _ => []

/-- The table of the attribute block, empty without a block. -/
def BlockRead.entries : BlockRead → List XattrEntry
  | .block b => b.region.entries
  | _ => []

/-- A listing gives an answer: the same count or error, and the bytes the answer fixes. -/
def ListsAs (res : Int × List UInt8) (ans : Int × Option (List UInt8)) : Prop :=
  res.1 = ans.1 ∧ ∀ bytes, ans.2 = some bytes → res.2 = bytes

/-- A region the get path reads as the map it holds: well formed, and with every value offset,
empty values' too, inside it. -/
structure XattrRegion.Readable (r : XattrRegion) : Prop where
  wellFormed : r.WellFormed
  offs_le : ∀ e ∈ r.entries, e.eValueOffs.toNat ≤ r.endOffs

instance (r : XattrRegion) : Decidable r.Readable :=
  decidable_of_iff (_ ∧ _) ⟨fun ⟨a, b⟩ => ⟨a, b⟩, fun ⟨a, b⟩ => ⟨a, b⟩⟩

/-- The inode body passes the checks of the list path: no attributes, or a region whose names
pass `ext4bf_xattr_check_names`. -/
def IbodyRead.Checked : IbodyRead → Prop
  | .noXattr => True
  | .locError _ => False
  | .body r => ext4bfXattrCheckNames r.first r.endOffs r.entries = false

/-- The block passes the checks of the list path: no block, or one that was read and passes
`ext4bf_xattr_check_block`. -/
def BlockRead.Checked : BlockRead → Prop
  | .noBlock => True
  | .readError => False
  | .block b => ext4bfXattrCheckBlock b = false

/-- The inode body is readable: no attributes, or a readable region. -/
def IbodyRead.Readable : IbodyRead → Prop
  | .noXattr => True
  | .locError _ => False
  | .body r => r.Readable

/-- The block is readable: no block, or one that was read, with its header right and a readable
sorted region. -/
def BlockRead.Readable : BlockRead → Prop
  | .noBlock => True
  | .readError => False
  | .block b => b.hMagic = ext4XattrMagic ∧ b.hBlocks = 1 ∧ b.region.Readable ∧ b.region.Sorted

/-! ## The checks pass on readable regions -/

/-- The names check passes when the table ends before `end`. -/
theorem ext4bfXattrCheckNames_eq_false {entry endOffs : Nat} {es : List XattrEntry}
    (h : entry + entriesLen es < endOffs) : ext4bfXattrCheckNames entry endOffs es = false := by
  induction es generalizing entry with
  | nil => rfl
  | cons e es ih =>
    rw [entriesLen_cons] at h
    have hnext : entry + ext4XattrLen e.eNameLen.toNat + entriesLen es < endOffs := by omega
    simp only [ext4bfXattrCheckNames, ih hnext, Bool.or_false, decide_eq_false_iff_not]
    omega

theorem XattrRegion.WellFormed.checkNames {r : XattrRegion} (hwf : r.WellFormed) :
    ext4bfXattrCheckNames r.first r.endOffs r.entries = false := by
  apply ext4bfXattrCheckNames_eq_false
  have htable := hwf.table_le
  unfold XattrRegion.tableEnd at htable
  omega

/-- The check of an entry of a readable region passes: a value in the region ends, padded,
before `end`, and an empty one has its offset in the region. -/
theorem XattrRegion.Readable.checkEntry {r : XattrRegion} (hr : r.Readable) {e : XattrEntry}
    (he : e ∈ r.entries) : ext4bfXattrCheckEntry e r.endOffs = false := by
  have hfits := hr.wellFormed.layout.fits e he
  have hoffs := hr.offs_le e he
  have hsize : e.eValueOffs.toNat + e.eValueSize.toNat ≤ r.endOffs := by
    by_cases hin : e.inRegion
    · have hend := hfits.value_hi hin
      have hpad := le_ext4XattrSize e.eValueSize.toNat
      unfold XattrEntry.valueEnd at hend
      omega
    · -- no value in the region: with `e_value_block` zero the value is empty
      have hzero : e.eValueSize = 0 := by
        by_contra hne
        exact hin (hfits.inRegion_iff.mpr hne)
      rw [hzero, UInt32.toNat_zero, Nat.add_zero]
      exact hoffs
  simp only [ext4bfXattrCheckEntry, hfits.value_block, ne_eq, not_true_eq_false, decide_false,
    Bool.false_or, Bool.or_eq_false_iff, decide_eq_false_iff_not]
  omega

theorem IbodyRead.Readable.checked {ibody : IbodyRead} (h : ibody.Readable) : ibody.Checked := by
  cases ibody with
  | noXattr => trivial
  | locError error => exact h.elim
  | body r => exact h.wellFormed.checkNames

theorem BlockRead.Readable.checked {block : BlockRead} (h : block.Readable) : block.Checked := by
  cases block with
  | noBlock => trivial
  | readError => exact h.elim
  | block b =>
    obtain ⟨hmagic, hblocks, hr, -⟩ := h
    simp only [BlockRead.Checked, ext4bfXattrCheckBlock, hmagic, hblocks, ne_eq,
      not_true_eq_false, decide_false, Bool.false_or]
    exact hr.wellFormed.checkNames

/-! ## getxattr answers from the map -/

/-- On a readable region the search never answers `-EIO`: it answers as `xattrFind` leaves the
search, `-ENODATA` when the name is not there. -/
theorem XattrRegion.Readable.findEntry {r : XattrRegion} (hr : r.Readable) (i : XattrInfo)
    (sorted : Bool) : ∃ s, xattrFind r i sorted = some s ∧
      ext4bfXattrFindEntry r.entries i.nameIndex i.name r.endOffs sorted =
        (if s.notFound then -enodata else 0, s.here) := by
  obtain ⟨j, -, hk, -, hdrop⟩ :=
    findEntryLoop_spec i.nameIndex i.name sorted r.entries 0 one_ne_zero
  unfold xattrFind ext4bfXattrFindEntry
  generalize findEntryLoop i.nameIndex i.name sorted r.entries 0 1 = res at hk hdrop
  obtain ⟨here, cmp⟩ := res
  dsimp only at hk hdrop ⊢
  rw [Nat.zero_add] at hk
  subst hk
  -- a zero `cmp` is that of the entry the loop stopped at, and its check passes
  have hcheck : ¬ (cmp = 0 ∧
      ext4bfXattrCheckEntry (r.entries.getD here default) r.endOffs = true) := by
    rintro ⟨hz, hc⟩
    rcases hdrop with ⟨-, hne⟩ | ⟨e, rest, hd, -, -⟩
    · exact hne hz
    · have hget : r.entries[here]? = some e := by
        rw [← List.head?_drop, hd]
        rfl
      rw [List.getD_eq_getElem?_getD, hget, Option.getD_some,
        hr.checkEntry (List.mem_of_getElem? hget)] at hc
      exact Bool.false_ne_true hc
  rw [if_neg hcheck]
  by_cases hz : cmp = 0
  · exact ⟨{ r with here := here, notFound := false }, by simp [hz], by simp [hz]⟩
  · exact ⟨{ r with here := here, notFound := true }, by simp [hz, enodata], by simp [hz]⟩

/-- An entry of a well-formed table is what the region holds for its key. -/
theorem XattrRegion.lookup_of_entries_eq {r : XattrRegion} (hwf : r.WellFormed)
    {A B : List XattrEntry} {e : XattrEntry} (hent : r.entries = A ++ e :: B)
    {nameIndex : UInt8} {name : List UInt8} (hkey : e.key = (nameIndex, name)) :
    r.lookup nameIndex name = some (valueOf r.img e) := by
  have hnd := hwf.keys_nodup
  rw [hent, List.map_append, List.map_cons, List.nodup_middle, List.nodup_cons,
    ← List.map_append] at hnd
  have hfresh : e.key ∉ (attrsOf r.img (A ++ B)).map Prod.fst := by
    rw [map_fst_attrsOf]
    exact hnd.1
  unfold XattrRegion.lookup
  rw [hent, attrsOf_append, attrsOf_cons, Lib.AssocList.lookup_middle (by simpa using hfresh),
    if_pos hkey.symm]

/-- The get path on a checked region answers from the map the region holds. -/
theorem xattrGetEntry_answer {r : XattrRegion} (hr : r.Readable) {sorted : Bool}
    (hsorted : sorted = true → r.Sorted) (nameIndex : UInt8) (name : List UInt8)
    (buffer : Bool) (bufferSize : Nat) :
    xattrGetEntry r nameIndex name sorted buffer bufferSize =
      getxattrAnswer (r.lookup nameIndex name) buffer bufferSize := by
  obtain ⟨s, hfind, hentry⟩ := hr.findEntry ⟨nameIndex, name, none⟩ sorted
  unfold xattrGetEntry
  rw [hentry]
  cases hnf : s.notFound with
  | false =>
    -- found: the entry at `s->here` has the name, and its value is the region's
    obtain ⟨A, e, B, hs, hh, hkey⟩ := xattrFind_found hr.wellFormed hfind hnf
    have hent : r.entries = A ++ e :: B := (xattrFind_entries hfind).symm.trans hs
    have hget : r.entries[s.here]? = some e := by
      rw [hent, hh]
      simp
    rw [XattrRegion.lookup_of_entries_eq hr.wellFormed hent hkey]
    cases buffer with
    | false => simp [hget, getxattrAnswer, valueOf]
    | true =>
      simp only [hget, getxattrAnswer, valueOf, List.getD_eq_getElem?_getD, Option.getD_some,
        length_readBytes, if_true, ne_eq, Bool.false_eq_true, if_false, not_true_eq_false]
      by_cases hfit : e.eValueSize.toNat ≤ bufferSize
      · rw [if_neg (by omega), if_pos hfit]
      · rw [if_pos (by omega), if_neg hfit]
  | true =>
    obtain ⟨A, B, hs, -, hfresh, -⟩ := xattrFind_notFound hr.wellFormed hsorted hfind hnf
    have hlookup : r.lookup nameIndex name = none := by
      apply Lib.AssocList.lookup_eq_none
      rw [map_fst_attrsOf, ← xattrFind_entries hfind, hs]
      exact hfresh
    simp [hlookup, getxattrAnswer, enodata]

theorem ext4bfXattrIbodyGet_answer {ibody : IbodyRead} (h : ibody.Readable) (nameIndex : UInt8)
    (name : List UInt8) (buffer : Bool) (bufferSize : Nat) :
    ext4bfXattrIbodyGet ibody nameIndex name buffer bufferSize =
      getxattrAnswer (ibody.lookup nameIndex name) buffer bufferSize := by
  cases ibody with
  | noXattr => rfl
  | locError error => exact h.elim
  | body r =>
    have hr : r.Readable := h
    simp only [ext4bfXattrIbodyGet, hr.wellFormed.checkNames, Bool.false_eq_true, if_false,
      IbodyRead.lookup]
    -- the body's search is unsorted
    exact xattrGetEntry_answer hr (fun hs => absurd hs Bool.false_ne_true) nameIndex name buffer
      bufferSize

theorem ext4bfXattrBlockGet_answer {block : BlockRead} (h : block.Readable) (nameIndex : UInt8)
    (name : List UInt8) (buffer : Bool) (bufferSize : Nat) :
    ext4bfXattrBlockGet block nameIndex name buffer bufferSize =
      getxattrAnswer (block.lookup nameIndex name) buffer bufferSize := by
  cases block with
  | noBlock => rfl
  | readError => exact h.elim
  | block b =>
    have hchecked : ext4bfXattrCheckBlock b = false := BlockRead.Readable.checked h
    obtain ⟨-, -, hr, hsorted⟩ := h
    simp only [ext4bfXattrBlockGet, hchecked, Bool.false_eq_true, if_false, BlockRead.lookup]
    exact xattrGetEntry_answer hr (fun _ => hsorted) nameIndex name buffer bufferSize

/-- Only a missing value answers `-ENODATA`: a size is not negative and `-ERANGE` is another
error. -/
theorem getxattrAnswer_fst_eq_enodata {v : Option (List UInt8)} {buffer : Bool}
    {bufferSize : Nat} : (getxattrAnswer v buffer bufferSize).1 = -enodata ↔ v = none := by
  cases v with
  | none => simp [getxattrAnswer]
  | some v =>
    simp only [getxattrAnswer, reduceCtorEq, iff_false]
    cases buffer
    · simp [enodata]
    · split_ifs <;> simp [enodata, erange]

/-- getxattr answers for the attributes of the inode, those of the body before those of the
block: the value's size, the value copied into a buffer it fits, `-ERANGE` when it does not,
and `-ENODATA` when neither region holds the name. -/
theorem ext4bfXattrGet_answer {ibody : IbodyRead} {block : BlockRead} (hibody : ibody.Readable)
    (hblock : block.Readable) (nameIndex : UInt8) (name : List UInt8) (buffer : Bool)
    (bufferSize : Nat) :
    ext4bfXattrGet ibody block nameIndex name buffer bufferSize =
      getxattrAnswer (inodeXattrLookup ibody block nameIndex name) buffer bufferSize := by
  unfold ext4bfXattrGet inodeXattrLookup
  rw [ext4bfXattrIbodyGet_answer hibody]
  dsimp only
  cases hv : ibody.lookup nameIndex name with
  | none =>
    -- the body answers `-ENODATA`, and the block answers
    rw [if_pos (getxattrAnswer_fst_eq_enodata.mpr rfl), Option.none_or,
      ext4bfXattrBlockGet_answer hblock]
  | some v =>
    rw [if_neg (fun h => Option.some_ne_none v (getxattrAnswer_fst_eq_enodata.mp h)),
      Option.some_or]

/-- An inode body with the user attribute "a" of value "xy", at offset 60 of 64 bytes. -/
def userBody : XattrRegion :=
  ⟨0, 64, [⟨1, 1, 60, 0, 2, 0, [97]⟩], ofList (List.replicate 60 0 ++ [120, 121, 0, 0])⟩

/-- An attribute block of 128 bytes holding the user attribute "c" of value [5] and the trusted
attribute "b" of value [1, 2, 3], in the order of a sorted table. -/
def twoAttrBlock : XattrBlock :=
  ⟨ext4XattrMagic, 1, ⟨32, 128, [⟨1, 1, 120, 0, 1, 0, [99]⟩, ⟨1, 4, 124, 0, 3, 0, [98]⟩],
    ofList (List.replicate 120 0 ++ [5, 0, 0, 0, 1, 2, 3, 0])⟩⟩

/-- Asked for the trusted "b", the body answers `-ENODATA` and the block its value. -/
theorem ext4bfXattrGet_twoAttrBlock :
    (IbodyRead.body userBody).Readable ∧ (BlockRead.block twoAttrBlock).Readable ∧
      ext4bfXattrGet (.body userBody) (.block twoAttrBlock) 4 [98] true 8 = (3, some [1, 2, 3]) := by
  have hibody : (IbodyRead.body userBody).Readable := by
    show userBody.Readable
    decide
  have hblock : (BlockRead.block twoAttrBlock).Readable := by
    refine ⟨rfl, rfl, by decide, ?_⟩
    unfold XattrRegion.Sorted
    decide
  refine ⟨hibody, hblock, ?_⟩
  rw [ext4bfXattrGet_answer hibody hblock]
  rfl

/-! ## listxattr lists the handlers' names -/

section listing

variable (handlerList : UInt8 → List UInt8 → Option (List UInt8))

theorem listedNames_cons_of_none {e : XattrEntry} {es : List XattrEntry}
    (h : handlerList e.eNameIndex e.eName = none) :
    listedNames handlerList (e :: es) = listedNames handlerList es := by
  simp [listedNames, h]

theorem listedNames_cons_of_some {e : XattrEntry} {es : List XattrEntry} {listed : List UInt8}
    (h : handlerList e.eNameIndex e.eName = some listed) :
    listedNames handlerList (e :: es) = listed ++ listedNames handlerList es := by
  simp [listedNames, h]

theorem listedNames_append (es es' : List XattrEntry) :
    listedNames handlerList (es ++ es') =
      listedNames handlerList es ++ listedNames handlerList es' := by
  simp [listedNames]

/-- Without a buffer the loop counts the bytes of every name and writes nothing. -/
theorem listEntriesLoop_unbuffered (es : List XattrEntry) (rest : Int) (out : List UInt8) :
    listEntriesLoop handlerList false es rest out =
      (some (rest - (listedNames handlerList es).length), out) := by
  induction es generalizing rest with
  | nil => simp [listEntriesLoop, listedNames]
  | cons e es ih =>
    cases hl : handlerList e.eNameIndex e.eName with
    | none =>
      rw [listEntriesLoop, hl, listedNames_cons_of_none handlerList hl]
      exact ih rest
    | some listed =>
      simp only [listEntriesLoop, hl, Bool.false_eq_true, if_false, ih,
        listedNames_cons_of_some handlerList hl, List.length_append, Nat.cast_add]
      congr 2
      omega

/-- With a buffer the names fit into: the loop writes them all, in table order. -/
theorem listEntriesLoop_of_le {es : List XattrEntry} {rest : Int}
    (h : ((listedNames handlerList es).length : Int) ≤ rest) (out : List UInt8) :
    listEntriesLoop handlerList true es rest out =
      (some (rest - (listedNames handlerList es).length), out ++ listedNames handlerList es) := by
  induction es generalizing rest out with
  | nil => simp [listEntriesLoop, listedNames]
  | cons e es ih =>
    cases hl : handlerList e.eNameIndex e.eName with
    | none =>
      rw [listedNames_cons_of_none handlerList hl] at h ⊢
      rw [listEntriesLoop, hl]
      exact ih h out
    | some listed =>
      rw [listedNames_cons_of_some handlerList hl, List.length_append, Nat.cast_add] at h ⊢
      have hfits : ¬ (listed.length : Int) > rest := by omega
      have hrest : ((listedNames handlerList es).length : Int) ≤ rest - listed.length := by omega
      simp only [listEntriesLoop, hl, if_true, if_neg hfits, ih hrest, List.append_assoc]
      congr 2
      omega

/-- With a buffer the names do not fit into, the loop ends with `-ERANGE`. -/
theorem listEntriesLoop_of_lt {es : List XattrEntry} {rest : Int} (h0 : 0 ≤ rest)
    (h : rest < ((listedNames handlerList es).length : Int)) (out : List UInt8) :
    (listEntriesLoop handlerList true es rest out).1 = none := by
  induction es generalizing rest out with
  | nil =>
    simp only [listedNames, List.filterMap_nil, List.flatten_nil, List.length_nil,
      Nat.cast_zero] at h
    omega
  | cons e es ih =>
    cases hl : handlerList e.eNameIndex e.eName with
    | none =>
      rw [listedNames_cons_of_none handlerList hl] at h
      rw [listEntriesLoop, hl]
      exact ih h0 h out
    | some listed =>
      rw [listedNames_cons_of_some handlerList hl, List.length_append, Nat.cast_add] at h
      simp only [listEntriesLoop, hl, if_true]
      split_ifs with hbig
      · rfl
      · exact ih (by omega) (by omega) _

theorem ext4bfXattrListEntries_unbuffered (es : List XattrEntry) (bufferSize : Nat) :
    ext4bfXattrListEntries handlerList es false bufferSize =
      (((listedNames handlerList es).length : Int), []) := by
  simp [ext4bfXattrListEntries, listEntriesLoop_unbuffered]

theorem ext4bfXattrListEntries_of_le {es : List XattrEntry} {bufferSize : Nat}
    (h : (listedNames handlerList es).length ≤ bufferSize) :
    ext4bfXattrListEntries handlerList es true bufferSize =
      (((listedNames handlerList es).length : Int), listedNames handlerList es) := by
  have hle : ((listedNames handlerList es).length : Int) ≤ bufferSize := by exact_mod_cast h
  simp [ext4bfXattrListEntries, listEntriesLoop_of_le handlerList hle]

theorem ext4bfXattrListEntries_of_lt {es : List XattrEntry} {bufferSize : Nat}
    (h : bufferSize < (listedNames handlerList es).length) :
    (ext4bfXattrListEntries handlerList es true bufferSize).1 = -erange := by
  have hloop : (listEntriesLoop handlerList true es bufferSize []).1 = none :=
    listEntriesLoop_of_lt handlerList (Int.natCast_nonneg _) (by exact_mod_cast h) []
  unfold ext4bfXattrListEntries
  generalize listEntriesLoop handlerList true es bufferSize [] = res at hloop
  obtain ⟨_ | _, out⟩ := res
  · rfl
  · nomatch hloop

/-- A checked inode body lists the names of its table. -/
theorem IbodyRead.Checked.list {ibody : IbodyRead} (h : ibody.Checked) (buffer : Bool)
    (bufferSize : Nat) :
    ext4bfXattrIbodyList handlerList ibody buffer bufferSize =
      ext4bfXattrListEntries handlerList ibody.entries buffer bufferSize := by
  cases ibody with
  | noXattr => simp [ext4bfXattrIbodyList, ext4bfXattrListEntries, listEntriesLoop,
      IbodyRead.entries]
  | locError error => exact h.elim
  | body r =>
    have hr : ext4bfXattrCheckNames r.first r.endOffs r.entries = false := h
    simp [ext4bfXattrIbodyList, hr, IbodyRead.entries]

/-- A checked block lists the names of its table. -/
theorem BlockRead.Checked.list {block : BlockRead} (h : block.Checked) (buffer : Bool)
    (bufferSize : Nat) :
    ext4bfXattrBlockList handlerList block buffer bufferSize =
      ext4bfXattrListEntries handlerList block.entries buffer bufferSize := by
  cases block with
  | noBlock => simp [ext4bfXattrBlockList, ext4bfXattrListEntries, listEntriesLoop,
      BlockRead.entries]
  | readError => exact h.elim
  | block b =>
    have hb : ext4bfXattrCheckBlock b = false := h
    simp [ext4bfXattrBlockList, hb, BlockRead.entries]

/-- listxattr lists the names the handlers show for the inode body and then for the block,
their count as the answer, with `-ERANGE` exactly when a buffer is given and the names do not
fit it. -/
theorem ext4bfXattrList_answer {ibody : IbodyRead} {block : BlockRead} (hibody : ibody.Checked)
    (hblock : block.Checked) (buffer : Bool) (bufferSize : Nat) :
    ListsAs (ext4bfXattrList handlerList ibody block buffer bufferSize)
      (listxattrAnswer (listedNames handlerList (ibody.entries ++ block.entries)) buffer
        bufferSize) := by
  unfold ext4bfXattrList
  rw [hibody.list, listedNames_append]
  simp only [hblock.list]
  generalize hn₁ : listedNames handlerList ibody.entries = n₁
  generalize hn₂ : listedNames handlerList block.entries = n₂
  have h₁ : ¬ ((n₁.length : Int) < 0) := by omega
  have h₂ : ¬ ((n₂.length : Int) < 0) := by omega
  cases buffer with
  | false =>
    simp only [ext4bfXattrListEntries_unbuffered, hn₁, hn₂, if_neg h₁, if_neg h₂,
      Bool.false_eq_true, if_false]
    refine ⟨?_, ?_⟩
    · simp only [listxattrAnswer, Bool.false_eq_true, if_false, List.length_append]
      omega
    · simp [listxattrAnswer]
  | true =>
    by_cases hfit₁ : n₁.length ≤ bufferSize
    · rw [ext4bfXattrListEntries_of_le handlerList (hn₁ ▸ hfit₁), hn₁]
      simp only [if_neg h₁, if_true, Int.toNat_natCast]
      by_cases hfit₂ : n₂.length ≤ bufferSize - n₁.length
      · -- both fit: the block's names follow the body's
        rw [ext4bfXattrListEntries_of_le handlerList (hn₂ ▸ hfit₂), hn₂, if_neg h₂]
        have hfit : n₁.length + n₂.length ≤ bufferSize := by omega
        refine ⟨?_, ?_⟩
        · simp only [listxattrAnswer, if_true, List.length_append, if_pos hfit]
          omega
        · simp [listxattrAnswer, hfit]
      · -- the block's names do not fit what the body's leave
        have hlt := ext4bfXattrListEntries_of_lt handlerList (hn₂ ▸ not_le.mp hfit₂)
        generalize ext4bfXattrListEntries handlerList block.entries true
          (bufferSize - n₁.length) = res at hlt
        obtain ⟨ret, out⟩ := res
        dsimp only at hlt ⊢
        have hover : ¬ n₁.length + n₂.length ≤ bufferSize := by omega
        rw [if_pos (by rw [hlt]; decide)]
        exact ⟨by simp [listxattrAnswer, hover, hlt], by simp [listxattrAnswer, hover]⟩
    · -- the body's names do not fit
      have hlt := ext4bfXattrListEntries_of_lt handlerList (hn₁ ▸ not_le.mp hfit₁)
      generalize ext4bfXattrListEntries handlerList ibody.entries true bufferSize = res at hlt
      obtain ⟨ret, out⟩ := res
      dsimp only at hlt ⊢
      have hover : ¬ n₁.length + n₂.length ≤ bufferSize := by omega
      rw [if_pos (by rw [hlt]; decide)]
      exact ⟨by simp [listxattrAnswer, hover, hlt], by simp [listxattrAnswer, hover]⟩

end listing

/-- Mounted with `user_xattr` and without ACLs, by a caller without `CAP_SYS_ADMIN`. -/
def userXattrMount : ListContext := ⟨true, false, true, true, false⟩

/-- The two user attributes are listed, the body's first; the trusted one is hidden. -/
theorem ext4bfListxattr_twoAttrBlock :
    (IbodyRead.body userBody).Checked ∧ (BlockRead.block twoAttrBlock).Checked ∧
      ListsAs (ext4bfListxattr userXattrMount (.body userBody) (.block twoAttrBlock) true 64)
        (14, some (xattrUserPrefix ++ [97, 0] ++ xattrUserPrefix ++ [99, 0])) := by
  have hibody : (IbodyRead.body userBody).Checked := rfl
  have hblock : (BlockRead.block twoAttrBlock).Checked := rfl
  refine ⟨hibody, hblock, ?_⟩
  have hans := ext4bfXattrList_answer (ext4bfXattrHandlerList userXattrMount) hibody hblock true 64
  have hnames : listxattrAnswer (listedNames (ext4bfXattrHandlerList userXattrMount)
      ((IbodyRead.body userBody).entries ++ (BlockRead.block twoAttrBlock).entries)) true 64 =
      (14, some (xattrUserPrefix ++ [97, 0] ++ xattrUserPrefix ++ [99, 0])) := by
    decide
  rw [hnames] at hans
  exact hans

end OptFs.Xattr
