import OptFs.Lib.ByteImage

/-!
# The on-disk journal format (`jbdbf.h`)

Constants, header layout and the block tag of the journal, and the two helpers of
`commit.c` and `recovery.c` that write and read a tag's fields. Every journal control
block starts with the 12-byte `journal_bf_header_t` (`h_magic`, `h_blocktype`,
`h_sequence`); a descriptor block follows it with tags of `journal_tag_bytes()` bytes,
the first of them followed by the 16-byte journal UUID.

`journal_tag_bytes` always returns `JBD2_TAG_SIZE64 = sizeof(journal_block_tag_t)`,
which is 52 bytes with the OptFS checksum and block-type fields; the tag field
offsets below are those of `journal_block_tag_t`.

Transaction ids (`tid_t`) are 32-bit and compared modulo `2^32` (`tid_gt`, `tid_geq`).
-/

namespace OptFs.Jbd

open Lib.ByteImage

/-! ## Constants -/

/-- `JBD2_MAGIC_NUMBER`. -/
def jbd2MagicNumber : UInt32 := 0xc03b3998

/-- `JBD2_DESCRIPTOR_BLOCK`. -/
def jbd2DescriptorBlock : UInt32 := 1
/-- `JBD2_COMMIT_BLOCK`. -/
def jbd2CommitBlock : UInt32 := 2
/-- `JBD2_REVOKE_BLOCK`. -/
def jbd2RevokeBlock : UInt32 := 5

/-- `JBD2_FLAG_ESCAPE`: the logged copy had its magic first word zeroed. -/
def jbd2FlagEscape : UInt32 := 1
/-- `JBD2_FLAG_SAME_UUID`: no UUID follows this tag. -/
def jbd2FlagSameUuid : UInt32 := 2
/-- `JBD2_FLAG_LAST_TAG`. -/
def jbd2FlagLastTag : UInt32 := 8

/-- `T_BLOCKTYPE_NOTDATA`. -/
def tBlocktypeNotdata : UInt32 := 0
/-- `T_BLOCKTYPE_NEWLYAPPENDEDDATA`: a data block written in place, described by its
checksum only; it has no log block. -/
def tBlocktypeNewlyappendeddata : UInt32 := 2
/-- `T_BLOCKTYPE_OVERWRITTENDATA`: a data block journalled like metadata. -/
def tBlocktypeOverwrittendata : UInt32 := 3

/-- `JBD2_CRC32_CHKSUM`. -/
def jbd2Crc32Chksum : UInt8 := 1
/-- `JBD2_CRC32_CHKSUM_SIZE`. -/
def jbd2Crc32ChksumSize : UInt8 := 4

/-- `sizeof(journal_bf_header_t)`. -/
def sizeofJournalBfHeader : Nat := 12
/-- `sizeof(jbdbf_journal_revoke_header_t)`: the header and `r_count`. -/
def sizeofRevokeHeader : Nat := 16
/-- `JBD2_TAG_SIZE32 = offsetof(journal_block_tag_t, t_blocknr_high)`. -/
def jbd2TagSize32 : Nat := 8
/-- `journal_tag_bytes()`, always `JBD2_TAG_SIZE64 = sizeof(journal_block_tag_t)`. -/
def journalTagBytes : Nat := 52
/-- The UUID written after the first tag of a descriptor. -/
def uuidBytes : Nat := 16

/-! ## Headers -/

/-- Fill in `h_magic`, `h_blocktype` and `h_sequence` of a header at offset 0. -/
def writeHeader (img : Image) (blocktype : UInt32) (sequence : UInt32) : Image :=
  write32 (write32 (write32 img 0 jbd2MagicNumber) 4 blocktype) 8 sequence

@[simp] theorem read32_writeHeader_magic (img : Image) (t s : UInt32) :
    read32 (writeHeader img t s) 0 = jbd2MagicNumber := by
  simp [writeHeader, read32_write32_of_disjoint]

@[simp] theorem read32_writeHeader_blocktype (img : Image) (t s : UInt32) :
    read32 (writeHeader img t s) 4 = t := by
  simp [writeHeader, read32_write32_of_disjoint]

@[simp] theorem read32_writeHeader_sequence (img : Image) (t s : UInt32) :
    read32 (writeHeader img t s) 8 = s := by
  simp [writeHeader]

/-! ## Block tags -/

/-- `write_tag_block`: the block number (low word, and high word when tags are wider
than `JBD2_TAG_SIZE32`), the checksum type and size, `t_chksum[0]` and `t_blocktype` of
the tag at offset `tag`. The flags word is stored by the caller. -/
def writeTagBlock (tagBytes : Nat) (img : Image) (tag : Nat) (block : Nat)
    (dataChecksum blockType : UInt32) : Image :=
  let img := write32 img tag (UInt32.ofNat block)
  if tagBytes > jbd2TagSize32 then
    let img := write32 img (tag + 8) (UInt32.ofNat ((block >>> 31) >>> 1))
    let img := write8 img (tag + 12) jbd2Crc32Chksum
    let img := write8 img (tag + 13) jbd2Crc32ChksumSize
    let img := write32 img (tag + 16) dataChecksum
    write32 img (tag + 48) blockType
  else img

/-- `read_tag_block`: the low word, or-ed with the high word shifted up by 32 when tags
are wider than `JBD2_TAG_SIZE32` (the two bit ranges are disjoint, so the or is a sum). -/
def readTagBlock (tagBytes : Nat) (img : Image) (tag : Nat) : Nat :=
  let block := (read32 img tag).toNat
  if tagBytes > jbd2TagSize32 then block + (read32 img (tag + 8)).toNat * 2 ^ 32 else block

/-- `read_tag_checksum`: `t_chksum[0]`. -/
def readTagChecksum (img : Image) (tag : Nat) : UInt32 := read32 img (tag + 16)

/-- `read_tag_type`: `t_blocktype`. -/
def readTagType (img : Image) (tag : Nat) : UInt32 := read32 img (tag + 48)

/-- The flags word `t_flags`. -/
def readTagFlags (img : Image) (tag : Nat) : UInt32 := read32 img (tag + 4)

/-- `write_tag_block` touches only the tag's own `journal_tag_bytes()` bytes. -/
theorem writeTagBlock_apply_of_not_mem (img : Image) {tag i : Nat} (block : Nat)
    (c t : UInt32) (hi : i < tag ∨ tag + journalTagBytes ≤ i) :
    writeTagBlock journalTagBytes img tag block c t i = img i := by
  unfold writeTagBlock journalTagBytes jbd2TagSize32 at *
  simp only [gt_iff_lt, Nat.reduceLT, if_true]
  rw [write32_apply_of_not_mem _ _ _ (by omega), write32_apply_of_not_mem _ _ _ (by omega),
    write8_apply, if_neg (by omega), write8_apply, if_neg (by omega),
    write32_apply_of_not_mem _ _ _ (by omega), write32_apply_of_not_mem _ _ _ (by omega)]

theorem readTagBlock_writeTagBlock (img : Image) (tag block : Nat) (c t : UInt32)
    (hb : block < 2 ^ 64) :
    readTagBlock journalTagBytes (writeTagBlock journalTagBytes img tag block c t) tag =
      block := by
  simp only [readTagBlock, writeTagBlock, journalTagBytes, jbd2TagSize32, gt_iff_lt,
    Nat.reduceLT, if_true]
  simp (disch := omega) only [read32_write32_of_disjoint, read32_write8_of_disjoint,
    read32_write32_same]
  simp only [UInt32.toNat_ofNat', Nat.shiftRight_eq_div_pow, Nat.div_div_eq_div_mul]
  omega

theorem readTagChecksum_writeTagBlock (img : Image) (tag block : Nat) (c t : UInt32) :
    readTagChecksum (writeTagBlock journalTagBytes img tag block c t) tag = c := by
  simp only [readTagChecksum, writeTagBlock, journalTagBytes, jbd2TagSize32, gt_iff_lt,
    Nat.reduceLT, if_true]
  simp (disch := omega) only [read32_write32_of_disjoint, read32_write32_same]

theorem readTagType_writeTagBlock (img : Image) (tag block : Nat) (c t : UInt32) :
    readTagType (writeTagBlock journalTagBytes img tag block c t) tag = t := by
  simp only [readTagType, writeTagBlock, journalTagBytes, jbd2TagSize32, gt_iff_lt,
    Nat.reduceLT, if_true, read32_write32_same]

/-! ## Transaction ids -/

/-- `tid_gt`: the 32-bit difference `x - y`, read as a signed int, is positive. -/
def tidGt (x y : UInt32) : Bool := (x - y).toNat != 0 && (x - y).toNat < 2 ^ 31

/-- `tid_geq`: the 32-bit difference `x - y`, read as a signed int, is non-negative. -/
def tidGeq (x y : UInt32) : Bool := (x - y).toNat < 2 ^ 31

theorem tidGeq_self (x : UInt32) : tidGeq x x = true := by
  simp [tidGeq]

/-- Within less than `2 ^ 31` past a common `base`, `tid_gt` orders two sequence numbers as
their offsets from `base`: the 32-bit difference is the difference of the offsets. -/
theorem tidGt_iff_of_window {base x y : UInt32} (hx : (x - base).toNat < 2 ^ 31)
    (hy : (y - base).toNat < 2 ^ 31) :
    tidGt x y = true ↔ (y - base).toNat < (x - base).toNat := by
  have h₁ := UInt32.toNat_sub x base
  have h₂ := UInt32.toNat_sub y base
  have h₃ := UInt32.toNat_sub x y
  have := UInt32.toNat_lt x
  have := UInt32.toNat_lt y
  have := UInt32.toNat_lt base
  simp only [tidGt, Bool.and_eq_true, bne_iff_ne, ne_eq, decide_eq_true_eq]
  omega

/-- The same for `tid_geq`. -/
theorem tidGeq_iff_of_window {base x y : UInt32} (hx : (x - base).toNat < 2 ^ 31)
    (hy : (y - base).toNat < 2 ^ 31) :
    tidGeq x y = true ↔ (y - base).toNat ≤ (x - base).toNat := by
  have h₁ := UInt32.toNat_sub x base
  have h₂ := UInt32.toNat_sub y base
  have h₃ := UInt32.toNat_sub x y
  have := UInt32.toNat_lt x
  have := UInt32.toNat_lt y
  have := UInt32.toNat_lt base
  simp only [tidGeq, decide_eq_true_eq]
  omega

end OptFs.Jbd
