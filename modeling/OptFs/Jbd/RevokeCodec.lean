import OptFs.Jbd.RevokeWrite
import OptFs.Jbd.Recovery
import OptFs.Lib.Trace

/-!
# The revoke-record codec (`revoke.c`, `recovery.c`)

The commit writes the committing transaction's revoke records into revoke blocks
(`jbdbf_journal_write_revoke_records`), and recovery reads them back block by block with
`scan_revoke_records`. The two sides share only the block layout: a 16-byte revoke header
whose `r_count` is the number of bytes in use, then records of 4 bytes, or of 8 with
`JBD2_FEATURE_INCOMPAT_64BIT`. The writer fills a block until `offset == j_blocksize`; the
reader takes records while `offset + record_len <= r_count`.

For every block size a file system can be mounted with (a power of two from 1 KiB to
64 KiB, so a record never straddles the end of a block) the two agree
(`revoke_records_round_trip`): every block written carries the committing transaction's
header, and scanning them all revokes exactly the records written, each in the committing
transaction. Records wider than the format keep their low bits (`RevokeWriter.Wf` tracks
what the reader will see).

The proof follows the writer's loop with the invariant `RevokeWriter.Wf`: the flushed blocks
hold a prefix of the records block by block, each with `r_count` covering exactly its
records, and the open block holds the rest from byte 16 on.
-/

namespace OptFs.Jbd

open Lib.ByteImage Lib.Trace

/-! ## Block sizes -/

/-- The block sizes a file system can be mounted with: `ext4bf_fill_super` takes
`BLOCK_SIZE << s_log_block_size` and refuses one outside `EXT4_MIN_BLOCK_SIZE` ..
`EXT4_MAX_BLOCK_SIZE`. The journal's `j_blocksize` is the file system's block size. -/
def ValidBlocksize (blocksize : Nat) : Prop :=
  ∃ sLogBlockSize : Nat,
    blocksize = 1024 <<< sLogBlockSize ∧ 1024 ≤ blocksize ∧ blocksize ≤ 65536

theorem ValidBlocksize.eight_dvd {blocksize : Nat} (h : ValidBlocksize blocksize) :
    8 ∣ blocksize := by
  obtain ⟨l, rfl, -, -⟩ := h
  rw [Nat.shiftLeft_eq]
  exact Dvd.dvd.mul_right (by norm_num) _

/-! ## Records -/

/-- The record `scan_revoke_records` loads at `offset`: a big-endian word of 8 bytes with
`INCOMPAT_64BIT`, else of 4. -/
def readRevokeRecord (rec64 : Bool) (img : Image) (offset : Nat) : Nat :=
  if rec64 then (read64 img offset).toNat else (read32 img offset).toNat

/-- The block numbers a record holds whole: `cpu_to_be64` or `cpu_to_be32` of
`record->blocknr` keeps the low 64 or 32 bits. -/
def revokeRecordLimit (rec64 : Bool) : Nat := if rec64 then 2 ^ 64 else 2 ^ 32

/-- The store of `write_one_revoke_record`: `blocknr` big-endian at `offset`. -/
def storeRevokeRecord (rec64 : Bool) (img : Image) (offset blocknr : Nat) : Image :=
  if rec64 then write64 img offset (UInt64.ofNat blocknr)
  else write32 img offset (UInt32.ofNat blocknr)

theorem putRevokeRecord_eq (rec64 : Bool) (w : RevokeWriter) (dblk : Nat) (img : Image)
    (blocknr : Nat) :
    putRevokeRecord rec64 w dblk img blocknr =
      { w with descriptor := some (dblk, storeRevokeRecord rec64 img w.offset blocknr),
               offset := w.offset + revokeRecordLen rec64 } := by
  unfold putRevokeRecord storeRevokeRecord revokeRecordLen
  cases rec64 <;> rfl

section Record

variable {rec64 : Bool} {img img' : Image} {o o' : Nat}

theorem readRevokeRecord_congr
    (h : ∀ i, o ≤ i → i < o + revokeRecordLen rec64 → img i = img' i) :
    readRevokeRecord rec64 img o = readRevokeRecord rec64 img' o := by
  cases rec64
  · have h4 : ∀ i, o ≤ i → i < o + 4 → img i = img' i := h
    simp only [readRevokeRecord, Bool.false_eq_true, if_false]
    rw [read32_congr h4]
  · have h8 : ∀ i, o ≤ i → i < o + 8 → img i = img' i := h
    simp only [readRevokeRecord, if_true]
    rw [read64_congr h8]

/-- The store leaves every byte before `offset` alone. -/
theorem storeRevokeRecord_apply_of_lt (blocknr : Nat) {i : Nat} (hi : i < o) :
    storeRevokeRecord rec64 img o blocknr i = img i := by
  unfold storeRevokeRecord
  split
  · exact write64_apply_of_not_mem img o _ (Or.inl hi)
  · exact write32_apply_of_not_mem img o _ (Or.inl hi)

/-- A record reads back modulo the width of the format. -/
theorem readRevokeRecord_store_same (blocknr : Nat) :
    readRevokeRecord rec64 (storeRevokeRecord rec64 img o blocknr) o =
      blocknr % revokeRecordLimit rec64 := by
  unfold readRevokeRecord storeRevokeRecord revokeRecordLimit
  cases rec64
  · simp
  · simp

theorem readRevokeRecord_store_of_le (blocknr : Nat) (h : o' + revokeRecordLen rec64 ≤ o) :
    readRevokeRecord rec64 (storeRevokeRecord rec64 img o blocknr) o' =
      readRevokeRecord rec64 img o' :=
  readRevokeRecord_congr fun _ _ hi => storeRevokeRecord_apply_of_lt blocknr (by omega)

theorem read32_store_of_le (blocknr : Nat) (h : o' + 4 ≤ o) :
    read32 (storeRevokeRecord rec64 img o blocknr) o' = read32 img o' :=
  read32_congr fun _ _ hi => storeRevokeRecord_apply_of_lt blocknr (by omega)

end Record

/-! ## The reader -/

/-- `scan_revoke_records` from `offset` with `r_count` just past `rs`, records of the
journal's width laid out one after another: it revokes `rs` in order. -/
theorem scanRevokeRecordsFrom_records (j : RecoveryJournal) (img : Image) (sequence : UInt32) :
    ∀ (rs : List Nat) (o : Nat) (t : RevokeTable),
      (∀ i (hi : i < rs.length), readRevokeRecord j.incompat64bit img (o + j.recordLen * i) = rs[i]) →
      scanRevokeRecordsFrom j img sequence ((o + j.recordLen * rs.length : Nat) : Int) t o =
        rs.foldl (fun t b => jbdbfJournalSetRevoke t b sequence) t
  | [], o, t, _ => by
    have hlen : 0 < j.recordLen := by unfold RecoveryJournal.recordLen; split <;> omega
    rw [List.length_nil, Nat.mul_zero, Nat.add_zero, scanRevokeRecordsFrom, dif_neg (by omega)]
    rfl
  | b :: rs, o, t, hrs => by
    -- The first record lies within `r_count`; the rest start one record further on.
    have hb : readRevokeRecord j.incompat64bit img o = b := by
      have h0 := hrs 0 (by simp)
      rwa [Nat.mul_zero, Nat.add_zero] at h0
    have hrest : ∀ i (hi : i < rs.length),
        readRevokeRecord j.incompat64bit img (o + j.recordLen + j.recordLen * i) = rs[i] := by
      intro i hi
      have hi' := hrs (i + 1) (by simp; omega)
      rwa [show o + j.recordLen * (i + 1) = o + j.recordLen + j.recordLen * i by ring] at hi'
    have hfirst : j.recordLen ≤ j.recordLen * (b :: rs).length :=
      Nat.le_mul_of_pos_right _ (by simp)
    rw [scanRevokeRecordsFrom, dif_pos (by omega)]
    have hend : o + j.recordLen * (b :: rs).length = o + j.recordLen + j.recordLen * rs.length := by
      simp
      ring
    rw [hend, List.foldl_cons, ← scanRevokeRecordsFrom_records j img sequence rs _ _ hrest]
    unfold readRevokeRecord at hb
    rw [hb]

/-! ## Revoke blocks -/

section Blocks

variable (env : CommitEnv) (rec64 : Bool)

/-- A revoke block of the committing transaction holding `rs`, one record after another
from the end of the revoke header. -/
structure HoldsRecords (img : Image) (rs : List Nat) : Prop where
  magic : read32 img 0 = jbd2MagicNumber
  blocktype : read32 img 4 = jbd2RevokeBlock
  sequence : read32 img 8 = env.tid
  record : ∀ i (hi : i < rs.length),
    readRevokeRecord rec64 img (sizeofRevokeHeader + revokeRecordLen rec64 * i) = rs[i]

/-- The block being filled: it holds `cur`, and `offset` is the end of its last record,
within the block. -/
structure OpenRevokeBlock (img : Image) (offset : Nat) (cur : List Nat) : Prop
    extends HoldsRecords env rec64 img cur where
  offset_eq : offset = sizeofRevokeHeader + revokeRecordLen rec64 * cur.length
  offset_le : offset ≤ env.bSize

/-- A flushed block: it holds `rs`, and `r_count` is the bytes they take. -/
structure SealedRevokeBlock (img : Image) (rs : List Nat) : Prop
    extends HoldsRecords env rec64 img rs where
  rCount : read32 img sizeofJournalBfHeader =
    UInt32.ofNat (sizeofRevokeHeader + revokeRecordLen rec64 * rs.length)
  fits : sizeofRevokeHeader + revokeRecordLen rec64 * rs.length ≤ env.bSize

variable {env rec64}

/-- The fresh block of `write_one_revoke_record`: a zeroed buffer with the revoke header,
`offset` after it. -/
theorem openRevokeBlock_fresh (hbs : ValidBlocksize env.bSize) :
    OpenRevokeBlock env rec64 (writeHeader zero jbd2RevokeBlock env.tid) sizeofRevokeHeader [] where
  magic := read32_writeHeader_magic _ _ _
  blocktype := read32_writeHeader_blocktype _ _ _
  sequence := read32_writeHeader_sequence _ _ _
  record i hi := absurd hi (Nat.not_lt_zero i)
  offset_eq := by simp
  offset_le := by
    obtain ⟨_, _, hge, _⟩ := hbs
    unfold sizeofRevokeHeader
    omega

/-- Every record of the open block ends at or before `offset`. -/
theorem OpenRevokeBlock.record_end {img : Image} {offset : Nat} {cur : List Nat}
    (h : OpenRevokeBlock env rec64 img offset cur) {i : Nat} (hi : i < cur.length) :
    sizeofRevokeHeader + revokeRecordLen rec64 * i + revokeRecordLen rec64 ≤ offset := by
  have hmul := Nat.mul_le_mul_left (revokeRecordLen rec64) (Nat.succ_le_of_lt hi)
  rw [Nat.mul_succ] at hmul
  rw [h.offset_eq]
  omega

/-- Storing a record at `offset`, with room for it, adds it to the open block. -/
theorem OpenRevokeBlock.store {img : Image} {offset : Nat} {cur : List Nat}
    (h : OpenRevokeBlock env rec64 img offset cur) (blocknr : Nat)
    (hroom : offset + revokeRecordLen rec64 ≤ env.bSize) :
    OpenRevokeBlock env rec64 (storeRevokeRecord rec64 img offset blocknr)
      (offset + revokeRecordLen rec64) (cur ++ [blocknr % revokeRecordLimit rec64]) := by
  -- The header words end at byte 12, before the first record.
  have hhdr : 12 ≤ offset := by
    have h16 : sizeofRevokeHeader = 16 := rfl
    rw [h.offset_eq]
    omega
  refine ⟨⟨?_, ?_, ?_, ?_⟩, ?_, hroom⟩
  · rw [read32_store_of_le blocknr (by omega), h.magic]
  · rw [read32_store_of_le blocknr (by omega), h.blocktype]
  · rw [read32_store_of_le blocknr (by omega), h.sequence]
  · intro i hi
    rw [List.length_append, List.length_singleton] at hi
    rcases Nat.lt_succ_iff_lt_or_eq.mp hi with hlt | rfl
    · rw [readRevokeRecord_store_of_le blocknr (h.record_end hlt), h.record i hlt,
        List.getElem_append_left]
    · rw [← h.offset_eq, readRevokeRecord_store_same, List.getElem_append_right (by simp)]
      simp
  · rw [h.offset_eq, List.length_append, List.length_singleton, Nat.mul_succ, Nat.add_assoc]

/-- `flush_descriptor`: storing `r_count = offset` and writing the block out seals it. -/
theorem OpenRevokeBlock.seal {img : Image} {offset : Nat} {cur : List Nat}
    (h : OpenRevokeBlock env rec64 img offset cur) :
    SealedRevokeBlock env rec64
      (truncate env.bSize (write32 img sizeofJournalBfHeader (UInt32.ofNat offset))) cur := by
  have h12 : sizeofJournalBfHeader = 12 := rfl
  have h16 : sizeofRevokeHeader = 16 := rfl
  have hle := h.offset_le
  have heq := h.offset_eq
  refine ⟨⟨?_, ?_, ?_, ?_⟩, ?_, heq ▸ hle⟩
  · rw [read32_truncate _ (by omega), read32_write32_of_disjoint _ _ (by omega), h.magic]
  · rw [read32_truncate _ (by omega), read32_write32_of_disjoint _ _ (by omega), h.blocktype]
  · rw [read32_truncate _ (by omega), read32_write32_of_disjoint _ _ (by omega), h.sequence]
  · intro i hi
    -- Record `i` lies between the end of `r_count` and the end of the block.
    have hend := h.record_end hi
    rw [← h.record i hi]
    apply readRevokeRecord_congr
    intro k hk hk'
    rw [truncate_apply_of_lt _ (by omega), write32_apply_of_not_mem _ _ _ (by omega)]
  · rw [read32_truncate _ (by omega), read32_write32_same, h.offset_eq]

/-- With `r_count` read back as the signed `max` of `scan_revoke_records`, a sealed block
revokes its records in order. -/
theorem SealedRevokeBlock.scan {j : RecoveryJournal} {img : Image} {rs : List Nat}
    (h : SealedRevokeBlock env j.incompat64bit img rs) (hbs : ValidBlocksize env.bSize)
    (sequence : UInt32) (t : RevokeTable) :
    scanRevokeRecords j img sequence t =
      rs.foldl (fun t b => jbdbfJournalSetRevoke t b sequence) t := by
  have hsmall : sizeofRevokeHeader + revokeRecordLen j.incompat64bit * rs.length < 2 ^ 31 := by
    obtain ⟨_, _, _, hle⟩ := hbs
    have := h.fits
    omega
  unfold scanRevokeRecords
  rw [h.rCount, UInt32.toInt32_ofNat', Int32.toInt_ofNat_of_lt hsmall]
  exact scanRevokeRecordsFrom_records j img sequence rs _ t h.record

/-- A block size has room for one more record wherever the open block is not full: records
of 4 or 8 bytes after a 16-byte header tile a block of a multiple of 8 bytes. -/
theorem OpenRevokeBlock.room {img : Image} {offset : Nat} {cur : List Nat}
    (h : OpenRevokeBlock env rec64 img offset cur) (hbs : ValidBlocksize env.bSize)
    (hne : offset ≠ env.bSize) : offset + revokeRecordLen rec64 ≤ env.bSize := by
  have h8 := hbs.eight_dvd
  have hle := h.offset_le
  have heq := h.offset_eq
  have h16 : sizeofRevokeHeader = 16 := rfl
  have hlen : revokeRecordLen rec64 = 4 ∨ revokeRecordLen rec64 = 8 := by
    unfold revokeRecordLen
    cases rec64 <;> simp
  rcases hlen with hlen | hlen
  · rw [hlen] at heq ⊢
    omega
  · rw [hlen] at heq ⊢
    omega

/-- The first record of a fresh block fits. -/
theorem openRevokeBlock_fresh_store (hbs : ValidBlocksize env.bSize) (blocknr : Nat) :
    OpenRevokeBlock env rec64
      (storeRevokeRecord rec64 (writeHeader zero jbd2RevokeBlock env.tid) sizeofRevokeHeader
        blocknr)
      (sizeofRevokeHeader + revokeRecordLen rec64) [blocknr % revokeRecordLimit rec64] := by
  have hfresh : OpenRevokeBlock env rec64 (writeHeader zero jbd2RevokeBlock env.tid)
      sizeofRevokeHeader [] := openRevokeBlock_fresh hbs
  apply hfresh.store blocknr
  obtain ⟨_, _, hge, _⟩ := hbs
  have h16 : sizeofRevokeHeader = 16 := rfl
  have hlen : revokeRecordLen rec64 ≤ 8 := by
    unfold revokeRecordLen
    split <;> omega
  omega

end Blocks

/-! ## The writer -/

/-- What holds of the writer once it has taken records that the reader will see as `done`:
the flushed blocks hold `done` block by block, then the open block holds the rest. Before the
first record there is no block at all. -/
def RevokeWriter.Wf (env : CommitEnv) (rec64 : Bool) (done : List Nat) (w : RevokeWriter) :
    Prop :=
  ∃ blocks : List (List Nat),
    List.Forall₂ (fun p rs => SealedRevokeBlock env rec64 p.2 rs) w.written blocks ∧
    match w.descriptor with
    | none => done = [] ∧ blocks = []
    | some (_, img) =>
      ∃ cur, done = blocks.flatten ++ cur ∧ OpenRevokeBlock env rec64 img w.offset cur

section Writer

variable {env : CommitEnv} {rec64 : Bool}

/-- One step of the loop, `write_one_revoke_record`, in each of its three cases. -/
theorem RevokeWriter.Wf.writeOne {done : List Nat} {w w' : RevokeWriter}
    (h : RevokeWriter.Wf env rec64 done w) (hbs : ValidBlocksize env.bSize) (blocknr : Nat)
    (hstep : writeOneRevokeRecord env rec64 w blocknr = some w') :
    RevokeWriter.Wf env rec64 (done ++ [blocknr % revokeRecordLimit rec64]) w' := by
  obtain ⟨blocks, hwritten, hdesc⟩ := h
  rcases w with ⟨log, _ | ⟨dblk, img⟩, offset, written⟩
  · -- The first record opens the first block.
    obtain ⟨rfl, rfl⟩ := hdesc
    rw [writeOneRevokeRecord_of_none env rec64 rfl] at hstep
    obtain ⟨n, -, rfl⟩ := Option.map_eq_some_iff.mp hstep
    rw [putRevokeRecord_eq]
    exact ⟨[], hwritten, _, by simp, openRevokeBlock_fresh_store hbs blocknr⟩
  · obtain ⟨cur, rfl, hopen⟩ := hdesc
    by_cases hfull : offset = env.bSize
    · -- A full block is flushed, and the record opens the next one.
      rw [writeOneRevokeRecord_of_full env rec64 rfl hfull] at hstep
      obtain ⟨n, -, rfl⟩ := Option.map_eq_some_iff.mp hstep
      rw [putRevokeRecord_eq]
      exact ⟨blocks ++ [cur], List.rel_append hwritten (List.Forall₂.cons hopen.seal .nil), _,
        by simp, openRevokeBlock_fresh_store hbs blocknr⟩
    · -- Otherwise the record goes into the open block.
      rw [writeOneRevokeRecord_of_room env rec64 rfl hfull] at hstep
      cases Option.some.inj hstep
      rw [putRevokeRecord_eq]
      exact ⟨blocks, hwritten, _, by simp, hopen.store blocknr (hopen.room hbs hfull)⟩

/-- The whole of `jbdbf_journal_write_revoke_records` from no block: the blocks it writes
are sealed revoke blocks that hold, block by block, the records as the format keeps them. -/
theorem jbdbfJournalWriteRevokeRecords_sealed {log : Log} {records : List Nat}
    {w : RevokeWriter} (hbs : ValidBlocksize env.bSize)
    (hw : jbdbfJournalWriteRevokeRecords env rec64 ⟨log, none, 0, []⟩ records = some w) :
    ∃ blocks : List (List Nat),
      List.Forall₂ (fun p rs => SealedRevokeBlock env rec64 p.2 rs) w.written blocks ∧
      records.map (· % revokeRecordLimit rec64) = blocks.flatten := by
  unfold jbdbfJournalWriteRevokeRecords at hw
  obtain ⟨w₁, hrun, rfl⟩ := Option.map_eq_some_iff.mp hw
  -- The loop keeps the invariant over the records taken so far.
  have hwf : RevokeWriter.Wf env rec64 (([] ++ records).map (· % revokeRecordLimit rec64)) w₁ := by
    refine foldlM_some_inv (P := fun done w => RevokeWriter.Wf env rec64
      (done.map (· % revokeRecordLimit rec64)) w) ?_ records [] ⟨log, none, 0, []⟩ w₁
      ⟨[], .nil, rfl, rfl⟩ hrun
    intro done s x s' hs hx
    rw [List.map_append, List.map_singleton]
    exact hs.writeOne hbs x hx
  rw [List.nil_append] at hwf
  -- The last block, if any, is flushed.
  rcases w₁ with ⟨log₁, _ | ⟨dblk, img⟩, offset, written⟩
  · obtain ⟨blocks, hwritten, hnil, rfl⟩ := hwf
    exact ⟨[], hwritten, hnil⟩
  · obtain ⟨blocks, hwritten, cur, hdone, hopen⟩ := hwf
    exact ⟨blocks ++ [cur], List.rel_append hwritten (List.Forall₂.cons hopen.seal .nil),
      by simpa using hdone⟩

end Writer

/-! ## What recovery builds from the blocks -/

/-- Revoking a block again in the transaction that already revokes it, or for the first
time, records that transaction. -/
theorem jbdbfJournalSetRevoke_of_none_or_eq {t : RevokeTable} {blocknr : Nat}
    {sequence : UInt32} (h : t blocknr = none ∨ t blocknr = some sequence) :
    jbdbfJournalSetRevoke t blocknr sequence = Function.update t blocknr (some sequence) := by
  unfold jbdbfJournalSetRevoke
  rcases h with h | h
  · rw [h]
  · have hgt : tidGt sequence sequence = false := by simp [tidGt]
    rw [h]
    dsimp only
    rw [hgt, if_neg Bool.false_ne_true]
    exact (Function.update_eq_self_iff.mpr h.symm).symm

/-- Revoking a list of blocks, all in one transaction, into a table that holds no other
transaction: a block ends up revoked in it exactly when it is listed or was already. -/
theorem setRevokes_apply_of_none_or_eq (sequence : UInt32) :
    ∀ (rs : List Nat) (t : RevokeTable), (∀ b, t b = none ∨ t b = some sequence) →
      ∀ b, rs.foldl (fun t x => jbdbfJournalSetRevoke t x sequence) t b =
        if b ∈ rs then some sequence else t b
  | [], t, _, b => by simp
  | x :: rs, t, ht, b => by
    rw [List.foldl_cons, jbdbfJournalSetRevoke_of_none_or_eq (ht x)]
    -- The updated table still holds only `sequence`.
    have ht' : ∀ b, Function.update t x (some sequence) b = none ∨
        Function.update t x (some sequence) b = some sequence := by
      intro b
      by_cases hb : b = x
      · rw [hb, Function.update_self]
        exact Or.inr rfl
      · rw [Function.update_of_ne hb]
        exact ht b
    rw [setRevokes_apply_of_none_or_eq sequence rs _ ht' b]
    by_cases hb : b = x
    · subst hb
      rw [Function.update_self, if_pos List.mem_cons_self, ite_self]
    · rw [Function.update_of_ne hb]
      simp only [List.mem_cons, hb, false_or]

/-- Scanning sealed blocks one after another revokes their records in order. -/
theorem scanRevokeRecords_sealed {env : CommitEnv} {j : RecoveryJournal}
    (hbs : ValidBlocksize env.bSize) (sequence : UInt32) {written : List (Nat × Image)}
    {blocks : List (List Nat)}
    (h : List.Forall₂ (fun p rs => SealedRevokeBlock env j.incompat64bit p.2 rs) written blocks)
    (t : RevokeTable) :
    written.foldl (fun t p => scanRevokeRecords j p.2 sequence t) t =
      blocks.flatten.foldl (fun t b => jbdbfJournalSetRevoke t b sequence) t := by
  induction h generalizing t with
  | nil => rfl
  | cons hsealed _ ih =>
    rw [List.foldl_cons, hsealed.scan hbs, List.flatten_cons, List.foldl_append, ih]

theorem SealedRevokeBlock.headers {env : CommitEnv} {rec64 : Bool} {written : List (Nat × Image)}
    {blocks : List (List Nat)}
    (h : List.Forall₂ (fun p rs => SealedRevokeBlock env rec64 p.2 rs) written blocks) :
    ∀ p ∈ written, read32 p.2 0 = jbd2MagicNumber ∧ read32 p.2 4 = jbd2RevokeBlock ∧
      read32 p.2 8 = env.tid := by
  induction h with
  | nil => exact fun p hp => absurd hp List.not_mem_nil
  | cons hsealed _ ih =>
    intro p hp
    rcases List.mem_cons.mp hp with rfl | hp
    · exact ⟨hsealed.magic, hsealed.blocktype, hsealed.sequence⟩
    · exact ih p hp

/-- The revoke records written by the commit read back in recovery: every block written is
a revoke block of the committing transaction, and scanning them all from an empty table
revokes exactly the records written (within the format's width), each in the committing
transaction. The writer's record width and the reader's are both the journal's
`INCOMPAT_64BIT`. -/
theorem revoke_records_round_trip (j : RecoveryJournal) (env : CommitEnv) (log : Log)
    (records : List Nat) {w : RevokeWriter} (hbs : ValidBlocksize env.bSize)
    (hrange : ∀ b ∈ records, b < revokeRecordLimit j.incompat64bit)
    (hw : jbdbfJournalWriteRevokeRecords env j.incompat64bit ⟨log, none, 0, []⟩ records =
      some w) :
    (∀ p ∈ w.written, read32 p.2 0 = jbd2MagicNumber ∧ read32 p.2 4 = jbd2RevokeBlock ∧
      read32 p.2 8 = env.tid) ∧
    ∀ b, w.written.foldl (fun t p => scanRevokeRecords j p.2 env.tid t) (fun _ => none) b =
      if b ∈ records then some env.tid else none := by
  obtain ⟨blocks, hblocks, hflat⟩ := jbdbfJournalWriteRevokeRecords_sealed hbs hw
  -- Records within the format's width are stored whole.
  have hwhole : records.map (· % revokeRecordLimit j.incompat64bit) = records := by
    rw [List.map_congr_left fun b hb => Nat.mod_eq_of_lt (hrange b hb), List.map_id']
  refine ⟨SealedRevokeBlock.headers hblocks, fun b => ?_⟩
  rw [scanRevokeRecords_sealed hbs env.tid hblocks, ← hflat, hwhole,
    setRevokes_apply_of_none_or_eq env.tid records _ (fun _ => Or.inl rfl)]

/-- A journal of 1 KiB blocks with 4-byte revoke records. -/
def revokeJournal : RecoveryJournal where
  jFirst := 1
  jLast := 1024
  jBlocksize := 1024
  sStart := 1
  sSequence := 7
  incompat64bit := false

/-- The commit of transaction 7 on that journal. -/
def revokeCommitEnv : CommitEnv := ⟨1024, 7, zero⟩

/-- Its log, empty. -/
def revokeLog : Log := ⟨1, 1024, 1, 1, 1023⟩

/-- 253 records: a full first block of 252 and one in a second block. -/
theorem revoke_records_round_trip_twoBlocks :
    ValidBlocksize revokeCommitEnv.bSize ∧
    (∀ b ∈ List.range 253, b < revokeRecordLimit revokeJournal.incompat64bit) ∧
    ∃ w, jbdbfJournalWriteRevokeRecords revokeCommitEnv revokeJournal.incompat64bit
        ⟨revokeLog, none, 0, []⟩ (List.range 253) = some w ∧
      w.written.length = 2 ∧
      (∀ p ∈ w.written, read32 p.2 0 = jbd2MagicNumber ∧ read32 p.2 4 = jbd2RevokeBlock ∧
        read32 p.2 8 = revokeCommitEnv.tid) ∧
      ∀ b, w.written.foldl (fun t p => scanRevokeRecords revokeJournal p.2 revokeCommitEnv.tid t)
        (fun _ => none) b = if b ∈ List.range 253 then some revokeCommitEnv.tid else none := by
  have hbs : ValidBlocksize revokeCommitEnv.bSize := ⟨0, rfl, by decide, by decide⟩
  have hrange : ∀ b ∈ List.range 253, b < revokeRecordLimit revokeJournal.incompat64bit := by
    intro b hb
    have := List.mem_range.mp hb
    unfold revokeRecordLimit revokeJournal
    simp only [Bool.false_eq_true, if_false]
    omega
  -- The writer runs to the end and writes two blocks.
  have hlen : (jbdbfJournalWriteRevokeRecords revokeCommitEnv revokeJournal.incompat64bit
      ⟨revokeLog, none, 0, []⟩ (List.range 253)).map (fun w => w.written.length) = some 2 := by
    decide +kernel
  obtain ⟨w, hw⟩ := Option.map_eq_some_iff.mp hlen
  refine ⟨hbs, hrange, w, hw.1, hw.2,
    revoke_records_round_trip revokeJournal revokeCommitEnv revokeLog _ hbs hrange hw.1⟩

end OptFs.Jbd
