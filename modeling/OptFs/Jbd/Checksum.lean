import OptFs.Jbd.Commit

/-!
# Transactional checksums (`JBD2_FEATURE_COMPAT_CHECKSUM`)

With the checksum feature the commit chains `crc32_be` from `~0` over every block it submits
in phase 5 (`jbdbf_checksum_data` in the `start_journal_io` loop) and stores the value in
`h_chksum[0]` of its commit block. `PASS_SCAN` chains `crc32_be` from `~0` over each
descriptor and the `count_tags` log blocks after it (`calc_chksums`), compares at the commit
block, and starts again from `~0`.

`Commit` and `Recovery` model a journal without the feature; here it is added on both sides:
`commitPhase5Chksum` over the commit loop, and `doOnePassChksumStep`, the `PASS_SCAN` turn of
`do_one_pass` on a journal with the feature.

The results:

* `calc_chksums` over a descriptor whose `count_tags` is the number of copies the log holds
  behind it chains exactly the blocks of that batch (`calcChksums_batch`), and a scan over
  such batches chains what the writer chained (`doOnePassChksumLoop_batches`);
* so a log that holds a transaction batch by batch, each descriptor counting its copies, and
  then the writer's commit block, is passed with the checksum seen
  (`scan_passes_committed_transaction`);
* the commit of `thirtyEightDataTags` submits a descriptor whose `count_tags` misses the copy
  behind it: the value it stores is the scan's value chained on over that copy, and the two
  differ.
-/

namespace OptFs.Jbd

open Lib.ByteImage Lib.Cyclic

/-! ## `crc32_be` (`lib/crc32.c`) -/

/-- `CRCPOLY_BE` (`lib/crc32defs.h`). -/
def crcpolyBe : UInt32 := 0x04c11db7

/-- One turn of the bit loop of `crc32_be` with `CRC_BE_BITS == 1`: shift left, and xor in
the polynomial when the bit shifted out was set. -/
def crc32BeBit (crc : UInt32) : UInt32 :=
  (crc <<< 1) ^^^ (if crc &&& 0x80000000 ≠ 0 then crcpolyBe else 0)

/-- One byte: `crc ^= *p++ << 24`, then eight turns of the bit loop. -/
def crc32BeByte (crc : UInt32) (b : UInt8) : UInt32 :=
  crc32BeBit^[8] (crc ^^^ (b.toUInt32 <<< 24))

/-- `crc32_be(crc, p, len)` over the bytes `p`, in the bitwise form of `CRC_BE_BITS == 1`;
the table-driven forms that the other settings select compute the same function. -/
def crc32Be (crc : UInt32) (p : List UInt8) : UInt32 :=
  p.foldl crc32BeByte crc

@[simp] theorem crc32Be_nil (crc : UInt32) : crc32Be crc [] = crc := rfl

/-- The `b_size` bytes of a buffer from `b_data` on. -/
def bufferBytes (img : Image) (bSize : Nat) : List UInt8 :=
  (List.range bSize).map img

theorem bufferBytes_congr {img img' : Image} {bSize : Nat}
    (h : ∀ i, i < bSize → img i = img' i) : bufferBytes img bSize = bufferBytes img' bSize := by
  unfold bufferBytes
  exact List.map_congr_left fun i hi => h i (List.mem_range.mp hi)

@[simp] theorem bufferBytes_truncate (img : Image) (bSize : Nat) :
    bufferBytes (truncate bSize img) bSize = bufferBytes img bSize :=
  bufferBytes_congr fun _ hi => truncate_apply_of_lt _ hi

/-! ## The writer -/

/-- `jbdbf_checksum_data` as the module's flags build it (`OPT_CHECKSUM_736` and
`OPT_CHECKSUM_FLETCHER` are both 0): `crc32_be` over the buffer. -/
def jbdbfChecksumData (bSize : Nat) (crc32Sum : UInt32) (bh : Image) : UInt32 :=
  crc32Be crc32Sum (bufferBytes bh bSize)

/-- The checksum step of the `start_journal_io` loop, over the submitted buffers in order. -/
def checksumBuffers (bSize : Nat) (crc32Sum : UInt32) (bufs : List (Nat × Image)) : UInt32 :=
  bufs.foldl (fun crc bh => jbdbfChecksumData bSize crc bh.2) crc32Sum

@[simp] theorem checksumBuffers_nil (bSize : Nat) (crc32Sum : UInt32) :
    checksumBuffers bSize crc32Sum [] = crc32Sum := rfl

theorem checksumBuffers_cons (bSize : Nat) (crc32Sum : UInt32) (bh : Nat × Image)
    (bufs : List (Nat × Image)) :
    checksumBuffers bSize crc32Sum (bh :: bufs) =
      checksumBuffers bSize (crc32Be crc32Sum (bufferBytes bh.2 bSize)) bufs := rfl

theorem checksumBuffers_append (bSize : Nat) (crc32Sum : UInt32) (bufs bufs' : List (Nat × Image)) :
    checksumBuffers bSize crc32Sum (bufs ++ bufs') =
      checksumBuffers bSize (checksumBuffers bSize crc32Sum bufs) bufs' :=
  List.foldl_append

/-- The commit block `journal_submit_commit_record` writes with the checksum feature: the
commit header, `h_chksum_type` (byte 12), `h_chksum_size` (byte 13) and `h_chksum[0]`
(the word at 16). -/
def commitRecordChksum (tid crc32Sum : UInt32) : Image :=
  write32 (write8 (write8 (commitRecord tid) 12 jbd2Crc32Chksum) 13 jbd2Crc32ChksumSize) 16
    crc32Sum

@[simp] theorem read32_commitRecordChksum_chksum (tid crc32Sum : UInt32) :
    read32 (commitRecordChksum tid crc32Sum) 16 = crc32Sum :=
  read32_write32_same _ _ _

theorem commitRecordChksum_of_lt (tid crc32Sum : UInt32) {i : Nat} (hi : i < 12) :
    commitRecordChksum tid crc32Sum i = commitRecord tid i := by
  unfold commitRecordChksum
  rw [write32_apply_of_not_mem _ _ _ (by omega), write8_apply, if_neg (by omega), write8_apply,
    if_neg (by omega)]

@[simp] theorem commitRecordChksum_type (tid crc32Sum : UInt32) :
    commitRecordChksum tid crc32Sum 12 = jbd2Crc32Chksum := by
  unfold commitRecordChksum
  rw [write32_apply_of_not_mem _ _ _ (by omega), write8_apply, if_neg (by omega), write8_apply,
    if_pos rfl]

@[simp] theorem commitRecordChksum_size (tid crc32Sum : UInt32) :
    commitRecordChksum tid crc32Sum 13 = jbd2Crc32ChksumSize := by
  unfold commitRecordChksum
  rw [write32_apply_of_not_mem _ _ _ (by omega), write8_apply, if_pos rfl]

/-- The commit block keeps the commit header of `tid`. -/
theorem read32_commitRecordChksum_header (tid crc32Sum : UInt32) {o : Nat} (ho : o + 4 ≤ 12) :
    read32 (commitRecordChksum tid crc32Sum) o = read32 (commitRecord tid) o :=
  read32_congr fun i _ hi => commitRecordChksum_of_lt tid crc32Sum (by omega)

/-- Phase 5 with the checksum feature: the loop of `commitPhase5`, with `crc32_sum` taken
from `~0` over every block the loop submits, in order, and stored in the commit record. -/
def commitPhase5Chksum (env : CommitEnv) (fuel : Nat) (s : CommitState) : Option CommitState :=
  (commitLoop env fuel s).bind fun s' =>
    if s'.tBuffers = [] then
      (jbdbfJournalNextLogBlock s'.log).map fun n =>
        { s' with log := n.1, written := s'.written ++ [(n.2, truncate env.bSize
            (commitRecordChksum env.tid
              (checksumBuffers env.bSize (~~~0) (s'.written.drop s.written.length))))] }
    else none

/-! ## The reader -/

/-- The loop variables of `do_one_pass` in `PASS_SCAN` with the checksum feature: those of
`PassState`, the running `crc32_sum`, and `info->end_transaction`, which a failed commit
checksum sets. -/
structure ChksumPassState extends PassState where
  crc32Sum : UInt32
  endTransaction : UInt32

/-- How one turn of the loop ends: back to the top, or out to `done`. -/
inductive ChksumStepResult
  | next (s : ChksumPassState)
  | done (s : ChksumPassState)

/-- What the loop does after a turn: stop at `done`, else go on with `k`. -/
def ChksumStepResult.proceed (k : ChksumPassState → Option ChksumPassState) :
    ChksumStepResult → Option ChksumPassState
  | .done s => some s
  | .next s => k s

section Scan

variable (j : RecoveryJournal) (log : Nat → Image)

/-- The loop of `calc_chksums`: `n` log blocks from `next_log_block` on, each chained into
`crc32_sum`, with `next_log_block` moved on and wrapped after each. -/
def chksumLogBlocks : Nat → Nat × UInt32 → Nat × UInt32
  | 0, acc => acc
  | n + 1, (nextLogBlock, crc32Sum) =>
    chksumLogBlocks n (wrap j.jFirst j.jLast (nextLogBlock + 1),
      crc32Be crc32Sum (bufferBytes (log nextLogBlock) j.jBlocksize))

/-- `calc_chksums`: the descriptor, then the `count_tags` log blocks after it. The read
error path is left out, as `jread` is in `Recovery`. -/
def calcChksums (bh : Image) (nextLogBlock : Nat) (crc32Sum : UInt32) : Nat × UInt32 :=
  chksumLogBlocks j log (countTags bh j.jBlocksize)
    (nextLogBlock, crc32Be crc32Sum (bufferBytes bh j.jBlocksize))

variable (csum : Image → UInt32) (asyncCommit : Bool)

/-- One turn of the `do_one_pass` loop in `PASS_SCAN` on a journal with the checksum feature
(`asyncCommit` is `JBD2_FEATURE_INCOMPAT_ASYNC_COMMIT`). The `break`s of the commit case
leave the `switch` only: the loop goes on at the next block with the same `next_commit_ID`.
`j_failed_commit`, which recovery does not read, is left out. -/
def doOnePassChksumStep (s : ChksumPassState) : ChksumStepResult :=
  let bh := log s.nextLogBlock
  let s := { s with nextLogBlock := wrap j.jFirst j.jLast (s.nextLogBlock + 1) }
  if read32 bh 0 ≠ jbd2MagicNumber then .done s
  else if read32 bh 8 ≠ s.nextCommitId then .done s
  else
    let blocktype := read32 bh 4
    if blocktype = jbd2DescriptorBlock then
      let s := { s with dc := readAndVerifyChecksums j csum s.fs bh s.dc s.nextCommitId }
      if s.endTransaction = 0 then
        let r := calcChksums j log bh s.nextLogBlock s.crc32Sum
        .next { s with nextLogBlock := r.1, crc32Sum := r.2 }
      else
        .next { s with
          nextLogBlock := wrap j.jFirst j.jLast (s.nextLogBlock + countTags bh j.jBlocksize) }
    else if blocktype = jbd2CommitBlock then
      if s.endTransaction ≠ 0 then .next s
      else
        let foundChksum := read32 bh 16
        let chksumSeen := s.crc32Sum = foundChksum ∧ bh 12 = jbd2Crc32Chksum ∧
          bh 13 = jbd2Crc32ChksumSize
        if ¬chksumSeen ∧ ¬(bh 12 = 0 ∧ bh 13 = 0 ∧ foundChksum = 0) then
          if asyncCommit then
            .next { s with endTransaction := s.nextCommitId, crc32Sum := ~~~0,
                           nextCommitId := s.nextCommitId + 1 }
          else .next { s with endTransaction := s.nextCommitId }
        else .next { s with crc32Sum := ~~~0, nextCommitId := s.nextCommitId + 1 }
    else if blocktype = jbd2RevokeBlock then .next s
    else .done s

/-- The `while (1)` loop, for at most `fuel` turns. (The turn's result is passed to
`proceed` rather than matched on here: the equations of a `match` on it would have Lean
evaluate `read32` of an unknown block.) -/
def doOnePassChksumLoop : Nat → ChksumPassState → Option ChksumPassState
  | 0, _ => none
  | fuel + 1, s => (doOnePassChksumStep j log csum asyncCommit s).proceed (doOnePassChksumLoop fuel)

/-- `do_one_pass` in `PASS_SCAN` with the checksum feature, from the superblock's `s_start`
and `s_sequence`, `crc32_sum = ~0` and the `info` that `jbdbf_journal_recover` zeroes. At
`done` the end of the log is the oldest transaction with a data-checksum mismatch, else the
one a failed commit checksum marked, else where the scan stopped. -/
def doOnePassChksumScan (fs : Nat → Image) (fuel : Nat) : Option RecoveryInfo :=
  (doOnePassChksumLoop j log csum asyncCommit fuel
      ⟨⟨j.sSequence, j.sStart, initDcStruct, fun _ => none, fs⟩, ~~~0, 0⟩).map
      fun (s : ChksumPassState) =>
    match isDatachecksumErr s.dc with
    | some e => ⟨j.sSequence, e.1⟩
    | none => ⟨j.sSequence, if s.endTransaction = 0 then s.nextCommitId else s.endTransaction⟩

/-! ## What the log holds -/

/-- Where `next_log_block` stands after `n` blocks from `p`: `next_log_block++`, then `wrap`,
`n` times. -/
def advance : Nat → Nat → Nat
  | p, 0 => p
  | p, n + 1 => advance (wrap j.jFirst j.jLast (p + 1)) n

theorem advance_add (p m n : Nat) : advance j p (m + n) = advance j (advance j p m) n := by
  induction m generalizing p with
  | zero => rw [Nat.zero_add]; rfl
  | succ m ih =>
    rw [Nat.succ_add]
    exact ih _

/-- The log holds `bufs` one after another from position `p`, with wrap-around. -/
def LogHolds : Nat → List (Nat × Image) → Prop
  | _, [] => True
  | p, bh :: bufs => log p = bh.2 ∧ LogHolds (wrap j.jFirst j.jLast (p + 1)) bufs

theorem logHolds_append : ∀ {p : Nat} {bufs bufs' : List (Nat × Image)},
    LogHolds j log p (bufs ++ bufs') ↔
      LogHolds j log p bufs ∧ LogHolds j log (advance j p bufs.length) bufs'
  | p, [], bufs' => by simp [LogHolds, advance]
  | p, bh :: bufs, bufs' => by
    simp only [List.cons_append, LogHolds, List.length_cons, advance]
    rw [logHolds_append, and_assoc]

/-- `calc_chksums`' loop over blocks the log holds chains them as the writer did. -/
theorem chksumLogBlocks_of_holds : ∀ {p : Nat} {bufs : List (Nat × Image)},
    LogHolds j log p bufs → ∀ crc32Sum,
      chksumLogBlocks j log bufs.length (p, crc32Sum) =
        (advance j p bufs.length, checksumBuffers j.jBlocksize crc32Sum bufs)
  | _, [], _, _ => rfl
  | p, bh :: bufs, ⟨hp, hbufs⟩, crc32Sum => by
    rw [List.length_cons, chksumLogBlocks, chksumLogBlocks_of_holds hbufs, checksumBuffers_cons,
      hp]
    rfl

/-- A batch of `start_journal_io`: a descriptor block and the log copies submitted behind it. -/
structure Batch where
  descriptor : Nat × Image
  copies : List (Nat × Image)

/-- The batch's blocks, in the order they are submitted. -/
def Batch.blocks (b : Batch) : List (Nat × Image) := b.descriptor :: b.copies

/-- A batch the scan reads as the writer meant it for transaction `tid`: a descriptor header,
and a `count_tags` that counts the copies. -/
structure Batch.Counted (b : Batch) (bSize : Nat) (tid : UInt32) : Prop where
  magic : read32 b.descriptor.2 0 = jbd2MagicNumber
  sequence : read32 b.descriptor.2 8 = tid
  blocktype : read32 b.descriptor.2 4 = jbd2DescriptorBlock
  countTags_eq : countTags b.descriptor.2 bSize = b.copies.length

/-- `calc_chksums` over a counted batch the log holds behind the descriptor: the batch's
blocks, chained in submission order. -/
theorem calcChksums_batch {b : Batch} {p : Nat} (hcount : countTags b.descriptor.2 j.jBlocksize = b.copies.length)
    (hcopies : LogHolds j log p b.copies) (crc32Sum : UInt32) :
    calcChksums j log b.descriptor.2 p crc32Sum =
      (advance j p b.copies.length, checksumBuffers j.jBlocksize crc32Sum b.blocks) := by
  unfold calcChksums
  rw [hcount, chksumLogBlocks_of_holds j log hcopies]
  rfl

/-! ## One turn, case by case -/

variable {s : ChksumPassState}

theorem doOnePassChksumLoop_succ_of_next {fuel : Nat} {s' : ChksumPassState}
    (h : doOnePassChksumStep j log csum asyncCommit s = .next s') :
    doOnePassChksumLoop j log csum asyncCommit (fuel + 1) s =
      doOnePassChksumLoop j log csum asyncCommit fuel s' := by
  rw [doOnePassChksumLoop, h, ChksumStepResult.proceed]

theorem doOnePassChksumLoop_succ_of_done {fuel : Nat} {s' : ChksumPassState}
    (h : doOnePassChksumStep j log csum asyncCommit s = .done s') :
    doOnePassChksumLoop j log csum asyncCommit (fuel + 1) s = some s' := by
  rw [doOnePassChksumLoop, h, ChksumStepResult.proceed]

/-- A block without the journal magic ends the scan. -/
theorem doOnePassChksumStep_of_not_magic (hm : read32 (log s.nextLogBlock) 0 ≠ jbd2MagicNumber) :
    doOnePassChksumStep j log csum asyncCommit s =
      .done { s with nextLogBlock := wrap j.jFirst j.jLast (s.nextLogBlock + 1) } := by
  unfold doOnePassChksumStep
  rw [if_pos hm]

/-- A descriptor of the expected transaction, before any checksum failure, goes through
`calc_chksums`. -/
theorem doOnePassChksumStep_descriptor
    (hm : read32 (log s.nextLogBlock) 0 = jbd2MagicNumber)
    (hseq : read32 (log s.nextLogBlock) 8 = s.nextCommitId)
    (htype : read32 (log s.nextLogBlock) 4 = jbd2DescriptorBlock) (hend : s.endTransaction = 0) :
    doOnePassChksumStep j log csum asyncCommit s =
      .next { s with
        dc := readAndVerifyChecksums j csum s.fs (log s.nextLogBlock) s.dc s.nextCommitId,
        nextLogBlock := (calcChksums j log (log s.nextLogBlock)
          (wrap j.jFirst j.jLast (s.nextLogBlock + 1)) s.crc32Sum).1,
        crc32Sum := (calcChksums j log (log s.nextLogBlock)
          (wrap j.jFirst j.jLast (s.nextLogBlock + 1)) s.crc32Sum).2 } := by
  unfold doOnePassChksumStep
  simp only [hm, hseq, htype, hend, ne_eq, not_true_eq_false, if_false, if_true]

/-- The commit block of the expected transaction, carrying the checksum the scan chained, is
seen: the scan goes on to the next transaction from `~0`. -/
theorem doOnePassChksumStep_commit_seen
    (hm : read32 (log s.nextLogBlock) 0 = jbd2MagicNumber)
    (hseq : read32 (log s.nextLogBlock) 8 = s.nextCommitId)
    (htype : read32 (log s.nextLogBlock) 4 = jbd2CommitBlock) (hend : s.endTransaction = 0)
    (hsum : read32 (log s.nextLogBlock) 16 = s.crc32Sum)
    (hkind : log s.nextLogBlock 12 = jbd2Crc32Chksum)
    (hsize : log s.nextLogBlock 13 = jbd2Crc32ChksumSize) :
    doOnePassChksumStep j log csum asyncCommit s =
      .next { s with nextLogBlock := wrap j.jFirst j.jLast (s.nextLogBlock + 1),
                     crc32Sum := ~~~0, nextCommitId := s.nextCommitId + 1 } := by
  have hne : jbd2CommitBlock ≠ jbd2DescriptorBlock := by decide
  unfold doOnePassChksumStep
  simp only [hm, hseq, htype, hend, hsum, hkind, hsize, hne, ne_eq, not_true_eq_false,
    if_false, if_true, and_self, false_and]

/-! ## A transaction read back as it was written -/

/-- The run lemma: over batches the log holds one after another, each counting its copies,
the scan chains every block of them and stays in the transaction. -/
theorem doOnePassChksumLoop_batches : ∀ (bs : List Batch) (s : ChksumPassState),
    (∀ b ∈ bs, b.Counted j.jBlocksize s.nextCommitId) → s.endTransaction = 0 →
    LogHolds j log s.nextLogBlock (bs.flatMap Batch.blocks) → ∀ fuel,
    ∃ s', doOnePassChksumLoop j log csum asyncCommit (bs.length + fuel) s =
        doOnePassChksumLoop j log csum asyncCommit fuel s' ∧
      s'.nextCommitId = s.nextCommitId ∧ s'.endTransaction = 0 ∧
      s'.nextLogBlock = advance j s.nextLogBlock (bs.flatMap Batch.blocks).length ∧
      s'.crc32Sum = checksumBuffers j.jBlocksize s.crc32Sum (bs.flatMap Batch.blocks)
  | [], s, _, hend, _, fuel => ⟨s, by rw [List.length_nil, Nat.zero_add], rfl, hend, rfl, rfl⟩
  | b :: bs, s, hc, hend, hlog, fuel => by
    -- the batch at the head, then the rest from where it ends
    have hb := hc b List.mem_cons_self
    rw [List.flatMap_cons, logHolds_append] at hlog
    obtain ⟨⟨hdesc, hcopies⟩, hrest⟩ := hlog
    have hstep := doOnePassChksumStep_descriptor j log csum asyncCommit
      (by rw [hdesc]; exact hb.magic) (by rw [hdesc]; exact hb.sequence)
      (by rw [hdesc]; exact hb.blocktype) hend
    rw [hdesc, calcChksums_batch j log hb.countTags_eq hcopies] at hstep
    -- the turn over the descriptor leaves the scan behind the batch, with the batch chained
    obtain ⟨s', hrun, hid, hend', hnext, hsum⟩ := doOnePassChksumLoop_batches bs
      { s with dc := readAndVerifyChecksums j csum s.fs b.descriptor.2 s.dc s.nextCommitId,
               nextLogBlock := advance j s.nextLogBlock b.blocks.length,
               crc32Sum := checksumBuffers j.jBlocksize s.crc32Sum b.blocks }
      (fun b' hb' => hc b' (List.mem_cons_of_mem b hb')) hend hrest fuel
    refine ⟨s', ?_, hid, hend', ?_, ?_⟩
    · rw [List.length_cons, Nat.add_right_comm, doOnePassChksumLoop_succ_of_next j log csum
        asyncCommit hstep]
      exact hrun
    · rw [hnext, List.flatMap_cons, List.length_append, advance_add]
    · rw [hsum, List.flatMap_cons, checksumBuffers_append]

/-- A log that holds a transaction batch by batch, every descriptor counting the copies behind
it, and then the commit block the writer makes of those blocks, is read through by the scan:
the checksum is seen, no failure is marked, and the scan goes on to the next transaction
from `~0` past the commit block. -/
theorem scan_passes_committed_transaction (bs : List Batch) (s : ChksumPassState)
    (hc : ∀ b ∈ bs, b.Counted j.jBlocksize s.nextCommitId) (hcrc : s.crc32Sum = ~~~0)
    (hend : s.endTransaction = 0) (hbs : 20 ≤ j.jBlocksize) (cblk : Nat)
    (hlog : LogHolds j log s.nextLogBlock (bs.flatMap Batch.blocks ++ [(cblk,
      truncate j.jBlocksize (commitRecordChksum s.nextCommitId
        (checksumBuffers j.jBlocksize (~~~0) (bs.flatMap Batch.blocks))))]))
    (fuel : Nat) :
    ∃ s', doOnePassChksumLoop j log csum asyncCommit (bs.length + 1 + fuel) s =
        doOnePassChksumLoop j log csum asyncCommit fuel s' ∧
      s'.nextCommitId = s.nextCommitId + 1 ∧ s'.crc32Sum = ~~~0 ∧ s'.endTransaction = 0 ∧
      s'.nextLogBlock = advance j s.nextLogBlock ((bs.flatMap Batch.blocks).length + 1) := by
  rw [logHolds_append] at hlog
  obtain ⟨hbatches, ⟨hcommit, -⟩⟩ := hlog
  obtain ⟨s₁, hrun, hid, hend₁, hnext, hsum⟩ :=
    doOnePassChksumLoop_batches j log csum asyncCommit bs s hc hend hbatches (fuel + 1)
  -- the commit block, read at the position the batches end
  rw [← hnext] at hcommit
  dsimp only at hcommit
  have hhead : ∀ o, o + 4 ≤ 12 → read32 (log s₁.nextLogBlock) o = read32 (commitRecord s₁.nextCommitId) o := by
    intro o ho
    rw [hcommit, read32_truncate _ (by omega), read32_commitRecordChksum_header _ _ ho, hid]
  have hstep := doOnePassChksumStep_commit_seen j log csum asyncCommit
    (by rw [hhead 0 (by omega)]; simp [commitRecord])
    (by rw [hhead 8 (by omega)]; simp [commitRecord])
    (by rw [hhead 4 (by omega)]; simp [commitRecord]) hend₁
    (by rw [hcommit, read32_truncate _ (by omega), read32_commitRecordChksum_chksum, hsum, hcrc])
    (by rw [hcommit, truncate_apply_of_lt _ (by omega), commitRecordChksum_type])
    (by rw [hcommit, truncate_apply_of_lt _ (by omega), commitRecordChksum_size])
  refine ⟨{ s₁ with nextLogBlock := wrap j.jFirst j.jLast (s₁.nextLogBlock + 1),
                    crc32Sum := ~~~0, nextCommitId := s₁.nextCommitId + 1 },
    ?_, by simp [hid], rfl, hend₁, ?_⟩
  · rw [Nat.add_assoc, Nat.add_comm 1 fuel, hrun,
      doOnePassChksumLoop_succ_of_next j log csum asyncCommit hstep]
  · rw [hnext, advance_add]
    rfl

/-- A descriptor of the expected transaction whose `count_tags` is 0, followed in the log by
a block without the journal magic: the scan chains the descriptor alone and stops at that
block, still in the same transaction. -/
theorem doOnePassChksumLoop_uncounted {d : Image} (hd : log s.nextLogBlock = d)
    (hm : read32 d 0 = jbd2MagicNumber) (hseq : read32 d 8 = s.nextCommitId)
    (htype : read32 d 4 = jbd2DescriptorBlock) (hcount : countTags d j.jBlocksize = 0)
    (hend : s.endTransaction = 0)
    (hnext : read32 (log (wrap j.jFirst j.jLast (s.nextLogBlock + 1))) 0 ≠ jbd2MagicNumber)
    (fuel : Nat) :
    ∃ r, doOnePassChksumLoop j log csum asyncCommit (fuel + 2) s = some r ∧
      r.nextCommitId = s.nextCommitId ∧ r.crc32Sum = crc32Be s.crc32Sum (bufferBytes d j.jBlocksize) := by
  have hstep := doOnePassChksumStep_descriptor j log csum asyncCommit (by rw [hd]; exact hm)
    (by rw [hd]; exact hseq) (by rw [hd]; exact htype) hend
  -- `calc_chksums` reads no block behind the descriptor
  have hcalc : calcChksums j log d (wrap j.jFirst j.jLast (s.nextLogBlock + 1)) s.crc32Sum =
      (wrap j.jFirst j.jLast (s.nextLogBlock + 1), crc32Be s.crc32Sum (bufferBytes d j.jBlocksize)) := by
    unfold calcChksums
    rw [hcount]
    rfl
  rw [hd, hcalc] at hstep
  have hstop := doOnePassChksumStep_of_not_magic j log csum asyncCommit (s := { s with
      dc := readAndVerifyChecksums j csum s.fs d s.dc s.nextCommitId,
      nextLogBlock := wrap j.jFirst j.jLast (s.nextLogBlock + 1),
      crc32Sum := crc32Be s.crc32Sum (bufferBytes d j.jBlocksize) }) hnext
  refine ⟨{ s with
      dc := readAndVerifyChecksums j csum s.fs d s.dc s.nextCommitId,
      nextLogBlock := wrap j.jFirst j.jLast (wrap j.jFirst j.jLast (s.nextLogBlock + 1) + 1),
      crc32Sum := crc32Be s.crc32Sum (bufferBytes d j.jBlocksize) }, ?_, rfl, rfl⟩
  rw [doOnePassChksumLoop_succ_of_next j log csum asyncCommit hstep,
    doOnePassChksumLoop_succ_of_done j log csum asyncCommit hstop]

end Scan

/-! ## A descriptor's bytes, slot by slot

Reading a byte of a descriptor's image goes down through every tag stored after it, and a
byte that no tag wrote goes all the way down to the fresh buffer. The data-tag loop stores
each tag in its own slot `[tagp, tagp')` and writes nothing above it, so its tag area is each
slot as that slot's tag alone writes it over the fresh buffer (`putDataTags_slots`). That is
the form in which the checksum of a whole descriptor is evaluated below. -/

/-- `putTag` leaves every byte from the new `tagp` on alone. -/
theorem putTag_img_of_ge (uuid : Image) (d : Descriptor) (block : Nat)
    (checksum blocktype flag : UInt32) {i : Nat}
    (hi : (d.putTag uuid block checksum blocktype flag).tagp ≤ i) :
    (d.putTag uuid block checksum blocktype flag).img i = d.img i := by
  rw [putTag_tagp] at hi
  unfold Descriptor.putTag
  cases hf : d.firstTag
  · -- no UUID after this tag
    simp only [hf, Bool.false_eq_true, if_false] at hi ⊢
    rw [write32_apply_of_not_mem _ _ _ (by unfold journalTagBytes at hi; omega)]
    exact writeTagBlock_apply_of_not_mem _ _ _ _ (by omega)
  · simp only [hf, if_true] at hi ⊢
    rw [place_apply_of_not_mem _ _ _ _ (by omega),
      write32_apply_of_not_mem _ _ _ (by unfold journalTagBytes uuidBytes at hi; omega)]
    exact writeTagBlock_apply_of_not_mem _ _ _ _ (by unfold uuidBytes at hi; omega)

/-- A byte of a stored tag's image depends on the buffer below only at that byte. -/
theorem putTag_img_apply_congr (uuid : Image) (d : Descriptor) (block : Nat)
    (checksum blocktype flag : UInt32) {img : Image} {i : Nat} (h : d.img i = img i) :
    (d.putTag uuid block checksum blocktype flag).img i =
      ({ d with img }.putTag uuid block checksum blocktype flag).img i := by
  unfold Descriptor.putTag writeTagBlock
  unfold journalTagBytes jbd2TagSize32
  cases d.firstTag <;>
    simp only [gt_iff_lt, Nat.reduceLT, write32, write8, place, h, Bool.false_eq_true, if_false,
      if_true]

/-- The data-tag loop only moves `tagp` on. -/
theorem le_putDataTags_tagp (uuid : Image) (escape : Bool) :
    ∀ (d : Descriptor) (es : List DataTag), d.tagp ≤ (putDataTags uuid escape d es).1.tagp
  | d, [] => le_refl _
  | d, e :: rest => by
    rw [putDataTags]
    split
    · exact le_refl _
    · have := le_putDataTags_tagp uuid escape (d.putTag uuid e.bBlocknr e.crc32DataSum
        tBlocktypeNewlyappendeddata (tagFlag escape d.firstTag)) rest
      rw [putTag_tagp] at this
      omega

/-- The data-tag loop leaves every byte below `tagp` alone. -/
theorem putDataTags_img_of_lt (uuid : Image) (escape : Bool) :
    ∀ (d : Descriptor) (es : List DataTag) {i : Nat}, i < d.tagp →
      (putDataTags uuid escape d es).1.img i = d.img i
  | d, [], _, _ => rfl
  | d, e :: rest, i, hi => by
    rw [putDataTags]
    split
    · rfl
    · rw [putDataTags_img_of_lt uuid escape _ rest (by rw [putTag_tagp]; omega)]
      exact putTag_img_of_lt _ _ _ _ _ _ hi

/-- The tag area the data-tag loop fills, slot by slot: each slot as its own tag writes it
over `base`, the buffer the descriptor started from. -/
def dataTagSlots (uuid : Image) (escape : Bool) (base : Image) :
    Descriptor → List DataTag → List UInt8
  | _, [] => []
  | d, e :: rest =>
    if d.spaceLeft < journalTagBytes + 16 then []
    else
      let d' := d.putTag uuid e.bBlocknr e.crc32DataSum tBlocktypeNewlyappendeddata
        (tagFlag escape d.firstTag)
      (List.range' d.tagp (d'.tagp - d.tagp)).map
          ({ d with img := base }.putTag uuid e.bBlocknr e.crc32DataSum
            tBlocktypeNewlyappendeddata (tagFlag escape d.firstTag)).img ++
        dataTagSlots uuid escape base d' rest

/-- Over a buffer that is still `base` from `tagp` on, the bytes the data-tag loop leaves
between the `tagp` it starts from and the one it ends at are its slots, one after another. -/
theorem putDataTags_slots (uuid : Image) (escape : Bool) (base : Image) :
    ∀ (d : Descriptor) (es : List DataTag), (∀ i, d.tagp ≤ i → d.img i = base i) →
      (List.range' d.tagp ((putDataTags uuid escape d es).1.tagp - d.tagp)).map
        (putDataTags uuid escape d es).1.img = dataTagSlots uuid escape base d es
  | d, [], _ => by simp [putDataTags, dataTagSlots]
  | d, e :: rest, hbase => by
    rw [putDataTags, dataTagSlots]
    split
    · simp
    · -- the first slot, then the slots of the rest from the new `tagp`
      dsimp only
      have hfirst : d.tagp ≤ (d.putTag uuid e.bBlocknr e.crc32DataSum tBlocktypeNewlyappendeddata
          (tagFlag escape d.firstTag)).tagp := by
        rw [putTag_tagp]
        omega
      have hrest := le_putDataTags_tagp uuid escape (d.putTag uuid e.bBlocknr e.crc32DataSum
        tBlocktypeNewlyappendeddata (tagFlag escape d.firstTag)) rest
      have hbase' : ∀ i, (d.putTag uuid e.bBlocknr e.crc32DataSum tBlocktypeNewlyappendeddata
          (tagFlag escape d.firstTag)).tagp ≤ i → (d.putTag uuid e.bBlocknr e.crc32DataSum
            tBlocktypeNewlyappendeddata (tagFlag escape d.firstTag)).img i = base i := by
        intro i hi
        rw [putTag_img_of_ge _ _ _ _ _ _ hi]
        exact hbase i (by omega)
      rw [← putDataTags_slots uuid escape base _ rest hbase', ← Nat.sub_add_sub_cancel hrest hfirst,
        Nat.add_comm, ← List.range'_append_1, List.map_append, Nat.add_sub_cancel' hfirst]
      congr 1
      apply List.map_congr_left
      intro i hi
      rw [List.mem_range'_1] at hi
      rw [putDataTags_img_of_lt uuid escape _ rest (by omega)]
      exact putTag_img_apply_congr _ _ _ _ _ _ (hbase i hi.1)

/-- The descriptor of `thirtyEightDataTags` on disk, slot by slot: the header, the 38 data-tag
slots, and the 44 bytes of the buffer's slot that lie within the block. -/
theorem bufferBytes_thirtyEightDataTagsDescriptor :
    bufferBytes (truncate 2048 thirtyEightDataTagsDescriptor.markLast.img) 2048 =
      (List.range' 0 12).map (Descriptor.start 2048 1).img ++
        dataTagSlots zero false (Descriptor.start 2048 1).img (Descriptor.start 2048 1)
          thirtyEightDataTags.tDataTagList ++
        (List.range' 2004 44).map thirtyEightDataTagsDescriptor.markLast.img := by
  have htagp : (putDataTags zero false (Descriptor.start 2048 1)
      thirtyEightDataTags.tDataTagList).1.tagp = 2004 := by decide
  have hstart : (Descriptor.start 2048 1).tagp = 12 := rfl
  -- below the buffer's tag the descriptor is what the data-tag loop left
  have hbelow : ∀ i, i < 2004 → thirtyEightDataTagsDescriptor.markLast.img i =
      (putDataTags zero false (Descriptor.start 2048 1) thirtyEightDataTags.tDataTagList).1.img i := by
    intro i hi
    have htag : thirtyEightDataTagsDescriptor.tag = 2004 := by
      unfold thirtyEightDataTagsDescriptor
      rw [putTag_tag, htagp]
    have hlt : i < thirtyEightDataTagsDescriptor.tag + 4 := by
      rw [htag]
      omega
    unfold Descriptor.markLast
    dsimp only
    rw [write32_apply_of_not_mem _ _ _ (Or.inl hlt)]
    exact putTag_img_of_lt zero _ 5000 0 _ _ (by rw [htagp]; exact hi)
  have hslots := putDataTags_slots zero false (Descriptor.start 2048 1).img
    (Descriptor.start 2048 1) thirtyEightDataTags.tDataTagList (fun _ _ => rfl)
  rw [htagp, hstart, show 2004 - 12 = 1992 from rfl] at hslots
  have hsplit : List.range' 0 2048 =
      List.range' 0 12 ++ List.range' 12 1992 ++ List.range' 2004 44 :=
    (List.range'_append_1 (s := 0) (m := 12 + 1992) (n := 44)).symm.trans
      (congrArg (· ++ List.range' 2004 44) (List.range'_append_1 (s := 0) (m := 12) (n := 1992)).symm)
  -- the header, read through the data tags down to the fresh descriptor
  have hheader : (List.range' 0 12).map thirtyEightDataTagsDescriptor.markLast.img =
      (List.range' 0 12).map (Descriptor.start 2048 1).img := by
    apply List.map_congr_left
    intro i hi
    rw [List.mem_range'_1] at hi
    rw [hbelow i (by omega)]
    exact putDataTags_img_of_lt _ _ _ _ (by rw [hstart]; omega)
  -- the data-tag slots
  have hdata : (List.range' 12 1992).map thirtyEightDataTagsDescriptor.markLast.img =
      (List.range' 12 1992).map
        (putDataTags zero false (Descriptor.start 2048 1) thirtyEightDataTags.tDataTagList).1.img := by
    apply List.map_congr_left
    intro i hi
    rw [List.mem_range'_1] at hi
    exact hbelow i (by omega)
  rw [bufferBytes_truncate, bufferBytes, List.range_eq_range', hsplit, List.map_append,
    List.map_append, hheader, hdata, hslots]

/-! ## A descriptor that does not count its copy -/

set_option maxRecDepth 200000 in
/-- The two values on `thirtyEightDataTags`: the writer's chain over the descriptor and the
copy of the zero buffer, and the scan's over the descriptor alone, differ. The one
computation of the development on whole blocks, made on the descriptor read slot by slot. -/
theorem crc32Be_thirtyEightDataTags_copy :
    crc32Be (crc32Be (~~~0) (bufferBytes (truncate 2048 thirtyEightDataTagsDescriptor.markLast.img)
        2048)) (bufferBytes (truncate 2048 zero) 2048) ≠
      crc32Be (~~~0) (bufferBytes (truncate 2048 thirtyEightDataTagsDescriptor.markLast.img) 2048) := by
  rw [bufferBytes_thirtyEightDataTagsDescriptor]
  decide +kernel

/-- With the checksum feature, the commit of `thirtyEightDataTags` writes the descriptor at
log block 1, the copy of the zero buffer at 2, and at 3 a commit record whose `h_chksum[0]`
chains both. `count_tags` of the descriptor is 0, so the scan of the log chains the
descriptor alone, takes the copy for the end of the log, and stops in transaction 1 with a
`crc32_sum` that is not the stored one. -/
theorem commit_chksum_not_recomputed (csum : Image → UInt32) (fs : Nat → Image)
    (asyncCommit : Bool) :
    ∃ s', commitPhase5Chksum { bSize := 2048, tid := 1, uuid := zero } 1 thirtyEightDataTags =
        some s' ∧
      ∃ d copy c, s'.written = [d, copy, c] ∧
        ∃ r, doOnePassChksumLoop thirtyEightDataTagsJournal (applyWrites (fun _ => zero) s'.written)
            csum asyncCommit 2 ⟨⟨1, 1, initDcStruct, fun _ => none, fs⟩, ~~~0, 0⟩ = some r ∧
          r.nextCommitId = 1 ∧ r.crc32Sum ≠ read32 c.2 16 := by
  -- the commit: the pass of `commitStep_thirtyEightDataTags`, then the commit record at block 3
  have hphase : commitPhase5Chksum { bSize := 2048, tid := 1, uuid := zero } 1 thirtyEightDataTags =
      some { log := { jFirst := 1, jLast := 1024, jHead := 4, jTail := 1, jFree := 1020 },
             tBuffers := [], tDataTagList := [], descriptor := none, wbuf := [], flags := false,
             written := [(1, truncate 2048 thirtyEightDataTagsDescriptor.markLast.img),
               (2, truncate 2048 zero),
               (3, truncate 2048 (commitRecordChksum 1 (checksumBuffers 2048 (~~~0)
                 [(1, truncate 2048 thirtyEightDataTagsDescriptor.markLast.img),
                  (2, truncate 2048 zero)])))] } := by
    unfold commitPhase5Chksum
    rw [commitLoop, commitStep_thirtyEightDataTags, Option.bind_some, commitLoop_of_nil _ _ rfl,
      Option.bind_some, if_pos rfl]
    rfl
  refine ⟨_, hphase, _, _, _, rfl, ?_⟩
  -- the scan: the descriptor at block 1, read with `count_tags` 0, then the copy at block 2
  have hlog₁ : applyWrites (fun _ => zero) [(1, truncate 2048 thirtyEightDataTagsDescriptor.markLast.img),
      (2, truncate 2048 zero), (3, truncate 2048 (commitRecordChksum 1 (checksumBuffers 2048 (~~~0)
        [(1, truncate 2048 thirtyEightDataTagsDescriptor.markLast.img), (2, truncate 2048 zero)])))] 1 =
      truncate 2048 thirtyEightDataTagsDescriptor.markLast.img :=
    applyWrites_apply_of_last _ [] _ _ (by simp)
  have hlog₂ : applyWrites (fun _ => zero) [(1, truncate 2048 thirtyEightDataTagsDescriptor.markLast.img),
      (2, truncate 2048 zero), (3, truncate 2048 (commitRecordChksum 1 (checksumBuffers 2048 (~~~0)
        [(1, truncate 2048 thirtyEightDataTagsDescriptor.markLast.img), (2, truncate 2048 zero)])))] 2 =
      truncate 2048 zero :=
    applyWrites_apply_of_last _ [_] _ _ (by simp)
  obtain ⟨r, hrun, hid, hsum⟩ := doOnePassChksumLoop_uncounted thirtyEightDataTagsJournal _ csum
    asyncCommit (s := ⟨⟨1, 1, initDcStruct, fun _ => none, fs⟩, ~~~0, 0⟩) hlog₁
    (by rw [read32_thirtyEightDataTagsDescriptor (by decide)]; simp)
    (by rw [read32_thirtyEightDataTagsDescriptor (by decide)]; simp)
    (by rw [read32_thirtyEightDataTagsDescriptor (by decide)]; simp)
    countTags_thirtyEightDataTagsDescriptor rfl
    (by
      show read32 (applyWrites _ _ 2) 0 ≠ _
      rw [hlog₂, read32_truncate _ (by norm_num), read32_zero]
      decide) 0
  refine ⟨r, hrun, hid, ?_⟩
  -- the stored value chains the copy on top of what the scan recomputed
  dsimp only
  rw [hsum, read32_truncate _ (by norm_num), read32_commitRecordChksum_chksum, checksumBuffers_cons,
    checksumBuffers_cons, checksumBuffers_nil]
  exact (crc32Be_thirtyEightDataTags_copy).symm

end OptFs.Jbd
