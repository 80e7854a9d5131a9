import OptFs.Jbd.Descriptor
import OptFs.Lib.Cyclic

/-!
# Journal recovery (`recovery.c`, `revoke.c`)

`jbdbf_journal_recover` runs `do_one_pass` three times over the log, from the superblock's
`s_start` with the transaction id `s_sequence`:

* `PASS_SCAN` finds the end of the log: the first block that is not a journal block of the
  expected transaction. On the way it checks the newly-appended data tags of every
  descriptor against the data on the file-system device (`read_and_verify_checksums`),
  keeping the mismatches in a table of 100 slots (`struct dc_struct`); the pass ends at the
  oldest transaction with a mismatch left, else where the scan stopped.
* `PASS_REVOKE` collects the revoke records of the transactions up to that end.
* `PASS_REPLAY` copies every logged block that is not revoked to its home location,
  putting back the magic word of an escaped copy.

Descriptor blocks are skipped over by `count_tags`, which counts the tags that have a log
block, that is all but the newly-appended data tags.

The model leaves out the transaction checksum feature (`JBD2_FEATURE_COMPAT_CHECKSUM`,
`calc_chksums`), I/O errors and allocation failures. `do_one_pass` need not terminate (a
ring of descriptor blocks with no commit block is scanned forever), so its loop runs on
fuel, and `none` means the fuel ran out.
-/

namespace OptFs.Jbd

open Lib.ByteImage Lib.Cyclic

/-- `enum passtype`. -/
inductive Passtype
  | passScan
  | passRevoke
  | passReplay
deriving DecidableEq, Repr

/-- `struct recovery_info`, the fields that decide the passes' extent (the counters
`nr_replays`, `nr_revokes` and `nr_revoke_hits` only feed debug output). -/
structure RecoveryInfo where
  startTransaction : UInt32
  endTransaction : UInt32
deriving DecidableEq, Repr

/-- What recovery reads of `journal_t` and its superblock. -/
structure RecoveryJournal where
  jFirst : Nat
  jLast : Nat
  jBlocksize : Nat
  sStart : Nat
  sSequence : UInt32
  /-- `JBD2_FEATURE_INCOMPAT_64BIT`: revoke records of 8 bytes instead of 4. -/
  incompat64bit : Bool

/-- The devices as recovery sees them: the journal's blocks by log position (`jread`), the
file system's blocks by number (`dread`, `__getblk`), and the data checksum
(`crc32_be(0, data, size)`) of a block. -/
structure Devices where
  log : Nat → Image
  fs : Nat → Image

/-! ## The data-checksum table -/

/-- Slots of `struct dc_struct`. -/
def dcCapacity : Nat := 100

/-- `struct dc_struct`: 100 pairs of a mismatched block (0 when the slot is free) and the
transaction id it was seen in. -/
structure DcStruct where
  slots : List (Nat × UInt32)
  length_slots : slots.length = dcCapacity

/-- `init_dc_struct`: every slot free. -/
def initDcStruct : DcStruct := ⟨List.replicate dcCapacity (0, 0), by simp⟩

/-- `add_to_mismatched_blocks`: record `next_commit_ID` in the slot of `block`, else in the
first free slot, else nowhere (the table is full). -/
def addToMismatchedBlocks (dc : DcStruct) (block : Nat) (nextCommitId : UInt32) : DcStruct :=
  match dc.slots.findIdx? (fun p => p.1 == block) with
  | some i => ⟨dc.slots.set i (block, nextCommitId), by simp [dc.length_slots]⟩
  | none =>
    match dc.slots.findIdx? (fun p => p.1 == 0) with
    | some i => ⟨dc.slots.set i (block, nextCommitId), by simp [dc.length_slots]⟩
    | none => dc

/-- `delete_from_mismatched_blocks`: free the slot of `block`. -/
def deleteFromMismatchedBlocks (dc : DcStruct) (block : Nat) : DcStruct :=
  match dc.slots.findIdx? (fun p => p.1 == block) with
  | some i => ⟨dc.slots.modify i (fun p => (0, p.2)), by simp [dc.length_slots]⟩
  | none => dc

/-- `is_datachecksum_err`: the recorded mismatch with the smallest transaction id (the
first such slot), compared as unsigned numbers. -/
def isDatachecksumErr (dc : DcStruct) : Option (UInt32 × Nat) :=
  dc.slots.foldl (fun acc p =>
    if p.1 != 0 && (match acc with | none => true | some e => decide (p.2 < e.1)) then
      some (p.2, p.1)
    else acc) none

/-! ## The revoke table -/

/-- The revoke table recovery builds: for each revoked block, the id of the latest
transaction seen to revoke it. -/
abbrev RevokeTable := Nat → Option UInt32

/-- `jbdbf_journal_set_revoke`: keep the later of the two sequence numbers. -/
def jbdbfJournalSetRevoke (t : RevokeTable) (blocknr : Nat) (sequence : UInt32) :
    RevokeTable :=
  match t blocknr with
  | some r => if tidGt sequence r then Function.update t blocknr (some sequence) else t
  | none => Function.update t blocknr (some sequence)

/-- `jbdbf_journal_test_revoke`: a record revokes the block in its own transaction and in
every earlier one. -/
def jbdbfJournalTestRevoke (t : RevokeTable) (blocknr : Nat) (sequence : UInt32) : Bool :=
  match t blocknr with
  | none => false
  | some r => !tidGt sequence r

theorem jbdbfJournalSetRevoke_apply_of_ne (t : RevokeTable) {blocknr b : Nat}
    (sequence : UInt32) (hb : b ≠ blocknr) : jbdbfJournalSetRevoke t blocknr sequence b = t b := by
  unfold jbdbfJournalSetRevoke
  cases t blocknr with
  | none => exact Function.update_of_ne hb _ _
  | some r =>
    dsimp only
    split
    · exact Function.update_of_ne hb _ _
    · rfl

theorem jbdbfJournalSetRevoke_apply_self (t : RevokeTable) (blocknr : Nat) (sequence : UInt32) :
    jbdbfJournalSetRevoke t blocknr sequence blocknr =
      match t blocknr with
      | some r => if tidGt sequence r then some sequence else some r
      | none => some sequence := by
  unfold jbdbfJournalSetRevoke
  cases h : t blocknr with
  | none => simp
  | some r =>
    by_cases hgt : tidGt sequence r = true
    · simp [hgt]
    · simp [hgt, h]

/-- The record size of a revoke block. -/
def RecoveryJournal.recordLen (j : RecoveryJournal) : Nat := if j.incompat64bit then 8 else 4

/-- The loop of `scan_revoke_records` from `offset` on: every record that ends within
`r_count` bytes (`max`, read as a signed `int`) revokes its block in `sequence`. -/
def scanRevokeRecordsFrom (j : RecoveryJournal) (img : Image) (sequence : UInt32) (max : Int)
    (t : RevokeTable) (offset : Nat) : RevokeTable :=
  if _h : (offset + j.recordLen : Int) ≤ max then
    let blocknr :=
      if j.incompat64bit then (read64 img offset).toNat else (read32 img offset).toNat
    scanRevokeRecordsFrom j img sequence max (jbdbfJournalSetRevoke t blocknr sequence)
      (offset + j.recordLen)
  else t
termination_by max.toNat - offset
decreasing_by
  have : 0 < j.recordLen := by unfold RecoveryJournal.recordLen; split <;> omega
  omega

/-- `scan_revoke_records`: the records after the 16-byte revoke header. -/
def scanRevokeRecords (j : RecoveryJournal) (img : Image) (sequence : UInt32)
    (t : RevokeTable) : RevokeTable :=
  scanRevokeRecordsFrom j img sequence (read32 img sizeofJournalBfHeader).toInt32.toInt t
    sizeofRevokeHeader

/-! ## One pass -/

section Pass

variable (j : RecoveryJournal) (log : Nat → Image) (csum : Image → UInt32)

/-- `read_and_verify_checksums` over one descriptor: a newly-appended data tag whose block
on the file-system device does not match its checksum is recorded as a mismatch of
`next_commit_ID`; an overwritten-data tag clears its block's record. -/
def readAndVerifyChecksums (fs : Nat → Image) (img : Image) (dc : DcStruct)
    (nextCommitId : UInt32) : DcStruct :=
  (descriptorTags img j.jBlocksize).foldl (fun dc o =>
    let blocknr := readTagBlock journalTagBytes img o
    let blocktype := readTagType img o
    if blocktype = tBlocktypeNewlyappendeddata then
      if csum (fs blocknr) ≠ readTagChecksum img o then
        addToMismatchedBlocks dc blocknr nextCommitId
      else dc
    else if blocktype = tBlocktypeOverwrittendata then deleteFromMismatchedBlocks dc blocknr
    else dc) dc

/-- The `PASS_REPLAY` tag loop over the visited tags of one descriptor: a tag with a log
block consumes the next log block, and unless its block is revoked in this transaction
or a later one, the log copy is written home with its magic word put back if it was
escaped. -/
def replayTags (revoke : RevokeTable) (img : Image) (nextCommitId : UInt32) :
    Nat × (Nat → Image) → List Nat → Nat × (Nat → Image)
  | acc, [] => acc
  | (nextLogBlock, fs), o :: rest =>
    let flags := readTagFlags img o
    if readTagType img o = tBlocktypeNewlyappendeddata then
      replayTags revoke img nextCommitId (nextLogBlock, fs) rest
    else
      let ioBlock := nextLogBlock
      let nextLogBlock := wrap j.jFirst j.jLast (nextLogBlock + 1)
      let blocknr := readTagBlock journalTagBytes img o
      if jbdbfJournalTestRevoke revoke blocknr nextCommitId then
        replayTags revoke img nextCommitId (nextLogBlock, fs) rest
      else
        let data := truncate j.jBlocksize (log ioBlock)
        let data := if flags &&& jbd2FlagEscape ≠ 0 then write32 data 0 jbd2MagicNumber else data
        replayTags revoke img nextCommitId (nextLogBlock, Function.update fs blocknr data) rest

/-- The loop variables of `do_one_pass`, with the revoke table of the journal and the
file-system device. -/
structure PassState where
  nextCommitId : UInt32
  nextLogBlock : Nat
  dc : DcStruct
  revoke : RevokeTable
  fs : Nat → Image

/-- How one turn of the `while (1)` loop ends: back to the top, or out to `done`. -/
inductive StepResult
  | next (s : PassState)
  | done (s : PassState)

/-- One turn of the `do_one_pass` loop. -/
def doOnePassStep (pass : Passtype) (info : RecoveryInfo) (s : PassState) : StepResult :=
  if pass ≠ .passScan ∧ tidGeq s.nextCommitId info.endTransaction then .done s
  else
    let bh := log s.nextLogBlock
    let s := { s with nextLogBlock := wrap j.jFirst j.jLast (s.nextLogBlock + 1) }
    if read32 bh 0 ≠ jbd2MagicNumber then .done s
    else if read32 bh 8 ≠ s.nextCommitId then .done s
    else
      let blocktype := read32 bh 4
      if blocktype = jbd2DescriptorBlock then
        if pass ≠ .passReplay then
          .next { s with
            dc := readAndVerifyChecksums j csum s.fs bh s.dc s.nextCommitId,
            nextLogBlock :=
              wrap j.jFirst j.jLast (s.nextLogBlock + countTags bh j.jBlocksize) }
        else
          let r := replayTags j log s.revoke bh s.nextCommitId (s.nextLogBlock, s.fs)
            (descriptorTags bh j.jBlocksize)
          .next { s with nextLogBlock := r.1, fs := r.2 }
      else if blocktype = jbd2CommitBlock then
        .next { s with nextCommitId := s.nextCommitId + 1 }
      else if blocktype = jbd2RevokeBlock then
        if pass ≠ .passRevoke then .next s
        else .next { s with revoke := scanRevokeRecords j bh s.nextCommitId s.revoke }
      else .done s

/-- The `while (1)` loop of `do_one_pass`, for at most `fuel` turns. -/
def doOnePassLoop (pass : Passtype) (info : RecoveryInfo) : Nat → PassState → Option PassState
  | 0, _ => none
  | fuel + 1, s =>
    match doOnePassStep j log csum pass info s with
    | .done s => some s
    | .next s => doOnePassLoop pass info fuel s

/-- What a pass hands back: its status, the recovery info, the revoke table and the
file-system device. -/
structure PassResult where
  success : Int
  info : RecoveryInfo
  revoke : RevokeTable
  fs : Nat → Image

/-- `EIO`. -/
def eio : Int := 5

/-- `do_one_pass`: start from the superblock's `s_start` and `s_sequence`; at `done`,
`PASS_SCAN` sets the end of the log (the oldest transaction with a data checksum
mismatch, else where the scan stopped, unless already set) and the later passes report
`-EIO` when they stop elsewhere. -/
def doOnePass (pass : Passtype) (info : RecoveryInfo) (revoke : RevokeTable)
    (fs : Nat → Image) (fuel : Nat) : Option PassResult :=
  let info := if pass = .passScan then { info with startTransaction := j.sSequence } else info
  (doOnePassLoop j log csum pass info fuel ⟨j.sSequence, j.sStart, initDcStruct, revoke, fs⟩).map
    fun s =>
      if pass = .passScan then
        let info := match isDatachecksumErr s.dc with
          | some e => { info with endTransaction := e.1 }
          | none => if info.endTransaction = 0 then { info with endTransaction := s.nextCommitId }
                    else info
        ⟨0, info, s.revoke, s.fs⟩
      else ⟨if info.endTransaction ≠ s.nextCommitId then -eio else 0, info, s.revoke, s.fs⟩

end Pass

/-- What `jbdbf_journal_recover` leaves: its status, the id the journal restarts at
(`j_transaction_bf_sequence`) and the file-system device. -/
structure RecoverResult where
  err : Int
  jTransactionBfSequence : UInt32
  fs : Nat → Image

/-- `jbdbf_journal_recover`: nothing to do on a cleanly unmounted journal (`s_start = 0`);
else the three passes, each run only if the ones before it succeeded, and the log
restarts after the end the scan found. -/
def jbdbfJournalRecover (j : RecoveryJournal) (dv : Devices) (csum : Image → UInt32)
    (fuel : Nat) : Option RecoverResult :=
  if j.sStart = 0 then some ⟨0, j.sSequence + 1, dv.fs⟩
  else
    (doOnePass j dv.log csum .passScan ⟨0, 0⟩ (fun _ => none) dv.fs fuel).bind fun scan =>
    if scan.success ≠ 0 then some ⟨scan.success, scan.info.endTransaction + 1, scan.fs⟩
    else
      (doOnePass j dv.log csum .passRevoke scan.info scan.revoke scan.fs fuel).bind fun rev =>
      if rev.success ≠ 0 then some ⟨rev.success, rev.info.endTransaction + 1, rev.fs⟩
      else
        (doOnePass j dv.log csum .passReplay rev.info rev.revoke rev.fs fuel).map fun rep =>
          ⟨rep.success, rep.info.endTransaction + 1, rep.fs⟩

/-! ## The mismatch table keeps the ids it was given -/

/-- Every recorded mismatch of the table was seen in transaction `c`. -/
def DcStruct.TaggedWith (dc : DcStruct) (c : UInt32) : Prop :=
  ∀ p ∈ dc.slots, p.1 ≠ 0 → p.2 = c

theorem initDcStruct_taggedWith (c : UInt32) : initDcStruct.TaggedWith c := by
  intro p hp hne
  simp only [initDcStruct, List.mem_replicate] at hp
  rw [hp.2] at hne
  exact absurd rfl hne

theorem DcStruct.TaggedWith.add {dc : DcStruct} {c : UInt32} (h : dc.TaggedWith c)
    (block : Nat) : (addToMismatchedBlocks dc block c).TaggedWith c := by
  -- each branch stores `(block, c)` or leaves the table
  have hset : ∀ i, ∀ p ∈ dc.slots.set i (block, c), p.1 ≠ 0 → p.2 = c := by
    intro i p hp hne
    rcases List.mem_or_eq_of_mem_set hp with hp | rfl
    · exact h p hp hne
    · rfl
  unfold addToMismatchedBlocks
  split
  · exact hset _
  · split
    · exact hset _
    · exact h

theorem DcStruct.TaggedWith.delete {dc : DcStruct} {c : UInt32} (h : dc.TaggedWith c)
    (block : Nat) : (deleteFromMismatchedBlocks dc block).TaggedWith c := by
  unfold deleteFromMismatchedBlocks
  split
  · intro p hp hne
    simp only [List.modify_eq_set] at hp
    rcases List.mem_or_eq_of_mem_set hp with hp | rfl
    · exact h p hp hne
    · exact absurd rfl hne
  · exact h

/-- A pass over one descriptor of transaction `c` records mismatches of `c` only. -/
theorem DcStruct.TaggedWith.readAndVerifyChecksums {dc : DcStruct} {c : UInt32}
    (h : dc.TaggedWith c) (j : RecoveryJournal) (csum : Image → UInt32)
    (fs : Nat → Image) (img : Image) :
    (OptFs.Jbd.readAndVerifyChecksums j csum fs img dc c).TaggedWith c := by
  unfold OptFs.Jbd.readAndVerifyChecksums
  generalize descriptorTags img j.jBlocksize = tags
  induction tags generalizing dc with
  | nil => exact h
  | cons o rest ih =>
    rw [List.foldl_cons]
    apply ih
    simp only
    split
    · split
      · exact h.add _
      · exact h
    · split
      · exact h.delete _
      · exact h

/-- `is_datachecksum_err` reports one of the recorded mismatches. -/
theorem isDatachecksumErr_mem {dc : DcStruct} {e : UInt32 × Nat}
    (h : isDatachecksumErr dc = some e) : ∃ p ∈ dc.slots, p.1 ≠ 0 ∧ e = (p.2, p.1) := by
  unfold isDatachecksumErr at h
  -- the accumulator is always `none` or a recorded mismatch of the slots seen so far
  suffices hfold : ∀ (l : List (Nat × UInt32)) (acc : Option (UInt32 × Nat)),
      l.foldl (fun acc p =>
        if p.1 != 0 && (match acc with | none => true | some e => decide (p.2 < e.1)) then
          some (p.2, p.1)
        else acc) acc = some e →
      acc = some e ∨ ∃ p ∈ l, p.1 ≠ 0 ∧ e = (p.2, p.1) by
    rcases hfold dc.slots none h with h | h
    · cases h
    · exact h
  intro l
  induction l with
  | nil => intro acc h; exact Or.inl h
  | cons p rest ih =>
    intro acc h
    rw [List.foldl_cons] at h
    rcases ih _ h with h | ⟨q, hq, hq'⟩
    · split_ifs at h with hp
      · simp only [Bool.and_eq_true, bne_iff_ne, ne_eq] at hp
        cases h
        exact Or.inr ⟨p, List.mem_cons_self, hp.1, rfl⟩
      · exact Or.inl h
    · exact Or.inr ⟨q, List.mem_cons_of_mem _ hq, hq'⟩

theorem DcStruct.TaggedWith.isDatachecksumErr {dc : DcStruct} {c : UInt32}
    (h : dc.TaggedWith c) {e : UInt32 × Nat} (he : OptFs.Jbd.isDatachecksumErr dc = some e) :
    e.1 = c := by
  obtain ⟨p, hp, hne, rfl⟩ := isDatachecksumErr_mem he
  exact h p hp hne

/-! ## One turn at a time -/

section Steps

variable (j : RecoveryJournal) (log : Nat → Image) (csum : Image → UInt32) (pass : Passtype)
  (info : RecoveryInfo) (s : PassState)

theorem doOnePassLoop_succ_of_done {fuel : Nat} {s' : PassState}
    (h : doOnePassStep j log csum pass info s = .done s') :
    doOnePassLoop j log csum pass info (fuel + 1) s = some s' := by
  rw [doOnePassLoop, h]

theorem doOnePassLoop_succ_of_next {fuel : Nat} {s' : PassState}
    (h : doOnePassStep j log csum pass info s = .next s') :
    doOnePassLoop j log csum pass info (fuel + 1) s = doOnePassLoop j log csum pass info fuel s' := by
  rw [doOnePassLoop, h]

/-- `PASS_REVOKE` and `PASS_REPLAY` stop, before reading a block, at the end the scan
found. -/
theorem doOnePassStep_of_end (hpass : pass ≠ .passScan)
    (hend : tidGeq s.nextCommitId info.endTransaction = true) :
    doOnePassStep j log csum pass info s = .done s := by
  unfold doOnePassStep
  rw [if_pos ⟨hpass, hend⟩]

/-- A block without the journal magic ends the pass. -/
theorem doOnePassStep_of_not_magic
    (hgo : ¬ (pass ≠ .passScan ∧ tidGeq s.nextCommitId info.endTransaction = true))
    (hm : read32 (log s.nextLogBlock) 0 ≠ jbd2MagicNumber) :
    doOnePassStep j log csum pass info s =
      .done { s with nextLogBlock := wrap j.jFirst j.jLast (s.nextLogBlock + 1) } := by
  unfold doOnePassStep
  rw [if_neg hgo]
  simp only [hm, ne_eq, not_false_eq_true, if_true]

/-- `PASS_SCAN` and `PASS_REVOKE` step over a descriptor of the expected transaction by the
number of its tags `count_tags` counts, after checking its data tags. -/
theorem doOnePassStep_descriptor
    (hgo : ¬ (pass ≠ .passScan ∧ tidGeq s.nextCommitId info.endTransaction = true))
    (hm : read32 (log s.nextLogBlock) 0 = jbd2MagicNumber)
    (hseq : read32 (log s.nextLogBlock) 8 = s.nextCommitId)
    (htype : read32 (log s.nextLogBlock) 4 = jbd2DescriptorBlock)
    (hpass : pass ≠ .passReplay) :
    doOnePassStep j log csum pass info s =
      .next { s with
        dc := readAndVerifyChecksums j csum s.fs (log s.nextLogBlock) s.dc s.nextCommitId,
        nextLogBlock := wrap j.jFirst j.jLast
          (wrap j.jFirst j.jLast (s.nextLogBlock + 1) + countTags (log s.nextLogBlock) j.jBlocksize) } := by
  unfold doOnePassStep
  rw [if_neg hgo]
  simp only [hm, hseq, htype, hpass, ne_eq, not_true_eq_false, not_false_eq_true, if_false,
    if_true]

/-- A commit block of the expected transaction moves every pass on to the next one. -/
theorem doOnePassStep_commit
    (hgo : ¬ (pass ≠ .passScan ∧ tidGeq s.nextCommitId info.endTransaction = true))
    (hm : read32 (log s.nextLogBlock) 0 = jbd2MagicNumber)
    (hseq : read32 (log s.nextLogBlock) 8 = s.nextCommitId)
    (htype : read32 (log s.nextLogBlock) 4 = jbd2CommitBlock) :
    doOnePassStep j log csum pass info s =
      .next { s with nextLogBlock := wrap j.jFirst j.jLast (s.nextLogBlock + 1),
                     nextCommitId := s.nextCommitId + 1 } := by
  have hdesc : jbd2CommitBlock ≠ jbd2DescriptorBlock := by decide
  unfold doOnePassStep
  rw [if_neg hgo]
  simp only [hm, hseq, htype, hdesc, ne_eq, not_true_eq_false, if_false, if_true]

/-- `PASS_SCAN` and `PASS_REPLAY` step over a revoke block of the expected transaction
without reading its records. -/
theorem doOnePassStep_revoke_skip
    (hgo : ¬ (pass ≠ .passScan ∧ tidGeq s.nextCommitId info.endTransaction = true))
    (hm : read32 (log s.nextLogBlock) 0 = jbd2MagicNumber)
    (hseq : read32 (log s.nextLogBlock) 8 = s.nextCommitId)
    (htype : read32 (log s.nextLogBlock) 4 = jbd2RevokeBlock)
    (hpass : pass ≠ .passRevoke) :
    doOnePassStep j log csum pass info s =
      .next { s with nextLogBlock := wrap j.jFirst j.jLast (s.nextLogBlock + 1) } := by
  have hdesc : jbd2RevokeBlock ≠ jbd2DescriptorBlock := by decide
  have hcommit : jbd2RevokeBlock ≠ jbd2CommitBlock := by decide
  unfold doOnePassStep
  rw [if_neg hgo]
  simp only [hm, hseq, htype, hdesc, hcommit, hpass, ne_eq, not_true_eq_false,
    not_false_eq_true, if_false, if_true]

end Steps

/-- A later pass that starts at the end the scan found reads nothing and changes nothing. -/
theorem doOnePass_of_start_end (j : RecoveryJournal) (log : Nat → Image)
    (csum : Image → UInt32) {pass : Passtype} (hpass : pass ≠ .passScan) {info : RecoveryInfo}
    (hend : info.endTransaction = j.sSequence) (revoke : RevokeTable) (fs : Nat → Image)
    (fuel : Nat) :
    doOnePass j log csum pass info revoke fs (fuel + 1) = some ⟨0, info, revoke, fs⟩ := by
  have hstop := doOnePassStep_of_end j log csum pass info
    ⟨j.sSequence, j.sStart, initDcStruct, revoke, fs⟩ hpass (by rw [hend]; exact tidGeq_self _)
  unfold doOnePass
  simp only [hpass, if_false]
  rw [doOnePassLoop_succ_of_done j log csum pass info _ hstop]
  simp [hend]

/-- When the scan ends where the log starts, recovery replays nothing and the log restarts
at the next transaction id. -/
theorem jbdbfJournalRecover_of_scan_at_start (j : RecoveryJournal) (dv : Devices)
    (csum : Image → UInt32) (fuel : Nat) (hstart : j.sStart ≠ 0) {revoke : RevokeTable}
    (hscan : doOnePass j dv.log csum .passScan ⟨0, 0⟩ (fun _ => none) dv.fs (fuel + 1) =
      some ⟨0, ⟨j.sSequence, j.sSequence⟩, revoke, dv.fs⟩) :
    jbdbfJournalRecover j dv csum (fuel + 1) = some ⟨0, j.sSequence + 1, dv.fs⟩ := by
  unfold jbdbfJournalRecover
  rw [if_neg hstart, hscan]
  simp only [Option.bind_some]
  rw [doOnePass_of_start_end j dv.log csum (by decide) rfl revoke dv.fs fuel]
  simp only [Option.bind_some, ne_eq, not_true_eq_false, if_false]
  rw [doOnePass_of_start_end j dv.log csum (by decide) rfl revoke dv.fs fuel]
  rfl

/-- A scan that finds a descriptor of the expected transaction with no tag `count_tags`
counts, and then a block without the journal magic, ends at the transaction it started
with, whatever the data checks of the descriptor found. -/
theorem doOnePass_scan_of_empty_descriptor (j : RecoveryJournal) (log : Nat → Image)
    (csum : Image → UInt32) (revoke : RevokeTable) (fs : Nat → Image) (fuel : Nat)
    (hstart : Mem j.jFirst j.jLast j.sStart)
    (hm : read32 (log j.sStart) 0 = jbd2MagicNumber)
    (hseq : read32 (log j.sStart) 8 = j.sSequence)
    (htype : read32 (log j.sStart) 4 = jbd2DescriptorBlock)
    (hcount : countTags (log j.sStart) j.jBlocksize = 0)
    (hnext : read32 (log (next j.jFirst j.jLast j.sStart)) 0 ≠ jbd2MagicNumber) :
    doOnePass j log csum .passScan ⟨0, 0⟩ revoke fs (fuel + 2) =
      some ⟨0, ⟨j.sSequence, j.sSequence⟩, revoke, fs⟩ := by
  have hgo : ∀ (s : PassState), ¬ (Passtype.passScan ≠ .passScan ∧
      tidGeq s.nextCommitId (0 : UInt32) = true) := by
    intro s h
    exact h.1 rfl
  -- the descriptor is stepped over by no log block at all
  have hwrap : wrap j.jFirst j.jLast (j.sStart + 1) = next j.jFirst j.jLast j.sStart :=
    wrap_succ_eq_next hstart
  have hnextMem := next_mem hstart
  have h₁ := doOnePassStep_descriptor j log csum .passScan ⟨j.sSequence, 0⟩
    ⟨j.sSequence, j.sStart, initDcStruct, revoke, fs⟩ (hgo _) hm hseq htype (by decide)
  simp only [hcount, Nat.add_zero, hwrap, wrap_of_lt hnextMem.2] at h₁
  have h₂ := doOnePassStep_of_not_magic j log csum .passScan ⟨j.sSequence, 0⟩
    ⟨j.sSequence, next j.jFirst j.jLast j.sStart,
      readAndVerifyChecksums j csum fs (log j.sStart) initDcStruct j.sSequence, revoke, fs⟩
    (hgo _) hnext
  have htagged := (initDcStruct_taggedWith j.sSequence).readAndVerifyChecksums j csum fs
    (log j.sStart)
  unfold doOnePass
  simp only [if_true]
  rw [doOnePassLoop_succ_of_next j log csum _ _ _ h₁,
    doOnePassLoop_succ_of_done j log csum _ _ _ h₂]
  simp only [Option.map_some, Option.some.injEq]
  -- a recorded mismatch can only be of the transaction scanned
  cases he : isDatachecksumErr (readAndVerifyChecksums j csum fs (log j.sStart) initDcStruct
    j.sSequence) with
  | none => rfl
  | some e =>
    simp only
    rw [htagged.isDatachecksumErr he]

end OptFs.Jbd
