import OptFs.Jbd.Commit
import OptFs.Jbd.Recovery

/-!
# What `PASS_SCAN` decides

`PASS_SCAN` walks the log from `s_start` and stops at the first block that is not a journal
block of the expected transaction; `next_commit_ID` moves on at commit blocks only. On the
way, every newly-appended data tag whose block on the file-system device does not match its
checksum is recorded in the table of `struct dc_struct`, an overwritten-data tag for the
block clears it, and at the end the oldest recorded mismatch, if any, becomes the end of
the log.

Two facts about that walk:

* a log in which every block is a revoke block of the expected transaction is walked
  forever: no fuel is enough for `do_one_pass`, and `jbdbf_journal_recover` does not return
  (`jbdbfJournalRecover_revokeRing`);
* a newly-appended data tag that matches the device leaves the table alone, so a mismatch
  recorded for the block by an earlier transaction survives a later tag for the same
  block: the log ends before that earlier transaction (`scan_keeps_superseded_mismatch`).
-/

namespace OptFs.Jbd

open Lib.ByteImage Lib.Cyclic

/-! ## A finished descriptor, tag by tag -/

section Verify

variable (j : RecoveryJournal) (csum : Image → UInt32) (fs : Nat → Image) (c : UInt32)

/-- `read_and_verify_checksums` on one tag, as the tag was stored. -/
def verifyTag (dc : DcStruct) (t : Tag) : DcStruct :=
  if t.blocktype = tBlocktypeNewlyappendeddata then
    if csum (fs t.blocknr) ≠ t.checksum then addToMismatchedBlocks dc t.blocknr c else dc
  else if t.blocktype = tBlocktypeOverwrittendata then deleteFromMismatchedBlocks dc t.blocknr
  else dc

/-- `read_and_verify_checksums` over a finished descriptor whose tags fit in the block goes
through the tags the commit stored, in order. -/
theorem readAndVerifyChecksums_markLast {d : Descriptor} {bSize : Nat} {tid : UInt32}
    (hd : d.Wf bSize tid) (hne : d.logged ≠ [])
    (hfit : ∀ p ∈ d.logged, p.1 + journalTagBytes ≤ j.jBlocksize) (dc : DcStruct) :
    readAndVerifyChecksums j csum fs d.markLast.img dc c =
      d.logged.foldl (fun dc p => verifyTag csum fs c dc p.2) dc := by
  unfold readAndVerifyChecksums
  rw [hd.descriptorTags_markLast hne hfit, List.foldl_map]
  apply List.foldl_ext
  intro dc' p hp
  obtain ⟨hblock, hsum, htype⟩ := hd.readTag_markLast_of_mem hp
  simp only [verifyTag, hblock, hsum, htype]

end Verify

/-! ## A log that is never left -/

/-- A log whose every block is a revoke block of transaction `sequence` with no records. -/
def revokeRing (sequence : UInt32) : Nat → Image :=
  fun _ => writeHeader zero jbd2RevokeBlock sequence

/-- `PASS_SCAN` steps over each block of the ring and never moves on to another
transaction, so every amount of fuel runs out. -/
theorem doOnePassLoop_revokeRing (j : RecoveryJournal) (csum : Image → UInt32)
    (info : RecoveryInfo) (sequence : UInt32) :
    ∀ (fuel : Nat) (s : PassState), s.nextCommitId = sequence →
      doOnePassLoop j (revokeRing sequence) csum .passScan info fuel s = none := by
  intro fuel
  induction fuel with
  | zero => intro s _; rfl
  | succ fuel ih =>
    intro s hseq
    have hgo : ¬ (Passtype.passScan ≠ .passScan ∧
        tidGeq s.nextCommitId info.endTransaction = true) := fun h => h.1 rfl
    -- the block read is a revoke block of the transaction expected
    have hstep := doOnePassStep_revoke_skip j (revokeRing sequence) csum .passScan info s hgo
      (read32_writeHeader_magic _ _ _) (by rw [hseq]; exact read32_writeHeader_sequence _ _ _)
      (read32_writeHeader_blocktype _ _ _) (by decide)
    rw [doOnePassLoop_succ_of_next j _ csum _ _ _ hstep]
    exact ih _ hseq

/-- Recovery of a journal that needs recovery and whose log is a ring of revoke blocks of
the transaction it starts with never returns, whatever the file-system device holds. -/
theorem jbdbfJournalRecover_revokeRing (j : RecoveryJournal) (hstart : j.sStart ≠ 0)
    (fs : Nat → Image) (csum : Image → UInt32) (fuel : Nat) :
    jbdbfJournalRecover j ⟨revokeRing j.sSequence, fs⟩ csum fuel = none := by
  have hscan : doOnePass j (revokeRing j.sSequence) csum .passScan ⟨0, 0⟩ (fun _ => none) fs
      fuel = none := by
    unfold doOnePass
    simp only [if_true]
    rw [doOnePassLoop_revokeRing j csum _ j.sSequence fuel _ rfl, Option.map_none]
  unfold jbdbfJournalRecover
  rw [if_neg hstart]
  simp only
  rw [hscan, Option.bind_none]

/-- A journal of 1024-byte blocks at log blocks `[1, 1024)` whose log starts at block 1
with transaction 1. -/
def smallJournal : RecoveryJournal where
  jFirst := 1
  jLast := 1024
  jBlocksize := 1024
  sStart := 1
  sSequence := 1
  incompat64bit := false

theorem jbdbfJournalRecover_revokeRing_smallJournal :
    smallJournal.sStart ≠ 0 ∧
      jbdbfJournalRecover smallJournal ⟨revokeRing smallJournal.sSequence, fun _ => zero⟩
        (fun _ => 0) 1000 = none :=
  ⟨by decide, jbdbfJournalRecover_revokeRing smallJournal (by decide) _ _ 1000⟩

/-! ## A matching tag does not supersede a mismatch -/

/-- A descriptor of transaction `tid` holding one newly-appended data tag for `block` with
checksum `c`, stored as the commit's data-tag loop stores a first tag and flagged last. -/
def oneDataTagDescriptor (bSize : Nat) (tid : UInt32) (block : Nat) (c : UInt32) : Image :=
  ((Descriptor.start bSize tid).putTag zero block c tBlocktypeNewlyappendeddata
    (tagFlag false true)).markLast.img

section OneDataTag

variable {bSize : Nat} {tid : UInt32} {block : Nat} {c : UInt32}

theorem oneDataTagDescriptor_wf (hb : block < 2 ^ 64) :
    ((Descriptor.start bSize tid).putTag zero block c tBlocktypeNewlyappendeddata
      (tagFlag false true)).Wf bSize tid :=
  (Descriptor.wf_start bSize tid).putTag zero false c tBlocktypeNewlyappendeddata hb

/-- The header of the descriptor. -/
theorem oneDataTagDescriptor_header (hb : block < 2 ^ 64) {o : Nat}
    (ho : o + 4 ≤ sizeofJournalBfHeader) :
    read32 (oneDataTagDescriptor bSize tid block c) o =
      read32 (writeHeader zero jbd2DescriptorBlock tid) o :=
  (oneDataTagDescriptor_wf hb).read32_markLast_header (by simp) ho

/-- `count_tags` finds no tag with a log block. -/
theorem countTags_oneDataTagDescriptor (hb : block < 2 ^ 64)
    (hsize : sizeofJournalBfHeader + journalTagBytes ≤ bSize) :
    countTags (oneDataTagDescriptor bSize tid block c) bSize = 0 := by
  unfold oneDataTagDescriptor
  rw [(oneDataTagDescriptor_wf hb).countTags_markLast (by simp)
    (by simpa [Descriptor.start] using hsize)]
  simp [Descriptor.start]

/-- The data check records a mismatch of the block exactly when its checksum does not
match the device. -/
theorem readAndVerifyChecksums_oneDataTagDescriptor (j : RecoveryJournal)
    (csum : Image → UInt32) (fs : Nat → Image) (hb : block < 2 ^ 64)
    (hsize : sizeofJournalBfHeader + journalTagBytes ≤ j.jBlocksize) (dc : DcStruct)
    (c' : UInt32) :
    readAndVerifyChecksums j csum fs (oneDataTagDescriptor bSize tid block c) dc c' =
      if csum (fs block) ≠ c then addToMismatchedBlocks dc block c' else dc := by
  unfold oneDataTagDescriptor
  rw [readAndVerifyChecksums_markLast j csum fs c' (oneDataTagDescriptor_wf hb) (by simp)
    (by simpa [Descriptor.start] using hsize)]
  simp [Descriptor.start, verifyTag]

/-- `PASS_SCAN` over such a descriptor of the expected transaction: the data check, and
on to the next log block. -/
theorem doOnePassStep_scan_oneDataTag (j : RecoveryJournal) (log : Nat → Image)
    (csum : Image → UInt32) (info : RecoveryInfo) {s : PassState}
    (hlog : log s.nextLogBlock = oneDataTagDescriptor j.jBlocksize s.nextCommitId block c)
    (hb : block < 2 ^ 64) (hsize : sizeofJournalBfHeader + journalTagBytes ≤ j.jBlocksize) :
    doOnePassStep j log csum .passScan info s =
      .next { s with
        dc := if csum (s.fs block) ≠ c then addToMismatchedBlocks s.dc block s.nextCommitId
          else s.dc,
        nextLogBlock := wrap j.jFirst j.jLast (wrap j.jFirst j.jLast (s.nextLogBlock + 1)) } := by
  have hhead : ∀ o, o + 4 ≤ sizeofJournalBfHeader →
      read32 (log s.nextLogBlock) o =
        read32 (writeHeader zero jbd2DescriptorBlock s.nextCommitId) o := by
    intro o ho
    rw [hlog]
    exact oneDataTagDescriptor_header hb ho
  rw [doOnePassStep_descriptor j log csum .passScan info s (fun h => h.1 rfl)
    (by rw [hhead 0 (by decide)]; simp) (by rw [hhead 8 (by decide)]; simp)
    (by rw [hhead 4 (by decide)]; simp) (by decide), hlog,
    readAndVerifyChecksums_oneDataTagDescriptor j csum s.fs hb hsize,
    countTags_oneDataTagDescriptor hb hsize, Nat.add_zero]

end OneDataTag

/-- The log of two committed transactions that both append block 7: transaction 1 with a
checksum that does not match the device (`c + 1`), transaction 2 with one that does (`c`),
then a block without the journal magic. -/
def supersededMismatchLog (c : UInt32) : Nat → Image
  | 1 => oneDataTagDescriptor 1024 1 7 (c + 1)
  | 2 => commitRecord 1
  | 3 => oneDataTagDescriptor 1024 2 7 c
  | 4 => commitRecord 2
  | _ => zero

/-- On `supersededMismatchLog` with `c` the checksum of block 7 on the device, the scan
walks both transactions and stops at transaction 3; the mismatch of transaction 1 is
followed by transaction 2's tag for the same block, and the scan still ends the log at
transaction 1. -/
theorem scan_keeps_superseded_mismatch (csum : Image → UInt32) (fs : Nat → Image)
    (revoke : RevokeTable) :
    ∃ s, doOnePassLoop smallJournal (supersededMismatchLog (csum (fs 7))) csum .passScan
        ⟨1, 0⟩ 5 ⟨1, 1, initDcStruct, revoke, fs⟩ = some s ∧ s.nextCommitId = 3 ∧
      (doOnePass smallJournal (supersededMismatchLog (csum (fs 7))) csum .passScan ⟨0, 0⟩
        revoke fs 5).map (·.info.endTransaction) = some 1 := by
  have hgo : ∀ (s : PassState) (info : RecoveryInfo), ¬ (Passtype.passScan ≠ .passScan ∧
      tidGeq s.nextCommitId info.endTransaction = true) := fun _ _ h => h.1 rfl
  -- transaction 1: its tag for block 7 does not match, and the mismatch is recorded
  have h₁ : doOnePassStep smallJournal (supersededMismatchLog (csum (fs 7))) csum .passScan
      ⟨1, 0⟩ ⟨1, 1, initDcStruct, revoke, fs⟩ =
      .next ⟨1, 2, addToMismatchedBlocks initDcStruct 7 1, revoke, fs⟩ := by
    rw [doOnePassStep_scan_oneDataTag _ _ _ _ rfl (by norm_num) (by decide), if_pos (by simp)]
    rfl
  have h₂ : doOnePassStep smallJournal (supersededMismatchLog (csum (fs 7))) csum .passScan
      ⟨1, 0⟩ ⟨1, 2, addToMismatchedBlocks initDcStruct 7 1, revoke, fs⟩ =
      .next ⟨2, 3, addToMismatchedBlocks initDcStruct 7 1, revoke, fs⟩ := by
    rw [doOnePassStep_commit smallJournal (supersededMismatchLog (csum (fs 7))) csum .passScan
      ⟨1, 0⟩ ⟨1, 2, addToMismatchedBlocks initDcStruct 7 1, revoke, fs⟩ (hgo _ _) (read32_writeHeader_magic _ _ _)
      (read32_writeHeader_sequence _ _ _) (read32_writeHeader_blocktype _ _ _)]
    rfl
  -- transaction 2: its tag for block 7 matches, and the table is left as it is
  have h₃ : doOnePassStep smallJournal (supersededMismatchLog (csum (fs 7))) csum .passScan
      ⟨1, 0⟩ ⟨2, 3, addToMismatchedBlocks initDcStruct 7 1, revoke, fs⟩ =
      .next ⟨2, 4, addToMismatchedBlocks initDcStruct 7 1, revoke, fs⟩ := by
    rw [doOnePassStep_scan_oneDataTag _ _ _ _ rfl (by norm_num) (by decide), if_neg (by simp)]
    rfl
  have h₄ : doOnePassStep smallJournal (supersededMismatchLog (csum (fs 7))) csum .passScan
      ⟨1, 0⟩ ⟨2, 4, addToMismatchedBlocks initDcStruct 7 1, revoke, fs⟩ =
      .next ⟨3, 5, addToMismatchedBlocks initDcStruct 7 1, revoke, fs⟩ := by
    rw [doOnePassStep_commit smallJournal (supersededMismatchLog (csum (fs 7))) csum .passScan
      ⟨1, 0⟩ ⟨2, 4, addToMismatchedBlocks initDcStruct 7 1, revoke, fs⟩ (hgo _ _) (read32_writeHeader_magic _ _ _)
      (read32_writeHeader_sequence _ _ _) (read32_writeHeader_blocktype _ _ _)]
    rfl
  -- block 5 has no journal magic: the scan stops at transaction 3
  have h₅ := doOnePassStep_of_not_magic smallJournal (supersededMismatchLog (csum (fs 7))) csum
    .passScan ⟨1, 0⟩ ⟨3, 5, addToMismatchedBlocks initDcStruct 7 1, revoke, fs⟩ (hgo _ _)
    (by show read32 zero 0 ≠ _; rw [read32_zero]; decide)
  have hloop : doOnePassLoop smallJournal (supersededMismatchLog (csum (fs 7))) csum .passScan
      ⟨1, 0⟩ 5 ⟨1, 1, initDcStruct, revoke, fs⟩ =
      some ⟨3, 6, addToMismatchedBlocks initDcStruct 7 1, revoke, fs⟩ := by
    rw [doOnePassLoop_succ_of_next _ _ _ _ _ _ h₁, doOnePassLoop_succ_of_next _ _ _ _ _ _ h₂,
      doOnePassLoop_succ_of_next _ _ _ _ _ _ h₃, doOnePassLoop_succ_of_next _ _ _ _ _ _ h₄,
      doOnePassLoop_succ_of_done _ _ _ _ _ _ h₅]
    rfl
  refine ⟨_, hloop, rfl, ?_⟩
  -- the mismatch recorded for transaction 1 is the oldest one
  have herr : isDatachecksumErr (addToMismatchedBlocks initDcStruct 7 1) = some (1, 7) := by
    decide
  unfold doOnePass
  simp only [if_true, smallJournal] at hloop ⊢
  rw [hloop]
  simp [herr]

end OptFs.Jbd
