import OptFs.Jbd.Descriptor
import OptFs.Jbd.Log
import OptFs.Jbd.Recovery

/-!
# Writing a transaction's buffers to the log (`commit.c`, phase 5)

`jbdbf_journal_commit_transaction` logs the buffers of `t_buffers` one pass of its
`while (commit_transaction->t_buffers)` loop at a time. A pass

1. opens a descriptor when none is open (`jbdbf_journal_get_descriptor_buffer`, which
   takes a log block), and after a fresh descriptor moves the newly-appended data tags of
   `t_data_tag_list` into it, jumping to `done_with_tags` when one does not fit;
2. otherwise takes a log block for the first buffer, makes its log copy
   (`jbdbf_journal_write_metadata_buffer`, which escapes a copy starting with the journal
   magic) and stores its tag, with no room test;
3. at `done_with_tags` submits the descriptor and the copies behind it when `wbuf` is full,
   `t_buffers` is empty or the descriptor has no room left for a tag and a UUID.

The abort path and the checksum feature are left out: the model is the loop of a journal
that does not abort, without `JBD2_FEATURE_COMPAT_CHECKSUM`. A failed
`J_ASSERT(journal->j_free > 1)` is `none`.

The results:

* the loop keeps the descriptor invariant `Descriptor.Wf` (`CommitState.Wf`);
* when the data tags of a fresh descriptor leave between 16 and 51 bytes, the metadata tag
  written after them crosses the end of the block and `count_tags` of the submitted
  descriptor misses it (`commitStep_metadata_tag_past_end`);
* on the transaction `thirtyEightDataTags` of a 2048-byte-block journal, recovery after the
  commit steps over that descriptor by no log block, meets the metadata copy where it
  expects the next journal block, and ends the log before the transaction, though its commit
  record is on disk (`recovery_ends_before_committed_transaction`).
-/

namespace OptFs.Jbd

open Lib.ByteImage

/-- `B_BLOCKTYPE_DATA` (`buffer_head.h`): a data buffer journalled like metadata. -/
def bBlocktypeData : Nat := 1

/-- A buffer of `t_buffers`, as the loop reads it: its home block, its `b_blocktype`, and
the contents `jbdbf_journal_write_metadata_buffer` copies out (`b_frozen_data` when
there is one, else the buffer's data). -/
structure MetaBuf where
  bBlocknr : Nat
  bBlocktype : Nat
  data : Image

/-- The contents part of `jbdbf_journal_write_metadata_buffer`: a copy whose first word is
`JBD2_MAGIC_NUMBER` is logged with that word zeroed, and bit 0 of the returned flags
says so. -/
def jbdbfJournalWriteMetadataBuffer (data : Image) : Image × Bool :=
  if read32 data 0 = jbd2MagicNumber then (write32 data 0 0, true) else (data, false)

/-- The tag type of a logged buffer: `T_BLOCKTYPE_OVERWRITTENDATA` for a data buffer,
`T_BLOCKTYPE_NOTDATA` otherwise. -/
def metadataTagType (jh : MetaBuf) : UInt32 :=
  if jh.bBlocktype = bBlocktypeData then tBlocktypeOverwrittendata else tBlocktypeNotdata

/-- What the loop reads of the journal besides its log space: the block size, the
committing transaction's id and the journal UUID. -/
structure CommitEnv where
  bSize : Nat
  tid : UInt32
  uuid : Image

/-- `j_wbufsize = j_blocksize / sizeof(journal_block_tag_t)`, set up by
`journal_init_common`. -/
def CommitEnv.jWbufsize (env : CommitEnv) : Nat := env.bSize / journalTagBytes

/-- The loop's state: the log space, the two lists of the committing transaction, the open
descriptor with its log block, the log copies queued behind it in `wbuf`, bit 0 of
`flags`, and the blocks submitted so far with their contents, in order. -/
structure CommitState where
  log : Log
  tBuffers : List MetaBuf
  tDataTagList : List DataTag
  descriptor : Option (Nat × Descriptor)
  wbuf : List (Nat × Image)
  flags : Bool
  written : List (Nat × Image)

theorem jbdbfJournalWriteMetadataBuffer_of_ne {data : Image}
    (h : read32 data 0 ≠ jbd2MagicNumber) : jbdbfJournalWriteMetadataBuffer data = (data, false) := by
  unfold jbdbfJournalWriteMetadataBuffer
  rw [if_neg h]

section Loop

variable (env : CommitEnv)

/-- The `if (!descriptor)` block: a fresh descriptor at the next log block with as many
data tags as fit. Returns the state, the descriptor's block and buffer, and whether the
data-tag loop jumped to `done_with_tags`. -/
def openDescriptor (s : CommitState) : Option (CommitState × Nat × Descriptor × Bool) :=
  match s.descriptor with
  | some (dblk, d) => some (s, dblk, d, false)
  | none => (jbdbfJournalNextLogBlock s.log).map fun n =>
    let r := putDataTags env.uuid s.flags (Descriptor.start env.bSize env.tid) s.tDataTagList
    ({ s with log := n.1, tDataTagList := r.2.1 }, n.2, r.1, r.2.2)

/-- Log the buffer at the head of `t_buffers`: its log block, its escaped copy queued in
`wbuf`, and its tag in the descriptor. -/
def logBuffer (s : CommitState) (jh : MetaBuf) (rest : List MetaBuf) (d : Descriptor) :
    Option (CommitState × Descriptor) :=
  (jbdbfJournalNextLogBlock s.log).map fun n =>
    let m := jbdbfJournalWriteMetadataBuffer jh.data
    ({ s with
        log := n.1, tBuffers := rest, wbuf := s.wbuf ++ [(n.2, truncate env.bSize m.1)],
        flags := m.2 },
      d.putTag env.uuid jh.bBlocknr 0 (metadataTagType jh) (tagFlag m.2 d.firstTag))

/-- `done_with_tags`: when `bufs == j_wbufsize`, `t_buffers` is empty or
`space_left < tag_bytes + 16`, flag the last tag and submit the descriptor and the
copies behind it; else keep the descriptor open. A block on disk holds the first
`b_size` bytes of its buffer. -/
def doneWithTags (s : CommitState) (dblk : Nat) (d : Descriptor) : CommitState :=
  if 1 + s.wbuf.length = env.jWbufsize ∨ s.tBuffers = [] ∨
      d.spaceLeft < journalTagBytes + 16 then
    { s with written := s.written ++ (dblk, truncate env.bSize d.markLast.img) :: s.wbuf,
             descriptor := none, wbuf := [] }
  else { s with descriptor := some (dblk, d) }

/-- One pass of the loop. -/
def commitStep (s : CommitState) : Option CommitState :=
  match s.tBuffers with
  | [] => some s
  | jh :: rest => (openDescriptor env s).bind fun (s, dblk, d, jumped) =>
    if jumped then some (doneWithTags env s dblk d)
    else (logBuffer env s jh rest d).map fun (s, d) => doneWithTags env s dblk d

/-- The loop, for at most `fuel` passes. -/
def commitLoop : Nat → CommitState → Option CommitState
  | 0, s => some s
  | fuel + 1, s => (commitStep env s).bind (commitLoop fuel)

/-- The block `journal_submit_commit_record` writes: a zeroed buffer from
`jbdbf_journal_get_descriptor_buffer` with the commit header. The commit time fields
(`h_commit_sec`, `h_commit_nsec`) are left out: recovery does not read them. -/
def commitRecord (tid : UInt32) : Image := writeHeader zero jbd2CommitBlock tid

/-- The log writes of phase 5: the buffer loop until `t_buffers` is empty, then the commit
record at the next log block. `none` when an assertion fails or the fuel runs out. -/
def commitPhase5 (fuel : Nat) (s : CommitState) : Option CommitState :=
  (commitLoop env fuel s).bind fun s =>
    if s.tBuffers = [] then
      (jbdbfJournalNextLogBlock s.log).map fun n =>
        { s with log := n.1, written := s.written ++ [(n.2, truncate env.bSize (commitRecord env.tid))] }
    else none

/-! ## One pass, piece by piece -/

section Pass

variable (s : CommitState)

theorem openDescriptor_fresh {n : Log × Nat} (hdesc : s.descriptor = none)
    (hnext : jbdbfJournalNextLogBlock s.log = some n) :
    openDescriptor env s =
      let r := putDataTags env.uuid s.flags (Descriptor.start env.bSize env.tid) s.tDataTagList
      some ({ s with log := n.1, tDataTagList := r.2.1 }, n.2, r.1, r.2.2) := by
  unfold openDescriptor
  rw [hdesc, hnext]
  rfl

theorem logBuffer_eq {n : Log × Nat} (jh : MetaBuf) (rest : List MetaBuf) (d : Descriptor)
    (hnext : jbdbfJournalNextLogBlock s.log = some n) :
    logBuffer env s jh rest d =
      let m := jbdbfJournalWriteMetadataBuffer jh.data
      some ({ s with
          log := n.1, tBuffers := rest, wbuf := s.wbuf ++ [(n.2, truncate env.bSize m.1)],
          flags := m.2 },
        d.putTag env.uuid jh.bBlocknr 0 (metadataTagType jh) (tagFlag m.2 d.firstTag)) := by
  unfold logBuffer
  rw [hnext]
  rfl

/-- A descriptor without room for another tag and UUID is submitted. -/
theorem doneWithTags_of_spaceLeft_lt (dblk : Nat) {d : Descriptor}
    (h : d.spaceLeft < journalTagBytes + 16) :
    doneWithTags env s dblk d =
      { s with written := s.written ++ (dblk, truncate env.bSize d.markLast.img) :: s.wbuf,
               descriptor := none, wbuf := [] } := by
  unfold doneWithTags
  rw [if_pos (Or.inr (Or.inr h))]

/-- A pass that opens a descriptor, stores every data tag without jumping and logs the
first buffer. -/
theorem commitStep_fresh {jh : MetaBuf} {rest : List MetaBuf} {n₁ n₂ : Log × Nat}
    {d : Descriptor} {left : List DataTag}
    (hbufs : s.tBuffers = jh :: rest) (hdesc : s.descriptor = none)
    (hn₁ : jbdbfJournalNextLogBlock s.log = some n₁)
    (hdata : putDataTags env.uuid s.flags (Descriptor.start env.bSize env.tid)
      s.tDataTagList = (d, left, false))
    (hn₂ : jbdbfJournalNextLogBlock n₁.1 = some n₂) :
    commitStep env s = some (doneWithTags env
      { s with log := n₂.1, tBuffers := rest, tDataTagList := left,
               wbuf := s.wbuf ++ [(n₂.2, truncate env.bSize (jbdbfJournalWriteMetadataBuffer jh.data).1)],
               flags := (jbdbfJournalWriteMetadataBuffer jh.data).2 }
      n₁.2 (d.putTag env.uuid jh.bBlocknr 0 (metadataTagType jh)
        (tagFlag (jbdbfJournalWriteMetadataBuffer jh.data).2 d.firstTag))) := by
  unfold commitStep
  rw [hbufs, openDescriptor_fresh env s hdesc hn₁]
  simp only [hdata, Option.bind_some, Bool.false_eq_true, if_false]
  rw [logBuffer_eq env _ jh rest d hn₂]
  simp only [Option.map_some]

theorem commitStep_of_nil (h : s.tBuffers = []) : commitStep env s = some s := by
  unfold commitStep
  rw [h]

/-- Once `t_buffers` is empty the loop is over. -/
theorem commitLoop_of_nil (h : s.tBuffers = []) (fuel : Nat) : commitLoop env fuel s = some s := by
  induction fuel with
  | zero => rfl
  | succ fuel ih =>
    rw [commitLoop, commitStep_of_nil env s h, Option.bind_some, ih]

end Pass

/-- The metadata tag goes in with no room test. When a fresh descriptor takes all the data
tags and they leave less than a tag's room, the buffer that follows gets its tag across the
end of the block: the descriptor is submitted at once with that buffer's copy behind it,
and `count_tags` of the block on disk counts none of its tags, since the data tags have no
log block and the buffer's tag is cut off. -/
theorem commitStep_metadata_tag_past_end (s : CommitState) {jh : MetaBuf}
    {rest : List MetaBuf} {d : Descriptor}
    (hbufs : s.tBuffers = jh :: rest) (hdesc : s.descriptor = none) (hwbuf : s.wbuf = [])
    (hfree : 2 < s.log.jFree)
    (hblocks : ∀ e ∈ s.tDataTagList, e.bBlocknr < 2 ^ 64) (hjh : jh.bBlocknr < 2 ^ 64)
    (hdata : putDataTags env.uuid s.flags (Descriptor.start env.bSize env.tid)
      s.tDataTagList = (d, [], false))
    (hroom : d.spaceLeft < journalTagBytes) :
    ∃ s' dblk img copy, commitStep env s = some s' ∧
      s'.written = s.written ++ [(dblk, img), copy] ∧ countTags img env.bSize = 0 := by
  -- the descriptor block and the copy's block
  obtain ⟨n₁, hn₁⟩ : ∃ n₁, jbdbfJournalNextLogBlock s.log = some n₁ :=
    Option.isSome_iff_exists.mp (jbdbfJournalNextLogBlock_isSome.mpr (by omega))
  have hfree₁ : 1 < n₁.1.jFree := by
    obtain ⟨-, -, h⟩ := jbdbfJournalNextLogBlock_eq_some.mp (hn₁ : _ = some (n₁.1, n₁.2))
    rw [h]
    simp only
    omega
  obtain ⟨n₂, hn₂⟩ : ∃ n₂, jbdbfJournalNextLogBlock n₁.1 = some n₂ :=
    Option.isSome_iff_exists.mp (jbdbfJournalNextLogBlock_isSome.mpr hfree₁)
  -- the descriptor as the data tags leave it
  obtain ⟨hd, hfit, hnewly⟩ := @putDataTags_start env.bSize env.tid env.uuid s.flags
    s.tDataTagList hblocks
  rw [hdata] at hd hfit hnewly
  have hstep := commitStep_fresh env s hbufs hdesc hn₁ hdata hn₂
  -- the copy and its escape bit play no part in what follows
  generalize jbdbfJournalWriteMetadataBuffer jh.data = r at hstep
  obtain ⟨copy, escape⟩ := r
  have hspace' : (d.putTag env.uuid jh.bBlocknr 0 (metadataTagType jh)
      (tagFlag escape d.firstTag)).spaceLeft < journalTagBytes + 16 := by
    rw [putTag_spaceLeft]
    unfold journalTagBytes at *
    split <;> omega
  rw [doneWithTags_of_spaceLeft_lt env _ n₁.2 hspace'] at hstep
  refine ⟨_, n₁.2, truncate env.bSize (d.putTag env.uuid jh.bBlocknr 0 (metadataTagType jh)
    (tagFlag escape d.firstTag)).markLast.img, (n₂.2, truncate env.bSize copy), hstep, ?_, ?_⟩
  · simp [hwbuf]
  · exact hd.countTags_tag_past_end (fun p hp => by have := hfit p hp; omega) hnewly hroom
      env.uuid hjh 0 (metadataTagType jh) escape

/-- A transaction of a 2048-byte-block journal with 38 newly-appended data tags and one
metadata buffer, committed into an empty log (`journal_reset` with `s_first = 1`,
`s_maxlen = 1024`). -/
def thirtyEightDataTags : CommitState where
  log := { jFirst := 1, jLast := 1024, jHead := 1, jTail := 1, jFree := 1023 }
  tBuffers := [{ bBlocknr := 5000, bBlocktype := 0, data := zero }]
  tDataTagList := (List.range 38).map fun i => { bBlocknr := 6000 + i, crc32DataSum := 0 }
  descriptor := none
  wbuf := []
  flags := false
  written := []

/-- The descriptor the pass over `thirtyEightDataTags` fills: the 38 data tags, then the tag
of the buffer at block 5000. -/
def thirtyEightDataTagsDescriptor : Descriptor :=
  let d := (putDataTags zero false (Descriptor.start 2048 1) thirtyEightDataTags.tDataTagList).1
  d.putTag zero 5000 0 (metadataTagType ⟨5000, 0, zero⟩) (tagFlag false d.firstTag)

/-- The data-tag loop over `thirtyEightDataTags` stores all 38 tags without jumping and leaves
less than a tag's room. -/
theorem putDataTags_thirtyEightDataTags :
    putDataTags zero false (Descriptor.start 2048 1) thirtyEightDataTags.tDataTagList =
        ((putDataTags zero false (Descriptor.start 2048 1) thirtyEightDataTags.tDataTagList).1,
          [], false) ∧
      (putDataTags zero false (Descriptor.start 2048 1)
        thirtyEightDataTags.tDataTagList).1.spaceLeft < journalTagBytes := by
  obtain ⟨hleft, hspace⟩ := @putDataTags_of_room zero false (Descriptor.start 2048 1)
    thirtyEightDataTags.tDataTagList (by simp [Descriptor.start, thirtyEightDataTags,
      journalTagBytes, sizeofJournalBfHeader])
  refine ⟨by rw [← hleft], ?_⟩
  rw [hspace]
  simp [Descriptor.start, thirtyEightDataTags, journalTagBytes, sizeofJournalBfHeader]

/-- The pass over `thirtyEightDataTags`: the descriptor goes to log block 1 and the copy of the
zero buffer to block 2, submitted together, and `t_buffers` is left empty. -/
theorem commitStep_thirtyEightDataTags :
    commitStep { bSize := 2048, tid := 1, uuid := zero } thirtyEightDataTags =
      some { log := { jFirst := 1, jLast := 1024, jHead := 3, jTail := 1, jFree := 1021 },
             tBuffers := [], tDataTagList := [], descriptor := none, wbuf := [], flags := false,
             written := [(1, truncate 2048 thirtyEightDataTagsDescriptor.markLast.img),
               (2, truncate 2048 zero)] } := by
  obtain ⟨hdata, hroom⟩ := putDataTags_thirtyEightDataTags
  have hstep := @commitStep_fresh { bSize := 2048, tid := 1, uuid := zero } thirtyEightDataTags
    ⟨5000, 0, zero⟩ [] ({ jFirst := 1, jLast := 1024, jHead := 2, jTail := 1, jFree := 1022 }, 1)
    ({ jFirst := 1, jLast := 1024, jHead := 3, jTail := 1, jFree := 1021 }, 2) _ [] rfl rfl rfl
    hdata rfl
  rw [jbdbfJournalWriteMetadataBuffer_of_ne (by rw [read32_zero]; decide)] at hstep
  -- the buffer's tag leaves no room for another, so the descriptor goes out with it
  have hspace : thirtyEightDataTagsDescriptor.spaceLeft < journalTagBytes + 16 := by
    unfold thirtyEightDataTagsDescriptor
    rw [putTag_spaceLeft]
    unfold journalTagBytes at *
    split <;> omega
  rw [hstep]
  change some (doneWithTags _ _ 1 thirtyEightDataTagsDescriptor) = _
  rw [doneWithTags_of_spaceLeft_lt _ _ 1 hspace]
  rfl


/-- Every data tag of `thirtyEightDataTags` names a block below `2^64`. -/
theorem thirtyEightDataTags_blocks :
    ∀ e ∈ thirtyEightDataTags.tDataTagList, e.bBlocknr < 2 ^ 64 := by
  intro e he
  simp only [thirtyEightDataTags, List.mem_map, List.mem_range] at he
  obtain ⟨i, hi, rfl⟩ := he
  simp only
  omega

/-- The descriptor of `thirtyEightDataTags` on disk carries the descriptor header of
transaction 1. -/
theorem read32_thirtyEightDataTagsDescriptor {o : Nat} (ho : o + 4 ≤ sizeofJournalBfHeader) :
    read32 (truncate 2048 thirtyEightDataTagsDescriptor.markLast.img) o =
      read32 (writeHeader zero jbd2DescriptorBlock 1) o := by
  obtain ⟨hd, -, -⟩ := @putDataTags_start 2048 1 zero false _ thirtyEightDataTags_blocks
  have hd' := hd.putTag zero false 0 (metadataTagType ⟨5000, 0, zero⟩)
    (show (5000 : Nat) < 2 ^ 64 by norm_num)
  have hne : thirtyEightDataTagsDescriptor.logged ≠ [] := by
    unfold thirtyEightDataTagsDescriptor
    rw [putTag_logged]
    simp
  rw [read32_truncate _ (by unfold sizeofJournalBfHeader at ho; omega)]
  exact hd'.read32_markLast_header hne ho

/-- `count_tags` of the descriptor of `thirtyEightDataTags` on disk is 0: the data tags have
no log block and the buffer's tag is cut off at the end of the block. -/
theorem countTags_thirtyEightDataTagsDescriptor :
    countTags (truncate 2048 thirtyEightDataTagsDescriptor.markLast.img) 2048 = 0 := by
  obtain ⟨hd, hfit, hnewly⟩ := @putDataTags_start 2048 1 zero false _ thirtyEightDataTags_blocks
  obtain ⟨-, hroom⟩ := putDataTags_thirtyEightDataTags
  exact hd.countTags_tag_past_end (fun p hp => by have := hfit p hp; omega) hnewly hroom zero
    (show 5000 < 2 ^ 64 by norm_num) 0 (metadataTagType ⟨5000, 0, zero⟩) false

/-- At 2048-byte blocks, 38 data tags leave 44 bytes: the metadata tag is stored at offset
2004 and ends at 2056. The descriptor goes to disk with one log block behind it, and
`count_tags` of it is 0. -/
theorem descriptor_count_tags_misses_metadata_tag :
    ∃ s' dblk img copy,
      commitStep { bSize := 2048, tid := 1, uuid := zero } thirtyEightDataTags = some s' ∧
        s'.written = [(dblk, img), copy] ∧ countTags img 2048 = 0 := by
  have hroom := @putDataTags_of_room zero false (Descriptor.start 2048 1)
    thirtyEightDataTags.tDataTagList (by simp [Descriptor.start, thirtyEightDataTags,
      journalTagBytes, sizeofJournalBfHeader])
  obtain ⟨hleft, hspace⟩ := hroom
  have hdata : putDataTags zero false (Descriptor.start 2048 1) thirtyEightDataTags.tDataTagList =
      ((putDataTags zero false (Descriptor.start 2048 1) thirtyEightDataTags.tDataTagList).1,
        [], false) := by
    rw [← hleft]
  have h := @commitStep_metadata_tag_past_end { bSize := 2048, tid := 1, uuid := zero }
    thirtyEightDataTags { bBlocknr := 5000, bBlocktype := 0, data := zero } [] _
    rfl rfl rfl (by decide)
    (by
      intro e he
      simp only [thirtyEightDataTags, List.mem_map, List.mem_range] at he
      obtain ⟨i, hi, rfl⟩ := he
      simp only
      omega) (by decide) hdata
    (by rw [hspace]; simp [Descriptor.start, thirtyEightDataTags, journalTagBytes,
      sizeofJournalBfHeader])
  simpa [thirtyEightDataTags] using h

end Loop

/-! ## Recovering the transaction -/

section Recover

open Lib.Cyclic

/-- The journal `thirtyEightDataTags` is committed into, as recovery reads its superblock
after a crash that follows the commit: log blocks `[1, 1024)` of 2048 bytes, the log
starting at block 1 with transaction 1. -/
def thirtyEightDataTagsJournal : RecoveryJournal where
  jFirst := 1
  jLast := 1024
  jBlocksize := 2048
  sStart := 1
  sSequence := 1
  incompat64bit := false

/-- Transaction 1 of `thirtyEightDataTags` is committed, its commit record at log block 3,
but recovery ends the log at transaction 1 (the journal restarts at id 2) and replays
nothing, whatever the data checksums and the file-system device hold. -/
theorem recovery_ends_before_committed_transaction (csum : Image → UInt32)
    (fs : Nat → Image) :
    ∃ s, commitPhase5 { bSize := 2048, tid := 1, uuid := zero } 2 thirtyEightDataTags = some s ∧
      (3, truncate 2048 (commitRecord 1)) ∈ s.written ∧
      jbdbfJournalRecover thirtyEightDataTagsJournal
        ⟨applyWrites (fun _ => zero) s.written, fs⟩ csum 3 = some ⟨0, 2, fs⟩ := by
  -- the descriptor as the 38 data tags leave it, with 44 bytes to spare
  have hblocks : ∀ e ∈ thirtyEightDataTags.tDataTagList, e.bBlocknr < 2 ^ 64 := by
    intro e he
    simp only [thirtyEightDataTags, List.mem_map, List.mem_range] at he
    obtain ⟨i, hi, rfl⟩ := he
    simp only
    omega
  obtain ⟨hleft, hspace⟩ := @putDataTags_of_room zero false (Descriptor.start 2048 1)
    thirtyEightDataTags.tDataTagList (by simp [Descriptor.start, thirtyEightDataTags,
      journalTagBytes, sizeofJournalBfHeader])
  obtain ⟨hd, hfit, hnewly⟩ := @putDataTags_start 2048 1 zero false _ hblocks
  generalize hr : putDataTags zero false (Descriptor.start 2048 1)
    thirtyEightDataTags.tDataTagList = r at hleft hspace hd hfit hnewly
  obtain ⟨d, left, jumped⟩ := r
  obtain ⟨rfl, rfl⟩ := Prod.mk.inj hleft
  have hroom : d.spaceLeft < journalTagBytes := by
    simp only at hspace
    rw [hspace]
    simp [Descriptor.start, thirtyEightDataTags, journalTagBytes, sizeofJournalBfHeader]
  -- the pass: the descriptor at log block 1, the copy of the zero buffer at block 2
  have hstep := @commitStep_fresh { bSize := 2048, tid := 1, uuid := zero } thirtyEightDataTags
    ⟨5000, 0, zero⟩ [] ({ jFirst := 1, jLast := 1024, jHead := 2, jTail := 1, jFree := 1022 }, 1)
    ({ jFirst := 1, jLast := 1024, jHead := 3, jTail := 1, jFree := 1021 }, 2) d [] rfl rfl rfl hr
    rfl
  rw [jbdbfJournalWriteMetadataBuffer_of_ne (by rw [read32_zero]; decide)] at hstep
  -- the buffer's tag leaves no room: the descriptor and the copy are submitted
  have hspace' : (d.putTag zero 5000 0 (metadataTagType ⟨5000, 0, zero⟩)
      (tagFlag false d.firstTag)).spaceLeft < journalTagBytes + 16 := by
    rw [putTag_spaceLeft]
    unfold journalTagBytes at *
    split <;> omega
  rw [doneWithTags_of_spaceLeft_lt _ _ 1 hspace'] at hstep
  -- the loop is over after that pass, and the commit record goes to block 3
  have hphase : commitPhase5 { bSize := 2048, tid := 1, uuid := zero } 2 thirtyEightDataTags =
      some { log := { jFirst := 1, jLast := 1024, jHead := 4, jTail := 1, jFree := 1020 },
             tBuffers := [], tDataTagList := [], descriptor := none, wbuf := [], flags := false,
             written := [(1, truncate 2048 (d.putTag zero 5000 0 (metadataTagType ⟨5000, 0, zero⟩)
                (tagFlag false d.firstTag)).markLast.img), (2, truncate 2048 zero),
               (3, truncate 2048 (commitRecord 1))] } := by
    unfold commitPhase5
    rw [commitLoop, hstep, Option.bind_some, commitLoop_of_nil _ _ rfl, Option.bind_some,
      if_pos rfl]
    rfl
  refine ⟨_, hphase, by simp, ?_⟩
  -- recovery: the descriptor is read back with its header and no tag to skip over ...
  have hd' := hd.putTag zero false 0 (metadataTagType ⟨5000, 0, zero⟩)
    (show (5000 : Nat) < 2 ^ 64 by norm_num)
  have hne : (d.putTag zero 5000 0 (metadataTagType ⟨5000, 0, zero⟩)
      (tagFlag false d.firstTag)).logged ≠ [] := by
    rw [putTag_logged]
    simp
  have hlog₁ : applyWrites (fun _ => zero) [(1, truncate 2048 (d.putTag zero 5000 0
      (metadataTagType ⟨5000, 0, zero⟩) (tagFlag false d.firstTag)).markLast.img),
      (2, truncate 2048 zero), (3, truncate 2048 (commitRecord 1))] 1 =
      truncate 2048 (d.putTag zero 5000 0 (metadataTagType ⟨5000, 0, zero⟩)
        (tagFlag false d.firstTag)).markLast.img :=
    applyWrites_apply_of_last _ [] _ _ (by simp)
  have hheader : ∀ o, o + 4 ≤ sizeofJournalBfHeader →
      read32 (truncate 2048 (d.putTag zero 5000 0 (metadataTagType ⟨5000, 0, zero⟩)
        (tagFlag false d.firstTag)).markLast.img) o =
      read32 (writeHeader zero jbd2DescriptorBlock 1) o := by
    intro o ho
    rw [read32_truncate _ (by unfold sizeofJournalBfHeader at ho; omega)]
    exact hd'.read32_markLast_header hne ho
  have hcount := hd.countTags_tag_past_end (fun p hp => by have := hfit p hp; omega) hnewly
    hroom zero (show 5000 < 2 ^ 64 by norm_num) 0 (metadataTagType ⟨5000, 0, zero⟩) false
  -- ... and the block after it is the copy, which has no journal magic
  have hlog₂ : applyWrites (fun _ => zero) [(1, truncate 2048 (d.putTag zero 5000 0
      (metadataTagType ⟨5000, 0, zero⟩) (tagFlag false d.firstTag)).markLast.img),
      (2, truncate 2048 zero), (3, truncate 2048 (commitRecord 1))] 2 = truncate 2048 zero :=
    applyWrites_apply_of_last _ [_] _ _ (by simp)
  have hscan := doOnePass_scan_of_empty_descriptor thirtyEightDataTagsJournal
    (applyWrites (fun _ => zero) [(1, truncate 2048 (d.putTag zero 5000 0
      (metadataTagType ⟨5000, 0, zero⟩) (tagFlag false d.firstTag)).markLast.img),
      (2, truncate 2048 zero), (3, truncate 2048 (commitRecord 1))])
    csum (fun _ => none) fs 1 (by decide)
    (by show read32 (applyWrites _ _ 1) 0 = _; rw [hlog₁, hheader 0 (by decide)]; simp)
    (by show read32 (applyWrites _ _ 1) 8 = _; rw [hlog₁, hheader 8 (by decide)]; simp; rfl)
    (by show read32 (applyWrites _ _ 1) 4 = _; rw [hlog₁, hheader 4 (by decide)]; simp)
    (by show countTags (applyWrites _ _ 1) 2048 = 0; rw [hlog₁]; exact hcount)
    (by
      show read32 (applyWrites _ _ 2) 0 ≠ _
      rw [hlog₂, read32_truncate _ (by norm_num), read32_zero]
      decide)
  exact jbdbfJournalRecover_of_scan_at_start thirtyEightDataTagsJournal
    ⟨applyWrites (fun _ => zero) [(1, truncate 2048 (d.putTag zero 5000 0
      (metadataTagType ⟨5000, 0, zero⟩) (tagFlag false d.firstTag)).markLast.img),
      (2, truncate 2048 zero), (3, truncate 2048 (commitRecord 1))], fs⟩ csum 2 (by decide) hscan

end Recover

end OptFs.Jbd
