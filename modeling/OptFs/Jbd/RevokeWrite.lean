import OptFs.Jbd.Commit

/-!
# Writing revoke records (`revoke.c`)

Before its descriptor blocks, the commit writes the committing transaction's revoke
records (`jbdbf_journal_write_revoke_records`). `write_one_revoke_record` appends a
record of 4 bytes (8 with `JBD2_FEATURE_INCOMPAT_64BIT`) to the current revoke block,
flushing the block once its `offset` has reached the block size and taking a fresh one
(`jbdbf_journal_get_descriptor_buffer`, hence `jbdbf_journal_next_log_block`) when none
is open. `flush_descriptor` stores `r_count = offset` in the block and writes it.

Revoke records are taken without any log credit (`jbdbf_journal_revoke` charges none), so
nothing bounds how many log blocks this part of the commit takes. The results:

* a block is filled record by record without taking log space
  (`writeRevokeRecords_fill`);
* a writer whose block is full and that has fewer free log blocks than the records ahead
  need stops on the assertion of `jbdbf_journal_next_log_block`
  (`writeRevokeRecords_full_none`).
-/

namespace OptFs.Jbd

open Lib.ByteImage

/-- What `jbdbf_journal_write_revoke_records` threads through `write_one_revoke_record`:
the log space, the revoke block being filled with its log block, the `offset` of the next
record in it, and the blocks written so far. -/
structure RevokeWriter where
  log : Log
  descriptor : Option (Nat × Image)
  offset : Nat
  written : List (Nat × Image)

section Writer

variable (env : CommitEnv) (rec64 : Bool)

/-- The size of one record. -/
def revokeRecordLen : Nat := if rec64 then 8 else 4

/-- `flush_descriptor`: `r_count = offset`, and the block goes to the log. -/
def flushDescriptor (w : RevokeWriter) (dblk : Nat) (img : Image) : RevokeWriter :=
  { w with
    written := w.written ++
      [(dblk, truncate env.bSize (write32 img sizeofJournalBfHeader (UInt32.ofNat w.offset)))],
    descriptor := none }

/-- The first test of `write_one_revoke_record`: a block whose `offset` reached
`j_blocksize` is flushed. -/
def flushIfFull (w : RevokeWriter) : RevokeWriter :=
  match w.descriptor with
  | some (dblk, img) => if w.offset = env.bSize then flushDescriptor env w dblk img else w
  | none => w

/-- The second test: without an open block, take a fresh one from
`jbdbf_journal_get_descriptor_buffer`, zeroed, with a revoke header and `offset` after the
revoke header. -/
def openRevokeBlock (w : RevokeWriter) : Option (RevokeWriter × Nat × Image) :=
  match w.descriptor with
  | some (dblk, img) => some (w, dblk, img)
  | none => (jbdbfJournalNextLogBlock w.log).map fun n =>
    ({ w with log := n.1, offset := sizeofRevokeHeader }, n.2,
      writeHeader zero jbd2RevokeBlock env.tid)

/-- Store one record at `offset`, big-endian, and move `offset` past it. -/
def putRevokeRecord (w : RevokeWriter) (dblk : Nat) (img : Image) (blocknr : Nat) :
    RevokeWriter :=
  if rec64 then
    { w with descriptor := some (dblk, write64 img w.offset (UInt64.ofNat blocknr)),
             offset := w.offset + 8 }
  else
    { w with descriptor := some (dblk, write32 img w.offset (UInt32.ofNat blocknr)),
             offset := w.offset + 4 }

/-- `write_one_revoke_record`. -/
def writeOneRevokeRecord (w : RevokeWriter) (blocknr : Nat) : Option RevokeWriter :=
  (openRevokeBlock env (flushIfFull env w)).map fun r => putRevokeRecord rec64 r.1 r.2.1 r.2.2 blocknr

/-- `jbdbf_journal_write_revoke_records`: every record of the committing transaction's
revoke table, in the order the hash walk meets them, then the last block is flushed. -/
def jbdbfJournalWriteRevokeRecords (w : RevokeWriter) (records : List Nat) :
    Option RevokeWriter :=
  (records.foldlM (writeOneRevokeRecord env rec64) w).map fun w =>
    match w.descriptor with
    | some (dblk, img) => flushDescriptor env w dblk img
    | none => w

/-! ## Counting blocks -/

theorem putRevokeRecord_log (w : RevokeWriter) (dblk : Nat) (img : Image) (blocknr : Nat) :
    (putRevokeRecord rec64 w dblk img blocknr).log = w.log := by
  unfold putRevokeRecord
  split <;> rfl

theorem putRevokeRecord_offset (w : RevokeWriter) (dblk : Nat) (img : Image) (blocknr : Nat) :
    (putRevokeRecord rec64 w dblk img blocknr).offset = w.offset + revokeRecordLen rec64 := by
  unfold putRevokeRecord revokeRecordLen
  split <;> rfl

theorem putRevokeRecord_descriptor (w : RevokeWriter) (dblk : Nat) (img : Image)
    (blocknr : Nat) : ∃ img', (putRevokeRecord rec64 w dblk img blocknr).descriptor =
      some (dblk, img') := by
  unfold putRevokeRecord
  split
  · exact ⟨_, rfl⟩
  · exact ⟨_, rfl⟩

/-- A record that fits in the open block takes no log space. -/
theorem writeOneRevokeRecord_of_room {w : RevokeWriter} {dblk : Nat} {img : Image}
    (hd : w.descriptor = some (dblk, img)) (hroom : w.offset ≠ env.bSize) (blocknr : Nat) :
    writeOneRevokeRecord env rec64 w blocknr = some (putRevokeRecord rec64 w dblk img blocknr) := by
  unfold writeOneRevokeRecord flushIfFull
  rw [hd]
  simp only [hroom, if_false]
  unfold openRevokeBlock
  rw [hd]
  rfl

/-- A record after a full block flushes it and needs a fresh log block. -/
theorem writeOneRevokeRecord_of_full {w : RevokeWriter} {dblk : Nat} {img : Image}
    (hd : w.descriptor = some (dblk, img)) (hfull : w.offset = env.bSize) (blocknr : Nat) :
    writeOneRevokeRecord env rec64 w blocknr =
      (jbdbfJournalNextLogBlock w.log).map fun n =>
        putRevokeRecord rec64
          { flushDescriptor env w dblk img with log := n.1, offset := sizeofRevokeHeader } n.2
          (writeHeader zero jbd2RevokeBlock env.tid) blocknr := by
  unfold writeOneRevokeRecord flushIfFull
  rw [hd]
  simp only [hfull, if_true]
  unfold openRevokeBlock
  simp only [flushDescriptor]
  cases jbdbfJournalNextLogBlock w.log <;> rfl

/-- The first record of all opens the first block. -/
theorem writeOneRevokeRecord_of_none {w : RevokeWriter} (hd : w.descriptor = none)
    (blocknr : Nat) :
    writeOneRevokeRecord env rec64 w blocknr =
      (jbdbfJournalNextLogBlock w.log).map fun n =>
        putRevokeRecord rec64 { w with log := n.1, offset := sizeofRevokeHeader } n.2
          (writeHeader zero jbd2RevokeBlock env.tid) blocknr := by
  unfold writeOneRevokeRecord flushIfFull
  rw [hd]
  unfold openRevokeBlock
  rw [hd]
  cases jbdbfJournalNextLogBlock w.log <;> rfl

/-- Records that fit in the open block are stored one after another, with no log block
taken and no block flushed. -/
theorem writeRevokeRecords_fill :
    ∀ (records : List Nat) (w : RevokeWriter) (dblk : Nat) (img : Image) (m : Nat),
      w.descriptor = some (dblk, img) →
      w.offset = sizeofRevokeHeader + revokeRecordLen rec64 * m →
      sizeofRevokeHeader + revokeRecordLen rec64 * (m + records.length) ≤ env.bSize →
      ∃ w', records.foldlM (writeOneRevokeRecord env rec64) w = some w' ∧ w'.log = w.log ∧
        (∃ img', w'.descriptor = some (dblk, img')) ∧
        w'.offset = sizeofRevokeHeader + revokeRecordLen rec64 * (m + records.length) := by
  intro records
  induction records with
  | nil =>
    intro w dblk img m hd hoff _
    exact ⟨w, rfl, rfl, ⟨img, hd⟩, by simpa using hoff⟩
  | cons b rest ih =>
    intro w dblk img m hd hoff hroom
    have hlen : 0 < revokeRecordLen rec64 := by unfold revokeRecordLen; split <;> omega
    -- the block has room for this record: its offset is still below the block size
    have hne : w.offset ≠ env.bSize := by
      simp only [List.length_cons] at hroom
      rw [hoff]
      nlinarith
    rw [List.foldlM_cons, writeOneRevokeRecord_of_room env rec64 hd hne]
    simp only [Option.bind_eq_bind, Option.bind_some]
    obtain ⟨img₁, hd₁⟩ := putRevokeRecord_descriptor rec64 w dblk img b
    obtain ⟨w', hw', hlog, hdesc, hoff'⟩ := ih _ dblk img₁ (m + 1) hd₁
      (by rw [putRevokeRecord_offset, hoff]; ring)
      (by simp only [List.length_cons] at hroom; linarith)
    refine ⟨w', hw', ?_, hdesc, ?_⟩
    · rw [hlog, putRevokeRecord_log]
    · rw [hoff']
      simp only [List.length_cons]
      ring

/-- A writer whose block is full, with `f` free log blocks, cannot take more than
`(f - 1)` further blocks of `per` records each: more records than that reach a
`jbdbf_journal_next_log_block` with `j_free ≤ 1`, and the assertion stops the commit. -/
theorem writeRevokeRecords_full_none (per : Nat)
    (hper : sizeofRevokeHeader + revokeRecordLen rec64 * per = env.bSize) (hpos : 0 < per) :
    ∀ (f : Nat) (records : List Nat) (w : RevokeWriter) (dblk : Nat) (img : Image),
      w.log.jFree = f → w.descriptor = some (dblk, img) → w.offset = env.bSize →
      per * (f - 1) < records.length →
      records.foldlM (writeOneRevokeRecord env rec64) w = none := by
  intro f
  induction f with
  | zero =>
    intro records w dblk img hf hd hfull hlen
    obtain ⟨b, rest, rfl⟩ := List.exists_cons_of_length_pos (by omega : 0 < records.length)
    have hnone : jbdbfJournalNextLogBlock w.log = none := by
      unfold jbdbfJournalNextLogBlock
      rw [if_neg (by omega)]
    rw [List.foldlM_cons, writeOneRevokeRecord_of_full env rec64 hd hfull, hnone]
    rfl
  | succ f ih =>
    intro records w dblk img hf hd hfull hlen
    obtain ⟨b, rest, rfl⟩ := List.exists_cons_of_length_pos (by omega : 0 < records.length)
    rw [List.foldlM_cons, writeOneRevokeRecord_of_full env rec64 hd hfull]
    cases hn : jbdbfJournalNextLogBlock w.log with
    | none => rfl
    | some n =>
      -- a fresh block with one record in it; the next `per - 1` records fill it
      obtain ⟨hfree, -, hn'⟩ := jbdbfJournalNextLogBlock_eq_some.mp
        (show jbdbfJournalNextLogBlock w.log = some (n.1, n.2) from hn)
      simp only [Option.map_some, Option.bind_eq_bind, Option.bind_some]
      set w₁ := putRevokeRecord rec64
        { flushDescriptor env w dblk img with log := n.1, offset := sizeofRevokeHeader } n.2
        (writeHeader zero jbd2RevokeBlock env.tid) b with hw₁
      obtain ⟨img₁, hd₁⟩ := putRevokeRecord_descriptor rec64
        { flushDescriptor env w dblk img with log := n.1, offset := sizeofRevokeHeader } n.2
        (writeHeader zero jbd2RevokeBlock env.tid) b
      have hoff₁ : w₁.offset = sizeofRevokeHeader + revokeRecordLen rec64 * 1 := by
        rw [hw₁, putRevokeRecord_offset]
        simp
      have hlog₁ : w₁.log = n.1 := by
        rw [hw₁, putRevokeRecord_log]
      rw [← List.take_append_drop (per - 1) rest, List.foldlM_append]
      obtain ⟨w₂, hw₂, hlog₂, ⟨img₂, hd₂⟩, hoff₂⟩ := writeRevokeRecords_fill env rec64
        (rest.take (per - 1)) w₁ n.2 img₁ 1 hd₁ hoff₁ (by
          rw [List.length_take, ← hper]
          have := Nat.mul_le_mul_left (revokeRecordLen rec64)
            (show 1 + min (per - 1) rest.length ≤ per by omega)
          omega)
      simp only [Option.bind_eq_bind] at hw₂ ⊢
      rw [hw₂, Option.bind_some]
      -- the block is full again, with one free block less
      have hfpos : 0 < f := by omega
      simp only [List.length_cons, Nat.add_sub_cancel] at hlen
      have hper_le : per ≤ per * f := Nat.le_mul_of_pos_right per hfpos
      have htake : (rest.take (per - 1)).length = per - 1 := by
        rw [List.length_take]
        omega
      apply ih (rest.drop (per - 1)) w₂ n.2 img₂
      · rw [hlog₂, hlog₁, hn']
        simp only
        omega
      · exact hd₂
      · rw [hoff₂, htake, ← hper]
        congr 2
        omega
      · rw [List.length_drop]
        have hmul : per * f = per * (f - 1) + per := by
          rw [← Nat.mul_succ, Nat.succ_eq_add_one, Nat.sub_add_cancel hfpos]
        omega

end Writer

end OptFs.Jbd
