import OptFs.Jbd.RevokeWrite

/-!
# Admitting handles (`transaction.c`, `jbdbf.h`)

`start_this_handle` decides, under `j_state_lock`, what a handle asking for `nblocks`
credits does: fail with `-ENOSPC` when it asks for more than a whole transaction may
hold, start a commit of the running transaction when the credits would overflow it, wait
for a checkpoint when the log has less space left (`__jbdbf_log_space_left`) than
`jbd_space_needed`, or join the running transaction. The admission test counts log blocks
through credits only; `jbdbf_journal_revoke` adds a revoke record to the running
transaction and charges no credit.

The result here (`revoke_records_overflow_log`): on a fresh journal of 1023 log blocks of
1024 bytes, a handle of one credit is admitted, revokes 257,545 blocks, and the commit's
revoke records alone need more log blocks than are free, so
`jbdbf_journal_next_log_block` fails its `J_ASSERT(journal->j_free > 1)`.
-/

namespace OptFs.Jbd

open Lib.ByteImage

/-- What `start_this_handle` reads under the lock: the free log blocks, the largest
transaction (`j_max_transaction_buffers`), the credits of the running transaction and, if a
transaction is committing, its outstanding credits. -/
structure HandleAdmission where
  jFree : Nat
  jMaxTransactionBuffers : Nat
  runningOutstandingCredits : Nat
  committingOutstandingCredits : Option Nat
deriving DecidableEq, Repr

/-- `jbd_space_needed`: a whole transaction, what the committing one may still write, and
128 blocks more. -/
def jbdSpaceNeeded (a : HandleAdmission) : Nat :=
  a.jMaxTransactionBuffers + a.committingOutstandingCredits.getD 0 + 128

/-- How `start_this_handle` leaves the lock. -/
inductive StartResult
  | enospc
  | startCommit
  | waitForSpace
  | admitted (tOutstandingCredits : Nat)
deriving DecidableEq, Repr

/-- `start_this_handle`, the decision made with a running transaction that is not locked:
the retries (`goto repeat`) are results, and `admitted` carries the running transaction's
credits with the handle's added. -/
def startThisHandle (a : HandleAdmission) (nblocks : Nat) : StartResult :=
  if nblocks > a.jMaxTransactionBuffers then .enospc
  else
    let needed := a.runningOutstandingCredits + nblocks
    if needed > a.jMaxTransactionBuffers then .startCommit
    else if jbdbfLogSpaceLeft a.jFree < jbdSpaceNeeded a then .waitForSpace
    else .admitted needed

/-- The running transaction as the handles change it: its credits and the records of its
revoke table, one for each `jbdbf_journal_revoke` (`insert_revoke_hash` adds a record on
every call). -/
structure RunningTransaction where
  tOutstandingCredits : Nat
  revokes : List Nat
deriving DecidableEq, Repr

/-- `jbdbf_journal_revoke`, for a block with no buffer in memory: a record for `blocknr`
in the running transaction, and no credit taken. -/
def jbdbfJournalRevoke (t : RunningTransaction) (blocknr : Nat) : RunningTransaction :=
  { t with revokes := t.revokes ++ [blocknr] }

theorem jbdbfJournalRevoke_credits (t : RunningTransaction) (blocknr : Nat) :
    (jbdbfJournalRevoke t blocknr).tOutstandingCredits = t.tOutstandingCredits := rfl

/-- Revoking any number of blocks leaves the credits as they are. -/
theorem revokes_credits (t : RunningTransaction) (blocks : List Nat) :
    (blocks.foldl jbdbfJournalRevoke t).tOutstandingCredits = t.tOutstandingCredits := by
  induction blocks generalizing t with
  | nil => rfl
  | cons b rest ih =>
    rw [List.foldl_cons, ih, jbdbfJournalRevoke_credits]

theorem revokes_records (t : RunningTransaction) (blocks : List Nat) :
    (blocks.foldl jbdbfJournalRevoke t).revokes = t.revokes ++ blocks := by
  induction blocks generalizing t with
  | nil => simp
  | cons b rest ih =>
    rw [List.foldl_cons, ih]
    simp [jbdbfJournalRevoke]

/-- A fresh journal of 1023 log blocks of 1024 bytes (`journal_reset` with `s_first = 1`,
`s_maxlen = 1024`, so `j_max_transaction_buffers = 1024 / 4`) admits a handle of one
credit into an empty running transaction; the handle revokes 252 * 1022 + 1 blocks, which
leaves its credits at 1; and writing those revoke records at commit runs out of log:
`jbdbf_journal_write_revoke_records` stops on the assertion of
`jbdbf_journal_next_log_block`. -/
theorem revoke_records_overflow_log :
    startThisHandle ⟨1023, 1024 / 4, 0, none⟩ 1 = .admitted 1 ∧
    ((List.range (252 * 1022 + 1)).foldl jbdbfJournalRevoke ⟨1, []⟩).tOutstandingCredits = 1 ∧
    jbdbfJournalWriteRevokeRecords { bSize := 1024, tid := 1, uuid := zero } false
      ⟨{ jFirst := 1, jLast := 1024, jHead := 1, jTail := 1, jFree := 1023 }, none, 0, []⟩
      ((List.range (252 * 1022 + 1)).foldl jbdbfJournalRevoke ⟨1, []⟩).revokes = none := by
  refine ⟨by decide, revokes_credits _ _, ?_⟩
  rw [revokes_records, List.nil_append, List.range_succ_eq_map]
  -- only the number of records matters from here on
  generalize hrs : List.map Nat.succ (List.range (252 * 1022)) = rs
  have hlen : rs.length = 252 * 1022 := by rw [← hrs, List.length_map, List.length_range]
  unfold jbdbfJournalWriteRevokeRecords
  -- the first record opens the first revoke block, at log block 1
  have hn : jbdbfJournalNextLogBlock ⟨1, 1024, 1, 1, 1023⟩ = some (⟨1, 1024, 2, 1, 1022⟩, 1) :=
    by decide
  rw [List.foldlM_cons, writeOneRevokeRecord_of_none _ _ rfl, hn, Option.map_some,
    Option.bind_eq_bind, Option.bind_some]
  obtain ⟨img₁, hd₁⟩ := putRevokeRecord_descriptor false
    ⟨{ jFirst := 1, jLast := 1024, jHead := 2, jTail := 1, jFree := 1022 }, none,
      sizeofRevokeHeader, []⟩ 1 (writeHeader zero jbd2RevokeBlock 1) 0
  -- the next 251 records fill it
  rw [← List.take_append_drop 251 rs, List.foldlM_append]
  obtain ⟨w₂, hw₂, hlog₂, ⟨img₂, hd₂⟩, hoff₂⟩ := writeRevokeRecords_fill
    { bSize := 1024, tid := 1, uuid := zero } false (rs.take 251) _ 1 img₁ 1 hd₁
    (by rw [putRevokeRecord_offset]; rfl) (by simp [hlen, revokeRecordLen, sizeofRevokeHeader])
  rw [Option.bind_eq_bind, hw₂, Option.bind_some]
  -- the remaining records need a fresh block each 252, more than the 1022 free ones give
  rw [writeRevokeRecords_full_none { bSize := 1024, tid := 1, uuid := zero } false 252
    (by decide) (by decide) 1022 _ w₂ 1 img₂ (by rw [hlog₂, putRevokeRecord_log])
    hd₂ (by rw [hoff₂]; simp [hlen, revokeRecordLen, sizeofRevokeHeader])
    (by rw [List.length_drop, hlen]; decide)]
  rfl

end OptFs.Jbd
