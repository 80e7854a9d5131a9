import OptFs.Jbd.Log
import OptFs.Lib.Trace

/-!
# Log space over whole runs (`checkpoint.c`, `commit.c`, `journal.c`)

`Log` gives the ring of log blocks; here the transactions that pin it are added. A
transaction that has started to commit remembers the block its commit started at
(`t_log_start`, set from `j_head` in commit phase 2); it stays in the log while it commits
and, if it has buffers left to write back, on `j_checkpoint_transactions` afterwards.
`jbdbf_cleanup_journal_tail` moves `j_tail` up to the oldest such start (or to `j_head` when
none is left) and gives the blocks behind it back to `j_free`.

Each step below is one section under `j_state_lock` and `j_list_lock`, as the source takes
them: the handle start that makes a new running transaction, the two ends of a commit,
`jbdbf_journal_next_log_block`, the checkpoint code dropping a transaction, the tail cleanup
and `jbdbf_journal_flush`. The runs start from `journal_reset`.

The results here:

* `JournalState.Wf`: the ring invariant of `Log.Wf`, and the log starts of the transactions
  still in the log lie between the tail and the head, oldest first;
* `JournalState.TailWf`: the ids grow from the oldest transaction to the next one, and
  `j_tail_sequence` names a transaction no later than the oldest, at whose start the tail is
  when it names the oldest;
* every step keeps both (`JournalState.Wf.step`, `JournalState.TailWf.step`), so every
  reachable state has them, and the cleanup leaves the tail at the start of the oldest
  transaction in the log, or at the head (`JournalState.TailWf.cleanupJournalTail_tail`);
* a block between the tail and the head stays there, and is never handed out, along any run
  in which the tail does not pass it (`Log.Live.run`);
* `log_space_invariant`: all of it in every reachable state, with the modular formula for
  `j_free`.

An aborted journal (`is_journal_aborted`) leaves the log alone and is not modelled.
`jbdbf_journal_flush` stores `s_start = 0` by setting `j_tail` to 0 around its superblock write
and puts the old value back before it returns; as a step it leaves `j_tail` where the cleanup
put it.
-/

namespace OptFs.Jbd

open Lib.Cyclic Lib.Trace

/-- What the log-space code reads of a `transaction_bf_t` that has started to commit: its id
and `t_log_start`. -/
structure TxnLog where
  tTid : Nat
  tLogStart : Nat
deriving DecidableEq, Repr

/-- The journal as the log-space code reads it: the ring, `j_transaction_bf_sequence` (the id
of the next transaction), `j_tail_sequence`, the running transaction's id, the committing
transaction and `j_checkpoint_transactions`, oldest first. -/
structure JournalState where
  log : Log
  jTransactionBfSequence : Nat
  jTailSequence : Nat
  jRunningTransaction : Option Nat
  jCommittingTransaction : Option TxnLog
  jCheckpointTransactions : List TxnLog
deriving DecidableEq, Repr

/-- `journal_reset`, as `jbdbf_journal_load` and `jbdbf_journal_create` call it: no
transaction yet, and the tail sequence at the next id. -/
def JournalState.reset (first last seq : Nat) : Option JournalState :=
  (journalReset first last).map fun log =>
    { log := log, jTransactionBfSequence := seq, jTailSequence := seq,
      jRunningTransaction := none, jCommittingTransaction := none,
      jCheckpointTransactions := [] }

/-- `start_this_handle` when there is no running transaction: `jbdbf_get_transaction` gives
the new one `j_transaction_bf_sequence++`. -/
def jbdbfGetTransaction (s : JournalState) : Option JournalState :=
  match s.jRunningTransaction with
  | some _ => none
  | none => some { s with jRunningTransaction := some s.jTransactionBfSequence,
                          jTransactionBfSequence := s.jTransactionBfSequence + 1 }

/-- Commit phases 1 and 2: after `J_ASSERT(journal->j_running_transaction != NULL)` and
`J_ASSERT(journal->j_committing_transaction == NULL)`, the running transaction becomes the
committing one, its `t_log_start` at `j_head`. -/
def commitStart (s : JournalState) : Option JournalState :=
  match s.jRunningTransaction, s.jCommittingTransaction with
  | some tid, none =>
    some { s with jCommittingTransaction := some ⟨tid, s.log.jHead⟩,
                  jRunningTransaction := none }
  | _, _ => none

/-- `jbdbf_journal_next_log_block`, as the commit calls it for every block it writes (its
descriptor and revoke blocks, the metadata copies and the commit record): only while a
transaction commits. -/
def commitNextLogBlock (s : JournalState) : Option JournalState :=
  if s.jCommittingTransaction.isNone then none
  else (jbdbfJournalNextLogBlock s.log).map fun r => { s with log := r.1 }

/-- Commit phase 7: the committing transaction is finished; with buffers left on its
checkpoint lists it goes to the end of `j_checkpoint_transactions`, otherwise
`__jbdbf_journal_drop_transaction` frees it. -/
def commitFinish (s : JournalState) (hasCheckpointBuffers : Bool) : Option JournalState :=
  s.jCommittingTransaction.map fun t =>
    { s with jCommittingTransaction := none,
             jCheckpointTransactions :=
               if hasCheckpointBuffers then s.jCheckpointTransactions ++ [t]
               else s.jCheckpointTransactions }

/-- `__jbdbf_journal_drop_transaction` from the checkpoint code: the `i`-th checkpoint
transaction has written back its last buffer and leaves the list, wherever it stands. -/
def dropTransaction (s : JournalState) (i : Nat) : Option JournalState :=
  if i < s.jCheckpointTransactions.length then
    some { s with jCheckpointTransactions := s.jCheckpointTransactions.eraseIdx i }
  else none

/-- The oldest transaction remaining in the log and the block it starts at, as
`jbdbf_cleanup_journal_tail` works them out; with no transaction in the log, the next id and
`j_head`. -/
def JournalState.firstInLog (s : JournalState) : Nat × Nat :=
  match s.jCheckpointTransactions, s.jCommittingTransaction, s.jRunningTransaction with
  | t :: _, _, _ => (t.tTid, t.tLogStart)
  | [], some t, _ => (t.tTid, t.tLogStart)
  | [], none, some tid => (tid, s.log.jHead)
  | [], none, none => (s.jTransactionBfSequence, s.log.jHead)

/-- `freed` of `jbdbf_cleanup_journal_tail`: `blocknr - j_tail`, plus the ring size when
`blocknr` has wrapped behind the tail (the unsigned difference wraps and the sum comes back
into range). -/
def cleanupFreed (j : Log) (blocknr : Nat) : Nat :=
  if blocknr < j.jTail then blocknr + (j.jLast - j.jFirst) - j.jTail else blocknr - j.jTail

/-- `jbdbf_cleanup_journal_tail`: move the tail to the start of the oldest transaction in the
log and give the blocks behind it back, after `J_ASSERT(blocknr != 0)`; nothing to do when
the tail is already at that transaction. -/
def jbdbfCleanupJournalTail (s : JournalState) : Option JournalState :=
  let firstTid := s.firstInLog.1
  let blocknr := s.firstInLog.2
  if blocknr = 0 then none
  else if s.jTailSequence = firstTid then some s
  else
    some { s with log := { s.log with jFree := s.log.jFree + cleanupFreed s.log blocknr,
                                      jTail := blocknr },
                  jTailSequence := firstTid }

/-- `jbdbf_journal_flush` once the commit it waits for has finished: checkpoint until
`j_checkpoint_transactions` is empty, clean up the tail, and the closing assertions (no
running or committing transaction, `j_head == j_tail`, `j_tail_sequence ==
j_transaction_bf_sequence`). -/
def jbdbfJournalFlush (s : JournalState) : Option JournalState :=
  (jbdbfCleanupJournalTail { s with jCheckpointTransactions := [] }).bind fun s' =>
    if s'.jRunningTransaction = none ∧ s'.jCommittingTransaction = none ∧
        s'.log.jHead = s'.log.jTail ∧ s'.jTailSequence = s'.jTransactionBfSequence then
      some s'
    else none

/-- The sections that change the log space. -/
inductive LogSpaceOp
  | getTransaction
  | commitStart
  | nextLogBlock
  | commitFinish (hasCheckpointBuffers : Bool)
  | dropTransaction (i : Nat)
  | cleanupJournalTail
  | flush
deriving DecidableEq, Repr

/-- One section. -/
def logSpaceStep (s : JournalState) : LogSpaceOp → Option JournalState
  | .getTransaction => jbdbfGetTransaction s
  | .commitStart => commitStart s
  | .nextLogBlock => commitNextLogBlock s
  | .commitFinish b => commitFinish s b
  | .dropTransaction i => dropTransaction s i
  | .cleanupJournalTail => jbdbfCleanupJournalTail s
  | .flush => jbdbfJournalFlush s

/-- The states a run starts from: a journal just reset. -/
def JournalState.Init (s : JournalState) : Prop :=
  ∃ first last seq, JournalState.reset first last seq = some s

/-! ## The invariant -/

/-- `a` comes no later than `b` on the way from the tail. -/
def Log.AtOrBefore (j : Log) (a b : Nat) : Prop :=
  dist j.jFirst j.jLast j.jTail a ≤ dist j.jFirst j.jLast j.jTail b

/-- The log starts of the transactions still in the log, oldest first: the checkpoint
transactions, then the committing one. -/
def JournalState.logStarts (s : JournalState) : List Nat :=
  s.jCheckpointTransactions.map TxnLog.tLogStart ++
    (s.jCommittingTransaction.map TxnLog.tLogStart).toList

/-- The log-space invariant of the journal. -/
structure JournalState.Wf (s : JournalState) : Prop where
  log : s.log.Wf
  starts_mem : ∀ b ∈ s.logStarts, Mem s.log.jFirst s.log.jLast b
  starts_sorted : s.logStarts.Pairwise s.log.AtOrBefore
  starts_le_head : ∀ b ∈ s.logStarts, s.log.AtOrBefore b s.log.jHead

/-! ## What each section does -/

section Sections

variable {s s' : JournalState}

theorem jbdbfGetTransaction_eq_some (h : jbdbfGetTransaction s = some s') :
    s.jRunningTransaction = none ∧
      s' = { s with jRunningTransaction := some s.jTransactionBfSequence,
                    jTransactionBfSequence := s.jTransactionBfSequence + 1 } := by
  unfold jbdbfGetTransaction at h
  cases hr : s.jRunningTransaction with
  | some tid => simp [hr] at h
  | none =>
    simp only [hr, Option.some.injEq] at h
    exact ⟨rfl, h.symm⟩

theorem commitStart_eq_some (h : commitStart s = some s') :
    ∃ tid, s.jRunningTransaction = some tid ∧ s.jCommittingTransaction = none ∧
      s' = { s with jCommittingTransaction := some ⟨tid, s.log.jHead⟩,
                    jRunningTransaction := none } := by
  unfold commitStart at h
  cases hr : s.jRunningTransaction with
  | none => simp [hr] at h
  | some tid =>
    cases hc : s.jCommittingTransaction with
    | some t => simp [hr, hc] at h
    | none =>
      simp only [hr, hc, Option.some.injEq] at h
      exact ⟨tid, rfl, rfl, h.symm⟩

theorem commitNextLogBlock_eq_some (h : commitNextLogBlock s = some s') :
    s.jCommittingTransaction.isSome ∧
      ∃ b, jbdbfJournalNextLogBlock s.log = some (s'.log, b) ∧ s' = { s with log := s'.log } := by
  unfold commitNextLogBlock at h
  split_ifs at h with hc
  obtain ⟨⟨j', b⟩, hnext, rfl⟩ := Option.map_eq_some_iff.mp h
  refine ⟨?_, b, hnext, rfl⟩
  cases hcm : s.jCommittingTransaction <;> simp_all

theorem commitFinish_eq_some {c : Bool} (h : commitFinish s c = some s') :
    ∃ t, s.jCommittingTransaction = some t ∧
      s' = { s with jCommittingTransaction := none,
                    jCheckpointTransactions :=
                      if c then s.jCheckpointTransactions ++ [t]
                      else s.jCheckpointTransactions } := by
  unfold commitFinish at h
  obtain ⟨t, ht, rfl⟩ := Option.map_eq_some_iff.mp h
  exact ⟨t, ht, rfl⟩

theorem dropTransaction_eq_some {i : Nat} (h : dropTransaction s i = some s') :
    i < s.jCheckpointTransactions.length ∧
      s' = { s with jCheckpointTransactions := s.jCheckpointTransactions.eraseIdx i } := by
  unfold dropTransaction at h
  by_cases hi : i < s.jCheckpointTransactions.length
  · simp only [hi, if_true, Option.some.injEq] at h
    exact ⟨hi, h.symm⟩
  · simp [hi] at h

theorem jbdbfCleanupJournalTail_eq_some (h : jbdbfCleanupJournalTail s = some s') :
    s.firstInLog.2 ≠ 0 ∧
      (s.jTailSequence = s.firstInLog.1 ∧ s' = s ∨
        s' = { s with log := { s.log with jFree := s.log.jFree + cleanupFreed s.log s.firstInLog.2,
                                          jTail := s.firstInLog.2 },
                      jTailSequence := s.firstInLog.1 }) := by
  unfold jbdbfCleanupJournalTail at h
  dsimp only at h
  by_cases h0 : s.firstInLog.2 = 0
  · simp [h0] at h
  · by_cases hseq : s.jTailSequence = s.firstInLog.1
    · -- the tail is already at the oldest transaction
      simp only [h0, hseq, if_true, if_false, Option.some.injEq] at h
      exact ⟨h0, .inl ⟨hseq, h.symm⟩⟩
    · simp only [h0, hseq, if_false, Option.some.injEq] at h
      exact ⟨h0, .inr h.symm⟩

theorem jbdbfJournalFlush_eq_some (h : jbdbfJournalFlush s = some s') :
    jbdbfCleanupJournalTail { s with jCheckpointTransactions := [] } = some s' ∧
      s'.jRunningTransaction = none ∧ s'.jCommittingTransaction = none ∧
      s'.log.jHead = s'.log.jTail ∧ s'.jTailSequence = s'.jTransactionBfSequence := by
  unfold jbdbfJournalFlush at h
  obtain ⟨s₁, h₁, h₂⟩ := Option.bind_eq_some_iff.mp h
  by_cases hend : s₁.jRunningTransaction = none ∧ s₁.jCommittingTransaction = none ∧
      s₁.log.jHead = s₁.log.jTail ∧ s₁.jTailSequence = s₁.jTransactionBfSequence
  · rw [if_pos hend, Option.some.injEq] at h₂
    subst h₂
    exact ⟨h₁, hend⟩
  · rw [if_neg hend] at h₂
    cases h₂

end Sections

/-! ## The invariant -/

section Wf

variable {s s' : JournalState}

theorem JournalState.reset_wf {first last seq : Nat}
    (h : JournalState.reset first last seq = some s) : s.Wf := by
  unfold JournalState.reset at h
  obtain ⟨log, hlog, rfl⟩ := Option.map_eq_some_iff.mp h
  refine ⟨journalReset_wf hlog, ?_, ?_, ?_⟩ <;> simp [JournalState.logStarts]

/-- A step that keeps the ring and drops some of the transactions keeps the invariant. -/
theorem JournalState.Wf.of_sublist (hs : s.Wf) (hlog : s'.log = s.log)
    (hsub : s'.logStarts.Sublist s.logStarts) : s'.Wf := by
  constructor
  · rw [hlog]
    exact hs.log
  · rw [hlog]
    exact fun b hb => hs.starts_mem b (hsub.subset hb)
  · rw [hlog]
    exact hs.starts_sorted.sublist hsub
  · rw [hlog]
    exact fun b hb => hs.starts_le_head b (hsub.subset hb)

/-- The start of the oldest transaction in the log, or the head: the first of the log starts
followed by the head. -/
theorem JournalState.firstInLog_eq_head :
    ∃ rest, s.logStarts ++ [s.log.jHead] = s.firstInLog.2 :: rest := by
  unfold JournalState.firstInLog JournalState.logStarts
  split <;> simp_all

/-- The log starts followed by the head are in order from the tail. -/
theorem JournalState.Wf.sorted_head (hs : s.Wf) :
    (s.logStarts ++ [s.log.jHead]).Pairwise s.log.AtOrBefore :=
  List.pairwise_append.mpr ⟨hs.starts_sorted, List.pairwise_singleton _ _,
    fun a ha b hb => by rw [List.mem_singleton.mp hb]; exact hs.starts_le_head a ha⟩

theorem JournalState.Wf.mem_head (hs : s.Wf) :
    ∀ b ∈ s.logStarts ++ [s.log.jHead], Mem s.log.jFirst s.log.jLast b := by
  intro b hb
  rcases List.mem_append.mp hb with h | h
  · exact hs.starts_mem b h
  · rw [List.mem_singleton.mp h]
    exact hs.log.head_mem

/-- Every log start and the head come no earlier than where the cleanup puts the tail. -/
theorem JournalState.Wf.firstInLog_atOrBefore (hs : s.Wf) :
    ∀ b ∈ s.logStarts ++ [s.log.jHead], s.log.AtOrBefore s.firstInLog.2 b := by
  obtain ⟨rest, hrest⟩ := @JournalState.firstInLog_eq_head s
  have hsorted := hs.sorted_head
  rw [hrest] at hsorted ⊢
  intro b hb
  rcases List.mem_cons.mp hb with rfl | hb
  · exact le_rfl
  · exact List.rel_of_pairwise_cons hsorted hb

theorem JournalState.Wf.firstInLog_mem (hs : s.Wf) :
    Mem s.log.jFirst s.log.jLast s.firstInLog.2 := by
  obtain ⟨rest, hrest⟩ := @JournalState.firstInLog_eq_head s
  apply hs.mem_head
  rw [hrest]
  exact List.mem_cons_self

/-- The freed count is the forward distance from the tail to the new tail. -/
theorem cleanupFreed_eq_dist (j : Log) (blocknr : Nat) :
    cleanupFreed j blocknr = dist j.jFirst j.jLast j.jTail blocknr := by
  unfold cleanupFreed Lib.Cyclic.dist
  split_ifs <;> omega

/-- Moving the tail to the oldest log start keeps the invariant: the freed blocks are the
ones behind it, and the order seen from the new tail is the order seen from the old one. -/
theorem JournalState.Wf.moveTail (hs : s.Wf) (tid : Nat) :
    ({ s with log := { s.log with jFree := s.log.jFree + cleanupFreed s.log s.firstInLog.2,
                                  jTail := s.firstInLog.2 },
              jTailSequence := tid } : JournalState).Wf := by
  have hp := hs.firstInLog_mem
  have hafter := hs.firstInLog_atOrBefore
  have ht := hs.log.tail_mem
  -- a position at or after the new tail keeps its order from the new tail
  have horder : ∀ a ∈ s.logStarts ++ [s.log.jHead], ∀ b ∈ s.logStarts ++ [s.log.jHead],
      s.log.AtOrBefore a b →
      Lib.Cyclic.dist s.log.jFirst s.log.jLast s.firstInLog.2 a ≤
        Lib.Cyclic.dist s.log.jFirst s.log.jLast s.firstInLog.2 b :=
    fun a ha b hb hab =>
      dist_le_dist_of_origin ht hp (hs.mem_head a ha) (hs.mem_head b hb) (hafter a ha) hab
  have hhead : s.log.jHead ∈ s.logStarts ++ [s.log.jHead] := by simp
  refine ⟨⟨hs.log.first_lt_last, hs.log.head_mem, hp, ?_⟩, hs.starts_mem, ?_, ?_⟩
  · -- the freed blocks are the distance the tail moves
    have hfree := hs.log.free_eq
    have hsplit := dist_add ht hp hs.log.head_mem (hafter _ hhead)
    have hlt := dist_lt ht hs.log.head_mem
    rw [cleanupFreed_eq_dist]
    unfold Log.size at *
    simp only
    omega
  · exact hs.starts_sorted.imp_of_mem fun ha hb hab =>
      horder _ (List.mem_append_left _ ha) _ (List.mem_append_left _ hb) hab
  · intro b hb
    exact horder _ (List.mem_append_left _ hb) _ hhead (hs.starts_le_head b hb)

theorem JournalState.Wf.cleanupJournalTail (hs : s.Wf)
    (h : jbdbfCleanupJournalTail s = some s') : s'.Wf := by
  obtain ⟨-, ⟨-, rfl⟩ | rfl⟩ := jbdbfCleanupJournalTail_eq_some h
  · exact hs
  · exact hs.moveTail _

theorem JournalState.Wf.getTransaction (hs : s.Wf) (h : jbdbfGetTransaction s = some s') :
    s'.Wf := by
  obtain ⟨-, rfl⟩ := jbdbfGetTransaction_eq_some h
  exact hs.of_sublist rfl (List.Sublist.refl _)

/-- The new committing transaction starts at the head, after every older start. -/
theorem JournalState.Wf.commitStart (hs : s.Wf) (h : commitStart s = some s') : s'.Wf := by
  obtain ⟨tid, -, hc, rfl⟩ := commitStart_eq_some h
  -- the log starts gain the head at their end
  have hstarts : JournalState.logStarts
      { s with jCommittingTransaction := some ⟨tid, s.log.jHead⟩, jRunningTransaction := none } =
      s.logStarts ++ [s.log.jHead] := by
    simp [JournalState.logStarts, hc]
  refine ⟨hs.log, ?_, ?_, ?_⟩ <;> simp only [hstarts]
  · exact hs.mem_head
  · exact hs.sorted_head
  · intro b hb
    rcases List.mem_append.mp hb with hb | hb
    · exact hs.starts_le_head b hb
    · rw [List.mem_singleton.mp hb]
      exact le_rfl

/-- Taking a log block moves the head away from every start. -/
theorem JournalState.Wf.nextLogBlock (hs : s.Wf) (h : commitNextLogBlock s = some s') :
    s'.Wf := by
  obtain ⟨-, b, hnext, hs'⟩ := commitNextLogBlock_eq_some h
  obtain ⟨hfree, -, hlog⟩ := jbdbfJournalNextLogBlock_eq_some.mp hnext
  rw [hs', hlog]
  have hlt := dist_lt hs.log.tail_mem hs.log.head_mem
  have hfree' := hs.log.free_eq
  unfold Log.size at hfree'
  -- the head moves one block further from the tail
  have hhead : Lib.Cyclic.dist s.log.jFirst s.log.jLast s.log.jTail
      (next s.log.jFirst s.log.jLast s.log.jHead) =
      Lib.Cyclic.dist s.log.jFirst s.log.jLast s.log.jTail s.log.jHead + 1 :=
    dist_next hs.log.tail_mem hs.log.head_mem (by omega)
  refine ⟨hlog ▸ hs.log.nextLogBlock hnext, hs.starts_mem, hs.starts_sorted, ?_⟩
  intro c hc
  have hle := hs.starts_le_head c hc
  unfold Log.AtOrBefore at hle ⊢
  simp only [hhead]
  omega

theorem JournalState.Wf.commitFinish (hs : s.Wf) {c : Bool} (h : commitFinish s c = some s') :
    s'.Wf := by
  obtain ⟨t, ht, rfl⟩ := commitFinish_eq_some h
  refine hs.of_sublist rfl ?_
  -- the transaction moves to the checkpoint list, or leaves the log
  cases c <;> simp [JournalState.logStarts, ht]

theorem JournalState.Wf.dropTransaction (hs : s.Wf) {i : Nat}
    (h : dropTransaction s i = some s') : s'.Wf := by
  obtain ⟨-, rfl⟩ := dropTransaction_eq_some h
  exact hs.of_sublist rfl (((List.eraseIdx_sublist _ i).map _).append_right _)

theorem JournalState.Wf.flush (hs : s.Wf) (h : jbdbfJournalFlush s = some s') : s'.Wf := by
  obtain ⟨h₁, -⟩ := jbdbfJournalFlush_eq_some h
  -- every checkpoint transaction is written back before the cleanup
  have hs₀ : ({ s with jCheckpointTransactions := [] } : JournalState).Wf :=
    hs.of_sublist rfl (by simp [JournalState.logStarts])
  exact hs₀.cleanupJournalTail h₁

/-- Every section keeps the invariant. -/
theorem JournalState.Wf.step (hs : s.Wf) {op : LogSpaceOp} (h : logSpaceStep s op = some s') :
    s'.Wf := by
  cases op with
  | getTransaction => exact hs.getTransaction h
  | commitStart => exact hs.commitStart h
  | nextLogBlock => exact hs.nextLogBlock h
  | commitFinish c => exact hs.commitFinish h
  | dropTransaction i => exact hs.dropTransaction h
  | cleanupJournalTail => exact hs.cleanupJournalTail h
  | flush => exact hs.flush h

theorem JournalState.wf_of_reachable (h : Reachable JournalState.Init logSpaceStep s) : s.Wf :=
  Reachable.induct_inv (fun _ ⟨_, _, _, hr⟩ => JournalState.reset_wf hr)
    (fun _ _ _ hs hstep => hs.step hstep) h

end Wf

/-! ## The tail sequence -/

/-- The ids of the transactions in the log, oldest first (the checkpoint transactions, the
committing one, the running one), then the next id. -/
def JournalState.tids (s : JournalState) : List Nat :=
  s.jCheckpointTransactions.map TxnLog.tTid ++ (s.jCommittingTransaction.map TxnLog.tTid).toList ++
    s.jRunningTransaction.toList ++ [s.jTransactionBfSequence]

/-- `j_tail_sequence` against the transactions: the ids grow from the oldest transaction to
the next id, the tail sequence is no later than the oldest id, and when it is that id the tail
is at the block that transaction starts at (the head, for a running transaction or none). -/
structure JournalState.TailWf (s : JournalState) : Prop where
  tids_sorted : s.tids.Pairwise (· < ·)
  seq_le : s.jTailSequence ≤ s.firstInLog.1
  tail_eq : s.jTailSequence = s.firstInLog.1 → s.log.jTail = s.firstInLog.2

section TailWf

variable {s s' : JournalState}

/-- The oldest id that `jbdbf_cleanup_journal_tail` works out is the first of the ids. -/
theorem JournalState.firstInLog_eq_tids : ∃ rest, s.tids = s.firstInLog.1 :: rest := by
  unfold JournalState.firstInLog JournalState.tids
  split <;> simp_all

/-- When a step takes the oldest transaction out of the log, the oldest id grows. -/
theorem JournalState.firstInLog_lt (hsorted : s.tids.Pairwise (· < ·))
    (hsub : s'.tids.Sublist s.tids.tail) : s.firstInLog.1 < s'.firstInLog.1 := by
  obtain ⟨rest, hrest⟩ := @JournalState.firstInLog_eq_tids s
  obtain ⟨rest', hrest'⟩ := @JournalState.firstInLog_eq_tids s'
  rw [hrest] at hsorted hsub
  rw [hrest'] at hsub
  exact List.rel_of_pairwise_cons hsorted (hsub.subset List.mem_cons_self)

/-- A step that leaves the tail, keeps the ids in order, and keeps the oldest transaction or
takes it out keeps the invariant. -/
theorem JournalState.TailWf.of_first (hs : s.TailWf) (hsorted : s'.tids.Pairwise (· < ·))
    (hseq : s'.jTailSequence = s.jTailSequence) (htail : s'.log.jTail = s.log.jTail)
    (hfirst : s'.firstInLog = s.firstInLog ∨ s.firstInLog.1 < s'.firstInLog.1) :
    s'.TailWf := by
  have hle := hs.seq_le
  refine ⟨hsorted, ?_, fun heq => ?_⟩
  · rcases hfirst with h | h
    · rw [hseq, h]
      exact hle
    · omega
  · rcases hfirst with h | h
    · rw [htail, h]
      exact hs.tail_eq (by rw [← hseq, heq, h])
    · omega

theorem JournalState.reset_tailWf {first last seq : Nat}
    (h : JournalState.reset first last seq = some s) : s.TailWf := by
  unfold JournalState.reset at h
  obtain ⟨log, hlog, rfl⟩ := Option.map_eq_some_iff.mp h
  unfold journalReset at hlog
  split at hlog
  · cases hlog
  · cases hlog
    refine ⟨by simp [JournalState.tids], by simp [JournalState.firstInLog], fun _ => ?_⟩
    simp [JournalState.firstInLog]

/-- The new running transaction takes the next id, after every id in the log. -/
theorem JournalState.TailWf.getTransaction (hs : s.TailWf) (h : jbdbfGetTransaction s = some s') :
    s'.TailWf := by
  obtain ⟨hr, rfl⟩ := jbdbfGetTransaction_eq_some h
  have htids : JournalState.tids
      { s with jRunningTransaction := some s.jTransactionBfSequence,
               jTransactionBfSequence := s.jTransactionBfSequence + 1 } =
      s.tids ++ [s.jTransactionBfSequence + 1] := by
    simp [JournalState.tids, hr]
  -- the next id is the largest of the ids
  have hlast : ∀ x ∈ s.tids, x < s.jTransactionBfSequence + 1 := by
    have hsorted := hs.tids_sorted
    unfold JournalState.tids at hsorted ⊢
    intro x hx
    rcases List.mem_append.mp hx with hx | hx
    · exact Nat.lt_succ_of_lt
        ((List.pairwise_append.mp hsorted).2.2 x hx _ (List.mem_singleton_self _))
    · rw [List.mem_singleton.mp hx]
      exact Nat.lt_succ_self _
  refine hs.of_first ?_ rfl rfl (.inl ?_)
  · rw [htids]
    exact List.pairwise_append.mpr ⟨hs.tids_sorted, List.pairwise_singleton _ _,
      fun x hx y hy => by rw [List.mem_singleton.mp hy]; exact hlast x hx⟩
  · -- the running transaction starts at the head, as the next one did
    unfold JournalState.firstInLog
    cases s.jCheckpointTransactions <;> cases s.jCommittingTransaction <;> simp [hr]

theorem JournalState.TailWf.commitStart (hs : s.TailWf) (h : commitStart s = some s') :
    s'.TailWf := by
  obtain ⟨tid, hr, hc, rfl⟩ := commitStart_eq_some h
  -- the running transaction becomes the committing one, at the head
  refine hs.of_first ?_ rfl rfl (.inl ?_)
  · have htids : JournalState.tids
        { s with jCommittingTransaction := some ⟨tid, s.log.jHead⟩, jRunningTransaction := none } =
        s.tids := by
      simp [JournalState.tids, hr, hc]
    rw [htids]
    exact hs.tids_sorted
  · unfold JournalState.firstInLog
    cases s.jCheckpointTransactions <;> simp [hr, hc]

theorem JournalState.TailWf.nextLogBlock (hs : s.TailWf) (h : commitNextLogBlock s = some s') :
    s'.TailWf := by
  obtain ⟨hc, b, hnext, hs'⟩ := commitNextLogBlock_eq_some h
  obtain ⟨-, -, hlog⟩ := jbdbfJournalNextLogBlock_eq_some.mp hnext
  obtain ⟨t, ht⟩ := Option.isSome_iff_exists.mp hc
  rw [hs']
  -- a transaction commits, so the oldest one does not start at the head
  refine hs.of_first hs.tids_sorted rfl (by rw [hlog]) (.inl ?_)
  unfold JournalState.firstInLog
  cases s.jCheckpointTransactions <;> simp [ht]

theorem JournalState.TailWf.commitFinish (hs : s.TailWf) {c : Bool}
    (h : commitFinish s c = some s') : s'.TailWf := by
  obtain ⟨t, ht, rfl⟩ := commitFinish_eq_some h
  have hsub : List.Sublist (JournalState.tids
      { s with jCommittingTransaction := none,
               jCheckpointTransactions :=
                 if c then s.jCheckpointTransactions ++ [t] else s.jCheckpointTransactions })
      s.tids := by
    cases c <;> simp [JournalState.tids, ht]
  refine hs.of_first (hs.tids_sorted.sublist hsub) rfl rfl ?_
  cases hcp : s.jCheckpointTransactions with
  | cons t' rest =>
    -- an older transaction stays the oldest
    left
    cases c <;> simp [JournalState.firstInLog, hcp]
  | nil =>
    cases c with
    | true =>
      left
      simp [JournalState.firstInLog, hcp, ht]
    | false =>
      -- the committing transaction was the oldest and leaves the log
      right
      apply JournalState.firstInLog_lt hs.tids_sorted
      simp [JournalState.tids, hcp, ht]

theorem JournalState.TailWf.dropTransaction (hs : s.TailWf) {i : Nat}
    (h : dropTransaction s i = some s') : s'.TailWf := by
  obtain ⟨hi, rfl⟩ := dropTransaction_eq_some h
  have hsub : List.Sublist (JournalState.tids
      { s with jCheckpointTransactions := s.jCheckpointTransactions.eraseIdx i }) s.tids := by
    unfold JournalState.tids
    exact ((((List.eraseIdx_sublist _ i).map _).append_right _).append_right _).append_right _
  refine hs.of_first (hs.tids_sorted.sublist hsub) rfl rfl ?_
  cases hcp : s.jCheckpointTransactions with
  | nil => simp [hcp] at hi
  | cons t rest =>
    cases i with
    | zero =>
      -- the oldest transaction leaves the log
      right
      apply JournalState.firstInLog_lt hs.tids_sorted
      simp [JournalState.tids, hcp]
    | succ i =>
      left
      simp [JournalState.firstInLog, hcp]

/-- `jbdbf_cleanup_journal_tail` leaves the tail at the start of the oldest transaction in the
log, or at the head: when it returns early, the tail is there already. -/
theorem JournalState.TailWf.cleanupJournalTail_tail (hs : s.TailWf)
    (h : jbdbfCleanupJournalTail s = some s') :
    s'.log.jTail = s.firstInLog.2 ∧ s'.jTailSequence = s.firstInLog.1 ∧
      s'.firstInLog = s.firstInLog ∧ s'.tids = s.tids := by
  obtain ⟨-, ⟨hseq, rfl⟩ | rfl⟩ := jbdbfCleanupJournalTail_eq_some h
  · exact ⟨hs.tail_eq hseq, hseq, rfl, rfl⟩
  · -- the oldest transaction and the head are where they were
    exact ⟨rfl, rfl, rfl, rfl⟩

theorem JournalState.TailWf.cleanupJournalTail (hs : s.TailWf)
    (h : jbdbfCleanupJournalTail s = some s') : s'.TailWf := by
  obtain ⟨htail, hseq, hfirst, htids⟩ := hs.cleanupJournalTail_tail h
  refine ⟨htids ▸ hs.tids_sorted, by rw [hseq, hfirst], fun _ => by rw [htail, hfirst]⟩

theorem JournalState.TailWf.flush (hs : s.TailWf) (h : jbdbfJournalFlush s = some s') :
    s'.TailWf := by
  obtain ⟨h₁, -⟩ := jbdbfJournalFlush_eq_some h
  -- every checkpoint transaction leaves the log before the cleanup
  have hs₀ : ({ s with jCheckpointTransactions := [] } : JournalState).TailWf := by
    refine hs.of_first ?_ rfl rfl ?_
    · refine List.Pairwise.sublist ?_ hs.tids_sorted
      unfold JournalState.tids
      exact (((List.nil_sublist _).append (List.Sublist.refl _)).append_right _).append_right _
    · cases hcp : s.jCheckpointTransactions with
      | nil =>
        left
        simp [JournalState.firstInLog, hcp]
      | cons t rest =>
        right
        apply JournalState.firstInLog_lt hs.tids_sorted
        simp only [JournalState.tids, hcp, List.map_cons, List.cons_append, List.tail_cons,
          List.map_nil, List.nil_append]
        exact (((List.nil_sublist _).append (List.Sublist.refl _)).append_right _).append_right _
  exact hs₀.cleanupJournalTail h₁

theorem JournalState.TailWf.step (hs : s.TailWf) {op : LogSpaceOp}
    (h : logSpaceStep s op = some s') : s'.TailWf := by
  cases op with
  | getTransaction => exact hs.getTransaction h
  | commitStart => exact hs.commitStart h
  | nextLogBlock => exact hs.nextLogBlock h
  | commitFinish c => exact hs.commitFinish h
  | dropTransaction i => exact hs.dropTransaction h
  | cleanupJournalTail => exact hs.cleanupJournalTail h
  | flush => exact hs.flush h

theorem JournalState.tailWf_of_reachable (h : Reachable JournalState.Init logSpaceStep s) :
    s.TailWf :=
  Reachable.induct_inv (fun _ ⟨_, _, _, hr⟩ => JournalState.reset_tailWf hr)
    (fun _ _ _ hs hstep => hs.step hstep) h

end TailWf

/-! ## Live blocks -/

/-- The tail moves from `j` to `j'` over block `b`: `b` is among the blocks the move gives
back. -/
def Log.Passes (j j' : Log) (b : Nat) : Prop :=
  dist j.jFirst j.jLast j.jTail b < dist j.jFirst j.jLast j.jTail j'.jTail

section Live

variable {s s' : JournalState} {b : Nat}

/-- Moving the tail forward to `p`, no further than the head, keeps live every live block it
does not pass. -/
theorem Log.Live.moveTail {j : Log} (hj : j.Wf) {p f : Nat} (hp : Mem j.jFirst j.jLast p)
    (hph : j.AtOrBefore p j.jHead) (hb : j.Live b)
    (hpass : ¬ j.Passes { j with jFree := f, jTail := p } b) :
    ({ j with jFree := f, jTail := p } : Log).Live b := by
  unfold Log.Passes at hpass
  simp only [not_lt] at hpass
  -- the distances from the new tail are those from the old one, less the move
  have hb' := dist_add hj.tail_mem hp hb.1 hpass
  have hhead := dist_add hj.tail_mem hp hj.head_mem hph
  have hlive := hb.2
  exact ⟨hb.1, by simp only; omega⟩

/-- The cleanup moves the tail no further than the head. -/
theorem Log.Live.cleanupJournalTail (hs : s.Wf) (h : jbdbfCleanupJournalTail s = some s')
    (hb : s.log.Live b) (hpass : ¬ s.log.Passes s'.log b) : s'.log.Live b := by
  obtain ⟨-, ⟨-, rfl⟩ | rfl⟩ := jbdbfCleanupJournalTail_eq_some h
  · exact hb
  · exact hb.moveTail hs.log hs.firstInLog_mem
      (hs.firstInLog_atOrBefore _ (List.mem_append_right _ (List.mem_singleton_self _))) hpass

/-- A section that does not move the tail past a live block keeps it live. -/
theorem Log.Live.step (hs : s.Wf) {op : LogSpaceOp} (h : logSpaceStep s op = some s')
    (hb : s.log.Live b) (hpass : ¬ s.log.Passes s'.log b) : s'.log.Live b := by
  cases op with
  | nextLogBlock =>
    obtain ⟨-, c, hnext, -⟩ := commitNextLogBlock_eq_some h
    exact hb.nextLogBlock hs.log hnext
  | getTransaction =>
    obtain ⟨-, rfl⟩ := jbdbfGetTransaction_eq_some h
    exact hb
  | commitStart =>
    obtain ⟨tid, -, -, rfl⟩ := commitStart_eq_some h
    exact hb
  | commitFinish c =>
    obtain ⟨t, -, rfl⟩ := commitFinish_eq_some h
    exact hb
  | dropTransaction i =>
    obtain ⟨-, rfl⟩ := dropTransaction_eq_some h
    exact hb
  | cleanupJournalTail => exact hb.cleanupJournalTail hs h hpass
  | flush =>
    -- the checkpoint transactions are written back, then the tail is cleaned up
    obtain ⟨h₁, -⟩ := jbdbfJournalFlush_eq_some h
    have hs₀ : ({ s with jCheckpointTransactions := [] } : JournalState).Wf :=
      hs.of_sublist rfl (by simp [JournalState.logStarts])
    exact Log.Live.cleanupJournalTail (s := { s with jCheckpointTransactions := [] }) hs₀ h₁ hb
      hpass

/-- Along a run in which the tail never passes a live block, the block stays live. -/
theorem Log.Live.run (hs : s.Wf) {ops : List LogSpaceOp}
    (hrun : Lib.Trace.run logSpaceStep s ops = some s')
    (hsteps : StepsSatisfy logSpaceStep (fun s₁ s₂ => ¬ s₁.log.Passes s₂.log b) s ops)
    (hb : s.log.Live b) : s'.log.Live b :=
  run_inv_of_steps (Q := JournalState.Wf) (P := fun s => s.log.Live b)
    (fun _ _ _ hs h => hs.step h) (fun _ _ _ hs hb h hpass => hb.step hs h hpass) hs hb hrun
    hsteps

end Live

/-- The log-space bookkeeping in every state that a run from `journal_reset` reaches: head and
tail lie in `[j_first, j_last)`; `j_free` is the ring size less `(j_head - j_tail) mod L`;
`jbdbf_cleanup_journal_tail` puts the tail at the start of the oldest transaction in the log,
or at the head when none is; the block `jbdbf_journal_next_log_block` hands out is then between
the tail and the head; and along any run, cleanups and flushes included, a block between the
tail and the head stays there, and is not handed out again, until the tail passes it. -/
theorem log_space_invariant {s : JournalState}
    (hs : Reachable JournalState.Init logSpaceStep s) :
    (s.log.jFirst ≤ s.log.jHead ∧ s.log.jHead < s.log.jLast) ∧
    (s.log.jFirst ≤ s.log.jTail ∧ s.log.jTail < s.log.jLast) ∧
    (s.log.jFree : Int) =
      (s.log.size : Int) - ((s.log.jHead : Int) - s.log.jTail) % (s.log.size : Int) ∧
    (∀ s', jbdbfCleanupJournalTail s = some s' →
      (s.logStarts ++ [s.log.jHead]).head? = some s'.log.jTail) ∧
    (∀ j' b, jbdbfJournalNextLogBlock s.log = some (j', b) → j'.Live b) ∧
    ∀ ops s' b, Lib.Trace.run logSpaceStep s ops = some s' →
      StepsSatisfy logSpaceStep (fun s₁ s₂ => ¬ s₁.log.Passes s₂.log b) s ops →
      s.log.Live b → s'.log.Live b ∧ ∀ j', jbdbfJournalNextLogBlock s'.log ≠ some (j', b) := by
  have hwf := JournalState.wf_of_reachable hs
  have hlog := hwf.log
  refine ⟨hlog.head_mem, hlog.tail_mem, ?_, ?_, fun j' b h => nextLogBlock_live hlog h, ?_⟩
  · -- the distance from the tail to the head is their difference modulo the ring size
    have hfree := hlog.free_eq
    have hlt := dist_lt hlog.tail_mem hlog.head_mem
    unfold Log.size at hfree ⊢
    rw [← dist_eq_emod hlog.tail_mem hlog.head_mem]
    omega
  · -- the cleanup's target is the first of the log starts followed by the head
    intro s' h
    obtain ⟨rest, hrest⟩ := @JournalState.firstInLog_eq_head s
    rw [hrest, (JournalState.tailWf_of_reachable hs).cleanupJournalTail_tail h |>.1]
    rfl
  · -- live blocks stay live, and the block handed out is never a live one
    intro ops s' b hrun hsteps hb
    have hb' := hb.run hwf hrun hsteps
    exact ⟨hb', fun j' hnext => nextLogBlock_not_live hnext hb'⟩

/-- The journal after a transaction has taken two log blocks of a fresh log of 1023 blocks and
has gone to the checkpoint list. -/
def oneCheckpointTransaction : JournalState :=
  ⟨⟨1, 1024, 3, 1, 1021⟩, 2, 1, none, none, [⟨1, 1⟩]⟩

theorem log_space_invariant_oneCheckpointTransaction :
    Reachable JournalState.Init logSpaceStep oneCheckpointTransaction ∧
    ((oneCheckpointTransaction.log.jFirst ≤ oneCheckpointTransaction.log.jHead ∧
        oneCheckpointTransaction.log.jHead < oneCheckpointTransaction.log.jLast) ∧
      (oneCheckpointTransaction.log.jFirst ≤ oneCheckpointTransaction.log.jTail ∧
        oneCheckpointTransaction.log.jTail < oneCheckpointTransaction.log.jLast) ∧
      (oneCheckpointTransaction.log.jFree : Int) =
        (oneCheckpointTransaction.log.size : Int) -
          ((oneCheckpointTransaction.log.jHead : Int) - oneCheckpointTransaction.log.jTail) %
            (oneCheckpointTransaction.log.size : Int) ∧
      (∀ s', jbdbfCleanupJournalTail oneCheckpointTransaction = some s' →
        (oneCheckpointTransaction.logStarts ++ [oneCheckpointTransaction.log.jHead]).head? =
          some s'.log.jTail) ∧
      (∀ j' b, jbdbfJournalNextLogBlock oneCheckpointTransaction.log = some (j', b) →
        j'.Live b) ∧
      ∀ ops s' b, Lib.Trace.run logSpaceStep oneCheckpointTransaction ops = some s' →
        StepsSatisfy logSpaceStep (fun s₁ s₂ => ¬ s₁.log.Passes s₂.log b)
          oneCheckpointTransaction ops →
        oneCheckpointTransaction.log.Live b →
          s'.log.Live b ∧ ∀ j', jbdbfJournalNextLogBlock s'.log ≠ some (j', b)) := by
  -- reset, a handle, the commit of two blocks, and the transaction kept for checkpoint
  have hreach : Reachable JournalState.Init logSpaceStep oneCheckpointTransaction :=
    Reachable.run (Reachable.init ⟨1, 1024, 1, rfl⟩)
      (l := [.getTransaction, .commitStart, .nextLogBlock, .nextLogBlock, .commitFinish true])
      rfl
  exact ⟨hreach, log_space_invariant hreach⟩

/-- Once the checkpoint transaction has left, the cleanup gives its two blocks back: the
tail moves to the head. -/
example : (run logSpaceStep oneCheckpointTransaction [.dropTransaction 0, .cleanupJournalTail]).map
    (fun s => (s.log.jTail, s.log.jFree, s.jTailSequence)) = some (3, 1023, 2) := by
  decide

end OptFs.Jbd
