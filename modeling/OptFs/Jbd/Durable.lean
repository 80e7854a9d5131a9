import OptFs.Lib.Trace

/-!
# Durable commits (`journal.c`, `commit.c`, `fsync.c`, `transaction.c`)

OptFS splits `fsync` in two: `osync` orders updates, `dsync` makes them durable. A commit
request (`__jbdbf_log_start_commit`) on the running transaction stores its kind in the
transaction's `t_durable_commit`, `DSYNC_COMMIT` or `OSYNC_COMMIT`; the commit thread reads the
field once, in phase 1, and after the commit record issues a cache flush of the journal device
only when it read `DSYNC_COMMIT`, or when the journal has async commit
(`JBD2_FEATURE_INCOMPAT_ASYNC_COMMIT`) and barriers (`JBD2_BARRIER`). With barriers and without
async commit, the commit record itself is written with `WRITE_FLUSH_FUA`, which puts it on
stable storage. A dsync caller (`ext4bf_dsync_file`, a dsync handle in `jbdbf_journal_stop`)
then waits in `jbdbf_log_wait_commit` until `j_commit_sequence` reaches its transaction.

Each step is one atomic section: a request under `j_state_lock`, a phase of the commit thread,
a dsync caller starting or returning. The device keeps the commit records and flushes in the
order they are issued. The field is overwritten by every later request and is read before
the transaction is locked, so on a journal without barriers a dsync can return with its commit
record neither flushed nor written with FUA (`dsync_returns_without_flush`). With barriers every
commit record is on stable storage, whatever the requests did to the field
(`dsync_durable_of_barrier`).
-/

namespace OptFs.Jbd.Durable

open Lib.Trace

/-- `OSYNC_COMMIT`. -/
def osyncCommit : Nat := 0

/-- `DSYNC_COMMIT`. -/
def dsyncCommit : Nat := 1

/-- What the journal device is asked to do, in the order it is asked: a commit record written
and waited upon, with `WRITE_SYNC | WRITE_FLUSH_FUA` (`flushFua`: a cache flush before it, and
the record on stable storage once written) or with `WRITE_SYNC` alone; or
`blkdev_issue_flush(journal->j_dev)`. -/
inductive DevEvent
  | commitRecord (tid : Nat) (flushFua : Bool)
  | flush
deriving DecidableEq, Repr

/-- The running transaction: its id and `t_durable_commit`. -/
structure DurableTxn where
  tTid : Nat
  tDurableCommit : Nat
deriving DecidableEq, Repr

/-- Where the commit thread stands in `jbdbf_journal_commit_transaction`, with the id of the
transaction it commits and the `durable_commit` it read in phase 1. -/
inductive CommitPhase
  | idle
  | sampled (tid durableCommit : Nat)
  | committing (tid durableCommit : Nat)
  | recordWritten (tid durableCommit : Nat)
deriving DecidableEq, Repr

/-- The journal as the commit requests and the commit thread share it, the journal device's
commit records and flushes, and the dsync callers waiting and returned (by transaction id).
`asyncCommit` is the journal's `JBD2_FEATURE_INCOMPAT_ASYNC_COMMIT`, `barrier` the `JBD2_BARRIER`
of its `j_flags`. -/
structure SyncState where
  jTransactionBfSequence : Nat
  jRunningTransaction : Option DurableTxn
  jCommitSequence : Nat
  commitThread : CommitPhase
  asyncCommit : Bool
  barrier : Bool
  device : List DevEvent
  dsyncWaiting : List Nat
  dsyncReturned : List Nat
deriving DecidableEq, Repr

/-- The journal after `journal_reset`: no transaction, `j_commit_sequence` one below the next
id. -/
def SyncState.init (seq : Nat) (asyncCommit barrier : Bool) : SyncState :=
  ⟨seq, none, seq - 1, .idle, asyncCommit, barrier, [], [], []⟩

/-- `__jbdbf_log_start_commit(journal, target, dsync)`: a request on the running transaction
stores `dsync` in its `t_durable_commit`, over what an earlier request stored; a request on
any other transaction changes nothing. -/
def logStartCommit (s : SyncState) (target dsync : Nat) : SyncState :=
  match s.jRunningTransaction with
  | some t =>
    if t.tTid = target then
      { s with jRunningTransaction := some { t with tDurableCommit := dsync } }
    else s
  | none => s

/-- `jbdbf_get_transaction` from `start_this_handle` with no running transaction:
`t_durable_commit = 0`. -/
def jbdbfGetTransaction (s : SyncState) : Option SyncState :=
  match s.jRunningTransaction with
  | some _ => none
  | none => some { s with jRunningTransaction := some ⟨s.jTransactionBfSequence, 0⟩,
                          jTransactionBfSequence := s.jTransactionBfSequence + 1 }

/-- Commit phase 1: the commit thread takes the running transaction and reads
`int durable_commit = commit_transaction->t_durable_commit`, before it takes `j_state_lock`
and waits for the transaction's handles. -/
def commitSample (s : SyncState) : Option SyncState :=
  match s.commitThread, s.jRunningTransaction with
  | .idle, some t => some { s with commitThread := .sampled t.tTid t.tDurableCommit }
  | _, _ => none

/-- Commit phase 2: the transaction stops running (`j_running_transaction = NULL`). -/
def commitSwitch (s : SyncState) : Option SyncState :=
  match s.commitThread, s.jRunningTransaction with
  | .sampled tid d, some t =>
    if t.tTid = tid then
      some { s with commitThread := .committing tid d, jRunningTransaction := none }
    else none
  | _, _ => none

/-- Commit phase 5: `journal_submit_commit_record` writes the commit record (with
`WRITE_FLUSH_FUA` on a journal with barriers and without async commit; with async commit it is
submitted before the wait on the log blocks) and it is waited upon; then
`blkdev_issue_flush(journal->j_dev)` when the journal has async commit and barriers, or when
`durable_commit == 1`. -/
def commitWriteRecord (s : SyncState) : Option SyncState :=
  match s.commitThread with
  | .committing tid d =>
    some { s with device := s.device ++ [.commitRecord tid (s.barrier && !s.asyncCommit)] ++
                    (if (s.asyncCommit && s.barrier) || d == 1 then [.flush] else []),
                  commitThread := .recordWritten tid d }
  | _ => none

/-- Commit phase 7: `j_commit_sequence = commit_transaction->t_tid`, which wakes the waiters
of `jbdbf_log_wait_commit`. -/
def commitDone (s : SyncState) : Option SyncState :=
  match s.commitThread with
  | .recordWritten tid _ => some { s with jCommitSequence := tid, commitThread := .idle }
  | _ => none

/-- `ext4bf_dsync_file`, or `jbdbf_journal_stop` of a handle with `h_durable_commit`:
`jbdbf_log_start_optfs_commit(journal, tid, DSYNC_COMMIT)`, then the caller waits. -/
def dsyncStart (s : SyncState) (tid : Nat) : SyncState :=
  let s' := logStartCommit s tid dsyncCommit
  { s' with dsyncWaiting := s'.dsyncWaiting ++ [tid] }

/-- `jbdbf_log_wait_commit` returns 0 to a dsync caller once
`!tid_gt(tid, j_commit_sequence)` (an aborted journal, which returns `-EIO`, is left out). -/
def dsyncReturn (s : SyncState) (tid : Nat) : Option SyncState :=
  if tid ∈ s.dsyncWaiting ∧ tid ≤ s.jCommitSequence then
    some { s with dsyncWaiting := s.dsyncWaiting.erase tid,
                  dsyncReturned := s.dsyncReturned ++ [tid] }
  else none

/-- The atomic sections. `requestCommit` is every other caller of `__jbdbf_log_start_commit`:
`jbdbf_log_start_commit` (from `jbdbf_journal_stop`, `ext4bf_sync_file` and the checkpoint
code, with `OSYNC_COMMIT`), `ext4bf_osync_file`, and `jbdbf_journal_flush`. -/
inductive SyncOp
  | getTransaction
  | requestCommit (tid dsync : Nat)
  | dsyncStart (tid : Nat)
  | dsyncReturn (tid : Nat)
  | commitSample
  | commitSwitch
  | commitWriteRecord
  | commitDone
deriving DecidableEq, Repr

def syncStep (s : SyncState) : SyncOp → Option SyncState
  | .getTransaction => jbdbfGetTransaction s
  | .requestCommit tid dsync => some (logStartCommit s tid dsync)
  | .dsyncStart tid => some (dsyncStart s tid)
  | .dsyncReturn tid => dsyncReturn s tid
  | .commitSample => commitSample s
  | .commitSwitch => commitSwitch s
  | .commitWriteRecord => commitWriteRecord s
  | .commitDone => commitDone s

/-- The runs start from a reset journal. -/
def SyncState.Init (s : SyncState) : Prop :=
  ∃ seq asyncCommit barrier, s = SyncState.init seq asyncCommit barrier

/-- A flush of the journal device is issued after a commit record of `tid`. -/
def flushedAfter : List DevEvent → Nat → Bool
  | [], _ => false
  | .commitRecord t _ :: rest, tid => (t == tid && rest.contains .flush) || flushedAfter rest tid
  | .flush :: rest, tid => flushedAfter rest tid

/-- A commit record of `tid` is on stable storage: written with `WRITE_FLUSH_FUA`, or followed
by a flush. -/
def recordDurable (dev : List DevEvent) (tid : Nat) : Bool :=
  dev.contains (.commitRecord tid true) || flushedAfter dev tid

@[simp] theorem flushedAfter_nil (tid : Nat) : flushedAfter [] tid = false := rfl

/-- A flush after a record stays after it when more is issued. -/
theorem flushedAfter_append (dev more : List DevEvent) (tid : Nat)
    (h : flushedAfter dev tid = true) : flushedAfter (dev ++ more) tid = true := by
  induction dev with
  | nil => cases h
  | cons ev rest ih =>
    cases ev with
    | commitRecord t fua =>
      simp only [flushedAfter, Bool.or_eq_true, Bool.and_eq_true, beq_iff_eq,
        List.contains_iff_mem] at h
      simp only [List.cons_append, flushedAfter, Bool.or_eq_true, Bool.and_eq_true, beq_iff_eq,
        List.contains_iff_mem, List.mem_append]
      rcases h with ⟨rfl, hf⟩ | h
      · exact .inl ⟨rfl, .inl hf⟩
      · exact .inr (ih h)
    | flush => exact ih h

/-- A record followed at once by a flush is flushed. -/
theorem flushedAfter_record_flush (dev : List DevEvent) (tid : Nat) (fua : Bool) :
    flushedAfter (dev ++ [.commitRecord tid fua, .flush]) tid = true := by
  induction dev with
  | nil => simp [flushedAfter]
  | cons ev rest ih =>
    cases ev with
    | commitRecord t fua' => simp [flushedAfter, ih]
    | flush => exact ih

/-- A record on stable storage stays there when more is issued. -/
theorem recordDurable_append (dev more : List DevEvent) (tid : Nat)
    (h : recordDurable dev tid = true) : recordDurable (dev ++ more) tid = true := by
  unfold recordDurable at h ⊢
  simp only [Bool.or_eq_true, List.contains_iff_mem] at h ⊢
  rcases h with h | h
  · exact .inl (List.mem_append_left _ h)
  · exact .inr (flushedAfter_append dev more tid h)

/-! ## What each section does -/

section Sections

variable {s s' : SyncState}

/-- A commit request changes at most the running transaction. -/
theorem logStartCommit_eq (s : SyncState) (target dsync : Nat) :
    logStartCommit s target dsync =
      { s with jRunningTransaction := (logStartCommit s target dsync).jRunningTransaction } := by
  unfold logStartCommit
  split
  · split <;> rfl
  · rfl

/-- ... and only its durable flag. -/
theorem logStartCommit_tTid (s : SyncState) (target dsync : Nat) :
    (logStartCommit s target dsync).jRunningTransaction.map DurableTxn.tTid =
      s.jRunningTransaction.map DurableTxn.tTid := by
  unfold logStartCommit
  split
  · rename_i t ht
    split <;> simp [ht]
  · rfl

theorem jbdbfGetTransaction_eq_some (h : jbdbfGetTransaction s = some s') :
    s.jRunningTransaction = none ∧
      s' = { s with jRunningTransaction := some ⟨s.jTransactionBfSequence, 0⟩,
                    jTransactionBfSequence := s.jTransactionBfSequence + 1 } := by
  unfold jbdbfGetTransaction at h
  cases hr : s.jRunningTransaction <;> simp only [hr, reduceCtorEq, Option.some.injEq] at h
  exact ⟨rfl, h.symm⟩

theorem commitSample_eq_some (h : commitSample s = some s') :
    ∃ t, s.commitThread = .idle ∧ s.jRunningTransaction = some t ∧
      s' = { s with commitThread := .sampled t.tTid t.tDurableCommit } := by
  unfold commitSample at h
  cases hc : s.commitThread <;> cases hr : s.jRunningTransaction <;>
    simp only [hc, hr, reduceCtorEq, Option.some.injEq] at h
  rename_i t
  exact ⟨t, rfl, rfl, h.symm⟩

theorem commitSwitch_eq_some (h : commitSwitch s = some s') :
    ∃ tid d t, s.commitThread = .sampled tid d ∧ s.jRunningTransaction = some t ∧
      t.tTid = tid ∧
      s' = { s with commitThread := .committing tid d, jRunningTransaction := none } := by
  unfold commitSwitch at h
  cases hc : s.commitThread <;> cases hr : s.jRunningTransaction <;>
    simp only [hc, hr, reduceCtorEq] at h
  rename_i tid d t
  by_cases ht : t.tTid = tid
  · rw [if_pos ht, Option.some.injEq] at h
    exact ⟨tid, d, t, rfl, rfl, ht, h.symm⟩
  · rw [if_neg ht] at h
    cases h

theorem commitWriteRecord_eq_some (h : commitWriteRecord s = some s') :
    ∃ tid d, s.commitThread = .committing tid d ∧
      s' = { s with device := s.device ++ [.commitRecord tid (s.barrier && !s.asyncCommit)] ++
                      (if (s.asyncCommit && s.barrier) || d == 1 then [.flush] else []),
                    commitThread := .recordWritten tid d } := by
  unfold commitWriteRecord at h
  cases hc : s.commitThread <;> simp only [hc, reduceCtorEq, Option.some.injEq] at h
  rename_i tid d
  exact ⟨tid, d, rfl, h.symm⟩

theorem commitDone_eq_some (h : commitDone s = some s') :
    ∃ tid d, s.commitThread = .recordWritten tid d ∧
      s' = { s with jCommitSequence := tid, commitThread := .idle } := by
  unfold commitDone at h
  cases hc : s.commitThread <;> simp only [hc, reduceCtorEq, Option.some.injEq] at h
  rename_i tid d
  exact ⟨tid, d, rfl, h.symm⟩

theorem dsyncReturn_eq_some {tid : Nat} (h : dsyncReturn s tid = some s') :
    tid ≤ s.jCommitSequence ∧
      s' = { s with dsyncWaiting := s.dsyncWaiting.erase tid,
                    dsyncReturned := s.dsyncReturned ++ [tid] } := by
  unfold dsyncReturn at h
  split at h
  · rename_i hw
    exact ⟨hw.2, (Option.some.inj h).symm⟩
  · cases h

/-- No section changes the journal's barrier setting. -/
theorem syncStep_barrier {op : SyncOp} (h : syncStep s op = some s') :
    s'.barrier = s.barrier := by
  cases op with
  | getTransaction => obtain ⟨-, rfl⟩ := jbdbfGetTransaction_eq_some h; rfl
  | requestCommit tid d =>
    cases h
    rw [logStartCommit_eq]
  | dsyncStart tid =>
    cases h
    simp only [dsyncStart]
    rw [logStartCommit_eq]
  | dsyncReturn tid => obtain ⟨-, rfl⟩ := dsyncReturn_eq_some h; rfl
  | commitSample => obtain ⟨t, -, -, rfl⟩ := commitSample_eq_some h; rfl
  | commitSwitch => obtain ⟨tid, d, t, -, -, -, rfl⟩ := commitSwitch_eq_some h; rfl
  | commitWriteRecord => obtain ⟨tid, d, -, rfl⟩ := commitWriteRecord_eq_some h; rfl
  | commitDone => obtain ⟨tid, d, -, rfl⟩ := commitDone_eq_some h; rfl

end Sections

/-! ## With async commit and barriers -/

/-- Where the commit thread stands against the ids: it works on the transaction after the
last committed one, and a newer transaction may run meanwhile (`running`). -/
def CommitPhase.Ok (cs seq : Nat) (running : Bool) (device : List DevEvent) :
    CommitPhase → Prop
  | .idle => seq = cs + 1 + (if running then 1 else 0)
  | .sampled tid _ => tid = cs + 1 ∧ running = true ∧ seq = cs + 2
  | .committing tid _ => tid = cs + 1 ∧ seq = cs + 2 + (if running then 1 else 0)
  | .recordWritten tid _ =>
    tid = cs + 1 ∧ seq = cs + 2 + (if running then 1 else 0) ∧
      ∃ fua, .commitRecord tid fua ∈ device

/-- The commit bookkeeping of a run that starts at transaction `seq₀`: ids are handed out and
committed in order, every transaction from `seq₀` up to `j_commit_sequence` has its commit
record on the device, and so has every one a dsync caller returned for; with barriers, every
commit record is on stable storage. -/
structure SyncState.Wf (seq₀ : Nat) (s : SyncState) : Prop where
  running_tid : ∀ t, s.jRunningTransaction = some t → t.tTid + 1 = s.jTransactionBfSequence
  phase : s.commitThread.Ok s.jCommitSequence s.jTransactionBfSequence
    s.jRunningTransaction.isSome s.device
  committed : ∀ t, seq₀ ≤ t → t ≤ s.jCommitSequence →
    ∃ fua, DevEvent.commitRecord t fua ∈ s.device
  returned : ∀ t ∈ s.dsyncReturned, seq₀ ≤ t → ∃ fua, DevEvent.commitRecord t fua ∈ s.device
  durable : s.barrier = true →
    ∀ t fua, DevEvent.commitRecord t fua ∈ s.device → recordDurable s.device t = true

section Wf

variable {seq₀ : Nat} {s s' : SyncState}

theorem SyncState.init_wf (h0 : 0 < seq₀) (a b : Bool) : (SyncState.init seq₀ a b).Wf seq₀ := by
  refine ⟨fun t ht => ?_, ?_, fun t h₁ h₂ => ?_, fun t ht => ?_, fun _ t fua ht => ?_⟩
  · cases ht
  · show seq₀ = seq₀ - 1 + 1 + 0
    omega
  · -- nothing is committed yet from `seq₀` on
    exact absurd h₂ (by show ¬ t ≤ seq₀ - 1; omega)
  · cases ht
  · cases ht

/-- The invariant reads the running transaction only through its id. -/
theorem SyncState.Wf.of_running (hs : s.Wf seq₀)
    (hrun : s'.jRunningTransaction.map DurableTxn.tTid = s.jRunningTransaction.map DurableTxn.tTid)
    (hseq : s'.jTransactionBfSequence = s.jTransactionBfSequence)
    (hcs : s'.jCommitSequence = s.jCommitSequence) (hc : s'.commitThread = s.commitThread)
    (hb : s'.barrier = s.barrier) (hd : s'.device = s.device)
    (hr : s'.dsyncReturned = s.dsyncReturned) : s'.Wf seq₀ := by
  have hsome : s'.jRunningTransaction.isSome = s.jRunningTransaction.isSome := by
    rw [← Option.isSome_map, hrun, Option.isSome_map]
  refine ⟨fun t' ht' => ?_, ?_, ?_, ?_, ?_⟩
  · -- the new running transaction has the old one's id
    rw [ht', Option.map_some] at hrun
    obtain ⟨t, ht, hid⟩ := Option.map_eq_some_iff.mp hrun.symm
    rw [hseq, ← hid]
    exact hs.running_tid t ht
  · rw [hc, hcs, hseq, hsome, hd]
    exact hs.phase
  · rw [hcs, hd]
    exact hs.committed
  · rw [hr, hd]
    exact hs.returned
  · rw [hb, hd]
    exact hs.durable

theorem SyncState.Wf.getTransaction (hs : s.Wf seq₀) (h : jbdbfGetTransaction s = some s') :
    s'.Wf seq₀ := by
  obtain ⟨hr, rfl⟩ := jbdbfGetTransaction_eq_some h
  have hp := hs.phase
  rw [hr] at hp
  refine ⟨fun t ht => ?_, ?_, hs.committed, hs.returned, hs.durable⟩
  · cases ht
    rfl
  · -- the new transaction runs beside whatever the commit thread holds
    show s.commitThread.Ok s.jCommitSequence (s.jTransactionBfSequence + 1) true s.device
    cases hc : s.commitThread <;> simp [hc, CommitPhase.Ok] at hp ⊢ <;> omega

theorem SyncState.Wf.requestCommit (hs : s.Wf seq₀) (tid d : Nat) :
    (logStartCommit s tid d).Wf seq₀ := by
  refine hs.of_running (logStartCommit_tTid s tid d) ?_ ?_ ?_ ?_ ?_ ?_ <;>
    rw [logStartCommit_eq]

theorem SyncState.Wf.dsyncStart (hs : s.Wf seq₀) (tid : Nat) : (dsyncStart s tid).Wf seq₀ := by
  refine hs.of_running (logStartCommit_tTid s tid dsyncCommit) ?_ ?_ ?_ ?_ ?_ ?_ <;>
    simp only [OptFs.Jbd.Durable.dsyncStart] <;> rw [logStartCommit_eq]

/-- A dsync caller returns only for a transaction up to `j_commit_sequence`. -/
theorem SyncState.Wf.dsyncReturn (hs : s.Wf seq₀) {tid : Nat} (h : dsyncReturn s tid = some s') :
    s'.Wf seq₀ := by
  obtain ⟨hle, rfl⟩ := dsyncReturn_eq_some h
  refine ⟨hs.running_tid, hs.phase, hs.committed, fun t ht h₀ => ?_, hs.durable⟩
  rcases List.mem_append.mp ht with ht | ht
  · exact hs.returned t ht h₀
  · rw [List.mem_singleton.mp ht]
    exact hs.committed tid (List.mem_singleton.mp ht ▸ h₀) hle

theorem SyncState.Wf.commitSample (hs : s.Wf seq₀) (h : commitSample s = some s') :
    s'.Wf seq₀ := by
  obtain ⟨t, hc, hr, rfl⟩ := commitSample_eq_some h
  have hp := hs.phase
  have ht := hs.running_tid t hr
  simp only [hc, hr, CommitPhase.Ok, Option.isSome_some, ↓reduceIte] at hp
  refine ⟨hs.running_tid, ?_, hs.committed, hs.returned, hs.durable⟩
  -- the sampled transaction is the one after the last committed one
  show (CommitPhase.sampled t.tTid t.tDurableCommit).Ok s.jCommitSequence
    s.jTransactionBfSequence s.jRunningTransaction.isSome s.device
  simp only [hr, CommitPhase.Ok, Option.isSome_some, true_and]
  omega

theorem SyncState.Wf.commitSwitch (hs : s.Wf seq₀) (h : commitSwitch s = some s') :
    s'.Wf seq₀ := by
  obtain ⟨tid, d, t, hc, -, -, rfl⟩ := commitSwitch_eq_some h
  have hp := hs.phase
  simp only [hc, CommitPhase.Ok] at hp
  refine ⟨fun _ ht => ?_, ?_, hs.committed, hs.returned, hs.durable⟩
  · cases ht
  show (CommitPhase.committing tid d).Ok s.jCommitSequence s.jTransactionBfSequence false s.device
  simp only [CommitPhase.Ok, Bool.false_eq_true, if_false]
  omega

/-- With barriers the new commit record is on stable storage: written with `WRITE_FLUSH_FUA`
without async commit, followed by a flush with it. -/
theorem recordDurable_commitWriteRecord {dev : List DevEvent} {tid d : Nat} {a : Bool} :
    recordDurable (dev ++ [.commitRecord tid (true && !a)] ++
      (if (a && true) || d == 1 then [.flush] else [])) tid = true := by
  cases a with
  | false =>
    unfold recordDurable
    simp
  | true =>
    unfold recordDurable
    simp only [Bool.not_true, Bool.and_false, Bool.and_self, Bool.true_or, if_true,
      List.append_assoc, List.singleton_append, flushedAfter_record_flush, Bool.or_true]

/-- Writing the commit record keeps the invariant; with barriers the record is on stable
storage at once. -/
theorem SyncState.Wf.commitWriteRecord (hs : s.Wf seq₀) (h : commitWriteRecord s = some s') :
    s'.Wf seq₀ := by
  obtain ⟨tid, d, hc, rfl⟩ := commitWriteRecord_eq_some h
  have hp := hs.phase
  simp only [hc, CommitPhase.Ok] at hp
  have hgrow : ∀ e ∈ s.device, e ∈ s.device ++ [.commitRecord tid (s.barrier && !s.asyncCommit)] ++
      (if (s.asyncCommit && s.barrier) || d == 1 then [.flush] else []) :=
    fun e he => List.mem_append_left _ (List.mem_append_left _ he)
  refine ⟨hs.running_tid, ⟨hp.1, hp.2, s.barrier && !s.asyncCommit, by simp⟩,
    fun t h₁ h₂ => ?_, fun t ht h₀ => ?_,
    fun hb t fua ht => ?_⟩
  · obtain ⟨fua, hrec⟩ := hs.committed t h₁ h₂
    exact ⟨fua, hgrow _ hrec⟩
  · obtain ⟨fua, hrec⟩ := hs.returned t ht h₀
    exact ⟨fua, hgrow _ hrec⟩
  · simp only at hb
    rcases List.mem_append.mp ht with ht | ht
    · rcases List.mem_append.mp ht with ht | ht
      · -- an older record stays on stable storage
        rw [List.append_assoc]
        exact recordDurable_append _ _ _ (hs.durable hb t fua ht)
      · -- the new record
        simp only [List.mem_singleton, DevEvent.commitRecord.injEq] at ht
        rw [ht.1, hb]
        exact recordDurable_commitWriteRecord
    · split_ifs at ht <;> simp at ht

theorem SyncState.Wf.commitDone (hs : s.Wf seq₀) (h : commitDone s = some s') :
    s'.Wf seq₀ := by
  obtain ⟨tid, d, hc, rfl⟩ := commitDone_eq_some h
  have hp := hs.phase
  simp only [hc, CommitPhase.Ok] at hp
  refine ⟨hs.running_tid, ?_, fun t h₁ h₂ => ?_, hs.returned, hs.durable⟩
  · show CommitPhase.idle.Ok tid s.jTransactionBfSequence s.jRunningTransaction.isSome s.device
    simp only [CommitPhase.Ok]
    omega
  · -- the committed range grows by the transaction whose record was just written
    have h₂' : t ≤ tid := h₂
    rcases Nat.lt_or_eq_of_le h₂' with hlt | rfl
    · exact hs.committed t h₁ (by omega)
    · exact hp.2.2

theorem SyncState.Wf.step (hs : s.Wf seq₀) {op : SyncOp} (h : syncStep s op = some s') :
    s'.Wf seq₀ := by
  cases op with
  | getTransaction => exact hs.getTransaction h
  | requestCommit tid d =>
    cases h
    exact hs.requestCommit tid d
  | dsyncStart tid =>
    cases h
    exact hs.dsyncStart tid
  | dsyncReturn tid => exact hs.dsyncReturn h
  | commitSample => exact hs.commitSample h
  | commitSwitch => exact hs.commitSwitch h
  | commitWriteRecord => exact hs.commitWriteRecord h
  | commitDone => exact hs.commitDone h

end Wf

/-- On a journal with barriers, with async commit or without it, a dsync caller that returns
for a transaction of the run has that transaction's commit record on stable storage, whatever
the commit requests did to its durable flag. -/
theorem dsync_durable_of_barrier {seq₀ : Nat} (h0 : 0 < seq₀) {a : Bool} {s : SyncState}
    (hs : Reachable (· = SyncState.init seq₀ a true) syncStep s) :
    ∀ tid ∈ s.dsyncReturned, seq₀ ≤ tid → recordDurable s.device tid = true := by
  have hwf : s.Wf seq₀ := Reachable.induct_inv (fun _ h => h ▸ SyncState.init_wf h0 a true)
    (fun _ _ _ hs hstep => hs.step hstep) hs
  have hb : s.barrier = true := Reachable.induct_inv (fun _ h => h ▸ rfl)
    (fun _ _ _ hb hstep => (syncStep_barrier hstep).trans hb) hs
  intro tid htid h₀
  obtain ⟨fua, hrec⟩ := hwf.returned tid htid h₀
  exact hwf.durable hb tid fua hrec

/-- A dsync on transaction 1 of a fresh journal, then an osync on the same transaction before
the commit thread reads the durable flag; the commit, and the dsync caller's return. -/
def osyncAfterDsync : List SyncOp :=
  [.getTransaction, .dsyncStart 1, .requestCommit 1 osyncCommit, .commitSample, .commitSwitch,
    .commitWriteRecord, .commitDone, .dsyncReturn 1]

/-- The same interleaving with barriers and without async commit: the osync request still
clears the durable flag, but the commit record is written with `WRITE_FLUSH_FUA`. -/
theorem dsync_durable_of_barrier_osyncAfterDsync :
    0 < 1 ∧ ∃ s, Reachable (· = SyncState.init 1 false true) syncStep s ∧
      1 ∈ s.dsyncReturned ∧ recordDurable s.device 1 = true := by
  have hrun : run syncStep (SyncState.init 1 false true) osyncAfterDsync =
      some ⟨2, none, 1, .idle, false, true, [.commitRecord 1 true], [], [1]⟩ := rfl
  have hreach : Reachable (· = SyncState.init 1 false true) syncStep _ :=
    Reachable.run (Reachable.init rfl) hrun
  exact ⟨Nat.one_pos, _, hreach, by decide,
    dsync_durable_of_barrier Nat.one_pos hreach 1 (by decide) le_rfl⟩

/-- On a journal without barriers and without async commit, the dsync caller of transaction 1
returns with transaction 1's commit record on the journal device, written without FUA and
with no flush after it. -/
theorem dsync_returns_without_flush :
    ∃ s, Reachable SyncState.Init syncStep s ∧ s.asyncCommit = false ∧ s.barrier = false ∧
      1 ∈ s.dsyncReturned ∧ DevEvent.commitRecord 1 false ∈ s.device ∧
      flushedAfter s.device 1 = false ∧ recordDurable s.device 1 = false := by
  -- the osync request overwrote `t_durable_commit` with 0, which the commit thread read
  have hrun : run syncStep (SyncState.init 1 false false) osyncAfterDsync =
      some ⟨2, none, 1, .idle, false, false, [.commitRecord 1 false], [], [1]⟩ := rfl
  exact ⟨_, Reachable.run (Reachable.init ⟨1, false, false, rfl⟩) hrun, rfl, rfl, by decide,
    by decide, rfl, rfl⟩

end OptFs.Jbd.Durable
