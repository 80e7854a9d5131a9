import OptFs.Lib.Trace

/-!
# Journal heads and transaction buffer lists (`transaction.c`, `commit.c`)

Every journalled buffer has a journal head that names the transaction owning it
(`b_transaction`), the transaction that will own it next (`b_next_transaction`), the
transaction whose checkpoint list holds it (`b_cp_transaction`) and the list of its owner it is
filed on (`b_jlist`, `BJ_None` .. `BJ_Dirtydata`). A transaction keeps one circular list per
kind and counts its `BJ_Metadata` buffers in `t_nr_buffers`. `__jbdbf_journal_file_buffer`
moves a buffer onto a list of its own transaction, after
`J_ASSERT_JH(jh, jh->b_transaction == transaction || jh->b_transaction == NULL)`;
`__jbdbf_journal_temp_unlink_buffer` takes it off.

The calls are those of the ext4bf callers, each one step under its locks:

* a handle of the running transaction writes a data block: `ext4bf_write_begin` maps the
  buffer (`__block_write_begin`) and asks for write access (`do_journal_get_write_access`,
  which cleans a dirty buffer first and dirties it through the journal after
  `do_get_write_access`); `write_end_fn` later dirties it. Both dirty it through
  `ext4bf_handle_dirty_metadata`: `jbdbf_journal_dirty_data` when `ext4bf_get_block` has just
  allocated its block (`buffer_new`), `jbdbf_journal_dirty_metadata` otherwise. The commit may
  run its list walks in between;
* `jbdbf_journal_forget`, `journal_unmap_buffer` (truncate), the VM's writeback and the
  checkpoint list cleaning;
* the commit: the `t_reserved_list` refile and the switch (phases 1 and 2), the in-place write
  of the data buffers of `t_dirty_data_list` (phase 3) and their refile (phase 5),
  `jbdbf_journal_write_metadata_buffer` (to `BJ_Shadow`), the move to `BJ_Forget` after the log
  write, the `t_forget` loop of phase 7, and `T_FINISHED`.

The lists are modelled as lists of buffer numbers in list order. The buffer state bits are
those the journal code reads (`mapped`, `new`, `freed`, `dirty`, `jbddirty`); the handle's
credits, the committed (undo) copy, and the journal's own descriptor and log buffers (`BJ_IO`,
`BJ_LogCtl`) are left out.

The results here:

* `JhState.ListsWf`: each list of a transaction holds exactly the buffers whose journal head
  names that transaction and list, once each, and `t_nr_buffers` is the length of `t_buffers`;
  every call that returns keeps it (`JhState.ListsWf.step`), so it holds in every reachable
  state (`JhState.listsWf_of_reachable`);
* the phase-5 refile of `t_dirty_data_list` hands a buffer to the next transaction with the
  frozen copy `do_get_write_access` made of it (`jbdbfJournalRefileBuffer_frozen`), and when
  that transaction has not dirtied it yet, its `jbdbf_journal_dirty_metadata` then fails
  `J_ASSERT_JH(jh, jh->b_frozen_data == NULL)` (`dirtyMetadata_frozen_after_refile`);
* `jbdbf_journal_dirty_data` files a buffer of the committing transaction without looking
  (`jbdbfJournalDirtyData_committing`), where `jbdbf_journal_dirty_metadata` returns
  (`jbdbfJournalDirtyMetadata_committing`).
-/

namespace OptFs.Jbd.BufferLists

open Lib.Trace

/-- The list kinds, `BJ_None` to `BJ_Dirtydata`. -/
inductive BJList
  | none
  | metadata
  | forget
  | io
  | shadow
  | logCtl
  | reserved
  | dirtydata
deriving DecidableEq, Repr

/-- The lists on which `__jbdbf_journal_file_buffer` keeps a buffer's dirtiness in `jbddirty`
instead of `dirty`. -/
def BJList.tracksJbddirty : BJList → Bool
  | .metadata | .reserved | .shadow | .forget => true
  | _ => false

/-- The lists of a transaction, `BJ_Metadata` to `BJ_Dirtydata`. -/
def BJList.filed : List BJList := [.metadata, .forget, .io, .shadow, .logCtl, .reserved, .dirtydata]

/-- The state bits of a `buffer_head` that the journal code reads. -/
structure BufferHead where
  /-- `BH_Mapped`: the buffer has its disk block. -/
  mapped : Bool
  /-- `BH_New`: `ext4bf_get_block` has just allocated that block. -/
  new : Bool
  /-- `BH_Freed`: truncated while the committing transaction owns it. -/
  freed : Bool
  /-- `BH_Dirty`: the VM may write it back. -/
  dirty : Bool
  /-- `BH_JBDDirty`: dirty, but written when the journal says so. -/
  jbddirty : Bool
deriving DecidableEq, Repr

/-- The fields of `struct journal_bf_head` the list code reads; `bFrozenData` says whether
`b_frozen_data` holds a copy. -/
structure JournalHead where
  bTransaction : Option Nat
  bNextTransaction : Option Nat
  bCpTransaction : Option Nat
  bJlist : BJList
  bModified : Bool
  bFrozenData : Bool
deriving DecidableEq, Repr

/-- The journal head `jbdbf_journal_add_journal_bf_head` attaches to a buffer that has none. -/
def JournalHead.fresh : JournalHead := ⟨none, none, none, .none, false, false⟩

/-- `buffer_jbd`: a buffer keeps its journal head while a transaction or a checkpoint list
holds a reference to it. -/
def JournalHead.jbd (j : JournalHead) : Bool := j.bTransaction.isSome || j.bCpTransaction.isSome

/-- `jbdbf_journal_put_journal_bf_head`: once no transaction and no checkpoint list holds the
journal head, `__journal_remove_journal_bf_head` frees it with its frozen copy, and the next
one attached is fresh. -/
def JournalHead.put (j : JournalHead) : JournalHead := if j.jbd then j else .fresh

/-- The assertions of the list code that the model checks. -/
inductive JAssert
  /-- `__jbdbf_journal_file_buffer`: `b_transaction == transaction || b_transaction == NULL`. -/
  | fileBufferTransaction
  /-- `__jbdbf_journal_file_buffer` on `BJ_None`: no frozen data. -/
  | fileBufferFrozenData
  /-- `__jbdbf_journal_temp_unlink_buffer`: a filed buffer has a transaction. -/
  | tempUnlinkTransaction
  /-- `__jbdbf_journal_temp_unlink_buffer`: `t_nr_buffers >= 0` after the decrement. -/
  | tempUnlinkNrBuffers
  /-- `__jbdbf_journal_refile_buffer`: the next transaction is `T_RUNNING`. -/
  | refileRunning
  /-- `do_get_write_access` on a dirty buffer: it belongs to this or the committing
  transaction. -/
  | writeAccessDirtyTransaction
  /-- `do_get_write_access` on a dirty buffer: its next transaction is this one. -/
  | writeAccessDirtyNext
  /-- `do_get_write_access`: `b_next_transaction == NULL` before it is set. -/
  | writeAccessNextTransaction
  /-- `do_get_write_access`: an older owner is the committing transaction. -/
  | writeAccessCommitting
  /-- `jbdbf_journal_dirty_metadata`: no frozen data when filing. -/
  | dirtyMetadataFrozenData
  /-- `jbdbf_journal_forget` on a buffer of this transaction: no frozen data. -/
  | forgetFrozenData
  /-- `jbdbf_journal_forget`: an older owner is the committing transaction. -/
  | forgetCommitting
  /-- `jbdbf_journal_forget`: the next transaction is this one. -/
  | forgetNextTransaction
  /-- `journal_unmap_buffer`: a buffer of neither the committing transaction nor none is the
  running transaction's. -/
  | unmapRunning
  /-- `journal_unmap_buffer`, `zap_buffer`: not `jbddirty`. -/
  | zapJbddirty
  /-- `jbdbf_journal_write_metadata_buffer`: the buffer is `jbddirty`. -/
  | writeMetadataJbddirty
  /-- commit phase 4: a shadowed buffer is `jbddirty`. -/
  | shadowJbddirty
  /-- commit phase 7: a `t_forget` buffer belongs to the committing transaction. -/
  | commitForgetTransaction
  /-- commit phase 7: a buffer that is not `jbddirty` is not dirty either. -/
  | commitForgetDirty
deriving DecidableEq, Repr

/-- Journal heads and buffer heads by buffer, each transaction's lists by kind,
`t_nr_buffers`, the running and committing transactions by id, and the buffers that a handle
has between `ext4bf_write_begin` and `write_end` (it holds their page locked, and counts in
`t_updates`). -/
structure JhState where
  jh : Nat → JournalHead
  bh : Nat → BufferHead
  lists : Nat → BJList → List Nat
  tNrBuffers : Nat → Nat
  jRunningTransaction : Option Nat
  jCommittingTransaction : Option Nat
  jTransactionBfSequence : Nat
  openWrites : List Nat

/-- No buffer mapped or journalled, and no transaction yet. -/
def JhState.init (seq : Nat) : JhState :=
  ⟨fun _ => .fresh, fun _ => ⟨false, false, false, false, false⟩, fun _ _ => [], fun _ => 0,
    none, none, seq, []⟩

/-- Change the journal head of buffer `b`. -/
def JhState.updateJh (s : JhState) (b : Nat) (f : JournalHead → JournalHead) : JhState :=
  { s with jh := Function.update s.jh b (f (s.jh b)) }

/-- Change the state bits of buffer `b`. -/
def JhState.updateBh (s : JhState) (b : Nat) (f : BufferHead → BufferHead) : JhState :=
  { s with bh := Function.update s.bh b (f (s.bh b)) }

/-- Change list `k` of transaction `t`. -/
def JhState.updateList (s : JhState) (t : Nat) (k : BJList) (f : List Nat → List Nat) :
    JhState :=
  { s with lists := Function.update s.lists t (Function.update (s.lists t) k (f (s.lists t k))) }

/-- Change `t_nr_buffers` of transaction `t`. -/
def JhState.updateNrBuffers (s : JhState) (t : Nat) (f : Nat → Nat) : JhState :=
  { s with tNrBuffers := Function.update s.tNrBuffers t (f (s.tNrBuffers t)) }

/-! ## The list primitives (`transaction.c`) -/

/-- `__blist_add_buffer`: at the tail, to keep the order. -/
def blistAddBuffer (l : List Nat) (b : Nat) : List Nat := l ++ [b]

/-- `__blist_del_buffer`. -/
def blistDelBuffer (l : List Nat) (b : Nat) : List Nat := l.erase b

/-- `__jbdbf_journal_temp_unlink_buffer`: take the buffer off its list; `b_transaction`
stays. -/
def jbdbfJournalTempUnlinkBuffer (s : JhState) (b : Nat) : Except JAssert JhState :=
  let k := (s.jh b).bJlist
  if k = .none then .ok s
  else
    match (s.jh b).bTransaction with
    | none => .error .tempUnlinkTransaction
    | some t =>
      -- `BJ_Metadata`: `t_nr_buffers--`, then `J_ASSERT_JH(jh, transaction->t_nr_buffers >= 0)`
      if k = .metadata ∧ s.tNrBuffers t = 0 then .error .tempUnlinkNrBuffers
      else
        let s₁ := s.updateNrBuffers t fun n => if k = .metadata then n - 1 else n
        let s₂ := (s₁.updateList t k (blistDelBuffer · b)).updateJh b
          fun j => { j with bJlist := .none }
        -- `test_clear_buffer_jbddirty`, then `mark_buffer_dirty`: exposed to the VM
        .ok (s₂.updateBh b fun h =>
          if h.jbddirty then { h with jbddirty := false, dirty := true } else h)

/-- `test_clear_buffer_dirty(bh) || test_clear_buffer_jbddirty(bh)`: the second is cleared
only when the first was not set. -/
def BufferHead.testClearDirty (h : BufferHead) : BufferHead :=
  if h.dirty then { h with dirty := false } else { h with jbddirty := false }

/-- `__jbdbf_journal_file_buffer`: file the buffer on list `jlist` of `t`. -/
def jbdbfJournalFileBuffer (s : JhState) (b t : Nat) (jlist : BJList) :
    Except JAssert JhState :=
  let jh := s.jh b
  if ¬ (jh.bTransaction = some t ∨ jh.bTransaction = none) then .error .fileBufferTransaction
  else if jh.bTransaction.isSome ∧ jh.bJlist = jlist then .ok s
  else
    -- `was_dirty = test_clear_buffer_dirty(bh) || test_clear_buffer_jbddirty(bh)`
    let wasDirty := jlist.tracksJbddirty && ((s.bh b).dirty || (s.bh b).jbddirty)
    let s₀ := if jlist.tracksJbddirty then s.updateBh b BufferHead.testClearDirty else s
    -- off the old list if it has a transaction (else `jbdbf_journal_grab_journal_bf_head`)
    (if jh.bTransaction.isSome then jbdbfJournalTempUnlinkBuffer s₀ b else .ok s₀).bind fun s₁ =>
      let s₂ := s₁.updateJh b fun j => { j with bTransaction := some t }
      if jlist = .none then
        if (s₂.jh b).bFrozenData then .error .fileBufferFrozenData else .ok s₂
      else
        -- `BJ_Metadata` counts in `t_nr_buffers`; every kind adds to its list
        let s₃ := s₂.updateNrBuffers t fun n => if jlist = .metadata then n + 1 else n
        let s₄ := (s₃.updateList t jlist (blistAddBuffer · b)).updateJh b
          fun j => { j with bJlist := jlist }
        .ok (if wasDirty then s₄.updateBh b fun h => { h with jbddirty := true } else s₄)

/-- `__jbdbf_journal_unfile_buffer`: off its list and out of its transaction, dropping the
transaction's reference to the journal head. -/
def jbdbfJournalUnfileBuffer (s : JhState) (b : Nat) : Except JAssert JhState :=
  (jbdbfJournalTempUnlinkBuffer s b).map fun s₁ =>
    s₁.updateJh b fun j => JournalHead.put { j with bTransaction := none }

/-- `__jbdbf_journal_refile_buffer`: drop the buffer, or move it to the transaction that
touched it since: on `BJ_Forget` if it was freed, on `BJ_Metadata` if it modified it, else on
`BJ_Reserved`. -/
def jbdbfJournalRefileBuffer (s : JhState) (b : Nat) : Except JAssert JhState :=
  match (s.jh b).bNextTransaction with
  | none => jbdbfJournalUnfileBuffer s b
  | some n =>
    -- `was_dirty = test_clear_buffer_jbddirty(bh)`, before the unlink can expose it
    let wasDirty := (s.bh b).jbddirty
    (jbdbfJournalTempUnlinkBuffer (s.updateBh b fun h => { h with jbddirty := false }) b).bind
      fun s₁ =>
        let s₂ := s₁.updateJh b fun j => { j with bTransaction := some n, bNextTransaction := none }
        let jlist := if (s₂.bh b).freed then BJList.forget
          else if (s₂.jh b).bModified then BJList.metadata else BJList.reserved
        (jbdbfJournalFileBuffer s₂ b n jlist).bind fun s₃ =>
          if s₃.jRunningTransaction ≠ some n then .error .refileRunning
          else .ok (if wasDirty then s₃.updateBh b fun h => { h with jbddirty := true } else s₃)

/-! ## The calls of a handle -/

/-- The start of `do_get_write_access`: a buffer the VM sees dirty is journalled from now on
(`jbddirty`); it may only belong to this transaction or the committing one. -/
def doGetWriteAccessDirty (s : JhState) (b t : Nat) : Except JAssert JhState :=
  let jh := s.jh b
  if ¬ (s.bh b).dirty then .ok s
  else if jh.bTransaction.isSome ∧
      ¬ (jh.bTransaction = some t ∨ jh.bTransaction = s.jCommittingTransaction) then
    .error .writeAccessDirtyTransaction
  else if jh.bTransaction.isSome ∧ jh.bNextTransaction.isSome ∧ jh.bNextTransaction ≠ some t then
    .error .writeAccessDirtyNext
  else .ok (s.updateBh b fun h => { h with dirty := false, jbddirty := true })

/-- `do_get_write_access` for a handle of transaction `t` (`force_copy == 0`); `none` while it
sleeps on a buffer the commit is writing out (`BJ_Shadow`). -/
def doGetWriteAccess (s : JhState) (b t : Nat) : Option (Except JAssert JhState) :=
  match doGetWriteAccessDirty s b t with
  | .error e => some (.error e)
  | .ok s =>
    let jh := s.jh b
    if jh.bTransaction = some t ∨ jh.bNextTransaction = some t then some (.ok s)
    else
      -- the first time this transaction touches the buffer
      let s₁ := s.updateJh b fun j => { j with bModified := false }
      if jh.bFrozenData then
        if jh.bNextTransaction.isSome then some (.error .writeAccessNextTransaction)
        else some (.ok (s₁.updateJh b fun j => { j with bNextTransaction := some t }))
      else
        match jh.bTransaction with
        | some owner =>
          -- owned by an older transaction: copy it out, unless it is already on `BJ_Forget`
          if jh.bNextTransaction.isSome then some (.error .writeAccessNextTransaction)
          else if some owner ≠ s.jCommittingTransaction then some (.error .writeAccessCommitting)
          else if jh.bJlist = .shadow then none
          else
            some (.ok (s₁.updateJh b fun j =>
              { j with bFrozenData := decide (jh.bJlist ≠ .forget), bNextTransaction := some t }))
        | none =>
          if jh.bNextTransaction.isSome then some (.error .writeAccessNextTransaction)
          else some (jbdbfJournalFileBuffer s₁ b t .reserved)

/-- `jbdbf_journal_dirty_metadata` from a handle of transaction `t`. A buffer without a journal
head is refused with `-EUCLEAN` and left alone. -/
def jbdbfJournalDirtyMetadata (s : JhState) (b t : Nat) : Except JAssert JhState :=
  let jh := s.jh b
  if ¬ jh.jbd then .ok s
  else
    let s₁ := s.updateJh b fun j => { j with bModified := true }
    if jh.bTransaction = some t ∧ jh.bJlist = .metadata then .ok s₁
    else
      let s₂ := s₁.updateBh b fun h => { h with jbddirty := true }
      -- already on another transaction: reported, and nothing is filed
      if jh.bTransaction ≠ some t then .ok s₂
      else if jh.bFrozenData then .error .dirtyMetadataFrozenData
      else jbdbfJournalFileBuffer s₂ b t .metadata

/-- `jbdbf_journal_dirty_data` from a handle of transaction `t`. -/
def jbdbfJournalDirtyData (s : JhState) (b t : Nat) : Except JAssert JhState :=
  if ¬ (s.jh b).jbd then .ok s
  else
    let s₁ := (s.updateJh b fun j => { j with bModified := true }).updateBh b
      fun h => { h with jbddirty := true }
    jbdbfJournalFileBuffer s₁ b t .dirtydata

/-- `jbdbf_journal_forget` from a handle of transaction `t`. -/
def jbdbfJournalForget (s : JhState) (b t : Nat) : Except JAssert JhState :=
  let jh := s.jh b
  if ¬ jh.jbd then .ok s
  else
    let s₁ := s.updateJh b fun j => { j with bModified := false }
    if jh.bTransaction = some t then
      if jh.bFrozenData then .error .forgetFrozenData
      else
        let s₂ := s₁.updateBh b fun h => { h with dirty := false, jbddirty := false }
        -- an older transaction still has to checkpoint it: keep it on `BJ_Forget`
        if jh.bCpTransaction.isSome then
          (jbdbfJournalTempUnlinkBuffer s₂ b).bind fun s₃ => jbdbfJournalFileBuffer s₃ b t .forget
        else jbdbfJournalUnfileBuffer s₂ b
    else
      match jh.bTransaction with
      | none => .ok s₁
      | some c =>
        if some c ≠ s.jCommittingTransaction then .error .forgetCommitting
        else
          match jh.bNextTransaction with
          | none => .ok s₁
          | some n =>
            if n ≠ t then .error .forgetNextTransaction
            else .ok (s₁.updateJh b fun j => { j with bNextTransaction := none })

/-- `__dispose_buffer`: onto `BJ_Forget` of `t` while a checkpoint list holds it, else out of
the journal. -/
def disposeBuffer (s : JhState) (b t : Nat) : Except JAssert JhState :=
  if (s.jh b).bCpTransaction.isSome then
    (jbdbfJournalTempUnlinkBuffer s b).bind fun s₁ =>
      jbdbfJournalFileBuffer (s₁.updateBh b fun h => { h with dirty := false }) b t .forget
  else jbdbfJournalUnfileBuffer s b

/-- The end of `journal_unmap_buffer` (`zap_buffer`): the buffer loses its block. -/
def zapBuffer (s : JhState) (b : Nat) : Except JAssert JhState :=
  if (s.bh b).jbddirty then .error .zapJbddirty
  else .ok (s.updateBh b fun h => { h with dirty := false, mapped := false, new := false })

/-- `journal_unmap_buffer`: a truncate takes the buffer's block away. -/
def journalUnmapBuffer (s : JhState) (b : Nat) : Except JAssert JhState :=
  let jh := s.jh b
  if ¬ jh.jbd then zapBuffer s b
  else
    match jh.bTransaction with
    | none =>
      -- written back already, or waiting for a checkpoint
      if jh.bCpTransaction.isNone ∨ ¬ (s.bh b).dirty then zapBuffer s b
      else
        match s.jRunningTransaction, s.jCommittingTransaction with
        | some r, _ => disposeBuffer s b r
        | none, some c => disposeBuffer s b c
        | none, none => zapBuffer (s.updateBh b fun h => { h with jbddirty := false }) b
    | some t =>
      if some t = s.jCommittingTransaction then
        -- the commit still writes it: mark it freed and hand it to the running transaction
        let s₁ := s.updateBh b fun h => { h with freed := true }
        match s.jRunningTransaction with
        | some r =>
          if (s.bh b).jbddirty then .ok (s₁.updateJh b fun j => { j with bNextTransaction := some r })
          else .ok s₁
        | none => .ok s₁
      else if some t ≠ s.jRunningTransaction then .error .unmapRunning
      else (disposeBuffer s b t).bind (zapBuffer · b)

/-! ## The write path of a data block (`inode.c`, `buffer.c`) -/

/-- `__block_write_begin` on a buffer in the written range: `ext4bf_get_block` maps an
unmapped buffer, allocating a new block when `allocates`; on a page that is up to date a new
buffer is dirtied at once. -/
def BufferHead.blockWriteBegin (h : BufferHead) (allocates pageUptodate : Bool) : BufferHead :=
  let h := { h with new := false }
  if h.mapped then h
  else if allocates then
    if pageUptodate then { h with mapped := true, dirty := true }
    else { h with mapped := true, new := true }
  else { h with mapped := true }

/-- `ext4bf_handle_dirty_metadata` on a buffer that `ext4bf_write_begin` marked
`B_BLOCKTYPE_DATA` (`DCHECKSUM`, `PARTJ`): a new block is data of the transaction, a rewritten
one is journalled in full. -/
def ext4bfHandleDirtyMetadata (s : JhState) (b t : Nat) : Except JAssert JhState :=
  if (s.bh b).new then jbdbfJournalDirtyData s b t else jbdbfJournalDirtyMetadata s b t

/-- `do_journal_get_write_access`: only for a mapped buffer that is not freed. A dirty buffer
(dirtied by `__block_write_begin`, or exposed to the VM by the journal) is cleaned before
`do_get_write_access` and dirtied through the journal once it has write access. -/
def doJournalGetWriteAccess (s : JhState) (b t : Nat) : Option (Except JAssert JhState) :=
  if (s.bh b).mapped ∧ ¬ (s.bh b).freed then
    let dirty := (s.bh b).dirty
    let s₁ := if dirty then s.updateBh b fun h => { h with dirty := false } else s
    (doGetWriteAccess s₁ b t).map fun r =>
      r.bind fun s₂ => if dirty then ext4bfHandleDirtyMetadata s₂ b t else .ok s₂
  else some (.ok s)

/-- `write_end_fn` on a data block. -/
def writeEndFn (s : JhState) (b t : Nat) : Except JAssert JhState :=
  if ¬ (s.bh b).mapped ∨ (s.bh b).freed then .ok s else ext4bfHandleDirtyMetadata s b t

/-! ## The commit (`commit.c`) -/

/-- Phases 1 and 2: refile every buffer of `t_reserved_list`, then make the transaction the
committing one. -/
def commitLock (s : JhState) (t : Nat) : Except JAssert JhState :=
  ((s.lists t .reserved).foldlM jbdbfJournalRefileBuffer s).map fun s₁ =>
    { s₁ with jCommittingTransaction := some t, jRunningTransaction := none }

/-- `jbdbf_journal_write_metadata_buffer` on a buffer of `t_buffers`: escaping a block that
starts with the journal's magic number needs a frozen copy; the buffer waits on `BJ_Shadow`. -/
def jbdbfJournalWriteMetadataBuffer (s : JhState) (b c : Nat) (escape : Bool) :
    Except JAssert JhState :=
  if ¬ (s.bh b).jbddirty then .error .writeMetadataJbddirty
  else
    let s₁ := if escape ∧ ¬ (s.jh b).bFrozenData then
        s.updateJh b fun j => { j with bFrozenData := true }
      else s
    jbdbfJournalFileBuffer s₁ b c .shadow

/-- Phase 4: the log copy is written, and the shadowed buffer moves to `BJ_Forget`. -/
def commitUnshadowBuffer (s : JhState) (b c : Nat) : Except JAssert JhState :=
  if ¬ (s.bh b).jbddirty then .error .shadowJbddirty
  else jbdbfJournalFileBuffer s b c .forget

/-- The body of the phase-7 loop over `t_forget`: free the frozen copy, move the buffer from
its old checkpoint transaction to this one if it is still dirty, and refile it. -/
def commitForgetBuffer (s : JhState) (b c : Nat) : Except JAssert JhState :=
  if (s.jh b).bTransaction ≠ some c then .error .commitForgetTransaction
  else
    let s₁ := s.updateJh b fun j => { j with bFrozenData := false, bCpTransaction := none }
    -- freed by this transaction and not reused: nothing is left to write
    let s₂ := if (s₁.bh b).freed ∧ (s₁.jh b).bNextTransaction = none then
        s₁.updateBh b fun h => { h with freed := false, jbddirty := false }
      else s₁
    Except.bind
      (if (s₂.bh b).jbddirty then .ok (s₂.updateJh b fun j => { j with bCpTransaction := some c })
       else if (s₂.bh b).dirty then .error .commitForgetDirty
       else .ok s₂)
      (jbdbfJournalRefileBuffer · b)

/-- The transaction has no buffer left on any list (the commit's closing assertions and
loops). -/
def JhState.listsEmpty (s : JhState) (c : Nat) : Bool :=
  BJList.filed.all fun k => (s.lists c k).isEmpty

/-! ## The system -/

/-- The calls, in the order the callers make them. -/
inductive JhOp
  /-- `start_this_handle` when there is no running transaction. -/
  | startHandle
  /-- `ext4bf_write_begin` on buffer `b`: whether `ext4bf_get_block` allocates its block, and
  whether the page is up to date. -/
  | writeBegin (b : Nat) (allocates pageUptodate : Bool)
  /-- `ext4bf_journalled_write_end` on buffer `b`. -/
  | writeEnd (b : Nat)
  | forget (b : Nat)
  /-- `journal_unmap_buffer` from a truncate. -/
  | unmapBuffer (b : Nat)
  /-- The VM writes a dirty buffer back. -/
  | writeback (b : Nat)
  /-- `__try_to_free_cp_buf`: a written-back buffer leaves its checkpoint list. -/
  | cleanCheckpoint (b : Nat)
  | commitLock
  /-- Phase 3: `write_dirty_buffer` writes a data buffer of `t_dirty_data_list` in place,
  cleaning it. -/
  | commitWriteData (b : Nat)
  /-- Phase 5: refile a data buffer of `t_dirty_data_list` once its write is done. -/
  | commitRefileData (b : Nat)
  /-- Phase 3: write a buffer of `t_buffers` to the log; `escape` when it starts with the
  magic number. -/
  | commitWriteMetadata (b : Nat) (escape : Bool)
  | commitUnshadow (b : Nat)
  | commitForget (b : Nat)
  | commitFinish
deriving DecidableEq, Repr

/-- One call: `none` when it cannot be made (or sleeps), a failed assertion, or the new state. -/
def jhCall (s : JhState) : JhOp → Option (Except JAssert JhState)
  | .startHandle =>
    match s.jRunningTransaction with
    | some _ => none
    | none => some (.ok { s with jRunningTransaction := some s.jTransactionBfSequence,
                                 jTransactionBfSequence := s.jTransactionBfSequence + 1 })
  | .writeBegin b allocates pageUptodate =>
    s.jRunningTransaction.bind fun t =>
      -- the page lock: one write at a time
      if b ∈ s.openWrites then none
      else
        (doJournalGetWriteAccess (s.updateBh b (·.blockWriteBegin allocates pageUptodate)) b t).map
          (Except.map fun s₁ => { s₁ with openWrites := b :: s₁.openWrites })
  | .writeEnd b =>
    s.jRunningTransaction.bind fun t =>
      if b ∈ s.openWrites then
        some ((writeEndFn s b t).map fun s₁ => { s₁ with openWrites := s₁.openWrites.erase b })
      else none
  | .forget b => s.jRunningTransaction.map fun t => jbdbfJournalForget s b t
  | .unmapBuffer b => if b ∈ s.openWrites then none else some (journalUnmapBuffer s b)
  | .writeback b =>
    if (s.bh b).mapped ∧ (s.bh b).dirty then
      some (.ok (s.updateBh b fun h => { h with dirty := false }))
    else none
  | .cleanCheckpoint b =>
    if (s.jh b).bCpTransaction.isSome ∧ (s.jh b).bJlist = .none ∧ ¬ (s.bh b).dirty then
      some (.ok (s.updateJh b fun j => JournalHead.put { j with bCpTransaction := none }))
    else none
  | .commitLock =>
    -- `t_updates` has dropped to zero, and the previous commit has finished
    match s.jRunningTransaction, s.jCommittingTransaction with
    | some t, none => if s.openWrites = [] then some (commitLock s t) else none
    | _, _ => none
  | .commitWriteData b => s.jCommittingTransaction.bind fun c =>
    if b ∈ s.lists c .dirtydata then some (.ok (s.updateBh b fun h => { h with dirty := false }))
    else none
  | .commitRefileData b => s.jCommittingTransaction.bind fun c =>
    if b ∈ s.lists c .dirtydata then some (jbdbfJournalRefileBuffer s b) else none
  | .commitWriteMetadata b escape => s.jCommittingTransaction.bind fun c =>
    if b ∈ s.lists c .metadata then some (jbdbfJournalWriteMetadataBuffer s b c escape) else none
  | .commitUnshadow b => s.jCommittingTransaction.bind fun c =>
    if b ∈ s.lists c .shadow then some (commitUnshadowBuffer s b c) else none
  | .commitForget b => s.jCommittingTransaction.bind fun c =>
    if b ∈ s.lists c .forget then some (commitForgetBuffer s b c) else none
  | .commitFinish => s.jCommittingTransaction.bind fun c =>
    if s.listsEmpty c then some (.ok { s with jCommittingTransaction := none }) else none

/-- The calls that return. -/
def jhStep (s : JhState) (op : JhOp) : Option JhState :=
  match jhCall s op with
  | some (.ok s') => some s'
  | _ => none

/-! ## Updates -/

section Updates

variable (s : JhState) (b b' t t' : Nat) (k k' : BJList)

@[simp] theorem updateJh_jh (f : JournalHead → JournalHead) :
    (s.updateJh b f).jh b' = if b' = b then f (s.jh b) else s.jh b' := by
  simp only [JhState.updateJh, Function.update_apply]

@[simp] theorem updateJh_bh (f : JournalHead → JournalHead) : (s.updateJh b f).bh = s.bh := rfl

@[simp] theorem updateJh_lists (f : JournalHead → JournalHead) :
    (s.updateJh b f).lists = s.lists := rfl

@[simp] theorem updateJh_tNrBuffers (f : JournalHead → JournalHead) :
    (s.updateJh b f).tNrBuffers = s.tNrBuffers := rfl

@[simp] theorem updateJh_jRunningTransaction (f : JournalHead → JournalHead) :
    (s.updateJh b f).jRunningTransaction = s.jRunningTransaction := rfl

@[simp] theorem updateJh_jCommittingTransaction (f : JournalHead → JournalHead) :
    (s.updateJh b f).jCommittingTransaction = s.jCommittingTransaction := rfl

@[simp] theorem updateBh_bh (f : BufferHead → BufferHead) :
    (s.updateBh b f).bh b' = if b' = b then f (s.bh b) else s.bh b' := by
  simp only [JhState.updateBh, Function.update_apply]

@[simp] theorem updateBh_jh (f : BufferHead → BufferHead) : (s.updateBh b f).jh = s.jh := rfl

@[simp] theorem updateBh_lists (f : BufferHead → BufferHead) :
    (s.updateBh b f).lists = s.lists := rfl

@[simp] theorem updateBh_tNrBuffers (f : BufferHead → BufferHead) :
    (s.updateBh b f).tNrBuffers = s.tNrBuffers := rfl

@[simp] theorem updateBh_jRunningTransaction (f : BufferHead → BufferHead) :
    (s.updateBh b f).jRunningTransaction = s.jRunningTransaction := rfl

@[simp] theorem updateBh_jCommittingTransaction (f : BufferHead → BufferHead) :
    (s.updateBh b f).jCommittingTransaction = s.jCommittingTransaction := rfl

@[simp] theorem updateList_lists (f : List Nat → List Nat) :
    (s.updateList t k f).lists t' k' =
      if t' = t ∧ k' = k then f (s.lists t k) else s.lists t' k' := by
  unfold JhState.updateList
  by_cases ht : t' = t
  · subst ht
    by_cases hk : k' = k
    · subst hk
      simp
    · simp [hk]
  · simp [ht]

@[simp] theorem updateList_jh (f : List Nat → List Nat) : (s.updateList t k f).jh = s.jh := rfl

@[simp] theorem updateList_bh (f : List Nat → List Nat) : (s.updateList t k f).bh = s.bh := rfl

@[simp] theorem updateList_tNrBuffers (f : List Nat → List Nat) :
    (s.updateList t k f).tNrBuffers = s.tNrBuffers := rfl

@[simp] theorem updateList_jRunningTransaction (f : List Nat → List Nat) :
    (s.updateList t k f).jRunningTransaction = s.jRunningTransaction := rfl

@[simp] theorem updateList_jCommittingTransaction (f : List Nat → List Nat) :
    (s.updateList t k f).jCommittingTransaction = s.jCommittingTransaction := rfl

@[simp] theorem updateNrBuffers_tNrBuffers (f : Nat → Nat) :
    (s.updateNrBuffers t f).tNrBuffers t' = if t' = t then f (s.tNrBuffers t) else s.tNrBuffers t' := by
  simp only [JhState.updateNrBuffers, Function.update_apply]

@[simp] theorem updateNrBuffers_jh (f : Nat → Nat) : (s.updateNrBuffers t f).jh = s.jh := rfl

@[simp] theorem updateNrBuffers_bh (f : Nat → Nat) : (s.updateNrBuffers t f).bh = s.bh := rfl

@[simp] theorem updateNrBuffers_lists (f : Nat → Nat) :
    (s.updateNrBuffers t f).lists = s.lists := rfl

@[simp] theorem updateNrBuffers_jRunningTransaction (f : Nat → Nat) :
    (s.updateNrBuffers t f).jRunningTransaction = s.jRunningTransaction := rfl

@[simp] theorem updateNrBuffers_jCommittingTransaction (f : Nat → Nat) :
    (s.updateNrBuffers t f).jCommittingTransaction = s.jCommittingTransaction := rfl

end Updates

/-! ## The list invariant -/

/-- The journal head files its buffer on list `k` of transaction `t`. -/
def JournalHead.FiledOn (j : JournalHead) (t : Nat) (k : BJList) : Prop :=
  j.bTransaction = some t ∧ j.bJlist = k

instance (j : JournalHead) (t : Nat) (k : BJList) : Decidable (j.FiledOn t k) :=
  inferInstanceAs (Decidable (_ ∧ _))

/-- The lists agree with the journal heads: list `k` of `t` holds every buffer filed on it,
once, and no other; `t_nr_buffers` is the length of `t_buffers`. -/
structure JhState.ListsAgree (s : JhState) : Prop where
  count_eq : ∀ b t k, k ≠ .none →
    (s.lists t k).count b = if (s.jh b).FiledOn t k then 1 else 0
  nrBuffers : ∀ t, s.tNrBuffers t = (s.lists t .metadata).length

/-- The list invariant: the lists agree with the journal heads, and a journal head has a
transaction exactly when it is on a list. -/
structure JhState.ListsWf (s : JhState) : Prop where
  agree : s.ListsAgree
  owned : ∀ b, (s.jh b).bTransaction = none ↔ (s.jh b).bJlist = .none

/-- Buffer `b` is between `__jbdbf_journal_temp_unlink_buffer` and its filing: on no list,
with the lists in agreement and every other journal head as the invariant has it. -/
structure JhState.Detached (s : JhState) (b : Nat) : Prop where
  agree : s.ListsAgree
  unlisted : (s.jh b).bJlist = .none
  owned : ∀ b', b' ≠ b → ((s.jh b').bTransaction = none ↔ (s.jh b').bJlist = .none)

theorem JhState.init_listsWf (seq : Nat) : (JhState.init seq).ListsWf :=
  ⟨⟨fun _ _ _ _ => by simp [JhState.init, JournalHead.FiledOn, JournalHead.fresh], fun _ => rfl⟩,
    fun _ => by simp [JhState.init, JournalHead.fresh]⟩

theorem JournalHead.not_filedOn_of_none {j : JournalHead} {t : Nat} {k : BJList}
    (h : j.bJlist = .none) (hk : k ≠ .none) : ¬ j.FiledOn t k :=
  fun hf => hk (hf.2.symm.trans h)

/-- A released journal head is on no transaction and no list. -/
theorem JournalHead.put_unfiled {j : JournalHead} (htr : j.bTransaction = none)
    (hjl : j.bJlist = .none) : j.put.bTransaction = none ∧ j.put.bJlist = .none := by
  unfold JournalHead.put
  split
  · exact ⟨htr, hjl⟩
  · exact ⟨rfl, rfl⟩

section Invariant

variable {s s' s₁ : JhState} {b t c : Nat} {k : BJList}

/-- The lists agree as long as every journal head files its buffer where it did. -/
theorem JhState.ListsAgree.of_filed (hs : s.ListsAgree)
    (hjh : ∀ b, (s'.jh b).bTransaction = (s.jh b).bTransaction ∧
      (s'.jh b).bJlist = (s.jh b).bJlist)
    (hl : s'.lists = s.lists) (hn : s'.tNrBuffers = s.tNrBuffers) : s'.ListsAgree := by
  refine ⟨fun b t k hk => ?_, fun t => ?_⟩
  · have hf : (s'.jh b).FiledOn t k ↔ (s.jh b).FiledOn t k := by
      simp only [JournalHead.FiledOn, (hjh b).1, (hjh b).2]
    rw [hl, hs.count_eq b t k hk]
    simp only [hf]
  · rw [hn, hl]
    exact hs.nrBuffers t

/-- The invariant reads only where each journal head files its buffer. -/
theorem JhState.ListsWf.of_filed (hs : s.ListsWf)
    (hjh : ∀ b, (s'.jh b).bTransaction = (s.jh b).bTransaction ∧
      (s'.jh b).bJlist = (s.jh b).bJlist)
    (hl : s'.lists = s.lists) (hn : s'.tNrBuffers = s.tNrBuffers) : s'.ListsWf :=
  ⟨hs.agree.of_filed hjh hl hn, fun b => by rw [(hjh b).1, (hjh b).2]; exact hs.owned b⟩

/-- The state bits of a buffer are not part of the lists. -/
theorem JhState.ListsWf.updateBh (hs : s.ListsWf) {f : BufferHead → BufferHead} :
    (s.updateBh b f).ListsWf :=
  hs.of_filed (fun _ => ⟨rfl, rfl⟩) rfl rfl

theorem JhState.Detached.updateBh (hd : s.Detached b) {b' : Nat} {f : BufferHead → BufferHead} :
    (s.updateBh b' f).Detached b :=
  ⟨hd.agree.of_filed (fun _ => ⟨rfl, rfl⟩) rfl rfl, hd.unlisted, hd.owned⟩

/-- Changing a journal head without changing where it files its buffer keeps the lists in
agreement. -/
theorem JhState.ListsAgree.updateJh (hs : s.ListsAgree) {f : JournalHead → JournalHead}
    (hf : ∀ t k, k ≠ .none → ((f (s.jh b)).FiledOn t k ↔ (s.jh b).FiledOn t k)) :
    (s.updateJh b f).ListsAgree := by
  refine ⟨fun b' t' k' hk' => ?_, hs.nrBuffers⟩
  rw [updateJh_lists, updateJh_jh, hs.count_eq b' t' k' hk']
  by_cases hb : b' = b
  · subst hb
    simp only [if_true, hf t' k' hk']
  · simp only [hb, if_false]

/-- ... and so does a change of the fields the lists do not read. -/
theorem JhState.ListsWf.updateJh (hs : s.ListsWf) {f : JournalHead → JournalHead}
    (htr : (f (s.jh b)).bTransaction = (s.jh b).bTransaction)
    (hjl : (f (s.jh b)).bJlist = (s.jh b).bJlist) : (s.updateJh b f).ListsWf := by
  refine hs.of_filed (fun b' => ?_) rfl rfl
  by_cases hb : b' = b
  · subst hb
    simp [htr, hjl]
  · simp [hb]

/-- `__jbdbf_journal_temp_unlink_buffer` on a buffer with a transaction takes it off its list
and changes nothing else the lists read. -/
theorem tempUnlink_ok (hs : s.ListsAgree) (ht : (s.jh b).bTransaction = some t) :
    ∃ s₁, jbdbfJournalTempUnlinkBuffer s b = .ok s₁ ∧ s₁.ListsAgree ∧
      s₁.jh b = { s.jh b with bJlist := .none } ∧ (∀ b', b' ≠ b → s₁.jh b' = s.jh b') ∧
      s₁.jRunningTransaction = s.jRunningTransaction ∧
      s₁.jCommittingTransaction = s.jCommittingTransaction := by
  unfold jbdbfJournalTempUnlinkBuffer
  dsimp only
  by_cases hk : (s.jh b).bJlist = .none
  · -- not on a list: nothing to do
    rw [if_pos hk]
    refine ⟨s, rfl, hs, ?_, fun _ _ => rfl, rfl, rfl⟩
    rw [← hk]
  · rw [if_neg hk, ht]
    dsimp only
    -- the buffer is on list `k` of `t` once, so `t_nr_buffers` is positive for `BJ_Metadata`
    have hcount : (s.lists t (s.jh b).bJlist).count b = 1 := by
      rw [hs.count_eq b t _ hk, if_pos ⟨ht, rfl⟩]
    have hmem : b ∈ s.lists t (s.jh b).bJlist := List.count_pos_iff.mp (by omega)
    have hnr : ¬ ((s.jh b).bJlist = .metadata ∧ s.tNrBuffers t = 0) := by
      rintro ⟨hm, h0⟩
      rw [hs.nrBuffers, ← hm] at h0
      exact absurd h0 (List.length_pos_of_mem hmem).ne'
    rw [if_neg hnr]
    refine ⟨_, rfl, ⟨fun b' t' k' hk' => ?_, fun t' => ?_⟩, by simp [ht],
      fun b' hb' => by simp [hb'], rfl, rfl⟩
    · simp only [updateBh_lists, updateBh_jh, updateJh_lists, updateList_lists,
        updateNrBuffers_lists, updateJh_jh, updateNrBuffers_jh, updateList_jh]
      by_cases htk : t' = t ∧ k' = (s.jh b).bJlist
      · obtain ⟨rfl, rfl⟩ := htk
        rw [if_pos ⟨rfl, rfl⟩, blistDelBuffer]
        by_cases hb : b' = b
        · -- the buffer leaves the list
          subst hb
          simp [JournalHead.FiledOn, List.count_erase_self, hcount, Ne.symm hk]
        · rw [List.count_erase_of_ne hb, if_neg hb]
          exact hs.count_eq b' t' _ hk'
      · rw [if_neg htk, hs.count_eq b' t' k' hk']
        by_cases hb : b' = b
        · -- the buffer was on no other list
          subst hb
          simp only [if_true, JournalHead.FiledOn, ht, Option.some.injEq]
          rw [if_neg (fun h => htk ⟨h.1.symm, h.2.symm⟩),
            if_neg (by simp [Ne.symm hk'])]
        · simp only [hb, if_false]
    · simp only [updateBh_tNrBuffers, updateBh_lists, updateJh_tNrBuffers, updateList_tNrBuffers,
        updateNrBuffers_tNrBuffers, updateJh_lists, updateList_lists, updateNrBuffers_lists]
      by_cases ht' : t' = t
      · subst ht'
        by_cases hm : (s.jh b).bJlist = .metadata
        · -- one buffer fewer on `t_buffers`
          rw [if_pos rfl, if_pos hm, if_pos ⟨rfl, hm.symm⟩, blistDelBuffer, hm,
            List.length_erase_of_mem (hm ▸ hmem), ← hs.nrBuffers]
        · rw [if_pos rfl, if_neg hm, if_neg (fun h => hm h.2.symm)]
          exact hs.nrBuffers t'
      · rw [if_neg ht', if_neg (fun h => ht' h.1)]
        exact hs.nrBuffers t'

/-- Filing a buffer that is on no list onto list `k` of its transaction `t` keeps the lists in
agreement. -/
theorem JhState.ListsAgree.attach (hs : s.ListsAgree) (hk : k ≠ .none)
    (hfree : (s.jh b).bJlist = .none) (ht : (s.jh b).bTransaction = some t) :
    (((s.updateNrBuffers t fun n => if k = .metadata then n + 1 else n).updateList t k
      (blistAddBuffer · b)).updateJh b fun j => { j with bJlist := k }).ListsAgree := by
  have hzero : ∀ t' k', k' ≠ .none → (s.lists t' k').count b = 0 := by
    intro t' k' hk'
    rw [hs.count_eq b t' k' hk', if_neg (JournalHead.not_filedOn_of_none hfree hk')]
  refine ⟨fun b' t' k' hk' => ?_, fun t' => ?_⟩
  · simp only [updateJh_lists, updateList_lists, updateNrBuffers_lists, updateJh_jh,
      updateNrBuffers_jh, updateList_jh]
    by_cases htk : t' = t ∧ k' = k
    · obtain ⟨rfl, rfl⟩ := htk
      rw [if_pos ⟨rfl, rfl⟩, blistAddBuffer, List.count_append]
      by_cases hb : b' = b
      · -- the buffer joins the list, once
        subst hb
        simp [JournalHead.FiledOn, hzero t' k' hk', ht]
      · rw [if_neg hb, hs.count_eq b' t' k' hk', List.count_singleton]
        simp [Ne.symm hb]
    · rw [if_neg htk, hs.count_eq b' t' k' hk']
      by_cases hb : b' = b
      · -- the buffer was on no list, and is now on another one
        subst hb
        have hnew : ¬ ({ s.jh b' with bJlist := k } : JournalHead).FiledOn t' k' :=
          fun h => htk ⟨Option.some.inj (h.1.symm.trans ht), h.2.symm⟩
        rw [if_pos rfl, if_neg (JournalHead.not_filedOn_of_none hfree hk'), if_neg hnew]
      · rw [if_neg hb]
  · simp only [updateJh_tNrBuffers, updateList_tNrBuffers, updateNrBuffers_tNrBuffers,
      updateJh_lists, updateList_lists, updateNrBuffers_lists]
    by_cases ht' : t' = t
    · subst ht'
      by_cases hm : k = .metadata
      · -- one buffer more on `t_buffers`
        rw [if_pos rfl, if_pos hm, if_pos ⟨rfl, hm.symm⟩, blistAddBuffer, hm, List.length_append,
          List.length_singleton, ← hs.nrBuffers]
      · rw [if_pos rfl, if_neg hm, if_neg (fun h => hm h.2.symm)]
        exact hs.nrBuffers t'
    · rw [if_neg ht', if_neg (fun h => ht' h.1)]
      exact hs.nrBuffers t'

/-- `__jbdbf_journal_file_buffer` onto a list of the buffer's own transaction, or of any
transaction for a buffer that has none, passes its assertion and files the buffer there. -/
theorem fileBuffer_ok (hs : s.ListsAgree) (hk : k ≠ .none)
    (howned : ∀ b', b' ≠ b → ((s.jh b').bTransaction = none ↔ (s.jh b').bJlist = .none))
    (hb : (s.jh b).bTransaction = some t ∨
      ((s.jh b).bTransaction = none ∧ (s.jh b).bJlist = .none)) :
    ∃ s', jbdbfJournalFileBuffer s b t k = .ok s' ∧ s'.ListsWf ∧
      s'.jh b = { s.jh b with bTransaction := some t, bJlist := k } ∧
      (∀ b', b' ≠ b → s'.jh b' = s.jh b') ∧
      s'.jRunningTransaction = s.jRunningTransaction ∧
      s'.jCommittingTransaction = s.jCommittingTransaction := by
  unfold jbdbfJournalFileBuffer
  dsimp only
  rw [if_neg (by rcases hb with h | ⟨h, -⟩ <;> simp [h])]
  by_cases hshort : (s.jh b).bTransaction.isSome ∧ (s.jh b).bJlist = k
  · -- already on that list
    rw [if_pos hshort]
    have ht : (s.jh b).bTransaction = some t := by
      rcases hb with h | ⟨h, -⟩
      · exact h
      · simp [h] at hshort
    refine ⟨s, rfl, ⟨hs, fun b' => ?_⟩, ?_, fun _ _ => rfl, rfl, rfl⟩
    · by_cases hb' : b' = b
      · subst hb'
        rw [ht, hshort.2]
        simp [hk]
      · exact howned b' hb'
    · rw [← ht, ← hshort.2]
  · rw [if_neg hshort]
    -- `was_dirty` moves the dirty bits first; the lists do not read them
    generalize hs₀ : (if k.tracksJbddirty = true then s.updateBh b BufferHead.testClearDirty
      else s) = s₀
    have hjh₀ : s₀.jh = s.jh := by
      rw [← hs₀]
      split <;> rfl
    have hagree₀ : s₀.ListsAgree := by
      refine hs.of_filed (fun _ => by rw [hjh₀]; exact ⟨rfl, rfl⟩) ?_ ?_ <;>
        (rw [← hs₀]; split <;> rfl)
    -- off its old list, if it has one
    obtain ⟨s₁, hunlink, hs₁, hjh₁, hother₁, hrun₁, hcomm₁⟩ : ∃ s₁,
        (if (s.jh b).bTransaction.isSome then jbdbfJournalTempUnlinkBuffer s₀ b
          else .ok s₀) = .ok s₁ ∧ s₁.ListsAgree ∧
        s₁.jh b = { s.jh b with bJlist := .none } ∧ (∀ b', b' ≠ b → s₁.jh b' = s.jh b') ∧
        s₁.jRunningTransaction = s.jRunningTransaction ∧
        s₁.jCommittingTransaction = s.jCommittingTransaction := by
      have hrun₀ : s₀.jRunningTransaction = s.jRunningTransaction := by
        rw [← hs₀]
        split <;> rfl
      have hcomm₀ : s₀.jCommittingTransaction = s.jCommittingTransaction := by
        rw [← hs₀]
        split <;> rfl
      rcases hb with h | ⟨h, hl⟩
      · rw [if_pos (by simp [h])]
        obtain ⟨s₁, h₁, hs₁, hjh₁, hother₁, hrun₁, hcomm₁⟩ :=
          tempUnlink_ok hagree₀ (by rw [hjh₀]; exact h)
        refine ⟨s₁, h₁, hs₁, by rw [hjh₁, hjh₀], fun b' hb' => by rw [hother₁ b' hb', hjh₀],
          hrun₁.trans hrun₀, hcomm₁.trans hcomm₀⟩
      · rw [if_neg (by simp [h])]
        refine ⟨s₀, rfl, hagree₀, ?_, fun _ _ => by rw [hjh₀], hrun₀, hcomm₀⟩
        rw [hjh₀, ← hl]
    rw [hunlink, Except.bind, if_neg hk]
    -- then on the new one
    have hfree : ((s₁.updateJh b fun j => { j with bTransaction := some t }).jh b).bJlist =
        .none := by
      simp [hjh₁]
    have hs₂ := @JhState.ListsAgree.updateJh s₁ b hs₁ (fun j => { j with bTransaction := some t })
      fun t' k' hk' => iff_of_false (JournalHead.not_filedOn_of_none (by simp [hjh₁]) hk')
        (JournalHead.not_filedOn_of_none (by simp [hjh₁]) hk')
    have hwf : (((s₁.updateJh b fun j => { j with bTransaction := some t }).updateNrBuffers t
        fun n => if k = .metadata then n + 1 else n).updateList t k (blistAddBuffer · b)
        |>.updateJh b fun j => { j with bJlist := k }).ListsWf := by
      refine ⟨hs₂.attach hk hfree (by simp), fun b' => ?_⟩
      by_cases hb' : b' = b
      · subst hb'
        simp [hk]
      · simp only [updateJh_jh, updateList_jh, updateNrBuffers_jh, hb', if_false, hother₁ b' hb']
        exact howned b' hb'
    -- `was_dirty` sets `jbddirty` again at the end
    refine ⟨_, rfl, ?_, ?_, fun b' hb' => ?_, ?_, ?_⟩
    · split
      · exact hwf.updateBh
      · exact hwf
    · split <;> simp [hjh₁]
    · split <;> simp [hb', hother₁ b' hb']
    · split <;> simp [hrun₁]
    · split <;> simp [hcomm₁]

/-- Whenever `__jbdbf_journal_file_buffer` returns, it keeps the list invariant. -/
theorem JhState.ListsWf.fileBuffer (hs : s.ListsWf) (hk : k ≠ .none)
    (h : jbdbfJournalFileBuffer s b t k = .ok s') : s'.ListsWf := by
  by_cases hown : (s.jh b).bTransaction = some t ∨ (s.jh b).bTransaction = none
  · obtain ⟨s'', h'', hwf, -⟩ := fileBuffer_ok hs.agree hk (fun b' _ => hs.owned b')
      (hown.imp_right fun h => ⟨h, (hs.owned b).mp h⟩)
    rw [h''] at h
    cases h
    exact hwf
  · -- the owner assertion fails
    unfold jbdbfJournalFileBuffer at h
    rw [if_pos hown] at h
    cases h

/-! ### A buffer off its list -/

theorem JhState.ListsWf.detached (hs : s.ListsWf) (hl : (s.jh b).bJlist = .none) :
    s.Detached b :=
  ⟨hs.agree, hl, fun b' _ => hs.owned b'⟩

/-- `__jbdbf_journal_temp_unlink_buffer` detaches the buffer whenever it returns. -/
theorem JhState.ListsWf.detached_tempUnlink (hs : s.ListsWf)
    (h : jbdbfJournalTempUnlinkBuffer s b = .ok s₁) : s₁.Detached b := by
  cases ht : (s.jh b).bTransaction with
  | some t =>
    obtain ⟨s₂, h₂, hs₂, hjh₂, hother₂, -⟩ := tempUnlink_ok hs.agree ht
    rw [h₂] at h
    cases h
    refine ⟨hs₂, by rw [hjh₂], fun b' hb' => ?_⟩
    rw [hother₂ b' hb']
    exact hs.owned b'
  | none =>
    -- on no list already: nothing to take off
    have hl := (hs.owned b).mp ht
    unfold jbdbfJournalTempUnlinkBuffer at h
    rw [if_pos hl] at h
    cases h
    exact hs.detached hl

theorem JhState.Detached.updateJh (hd : s.Detached b) {f : JournalHead → JournalHead}
    (hjl : (f (s.jh b)).bJlist = .none) : (s.updateJh b f).Detached b := by
  have hunl : ∀ t k, k ≠ .none → ((f (s.jh b)).FiledOn t k ↔ (s.jh b).FiledOn t k) :=
    fun _ _ hk => iff_of_false (JournalHead.not_filedOn_of_none hjl hk)
      (JournalHead.not_filedOn_of_none hd.unlisted hk)
  refine ⟨hd.agree.updateJh hunl, by simp [hjl], fun b' hb' => ?_⟩
  rw [updateJh_jh, if_neg hb']
  exact hd.owned b' hb'

/-- Filing a detached buffer restores the invariant whenever the assertion holds, and only
its transaction and list change. -/
theorem JhState.Detached.fileBuffer_spec (hd : s.Detached b) (hk : k ≠ .none)
    (h : jbdbfJournalFileBuffer s b t k = .ok s') :
    s'.ListsWf ∧ s'.jh b = { s.jh b with bTransaction := some t, bJlist := k } := by
  by_cases hown : (s.jh b).bTransaction = some t ∨ (s.jh b).bTransaction = none
  · obtain ⟨s'', h'', hwf, hjh, -⟩ := fileBuffer_ok hd.agree hk hd.owned
      (hown.imp_right fun h => ⟨h, hd.unlisted⟩)
    rw [h''] at h
    cases h
    exact ⟨hwf, hjh⟩
  · unfold jbdbfJournalFileBuffer at h
    rw [if_pos hown] at h
    cases h

theorem JhState.Detached.fileBuffer (hd : s.Detached b) (hk : k ≠ .none)
    (h : jbdbfJournalFileBuffer s b t k = .ok s') : s'.ListsWf :=
  (hd.fileBuffer_spec hk h).1

/-- ... and so does taking it out of its transaction. -/
theorem JhState.Detached.release (hd : s.Detached b) {f : JournalHead → JournalHead}
    (htr : (f (s.jh b)).bTransaction = none) (hjl : (f (s.jh b)).bJlist = .none) :
    (s.updateJh b f).ListsWf := by
  have hd' := hd.updateJh hjl
  refine ⟨hd'.agree, fun b' => ?_⟩
  by_cases hb' : b' = b
  · subst hb'
    simp [htr, hjl]
  · exact hd'.owned b' hb'

/-! ### The calls -/

theorem JhState.ListsWf.unfile (hs : s.ListsWf) (h : jbdbfJournalUnfileBuffer s b = .ok s') :
    s'.ListsWf := by
  unfold jbdbfJournalUnfileBuffer at h
  cases hu : jbdbfJournalTempUnlinkBuffer s b with
  | error e =>
    rw [hu] at h
    cases h
  | ok s₁ =>
    rw [hu] at h
    cases h
    have hd := hs.detached_tempUnlink hu
    have hput := JournalHead.put_unfiled (j := { s₁.jh b with bTransaction := none }) rfl
      hd.unlisted
    exact hd.release hput.1 hput.2

/-- `__jbdbf_journal_refile_buffer` keeps the list invariant whenever it returns. -/
theorem JhState.ListsWf.refile (hs : s.ListsWf) (h : jbdbfJournalRefileBuffer s b = .ok s') :
    s'.ListsWf := by
  unfold jbdbfJournalRefileBuffer at h
  cases hn : (s.jh b).bNextTransaction with
  | none =>
    simp only [hn] at h
    exact hs.unfile h
  | some n =>
    -- off its list, then onto one of the next transaction
    simp only [hn] at h
    obtain ⟨s₁, h₁, h₂⟩ := bind_eq_ok h
    have hd₁ : s₁.Detached b := hs.updateBh.detached_tempUnlink h₁
    have hd₂ : (s₁.updateJh b fun j =>
        { j with bTransaction := some n, bNextTransaction := none }).Detached b :=
      hd₁.updateJh hd₁.unlisted
    obtain ⟨s₃, h₃, h₄⟩ := bind_eq_ok h₂
    have hs₃ : s₃.ListsWf := hd₂.fileBuffer (by split_ifs <;> decide) h₃
    split_ifs at h₄ <;> cases h₄
    · exact hs₃.updateBh
    · exact hs₃

theorem JhState.ListsWf.getWriteAccessDirty (hs : s.ListsWf)
    (h : doGetWriteAccessDirty s b t = .ok s') : s'.ListsWf := by
  unfold doGetWriteAccessDirty at h
  dsimp only at h
  split_ifs at h
  · cases h
    exact hs.updateBh
  · cases h
    exact hs

/-- `do_get_write_access` keeps the list invariant whenever it returns. -/
theorem JhState.ListsWf.getWriteAccess (hs : s.ListsWf)
    (h : doGetWriteAccess s b t = some (.ok s')) : s'.ListsWf := by
  unfold doGetWriteAccess at h
  cases hd : doGetWriteAccessDirty s b t with
  | error e =>
    rw [hd] at h
    cases h
  | ok s₀ =>
    rw [hd] at h
    dsimp only at h
    have hs₀ := hs.getWriteAccessDirty hd
    by_cases hours : (s₀.jh b).bTransaction = some t ∨ (s₀.jh b).bNextTransaction = some t
    · rw [if_pos hours] at h
      cases h
      exact hs₀
    rw [if_neg hours] at h
    -- the first touch clears `b_modified`, which the lists do not read
    have hs₁ : (s₀.updateJh b fun j => { j with bModified := false }).ListsWf :=
      hs₀.updateJh rfl rfl
    by_cases hfrozen : (s₀.jh b).bFrozenData = true
    · rw [if_pos hfrozen] at h
      split_ifs at h <;> cases h
      refine hs₁.updateJh ?_ ?_ <;> rfl
    · rw [if_neg hfrozen] at h
      cases ht : (s₀.jh b).bTransaction with
      | some owner =>
        -- owned by the committing transaction: only `b_next_transaction` and the copy change
        simp only [ht] at h
        split_ifs at h <;> cases h
        refine hs₁.updateJh ?_ ?_ <;> rfl
      | none =>
        -- no transaction yet: filed as `BJ_Reserved`
        simp only [ht] at h
        split_ifs at h
        · cases h
        · exact hs₁.fileBuffer (by decide) (Option.some.inj h)

theorem JhState.ListsWf.dirtyMetadata (hs : s.ListsWf)
    (h : jbdbfJournalDirtyMetadata s b t = .ok s') : s'.ListsWf := by
  unfold jbdbfJournalDirtyMetadata at h
  dsimp only at h
  have hs₁ : (s.updateJh b fun j => { j with bModified := true }).ListsWf := hs.updateJh rfl rfl
  -- `split_ifs` takes the calls that fail their assertion away
  split_ifs at h
  · cases h
    exact hs₁
  · cases h
    exact hs₁.updateBh
  · exact hs₁.updateBh.fileBuffer (by decide) h
  · cases h
    exact hs

theorem JhState.ListsWf.dirtyData (hs : s.ListsWf) (h : jbdbfJournalDirtyData s b t = .ok s') :
    s'.ListsWf := by
  unfold jbdbfJournalDirtyData at h
  split_ifs at h
  · exact (hs.updateJh rfl rfl).updateBh.fileBuffer (by decide) h
  · cases h
    exact hs

theorem JhState.ListsWf.forget (hs : s.ListsWf) (h : jbdbfJournalForget s b t = .ok s') :
    s'.ListsWf := by
  unfold jbdbfJournalForget at h
  simp only at h
  have hs₁ : (s.updateJh b fun j => { j with bModified := false }).ListsWf := hs.updateJh rfl rfl
  split at h
  · -- no journal head: nothing to forget
    cases h
    exact hs
  · split at h
    · -- a buffer of this transaction
      split at h
      · cases h
      · split at h
        · -- an older transaction still has to checkpoint it: off its list, onto `BJ_Forget`
          obtain ⟨s₃, h₃, h₄⟩ := bind_eq_ok h
          exact (hs₁.updateBh.detached_tempUnlink h₃).fileBuffer (by decide) h₄
        · exact hs₁.updateBh.unfile h
    · -- a buffer of the committing transaction: at most `b_next_transaction` changes
      split at h
      · cases h
        exact hs₁
      · split at h
        · cases h
        · split at h
          · cases h
            exact hs₁
          · split at h
            · cases h
            · cases h
              refine hs₁.updateJh ?_ ?_ <;> rfl

theorem JhState.ListsWf.dispose (hs : s.ListsWf) (h : disposeBuffer s b t = .ok s') :
    s'.ListsWf := by
  unfold disposeBuffer at h
  split_ifs at h
  · obtain ⟨s₁, h₁, h₂⟩ := bind_eq_ok h
    exact (hs.detached_tempUnlink h₁).updateBh.fileBuffer (by decide) h₂
  · exact hs.unfile h

theorem JhState.ListsWf.zap (hs : s.ListsWf) (h : zapBuffer s b = .ok s') : s'.ListsWf := by
  unfold zapBuffer at h
  split at h
  · cases h
  · cases h
    exact hs.updateBh

theorem JhState.ListsWf.unmapBuffer (hs : s.ListsWf) (h : journalUnmapBuffer s b = .ok s') :
    s'.ListsWf := by
  unfold journalUnmapBuffer at h
  simp only at h
  split at h
  · exact hs.zap h
  · split at h
    · -- no transaction: zapped, or handed to `BJ_Forget` of the newest transaction
      split at h
      · exact hs.zap h
      · split at h
        · exact hs.dispose h
        · exact hs.dispose h
        · exact hs.updateBh.zap h
    · split at h
      · -- the committing transaction's: only the freed bit and the next transaction change
        split at h
        · split at h <;> cases h
          · refine hs.updateBh.updateJh ?_ ?_ <;> rfl
          · exact hs.updateBh
        · cases h
          exact hs.updateBh
      · split at h
        · cases h
        · obtain ⟨s₁, h₁, h₂⟩ := bind_eq_ok h
          exact (hs.dispose h₁).zap h₂

theorem JhState.ListsWf.writeMetadata {escape : Bool} (hs : s.ListsWf)
    (h : jbdbfJournalWriteMetadataBuffer s b c escape = .ok s') : s'.ListsWf := by
  unfold jbdbfJournalWriteMetadataBuffer at h
  simp only at h
  split at h
  · cases h
  · split at h
    · exact (hs.updateJh rfl rfl).fileBuffer (by decide) h
    · exact hs.fileBuffer (by decide) h

theorem JhState.ListsWf.unshadow (hs : s.ListsWf) (h : commitUnshadowBuffer s b c = .ok s') :
    s'.ListsWf := by
  unfold commitUnshadowBuffer at h
  split at h
  · cases h
  · exact hs.fileBuffer (by decide) h

theorem JhState.ListsWf.commitForget (hs : s.ListsWf) (h : commitForgetBuffer s b c = .ok s') :
    s'.ListsWf := by
  unfold commitForgetBuffer at h
  simp only at h
  split at h
  · cases h
  · obtain ⟨s₃, h₃, h₄⟩ := bind_eq_ok h
    refine JhState.ListsWf.refile ?_ h₄
    -- the frozen copy, the checkpoint transaction and the state bits are not part of the lists
    repeat' split at h₃
    all_goals cases h₃
    all_goals exact hs.of_filed (fun b' => by by_cases hb : b' = b <;> simp [hb]) rfl rfl

theorem JhState.ListsWf.lock (hs : s.ListsWf) (h : commitLock s t = .ok s') :
    s'.ListsWf := by
  unfold commitLock at h
  cases hf : (s.lists t .reserved).foldlM jbdbfJournalRefileBuffer s with
  | error e =>
    rw [hf] at h
    cases h
  | ok s₁ =>
    rw [hf] at h
    cases h
    -- the reserved buffers are refiled one by one
    have hs₁ := foldlM_inv (fun _ _ _ hs h => JhState.ListsWf.refile hs h) _ s s₁ hs hf
    exact hs₁.of_filed (fun _ => ⟨rfl, rfl⟩) rfl rfl

theorem JhState.ListsWf.handleDirtyMetadata (hs : s.ListsWf)
    (h : ext4bfHandleDirtyMetadata s b t = .ok s') : s'.ListsWf := by
  unfold ext4bfHandleDirtyMetadata at h
  split_ifs at h
  · exact hs.dirtyData h
  · exact hs.dirtyMetadata h

theorem JhState.ListsWf.journalGetWriteAccess (hs : s.ListsWf)
    (h : doJournalGetWriteAccess s b t = some (.ok s')) : s'.ListsWf := by
  unfold doJournalGetWriteAccess at h
  split_ifs at h with hmap
  · dsimp only at h
    -- the dirty bit is saved and cleared first, and the lists do not read it
    have hs₁ : (if (s.bh b).dirty then s.updateBh b fun h => { h with dirty := false }
        else s).ListsWf := by
      split_ifs
      · exact hs.updateBh
      · exact hs
    obtain ⟨r, hr, hbind⟩ := Option.map_eq_some_iff.mp h
    cases r with
    | error e => cases hbind
    | ok s₂ =>
      have hs₂ := hs₁.getWriteAccess hr
      change (if (s.bh b).dirty then ext4bfHandleDirtyMetadata s₂ b t else .ok s₂) = .ok s'
        at hbind
      split_ifs at hbind
      · exact hs₂.handleDirtyMetadata hbind
      · cases hbind
        exact hs₂
  · cases h
    exact hs

theorem JhState.ListsWf.writeEnd (hs : s.ListsWf) (h : writeEndFn s b t = .ok s') :
    s'.ListsWf := by
  unfold writeEndFn at h
  split_ifs at h
  · cases h
    exact hs
  · exact hs.handleDirtyMetadata h

theorem jhStep_eq_some {op : JhOp} (h : jhStep s op = some s') : jhCall s op = some (.ok s') := by
  unfold jhStep at h
  split at h
  · rename_i s'' hcall
    cases h
    exact hcall
  · cases h

/-- Every call that returns keeps the list invariant. -/
theorem JhState.ListsWf.step (hs : s.ListsWf) {op : JhOp} (h : jhStep s op = some s') :
    s'.ListsWf := by
  have hcall := jhStep_eq_some h
  cases op with
  | startHandle =>
    simp only [jhCall] at hcall
    split at hcall <;> cases hcall
    exact hs.of_filed (fun _ => ⟨rfl, rfl⟩) rfl rfl
  | writeBegin b allocates pageUptodate =>
    obtain ⟨t, -, ht⟩ := Option.bind_eq_some_iff.mp hcall
    split_ifs at ht
    obtain ⟨r, hr, hmap⟩ := Option.map_eq_some_iff.mp ht
    cases r with
    | error e => cases hmap
    | ok s₁ =>
      cases hmap
      exact (hs.updateBh.journalGetWriteAccess hr).of_filed (fun _ => ⟨rfl, rfl⟩) rfl rfl
  | writeEnd b =>
    obtain ⟨t, -, ht⟩ := Option.bind_eq_some_iff.mp hcall
    split_ifs at ht
    cases hw : writeEndFn s b t with
    | error e =>
      rw [hw] at ht
      cases ht
    | ok s₁ =>
      rw [hw] at ht
      cases ht
      exact (hs.writeEnd hw).of_filed (fun _ => ⟨rfl, rfl⟩) rfl rfl
  | forget b =>
    obtain ⟨t, -, ht⟩ := Option.map_eq_some_iff.mp hcall
    exact hs.forget ht
  | unmapBuffer b =>
    simp only [jhCall] at hcall
    split_ifs at hcall
    exact hs.unmapBuffer (Option.some.inj hcall)
  | writeback b =>
    simp only [jhCall] at hcall
    split_ifs at hcall
    cases hcall
    exact hs.updateBh
  | cleanCheckpoint b =>
    simp only [jhCall] at hcall
    split_ifs at hcall with hclean
    cases hcall
    -- a buffer on no list has no transaction, and a released journal head neither
    have htr : (s.jh b).bTransaction = none := (hs.owned b).mpr hclean.2.1
    have hput := JournalHead.put_unfiled (j := { s.jh b with bCpTransaction := none }) htr
      hclean.2.1
    refine hs.updateJh ?_ ?_
    · rw [hput.1, htr]
    · rw [hput.2, hclean.2.1]
  | commitLock =>
    simp only [jhCall] at hcall
    split at hcall
    · split_ifs at hcall
      exact hs.lock (Option.some.inj hcall)
    · cases hcall
  | commitWriteData b =>
    obtain ⟨c, -, hc⟩ := Option.bind_eq_some_iff.mp hcall
    split_ifs at hc
    cases hc
    exact hs.updateBh
  | commitRefileData b =>
    obtain ⟨c, -, hc⟩ := Option.bind_eq_some_iff.mp hcall
    split_ifs at hc
    exact hs.refile (Option.some.inj hc)
  | commitWriteMetadata b escape =>
    obtain ⟨c, -, hc⟩ := Option.bind_eq_some_iff.mp hcall
    split_ifs at hc
    exact hs.writeMetadata (Option.some.inj hc)
  | commitUnshadow b =>
    obtain ⟨c, -, hc⟩ := Option.bind_eq_some_iff.mp hcall
    split_ifs at hc
    exact hs.unshadow (Option.some.inj hc)
  | commitForget b =>
    obtain ⟨c, -, hc⟩ := Option.bind_eq_some_iff.mp hcall
    split_ifs at hc
    exact hs.commitForget (Option.some.inj hc)
  | commitFinish =>
    obtain ⟨c, -, hc⟩ := Option.bind_eq_some_iff.mp hcall
    split_ifs at hc
    cases hc
    exact hs.of_filed (fun _ => ⟨rfl, rfl⟩) rfl rfl

/-- The list invariant holds in every state the calls reach. -/
theorem JhState.listsWf_of_reachable {seq : Nat}
    (h : Reachable (· = JhState.init seq) jhStep s) : s.ListsWf :=
  Reachable.induct_inv (fun _ h => h ▸ JhState.init_listsWf seq)
    (fun _ _ _ hs hstep => hs.step hstep) h

end Invariant

/-! ## A buffer of the committing transaction -/

section Committing

variable {s s' : JhState} {b t c n : Nat}

/-- `__jbdbf_journal_temp_unlink_buffer` changes the buffer's journal head only in its list. -/
theorem JhState.ListsWf.tempUnlink_jh (hs : s.ListsWf)
    (h : jbdbfJournalTempUnlinkBuffer s b = .ok s') :
    s'.jh b = { s.jh b with bJlist := .none } := by
  cases ht : (s.jh b).bTransaction with
  | some t =>
    obtain ⟨s₁, h₁, -, hjh₁, -⟩ := tempUnlink_ok hs.agree ht
    rw [h₁] at h
    cases h
    exact hjh₁
  | none =>
    have hl := (hs.owned b).mp ht
    unfold jbdbfJournalTempUnlinkBuffer at h
    rw [if_pos hl] at h
    cases h
    rw [← hl]

/-- The refile of a buffer that a later transaction has touched hands it over with its frozen
copy: only the phase-7 loop over `t_forget` frees `b_frozen_data`, and the data buffers of
`t_dirty_data_list` never reach it. Unless that transaction has dirtied it, the buffer is not
filed on `t_buffers`. -/
theorem jbdbfJournalRefileBuffer_frozen (hs : s.ListsWf) (hn : (s.jh b).bNextTransaction = some n)
    (h : jbdbfJournalRefileBuffer s b = .ok s') :
    (s'.jh b).bTransaction = some n ∧ (s'.jh b).bFrozenData = (s.jh b).bFrozenData ∧
      ((s.jh b).bModified = false → (s'.jh b).bJlist ≠ .metadata) := by
  unfold jbdbfJournalRefileBuffer at h
  simp only [hn] at h
  obtain ⟨s₁, h₁, h₂⟩ := bind_eq_ok h
  have hd₁ : s₁.Detached b := hs.updateBh.detached_tempUnlink h₁
  have hjh₁ : s₁.jh b = { s.jh b with bJlist := .none } := hs.updateBh.tempUnlink_jh h₁
  have hd₂ : (s₁.updateJh b fun j =>
      { j with bTransaction := some n, bNextTransaction := none }).Detached b :=
    hd₁.updateJh hd₁.unlisted
  obtain ⟨s₃, h₃, h₄⟩ := bind_eq_ok h₂
  -- filed on a list of the next transaction: the journal head keeps its other fields, and the
  -- list is `BJ_Forget` or `BJ_Reserved` when `b_modified` is clear
  have hjh₃ : (s₃.jh b).bTransaction = some n ∧
      (s₃.jh b).bFrozenData = (s.jh b).bFrozenData ∧
      ((s.jh b).bModified = false → (s₃.jh b).bJlist ≠ .metadata) := by
    rw [(hd₂.fileBuffer_spec (by split_ifs <;> decide) h₃).2]
    refine ⟨rfl, by simp [hjh₁], fun hmod => ?_⟩
    simp only [updateJh_jh, if_true, hjh₁, hmod, Bool.false_eq_true, if_false]
    split_ifs <;> decide
  split_ifs at h₄ <;> cases h₄
  · simpa using hjh₃
  · exact hjh₃

/-- `jbdbf_journal_dirty_metadata` on a buffer of its own transaction that is not on
`t_buffers` and still has a frozen copy fails `J_ASSERT_JH(jh, jh->b_frozen_data == NULL)`. -/
theorem jbdbfJournalDirtyMetadata_frozen (hown : (s.jh b).bTransaction = some t)
    (hjl : (s.jh b).bJlist ≠ .metadata) (hfz : (s.jh b).bFrozenData = true) :
    jbdbfJournalDirtyMetadata s b t = .error .dirtyMetadataFrozenData := by
  have hjbd : (s.jh b).jbd = true := by simp [JournalHead.jbd, hown]
  unfold jbdbfJournalDirtyMetadata
  simp only [hjbd, hown, hjl, hfz, not_true_eq_false, if_false, and_false, ne_eq,
    if_true]

/-- `jbdbf_journal_dirty_data` on a buffer that another transaction still owns fails the owner
assertion of `__jbdbf_journal_file_buffer`. -/
theorem jbdbfJournalDirtyData_committing (hown : (s.jh b).bTransaction = some c) (hne : c ≠ t) :
    jbdbfJournalDirtyData s b t = .error .fileBufferTransaction := by
  have hjbd : (s.jh b).jbd = true := by simp [JournalHead.jbd, hown]
  unfold jbdbfJournalDirtyData jbdbfJournalFileBuffer
  simp [hjbd, hown, hne]

/-- `jbdbf_journal_dirty_metadata` on the same buffer returns without filing it. -/
theorem jbdbfJournalDirtyMetadata_committing (hown : (s.jh b).bTransaction = some c)
    (hne : c ≠ t) :
    jbdbfJournalDirtyMetadata s b t =
      .ok ((s.updateJh b fun j => { j with bModified := true }).updateBh b
        fun h => { h with jbddirty := true }) := by
  have hjbd : (s.jh b).jbd = true := by simp [JournalHead.jbd, hown]
  unfold jbdbfJournalDirtyMetadata
  simp [hjbd, hown, hne]

/-- The phase-5 refile of a buffer that the running transaction has asked write access to and
not dirtied yet, while it still has the frozen copy made for the committing one: that
transaction's `jbdbf_journal_dirty_metadata` then fails
`J_ASSERT_JH(jh, jh->b_frozen_data == NULL)`. -/
theorem dirtyMetadata_frozen_after_refile (hs : s.ListsWf)
    (hn : (s.jh b).bNextTransaction = some n) (hmod : (s.jh b).bModified = false)
    (hfz : (s.jh b).bFrozenData = true) (h : jbdbfJournalRefileBuffer s b = .ok s') :
    jbdbfJournalDirtyMetadata s' b n = .error .dirtyMetadataFrozenData := by
  obtain ⟨hown, hfz', hjl⟩ := jbdbfJournalRefileBuffer_frozen hs hn h
  exact jbdbfJournalDirtyMetadata_frozen hown (hjl hmod) (hfz'.trans hfz)

end Committing

/-- Transaction 1 appends a data block (buffer 7, a new block on a page that is not up to date),
which its `write_end` exposes to the VM, and starts to commit; phase 3 writes the block in
place, so that it is clean again, and a handle of transaction 2 begins to rewrite it. -/
def dataRewriteBegun : List JhOp :=
  [.startHandle, .writeBegin 7 true false, .writeEnd 7, .commitLock, .commitWriteData 7,
    .startHandle, .writeBegin 7 false false]

/-- `dataRewriteBegun`, then phase 5 refiles the buffer from `t_dirty_data_list` before the
handle's `write_end`. -/
def committingDataRewrite : List JhOp := dataRewriteBegun ++ [.commitRefileData 7]

/-- After `committingDataRewrite`, buffer 7 is transaction 2's, with the frozen copy
`do_get_write_access` made while transaction 1 owned it, and the handle's `write_end` fails the
frozen-data assertion of `jbdbf_journal_dirty_metadata`. -/
theorem dirty_metadata_fails_after_data_refile :
    ∃ s, Reachable (· = JhState.init 1) jhStep s ∧ s.jRunningTransaction = some 2 ∧
      s.jCommittingTransaction = some 1 ∧ 7 ∈ s.openWrites ∧
      (s.jh 7).bTransaction = some 2 ∧ (s.jh 7).bFrozenData = true ∧
      jhCall s (.writeEnd 7) = some (.error .dirtyMetadataFrozenData) := by
  -- the state before the refile, reachable and so with its lists in order
  have hsome₀ : (run jhStep (JhState.init 1) dataRewriteBegun).isSome = true := rfl
  generalize hs₀ : (run jhStep (JhState.init 1) dataRewriteBegun).get hsome₀ = s₀
  have hreach₀ : Reachable (· = JhState.init 1) jhStep s₀ :=
    hs₀ ▸ Reachable.run (Reachable.init rfl) (Option.some_get hsome₀).symm
  have hwf₀ := JhState.listsWf_of_reachable hreach₀
  -- transaction 2 has write access and has not dirtied the buffer; the copy is still there
  have hn : (s₀.jh 7).bNextTransaction = some 2 := by rw [← hs₀]; rfl
  have hmod : (s₀.jh 7).bModified = false := by rw [← hs₀]; rfl
  have hfz : (s₀.jh 7).bFrozenData = true := by rw [← hs₀]; rfl
  -- the refile, the last step of the trace
  have hsome : (run jhStep (JhState.init 1) committingDataRewrite).isSome = true := rfl
  generalize hs : (run jhStep (JhState.init 1) committingDataRewrite).get hsome = s
  have hrefile : jbdbfJournalRefileBuffer s₀ 7 = .ok s := by rw [← hs, ← hs₀]; rfl
  have hreach : Reachable (· = JhState.init 1) jhStep s :=
    hs ▸ Reachable.run (Reachable.init rfl) (Option.some_get hsome).symm
  obtain ⟨hown, hfz', -⟩ := jbdbfJournalRefileBuffer_frozen hwf₀ hn hrefile
  -- the block is not new this time: `write_end_fn` calls `jbdbf_journal_dirty_metadata`
  have hend : jhCall s (.writeEnd 7) = some ((jbdbfJournalDirtyMetadata s 7 2).map
      fun s₁ => { s₁ with openWrites := s₁.openWrites.erase 7 }) := by
    rw [← hs]
    rfl
  have hopen : s.openWrites = [7] := by rw [← hs]; rfl
  refine ⟨s, hreach, by rw [← hs]; rfl, by rw [← hs]; rfl,
    by rw [hopen]; exact List.mem_singleton_self 7, hown, hfz'.trans hfz, ?_⟩
  rw [hend, dirtyMetadata_frozen_after_refile hwf₀ hn hmod hfz hrefile]
  rfl

/-- Transaction 1 journals a rewrite of buffer 7 and commits it, so that the buffer waits on
its checkpoint list; transaction 2 rewrites it and truncates the file at its start, which puts
it on transaction 2's `BJ_Forget` and unmaps it; transaction 2 starts to commit, and a write of
transaction 3 allocates a new block under the buffer. -/
def truncatedBlockRewrite : List JhOp :=
  [.startHandle, .writeBegin 7 false false, .writeEnd 7, .commitLock,
    .commitWriteMetadata 7 false, .commitUnshadow 7, .commitForget 7, .commitFinish,
    .startHandle, .writeBegin 7 false false, .writeEnd 7, .unmapBuffer 7, .commitLock,
    .startHandle, .writeBegin 7 true false]

/-- After `truncatedBlockRewrite` the new block goes to `jbdbf_journal_dirty_data`, which
files a buffer of the committing transaction 2 for transaction 3. -/
theorem dirty_data_fails_after_truncate :
    ∃ s, Reachable (· = JhState.init 1) jhStep s ∧ s.jRunningTransaction = some 3 ∧
      s.jCommittingTransaction = some 2 ∧ (s.jh 7).bTransaction = some 2 ∧
      (s.bh 7).new = true ∧ jhCall s (.writeEnd 7) = some (.error .fileBufferTransaction) := by
  have hsome : (run jhStep (JhState.init 1) truncatedBlockRewrite).isSome = true := rfl
  generalize hs : (run jhStep (JhState.init 1) truncatedBlockRewrite).get hsome = s
  have hreach : Reachable (· = JhState.init 1) jhStep s :=
    hs ▸ Reachable.run (Reachable.init rfl) (Option.some_get hsome).symm
  have hown : (s.jh 7).bTransaction = some 2 := by rw [← hs]; rfl
  -- the block is new: `write_end_fn` calls `jbdbf_journal_dirty_data`
  have hend : jhCall s (.writeEnd 7) = some ((jbdbfJournalDirtyData s 7 3).map
      fun s₁ => { s₁ with openWrites := s₁.openWrites.erase 7 }) := by
    rw [← hs]
    rfl
  refine ⟨s, hreach, by rw [← hs]; rfl, by rw [← hs]; rfl, hown, by rw [← hs]; rfl, ?_⟩
  rw [hend, jbdbfJournalDirtyData_committing hown (by decide)]
  rfl

end OptFs.Jbd.BufferLists
