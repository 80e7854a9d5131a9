import OptFs.Lib.CircularList

/-!
# The commit's walks over `t_dirty_data_list` (`commit.c`)

With `DCHECKSUM`, phase 2 of `jbdbf_journal_commit_transaction` walks the circular
`t_dirty_data_list` once from its head. A data buffer (`b_blocktype == B_BLOCKTYPE_DATA`)
goes into the batch `j_data_bhs`, which `__flush_data_batch` writes out whenever it holds
`EXT4BF_DATA_BATCH` buffers and once more at the end, and it stays on the list; any other
buffer is refiled, and `__jbdbf_journal_temp_unlink_buffer` takes it off the list with
`__blist_del_buffer`. The walk stops at the buffer whose `b_tnext` is the head as the list then
has it; the head moves on each time the buffer refiled is the head. Phase 5's `wait_for_data`
loop then refiles the last buffer (`t_dirty_data_list->b_tprev`) until the list is empty.

The list is the links of `Lib.CircularList` over any type of journal heads. The walk's state
(`WalkState`) keeps what the walks change: the list, the batch, the batches written out and
the buffers refiled. `jbdbf_journal_refile_buffer` is modelled by its effect on this list: its
next owner, if it has one, is a later transaction. In `wait_for_data` a locked
buffer (`wait_on_buffer`) or a reschedule sends the loop back to its label with nothing
changed; an iteration here is one that gets through to the refile.

The results: from any list the links represent, the walk ends after one iteration per
buffer, every data buffer has been written out exactly once, in batches of
`EXT4BF_DATA_BATCH` but the last, every other buffer has been refiled exactly once, and the
list holds the data buffers in their order (`commit_data_walks`); `wait_for_data` then
refiles those from the last to the first and leaves the list empty.
-/

namespace OptFs.Jbd.DataWalk

open Lib.CircularList

/-- `B_BLOCKTYPE_DATA`. -/
def bBlocktypeData : Nat := 1

/-- `EXT4BF_DATA_BATCH` as `commit.c` sees it: `jbdbf.h` defines it as 1024 and `ext4bf.h`,
included after it, redefines it as 64. -/
def ext4bfDataBatch : Nat := 64

theorem ext4bfDataBatch_pos : 0 < ext4bfDataBatch := by decide

variable {α : Type}

/-- `bh->b_blocktype == B_BLOCKTYPE_DATA`. -/
def isData (blocktype : α → Nat) (jh : α) : Bool := blocktype jh == bBlocktypeData

/-- The list with its links, the batch `j_data_bhs[0 .. data_batch_count)`, the batches
`__flush_data_batch` has written out, and the buffers refiled, in order. -/
structure WalkState (α : Type) where
  list : Links α
  batch : List α
  flushed : List (List α)
  refiled : List α

/-- `__flush_data_batch`: the batch is written out and emptied. -/
def WalkState.flushDataBatch (s : WalkState α) : WalkState α :=
  { s with batch := [], flushed := s.flushed ++ [s.batch] }

/-- `if (data_batch_count) __flush_data_batch(&data_batch_count);` -/
def WalkState.flushRemaining (s : WalkState α) : WalkState α :=
  if s.batch.length ≠ 0 then s.flushDataBatch else s

/-- `j_data_bhs[data_batch_count++] = bh`, and `__flush_data_batch` when the batch is full. -/
def WalkState.addData (s : WalkState α) (jh : α) : WalkState α :=
  let s := { s with batch := s.batch ++ [jh] }
  if s.batch.length = ext4bfDataBatch then s.flushDataBatch else s

@[simp] theorem WalkState.flushRemaining_list (s : WalkState α) :
    s.flushRemaining.list = s.list := by
  unfold WalkState.flushRemaining
  split <;> rfl

@[simp] theorem WalkState.flushRemaining_refiled (s : WalkState α) :
    s.flushRemaining.refiled = s.refiled := by
  unfold WalkState.flushRemaining
  split <;> rfl

@[simp] theorem WalkState.addData_list (s : WalkState α) (jh : α) :
    (s.addData jh).list = s.list := by
  unfold WalkState.addData
  dsimp only
  split <;> rfl

@[simp] theorem WalkState.addData_refiled (s : WalkState α) (jh : α) :
    (s.addData jh).refiled = s.refiled := by
  unfold WalkState.addData
  dsimp only
  split <;> rfl

/-- Adding a buffer appends it to what has been batched, keeps every written batch full and
the current one short of full. -/
theorem WalkState.addData_batches (s : WalkState α) (jh : α)
    (hfull : ∀ b ∈ s.flushed, b.length = ext4bfDataBatch) (hlt : s.batch.length < ext4bfDataBatch) :
    (s.addData jh).flushed.flatten ++ (s.addData jh).batch = s.flushed.flatten ++ s.batch ++ [jh] ∧
      (∀ b ∈ (s.addData jh).flushed, b.length = ext4bfDataBatch) ∧
      (s.addData jh).batch.length < ext4bfDataBatch := by
  unfold WalkState.addData
  dsimp only
  split
  · rename_i hfill
    simp only [WalkState.flushDataBatch, List.flatten_append, List.flatten_singleton,
      List.append_nil, List.append_assoc, List.mem_append, List.mem_singleton, List.length_nil]
    refine ⟨trivial, ?_, ext4bfDataBatch_pos⟩
    rintro b (hb | rfl)
    · exact hfull b hb
    · exact hfill
  · rename_i hfill
    simp only [List.length_append, List.length_singleton] at hfill ⊢
    exact ⟨(List.append_assoc _ _ _).symm, hfull, by omega⟩

/-! ## The walk -/

/-- The walk before the buffer at the front of `rest`: the buffers of `done` have been
visited, the data ones among them are still on the list, in front of `rest`, and have gone
into the written batches, all full, and the current one; the others have been refiled. -/
structure WalkInv (blocktype : α → Nat) (s : WalkState α) (done rest : List α) : Prop where
  represents : s.list.Represents (done.filter (isData blocktype) ++ rest)
  batches : s.flushed.flatten ++ s.batch = done.filter (isData blocktype)
  full : ∀ b ∈ s.flushed, b.length = ext4bfDataBatch
  batch_lt : s.batch.length < ext4bfDataBatch
  refiled : s.refiled = done.filter (fun jh => !isData blocktype jh)

/-- The walk over `l` is done: the list holds its data buffers, which have all been written
out, in nonempty batches of at most `EXT4BF_DATA_BATCH`, all but the last full, and the
other buffers have been refiled. -/
structure WalkDone (blocktype : α → Nat) (s : WalkState α) (l : List α) : Prop where
  represents : s.list.Represents (l.filter (isData blocktype))
  flushed : s.flushed.flatten = l.filter (isData blocktype)
  batch : s.batch = []
  sizes : ∀ b ∈ s.flushed, 0 < b.length ∧ b.length ≤ ext4bfDataBatch
  full : ∀ b ∈ s.flushed.dropLast, b.length = ext4bfDataBatch
  refiled : s.refiled = l.filter (fun jh => !isData blocktype jh)

variable {blocktype : α → Nat} {s : WalkState α} {done rest : List α} {x : α}

/-- A data buffer is batched and stays on the list. -/
theorem WalkInv.addData (h : WalkInv blocktype s done (x :: rest))
    (hx : isData blocktype x = true) : WalkInv blocktype (s.addData x) (done ++ [x]) rest := by
  obtain ⟨hbatches, hfull, hlt⟩ := s.addData_batches x h.full h.batch_lt
  have hfilter : (done ++ [x]).filter (isData blocktype) = done.filter (isData blocktype) ++ [x] := by
    simp [List.filter_append, hx]
  refine ⟨?_, ?_, hfull, hlt, ?_⟩
  · rw [WalkState.addData_list, hfilter, List.append_assoc]
    exact h.represents
  · rw [hbatches, h.batches, hfilter]
  · simp [List.filter_append, hx, h.refiled]

/-- The remaining batch is written out at the end. -/
theorem WalkInv.finish {l : List α} (h : WalkInv blocktype s l []) :
    WalkDone blocktype s.flushRemaining l := by
  have hrep := h.represents
  rw [List.append_nil] at hrep
  unfold WalkState.flushRemaining
  split
  · rename_i hne
    refine ⟨hrep, ?_, rfl, ?_, ?_, h.refiled⟩
    · simpa only [WalkState.flushDataBatch, List.flatten_append, List.flatten_singleton]
        using h.batches
    · simp only [WalkState.flushDataBatch, List.mem_append, List.mem_singleton]
      rintro b (hb | rfl)
      · rw [h.full b hb]
        exact ⟨ext4bfDataBatch_pos, Nat.le_refl _⟩
      · exact ⟨Nat.pos_of_ne_zero hne, Nat.le_of_lt h.batch_lt⟩
    · simp only [WalkState.flushDataBatch, List.dropLast_concat]
      exact h.full
  · rename_i hempty
    have hnil : s.batch = [] := List.eq_nil_of_length_eq_zero (by omega)
    refine ⟨hrep, ?_, hnil, ?_, ?_, h.refiled⟩
    · simpa only [hnil, List.append_nil] using h.batches
    · intro b hb
      rw [h.full b hb]
      exact ⟨ext4bfDataBatch_pos, Nat.le_refl _⟩
    · exact fun b hb => h.full b (List.dropLast_subset _ hb)

variable [DecidableEq α]

/-! ## The list -/

/-- `jbdbf_journal_refile_buffer` on a buffer of the list: `__blist_del_buffer`. -/
def WalkState.refile (s : WalkState α) (jh : α) : WalkState α :=
  { s with list := s.list.del jh, refiled := s.refiled ++ [jh] }

/-- The `DCHECKSUM` loop from the buffer `jh`, for at most `fuel` iterations. -/
def dchecksumWalk (blocktype : α → Nat) : Nat → WalkState α → Option α → Option (WalkState α)
  | 0, _, _ => none
  | _ + 1, s, none => some s
  | fuel + 1, s, some jh =>
    let data := isData blocktype jh
    let s := if data then s.addData jh else s
    -- `if (jh->b_tnext == commit_transaction->t_dirty_data_list)`: the last buffer
    if some (s.list.next jh) = s.list.head then
      let s := s.flushRemaining
      some (if data then s else s.refile jh)
    else
      let jhNext := s.list.next jh
      let s := if data then s else s.refile jh
      dchecksumWalk blocktype fuel s (some jhNext)

/-- The `wait_for_data` loop, for at most `fuel` iterations. -/
def waitForData : Nat → WalkState α → Option (WalkState α)
  | 0, _ => none
  | fuel + 1, s =>
    match s.list.head with
    | none => some s
    | some first => waitForData fuel (s.refile (s.list.prev first))

@[simp] theorem WalkState.refile_batch (s : WalkState α) (jh : α) :
    (s.refile jh).batch = s.batch := rfl

/-- Writing out the batch and refiling touch different parts of the state. -/
theorem WalkState.flushRemaining_refile (s : WalkState α) (jh : α) :
    s.flushRemaining.refile jh = (s.refile jh).flushRemaining := by
  unfold WalkState.flushRemaining
  rw [WalkState.refile_batch]
  split_ifs <;> rfl

/-- Any other buffer is refiled and leaves the list. -/
theorem WalkInv.refile (h : WalkInv blocktype s done (x :: rest))
    (hx : isData blocktype x = false) : WalkInv blocktype (s.refile x) (done ++ [x]) rest := by
  have hrep := h.represents
  have hxD : x ∉ done.filter (isData blocktype) := fun hm =>
    (List.nodup_append.mp hrep.nodup).2.2 x hm x List.mem_cons_self rfl
  have hfilter : (done ++ [x]).filter (isData blocktype) = done.filter (isData blocktype) := by
    simp [List.filter_append, hx]
  refine ⟨?_, ?_, h.full, h.batch_lt, ?_⟩
  · have hdel := hrep.del (x := x) (by simp)
    rw [List.erase_append_right _ hxD, List.erase_cons_head] at hdel
    rw [hfilter]
    exact hdel
  · rw [hfilter]
    exact h.batches
  · simp [WalkState.refile, List.filter_append, hx, h.refiled]

/-- An iteration that is not the last: the buffer is not the last of the list, so the walk
goes on at the next one. -/
theorem dchecksumWalk_step {y : α} {R : List α} (h : WalkInv blocktype s done (x :: y :: R))
    (fuel : Nat) :
    dchecksumWalk blocktype (fuel + 1) s (some x) =
      dchecksumWalk blocktype fuel (if isData blocktype x then s.addData x else s.refile x)
        (some y) := by
  have hrep := h.represents
  have hnext : s.list.next x = y := hrep.next_of_cons_cons
  have hne : some y ≠ s.list.head := hnext ▸ hrep.next_ne_head
  cases hx : isData blocktype x <;>
    simp only [dchecksumWalk, hx, Bool.false_eq_true, if_false, if_true,
      WalkState.addData_list, hnext, hne]

/-- The last iteration: the buffer's `b_tnext` is the head, the remaining batch is written
out and the walk is done. -/
theorem dchecksumWalk_last (h : WalkInv blocktype s done [x]) (fuel : Nat) :
    ∃ s', dchecksumWalk blocktype (fuel + 1) s (some x) = some s' ∧
      WalkDone blocktype s' (done ++ [x]) := by
  have hlast : some (s.list.next x) = s.list.head := h.represents.next_of_last
  cases hx : isData blocktype x with
  | true =>
    refine ⟨(s.addData x).flushRemaining, ?_, (h.addData hx).finish⟩
    simp only [dchecksumWalk, hx, if_true, WalkState.addData_list, hlast]
  | false =>
    refine ⟨s.flushRemaining.refile x, ?_, ?_⟩
    · simp only [dchecksumWalk, hx, Bool.false_eq_true, if_false, if_true, hlast]
    · rw [WalkState.flushRemaining_refile]
      exact (h.refile hx).finish

/-- The walk from the buffer at the front of `rest` ends after one iteration per buffer. -/
theorem dchecksumWalk_run (h : WalkInv blocktype s done (x :: rest)) (fuel : Nat) :
    ∃ s', dchecksumWalk blocktype (rest.length + 1 + fuel) s (some x) = some s' ∧
      WalkDone blocktype s' (done ++ x :: rest) := by
  -- induction on the buffers after the cursor, the invariant moving the visited one to `done`
  induction rest generalizing s done x with
  | nil =>
    rw [List.length_nil, Nat.zero_add, Nat.add_comm]
    exact dchecksumWalk_last h fuel
  | cons y R ih =>
    have hstep : WalkInv blocktype (if isData blocktype x then s.addData x else s.refile x)
        (done ++ [x]) (y :: R) := by
      cases hx : isData blocktype x with
      | true => simpa only [hx, if_true] using h.addData hx
      | false => simpa only [hx, Bool.false_eq_true, if_false] using h.refile hx
    obtain ⟨s', hrun, hdone⟩ := ih hstep
    refine ⟨s', ?_, by simpa only [List.append_assoc, List.singleton_append] using hdone⟩
    rw [List.length_cons, Nat.add_right_comm R.length 1 1, Nat.add_right_comm _ 1 fuel,
      dchecksumWalk_step h]
    exact hrun

/-! ## `wait_for_data` -/

/-- `wait_for_data` refiles the list from its last buffer to its first and ends with the list
empty. -/
theorem waitForData_run {L : List α} (h : s.list.Represents L) :
    ∃ s', waitForData (L.length + 1) s = some s' ∧ s'.list.head = none ∧
      s'.refiled = s.refiled ++ L.reverse := by
  -- induction from the end of the list, the last buffer being the one refiled
  induction L using List.reverseRecOn generalizing s with
  | nil =>
    refine ⟨s, ?_, h.head, by simp⟩
    simp only [waitForData, h.head, List.head?_nil]
  | append_singleton L z ih =>
    have hne : L ++ [z] ≠ [] := by simp
    have hhead : s.list.head = some ((L ++ [z]).head hne) := by
      rw [h.head, List.head?_eq_some_head hne]
    have hprev : s.list.prev ((L ++ [z]).head hne) = z := h.prev_of_head hhead
    have hzL : z ∉ L := fun hm => (List.nodup_append.mp h.nodup).2.2 z hm z (by simp) rfl
    have hdel : (s.refile z).list.Represents L := by
      have := h.del (x := z) (by simp)
      rwa [List.erase_append_right _ hzL, List.erase_cons_head, List.append_nil] at this
    obtain ⟨s', hrun, hempty, hrefiled⟩ := ih hdel
    refine ⟨s', ?_, hempty, ?_⟩
    · rw [List.length_append, List.length_singleton]
      simp only [waitForData, hhead, hprev]
      exact hrun
    · rw [hrefiled, List.reverse_append, List.reverse_singleton]
      simp [WalkState.refile]

/-- The commit's two walks over any `t_dirty_data_list`: the `DCHECKSUM` walk ends after one
iteration per buffer, having written out every data buffer once, in batches of
`EXT4BF_DATA_BATCH` but the last, refiled every other buffer once and left the data
buffers on the list; `wait_for_data` then refiles each of those once and ends with the
list empty. -/
theorem commit_data_walks (blocktype : α → Nat) {c : Links α} {l : List α}
    (hc : c.Represents l) :
    ∃ s, dchecksumWalk blocktype (l.length + 1) ⟨c, [], [], []⟩ c.head = some s ∧
      WalkDone blocktype s l ∧
      ∃ s', waitForData ((l.filter (isData blocktype)).length + 1) s = some s' ∧
        s'.list.head = none ∧ s'.refiled = s.refiled ++ (l.filter (isData blocktype)).reverse := by
  have hinit : WalkInv blocktype ⟨c, [], [], []⟩ [] l :=
    ⟨by simpa using hc, rfl, by simp, ext4bfDataBatch_pos, rfl⟩
  obtain ⟨s, hwalk, hdone⟩ : ∃ s, dchecksumWalk blocktype (l.length + 1) ⟨c, [], [], []⟩ c.head =
      some s ∧ WalkDone blocktype s l := by
    cases l with
    | nil =>
      -- an empty list: `jh` is `NULL` and the walk stops at once
      refine ⟨⟨c, [], [], []⟩, by simp only [dchecksumWalk, hc.head, List.head?_nil], ?_⟩
      exact ⟨by simpa using hc, rfl, rfl, by simp, by simp, rfl⟩
    | cons x rest =>
      have hhead : c.head = some x := hc.head
      obtain ⟨s, hrun, hdone⟩ := dchecksumWalk_run hinit 1
      exact ⟨s, by rw [hhead]; exact hrun, by simpa using hdone⟩
  obtain ⟨s', hwait, hempty, hrefiled⟩ := waitForData_run hdone.represents
  exact ⟨s, hwalk, hdone, s', hwait, hempty, hrefiled⟩

/-- Three buffers filed in turn by `__blist_add_buffer`, the second of them a data buffer. -/
theorem commit_data_walks_threeBuffers :
    (((Links.mk none id id).add 1).add 2 |>.add 3).Represents [1, 2, 3] ∧
      ∃ s, dchecksumWalk (fun n => if n = 2 then 1 else 0) ([1, 2, 3].length + 1)
          ⟨((Links.mk none id id).add 1).add 2 |>.add 3, [], [], []⟩
          (((Links.mk none id id).add 1).add 2 |>.add 3).head = some s ∧
        WalkDone (fun n => if n = 2 then 1 else 0) s [1, 2, 3] ∧
        ∃ s', waitForData (([1, 2, 3].filter (isData fun n => if n = 2 then 1 else 0)).length + 1)
            s = some s' ∧ s'.list.head = none ∧
          s'.refiled = s.refiled ++ ([1, 2, 3].filter (isData fun n => if n = 2 then 1 else 0)).reverse := by
  have hempty : (Links.mk none id id : Links Nat).Represents [] := ⟨List.nodup_nil, rfl, Links.ring_nil⟩
  have hrep : (((Links.mk none id id).add 1).add 2 |>.add 3).Represents [1, 2, 3] :=
    ((hempty.add (by decide)).add (by decide)).add (by decide)
  exact ⟨hrep, commit_data_walks (fun n => if n = 2 then 1 else 0) hrep⟩

end OptFs.Jbd.DataWalk
