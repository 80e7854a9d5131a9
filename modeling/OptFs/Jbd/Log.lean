import OptFs.Lib.Cyclic

/-!
# Log space (`journal.c`)

The journal is a ring of log blocks `[j_first, j_last)`. The commit code takes blocks at
`j_head` (`jbdbf_journal_next_log_block`), the checkpoint code gives them back by moving
`j_tail` (`jbdbf_cleanup_journal_tail`, modelled with the checkpoint lists), and `j_free`
counts the blocks between the head and the tail that may still be taken.
`jbdbf_journal_next_log_block` asserts `j_free > 1` before it takes one: a failed
`J_ASSERT` stops the kernel, modelled by `none`.

The results here:

* `Log.Wf`: head and tail lie on the ring and `j_free` is the ring size less the blocks
  from the tail to the head;
* `jbdbfJournalNextLogBlock` keeps it and hands out the head, a block that is not between
  the tail and the head (`Log.Wf.nextLogBlock`, `nextLogBlock_not_live`);
* a run of `n` calls succeeds exactly when `j_free > n` (`nextLogBlocks_isSome_iff`).
-/

namespace OptFs.Jbd

open Lib.Cyclic

/-- The log-space fields of `journal_t`. -/
structure Log where
  jFirst : Nat
  jLast : Nat
  jHead : Nat
  jTail : Nat
  jFree : Nat
deriving DecidableEq, Repr

/-- `JBD2_MIN_JOURNAL_BLOCKS`. -/
def jbd2MinJournalBlocks : Nat := 1024

/-- `jbdbf_journal_next_log_block`: hand out `j_head` and step it forward, after
`J_ASSERT(journal->j_free > 1)`. The block map (`jbdbf_journal_bmap`) is left out: the
recovery side maps log positions the same way. -/
def jbdbfJournalNextLogBlock (j : Log) : Option (Log × Nat) :=
  if j.jFree > 1 then
    some ({ j with jHead := next j.jFirst j.jLast j.jHead, jFree := j.jFree - 1 }, j.jHead)
  else none

/-- `journal_reset` on a superblock with `s_first = first` and `s_maxlen = last`: an empty
log with head and tail at `first`; `none` when the journal is shorter than
`JBD2_MIN_JOURNAL_BLOCKS`. -/
def journalReset (first last : Nat) : Option Log :=
  if first + jbd2MinJournalBlocks > last + 1 then none
  else some { jFirst := first, jLast := last, jHead := first, jTail := first,
              jFree := last - first }

/-- `MIN_LOG_RESERVED_BLOCKS`. -/
def minLogReservedBlocks : Int := 32

/-- `__jbdbf_log_space_left`: the free blocks less 32 reserved, less an eighth more for
descriptor blocks, never below zero. -/
def jbdbfLogSpaceLeft (jFree : Int) : Int :=
  let left := jFree - minLogReservedBlocks
  if left ≤ 0 then 0 else left - left / 8

/-- `n` calls of `jbdbf_journal_next_log_block`, with the blocks handed out. -/
def nextLogBlocks (j : Log) : Nat → Option (Log × List Nat)
  | 0 => some (j, [])
  | n + 1 => (jbdbfJournalNextLogBlock j).bind fun r =>
    (nextLogBlocks r.1 n).map fun r' => (r'.1, r.2 :: r'.2)

/-- The ring size `L = j_last - j_first`. -/
def Log.size (j : Log) : Nat := j.jLast - j.jFirst

/-- The live part of the log, from the tail up to the head. -/
def Log.Live (j : Log) (b : Nat) : Prop :=
  Mem j.jFirst j.jLast b ∧ dist j.jFirst j.jLast j.jTail b < dist j.jFirst j.jLast j.jTail j.jHead

/-- The log-space invariant. -/
structure Log.Wf (j : Log) : Prop where
  first_lt_last : j.jFirst < j.jLast
  head_mem : Mem j.jFirst j.jLast j.jHead
  tail_mem : Mem j.jFirst j.jLast j.jTail
  free_eq : j.jFree = j.size - dist j.jFirst j.jLast j.jTail j.jHead

section NextLogBlock

variable {j j' : Log} {b : Nat}

theorem jbdbfJournalNextLogBlock_eq_some :
    jbdbfJournalNextLogBlock j = some (j', b) ↔
      1 < j.jFree ∧ b = j.jHead ∧
        j' = { j with jHead := next j.jFirst j.jLast j.jHead, jFree := j.jFree - 1 } := by
  unfold jbdbfJournalNextLogBlock
  split
  · constructor
    · rintro ⟨⟩
      exact ⟨by assumption, rfl, rfl⟩
    · rintro ⟨_, rfl, rfl⟩
      rfl
  · simp only [reduceCtorEq, false_iff, not_and]
    intro h
    omega

theorem jbdbfJournalNextLogBlock_isSome : (jbdbfJournalNextLogBlock j).isSome ↔ 1 < j.jFree := by
  unfold jbdbfJournalNextLogBlock
  split <;> simp_all

/-- Taking a block keeps the invariant: the free count drops by one as the head moves one
step away from the tail. -/
theorem Log.Wf.nextLogBlock (hj : j.Wf) (h : jbdbfJournalNextLogBlock j = some (j', b)) :
    j'.Wf := by
  obtain ⟨hfree, -, rfl⟩ := jbdbfJournalNextLogBlock_eq_some.mp h
  have hlt := dist_lt hj.tail_mem hj.head_mem
  have hfree' := hj.free_eq
  unfold Log.size at hfree'
  refine ⟨hj.first_lt_last, next_mem hj.head_mem, hj.tail_mem, ?_⟩
  -- the head is at least two steps from closing the circle on the tail
  have hroom : dist j.jFirst j.jLast j.jTail j.jHead + 1 < j.jLast - j.jFirst := by omega
  show j.jFree - 1 = j.jLast - j.jFirst -
    dist j.jFirst j.jLast j.jTail (next j.jFirst j.jLast j.jHead)
  rw [dist_next hj.tail_mem hj.head_mem hroom]
  omega

/-- The block handed out is not live: the head never runs into the tail. -/
theorem nextLogBlock_not_live (h : jbdbfJournalNextLogBlock j = some (j', b)) :
    ¬ j.Live b := by
  obtain ⟨-, rfl, -⟩ := jbdbfJournalNextLogBlock_eq_some.mp h
  intro hl
  exact lt_irrefl _ hl.2

/-- After the call the handed-out block is the newest live one. -/
theorem nextLogBlock_live (hj : j.Wf) (h : jbdbfJournalNextLogBlock j = some (j', b)) :
    j'.Live b := by
  have hj' := hj.nextLogBlock h
  obtain ⟨hfree, rfl, rfl⟩ := jbdbfJournalNextLogBlock_eq_some.mp h
  have hlt := dist_lt hj.tail_mem hj.head_mem
  have hfree' := hj.free_eq
  unfold Log.size at hfree'
  refine ⟨hj.head_mem, ?_⟩
  show dist j.jFirst j.jLast j.jTail j.jHead <
    dist j.jFirst j.jLast j.jTail (next j.jFirst j.jLast j.jHead)
  rw [dist_next hj.tail_mem hj.head_mem (by omega)]
  omega

/-- Taking a block keeps every live block live: the tail stays, the head moves away. -/
theorem Log.Live.nextLogBlock (hj : j.Wf) (h : jbdbfJournalNextLogBlock j = some (j', b))
    {c : Nat} (hc : j.Live c) : j'.Live c := by
  obtain ⟨hfree, -, rfl⟩ := jbdbfJournalNextLogBlock_eq_some.mp h
  have hlt := dist_lt hj.tail_mem hj.head_mem
  have hfree' := hj.free_eq
  unfold Log.size at hfree'
  refine ⟨hc.1, ?_⟩
  show dist j.jFirst j.jLast j.jTail c <
    dist j.jFirst j.jLast j.jTail (next j.jFirst j.jLast j.jHead)
  rw [dist_next hj.tail_mem hj.head_mem (by omega)]
  exact Nat.lt_succ_of_lt hc.2

end NextLogBlock

/-- A run of `n` calls goes through exactly when `j_free` exceeds `n`. -/
theorem nextLogBlocks_isSome_iff (j : Log) (n : Nat) :
    (nextLogBlocks j n).isSome ↔ n = 0 ∨ n < j.jFree := by
  induction n generalizing j with
  | zero => simp [nextLogBlocks]
  | succ n ih =>
    rw [nextLogBlocks]
    cases h : jbdbfJournalNextLogBlock j with
    | none =>
      have hnone := (@jbdbfJournalNextLogBlock_isSome j).not
      rw [h] at hnone
      simp only [Option.isSome_none, Bool.false_eq_true, not_false_eq_true, true_iff,
        not_lt] at hnone
      simp only [Option.bind_none, Option.isSome_none, Bool.false_eq_true, false_iff]
      omega
    | some r =>
      obtain ⟨j', b⟩ := r
      obtain ⟨hfree, -, rfl⟩ := jbdbfJournalNextLogBlock_eq_some.mp h
      rw [Option.bind_some, Option.isSome_map, ih]
      -- the first call takes one free block, the other `n` need the rest
      simp only
      omega

/-- `journal_reset` builds a log that satisfies the invariant. -/
theorem journalReset_wf {first last : Nat} {j : Log} (h : journalReset first last = some j) :
    j.Wf := by
  unfold journalReset at h
  split at h
  · cases h
  · rename_i hlen
    cases h
    unfold jbd2MinJournalBlocks at hlen
    have hlt : first < last := by omega
    exact ⟨hlt, ⟨le_rfl, hlt⟩, ⟨le_rfl, hlt⟩, by simp [Log.size]⟩

end OptFs.Jbd
